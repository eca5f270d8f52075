import Mathlib.Algebra.Order.Group.Multiset
import Mathlib.Logic.Function.Basic
import Hypercomm.Sections.Section

/-! # Localities and their reducers

A locality owns entry ports, the components behind them, and a queue for the values
of ports that are not open. A local contribution creates a reducer, opens a port to
it for each child, and hands it the local value. The reducer completes with the
last of its values: it sends the combined value along and closes its ports.
-/

namespace Hypercomm

/-- A port for the contribution of one child to one reduction. It has the hash of the
section, not the section. -/
structure ReductionPort (ι : Type*) where
  identity : HashCode
  count : ReductionId
  index : ι
  deriving DecidableEq

abbrev ComponentId := ℕ

/-- A value for a reducer: the local values that a contribution combines, or null. -/
abbrev Deliverable (V : Type*) := Option (Multiset V)

inductive Destination (ι κ : Type*) where
  | callback (cb : κ)
  | forward (down : ι) (port : ReductionPort ι)

structure Reducer (α ι V κ : Type*) where
  imprintable : α
  count : ReductionId
  nUstream : ℕ
  ports : List (ReductionPort ι)
  output : Destination ι κ
  devs : List (Deliverable V) := []
  incoming : List (Deliverable V) := []
  active : Bool := false

/-- The result of a reducer on its way, with the stamp of the reducer. -/
structure Contribution (α ι V κ : Type*) where
  imprintable : α
  count : ReductionId
  output : Destination ι κ
  value : Multiset V

structure Locality (α ι V κ : Type*) where
  identities : α → Identity := fun _ => {}
  entryPorts : ReductionPort ι → Option ComponentId := fun _ => none
  components : ComponentId → Option (Reducer α ι V κ) := fun _ => none
  portQueue : ReductionPort ι → List (Deliverable V) := fun _ => []
  componentAuthority : ComponentId := 0

def combine {V : Type*} (devs : List (Deliverable V)) : Multiset V := (devs.filterMap id).sum

@[simp] theorem combine_append {V : Type*} (devs devs' : List (Deliverable V)) :
    combine (devs ++ devs') = combine devs + combine devs' := by
  simp [combine]

@[simp] theorem combine_map_some {V : Type*} (values : List (Multiset V)) :
    combine (values.map some) = values.sum := by
  simp [combine]

@[simp] theorem combine_singleton {V : Type*} (value : Multiset V) :
    combine [some value] = value := by
  simp [combine]

namespace Locality

variable {α ι V κ β : Type*} [DecidableEq α] [DecidableEq ι]

/-- A locality after a call that did not abort, with the results sent meanwhile. -/
abbrev Outcome (α ι V κ : Type*) := Option (Locality α ι V κ × List (Contribution α ι V κ))

def Outcome.andThen (o : Outcome α ι V κ) (f : Locality α ι V κ → Outcome α ι V κ) :
    Outcome α ι V κ :=
  o.bind fun p => (f p.1).map fun q => (q.1, p.2 ++ q.2)

omit [DecidableEq α] [DecidableEq ι] in
theorem Outcome.andThen_of_quiet {o : Outcome α ι V κ} {f : Locality α ι V κ → Outcome α ι V κ}
    {l : Locality α ι V κ} (h : o = some (l, [])) : o.andThen f = f l := by
  simp [Outcome.andThen, h]

def forEach (f : β → Locality α ι V κ → Outcome α ι V κ) :
    List β → Locality α ι V κ → Outcome α ι V κ
  | [], l => some (l, [])
  | b :: bs, l => (f b l).andThen (forEach f bs)

/-- `reducer::action` on a value, and what follows from it: while values are missing
the reducer is suspended, otherwise it sends its result and is collected. -/
def action (l : Locality α ι V κ) (com : ComponentId) (rdcr : Reducer α ι V κ)
    (dev : Deliverable V) : Locality α ι V κ × List (Contribution α ι V κ) :=
  let devs := rdcr.devs ++ [dev]
  if devs.length < rdcr.nUstream then
    ({ l with components := Function.update l.components com (some { rdcr with devs }) }, [])
  else
    ({ l with
        components := Function.update l.components com none
        entryPorts := fun port => if port ∈ rdcr.ports then none else l.entryPorts port },
      [⟨rdcr.imprintable, rdcr.count, rdcr.output, combine devs⟩])

/-- Hand a value to a component, which keeps it until it is active. It is asserted that
the component exists. -/
def passthru (l : Locality α ι V κ) (com : ComponentId) (dev : Deliverable V) :
    Outcome α ι V κ :=
  (l.components com).map fun rdcr =>
    if rdcr.active then l.action com rdcr dev
    else
      let rdcr := { rdcr with incoming := dev :: rdcr.incoming }
      ({ l with components := Function.update l.components com (some rdcr) }, [])

/-- Replay the queue of a port, for as long as the port is open. -/
def resyncPortQueue (com : ComponentId) (port : ReductionPort ι) :
    List (Deliverable V) → Locality α ι V κ → Outcome α ι V κ
  | [], l => some (l, [])
  | dev :: buffer, l =>
      if l.entryPorts port = some com then
        Outcome.andThen (passthru
          { l with portQueue := Function.update l.portQueue port buffer } com dev)
          (resyncPortQueue com port buffer)
      else some (l, [])

/-- Opening a port aborts when an equal port is open. -/
def openPort (com : ComponentId) (port : ReductionPort ι) (l : Locality α ι V κ) :
    Outcome α ι V κ :=
  if (l.entryPorts port).isSome then none
  else resyncPortQueue com port (l.portQueue port)
    { l with entryPorts := Function.update l.entryPorts port (some com) }

/-- Activate a component, which then acts on the values it has kept. There is no
behaviour when it completes before it has used all of them. -/
def activateComponent (l : Locality α ι V κ) (com : ComponentId) : Outcome α ι V κ :=
  (l.components com).bind fun rdcr =>
    let active := { rdcr with active := true, incoming := [] }
    forEach (fun dev l => l.passthru com dev) rdcr.incoming
      { l with components := Function.update l.components com (some active) }

def receive (l : Locality α ι V κ) (port : ReductionPort ι) (dev : Deliverable V) :
    Outcome α ι V κ :=
  match l.entryPorts port with
  | none =>
      let queue := l.portQueue port ++ [dev]
      some ({ l with portQueue := Function.update l.portQueue port queue }, [])
  | some com => l.passthru com dev

/-- The output of the reducer at `mine`. A reducer has only one output. -/
def outputFor (dstream : List ι) (port : ReductionPort ι) (cb : κ) : Option (Destination ι κ) :=
  match dstream with
  | [] => some (.callback cb)
  | [down] => some (.forward down port)
  | _ => none

/-- `vil::local_contribution`, with what it asks the identity for. -/
def localContribution (l : Locality α ι V κ) (which : α) (hash : HashCode) (mine : ι)
    (ustream dstream : List ι) (value : V) (cb : κ) : Outcome α ι V κ :=
  let next := (l.identities which).nextReduction
  let com := l.componentAuthority + 1
  let ports := ustream.map fun up => (⟨hash, next.1, up⟩ : ReductionPort ι)
  (outputFor dstream ⟨hash, next.1, mine⟩ cb).bind fun output =>
    let rdcr : Reducer α ι V κ :=
      { imprintable := which, count := next.1, nUstream := ustream.length + 1, ports, output }
    let l := { l with
      identities := Function.update l.identities which next.2
      componentAuthority := com
      components := Function.update l.components com (some rdcr) }
    ((forEach (openPort com) ports l).andThen (activateComponent · com)).andThen
      (passthru · com (some {value}))

section Spec

variable {l : Locality α ι V κ} {com : ComponentId} {r : Reducer α ι V κ}
variable {port : ReductionPort ι} {ports : List (ReductionPort ι)} {dev : Deliverable V}
variable {devs : List (Deliverable V)}

omit [DecidableEq α] in
theorem passthru_inactive (h : l.components com = some r) (ha : r.active = false) :
    l.passthru com dev = some ({ l with
      components := Function.update l.components com
        (some { r with incoming := dev :: r.incoming }) }, []) := by
  simp [passthru, h, ha]

omit [DecidableEq α] in
theorem passthru_missing (h : l.components com = some r) (ha : r.active = true)
    (hlt : r.devs.length + 1 < r.nUstream) :
    l.passthru com dev = some ({ l with
      components := Function.update l.components com
        (some { r with devs := r.devs ++ [dev] }) }, []) := by
  simp [passthru, h, ha, action, hlt]

omit [DecidableEq α] in
theorem passthru_last (h : l.components com = some r) (ha : r.active = true)
    (hle : r.nUstream ≤ r.devs.length + 1) :
    l.passthru com dev = some ({ l with
      components := Function.update l.components com none
      entryPorts := fun port => if port ∈ r.ports then none else l.entryPorts port },
      [⟨r.imprintable, r.count, r.output, combine (r.devs ++ [dev])⟩]) := by
  simp [passthru, h, ha, action, not_lt.mpr hle]

omit [DecidableEq α] in
/-- The queue of a port ends up in the reducer that the port is opened to. -/
theorem resyncPortQueue_eq (h : l.components com = some r) (ha : r.active = false)
    (hp : l.entryPorts port = some com) (hq : l.portQueue port = devs) :
    resyncPortQueue com port devs l = some ({ l with
      portQueue := Function.update l.portQueue port []
      components := Function.update l.components com
        (some { r with incoming := devs.reverse ++ r.incoming }) }, []) := by
  induction devs generalizing l r with
  | nil =>
    have he : Function.update l.portQueue port [] = l.portQueue := by
      rw [← hq, Function.update_eq_self]
    simp [resyncPortQueue, he, ← h]
  | cons dev devs ih =>
    simp only [resyncPortQueue, hp, if_true]
    refine (Outcome.andThen_of_quiet (passthru_inactive (r := r) ?_ ha)).trans ?_
    · exact h
    refine (ih (r := { r with incoming := dev :: r.incoming }) ?_ ha ?_ ?_).trans ?_ <;> simp [hp]

omit [DecidableEq α] in
theorem openPort_eq (h : l.components com = some r) (ha : r.active = false)
    (hp : l.entryPorts port = none) :
    openPort com port l = some ({ l with
      entryPorts := Function.update l.entryPorts port (some com)
      portQueue := Function.update l.portQueue port []
      components := Function.update l.components com
        (some { r with incoming := (l.portQueue port).reverse ++ r.incoming }) }, []) := by
  simp only [openPort, hp, Option.isSome_none, Bool.false_eq_true, if_false]
  exact resyncPortQueue_eq h ha (Function.update_self ..) rfl

omit [DecidableEq α] in
theorem forEach_openPort (h : l.components com = some r) (ha : r.active = false)
    (hnd : ports.Nodup) (hp : ∀ port ∈ ports, l.entryPorts port = none) :
    forEach (openPort com) ports l = some ({ l with
      entryPorts := fun port => if port ∈ ports then some com else l.entryPorts port
      portQueue := fun port => if port ∈ ports then [] else l.portQueue port
      components := Function.update l.components com (some { r with
        incoming := (ports.flatMap l.portQueue).reverse ++ r.incoming }) }, []) := by
  induction ports generalizing l r with
  | nil => simp [forEach, ← h]
  | cons port ports ih =>
    obtain ⟨hmem, hnd⟩ := List.nodup_cons.mp hnd
    have hne : ∀ port' ∈ ports, port' ≠ port := fun _ h' he => hmem (he ▸ h')
    refine (Outcome.andThen_of_quiet (openPort_eq h ha (hp port (by simp)))).trans ?_
    refine (ih (r := { r with incoming := (l.portQueue port).reverse ++ r.incoming })
      (by simp) ha hnd (fun port' h' => by simp [hne port' h', hp port' (by simp [h'])])).trans ?_
    have hqueue : ports.flatMap (Function.update l.portQueue port []) =
        ports.flatMap l.portQueue := by
      refine List.flatMap_congr fun port' h' => ?_
      simp [hne port' h']
    simp only [hqueue, Function.update_idem, Option.some.injEq, Prod.mk.injEq, and_true]
    congr 1
    · funext port'
      by_cases h1 : port' = port <;> by_cases h2 : port' ∈ ports <;>
        simp [h1, h2, hmem]
    · simp
    · funext port'
      by_cases h1 : port' = port <;> by_cases h2 : port' ∈ ports <;>
        simp [h1, h2, hmem]

omit [DecidableEq α] in
theorem forEach_passthru (h : l.components com = some r) (ha : r.active = true)
    (hlt : r.devs.length + devs.length < r.nUstream) :
    forEach (fun dev l => l.passthru com dev) devs l = some ({ l with
      components := Function.update l.components com
        (some { r with devs := r.devs ++ devs }) }, []) := by
  induction devs generalizing l r with
  | nil => simp [forEach, ← h]
  | cons dev devs ih =>
    have hlt' : r.devs.length + 1 < r.nUstream := by simp at hlt; omega
    refine (Outcome.andThen_of_quiet (passthru_missing h ha hlt')).trans ?_
    refine (ih (r := { r with devs := r.devs ++ [dev] }) (by simp) ha ?_).trans ?_
    · simp at hlt ⊢; omega
    · simp

/-- What a local contribution leaves behind before it hands over the local value. -/
theorem localContribution_eq (which : α) (value : V) {hash : HashCode} {mine : ι}
    {ustream dstream : List ι} {cb : κ} {output : Destination ι κ}
    (ho : outputFor dstream ⟨hash, (l.identities which).rednCount, mine⟩ cb = some output)
    (hports : ports =
      ustream.map fun up => (⟨hash, (l.identities which).rednCount, up⟩ : ReductionPort ι))
    (hnd : ustream.Nodup) (hp : ∀ port ∈ ports, l.entryPorts port = none)
    (hdevs : devs = (ports.flatMap l.portQueue).reverse) (hlen : devs.length ≤ ustream.length) :
    l.localContribution which hash mine ustream dstream value cb =
      passthru { l with
        identities := Function.update l.identities which
          { l.identities which with rednCount := (l.identities which).rednCount + 1 }
        componentAuthority := l.componentAuthority + 1
        entryPorts := fun port =>
          if port ∈ ports then some (l.componentAuthority + 1) else l.entryPorts port
        portQueue := fun port => if port ∈ ports then [] else l.portQueue port
        components := Function.update l.components (l.componentAuthority + 1) (some
          ⟨which, (l.identities which).rednCount, ustream.length + 1, ports, output, devs, [],
            true⟩) }
        (l.componentAuthority + 1) (some {value}) := by
  have hnd' : ports.Nodup := by
    rw [hports]
    exact hnd.map fun a b h => (ReductionPort.mk.inj h).2.2
  simp only [localContribution, Identity.nextReduction, ho, Option.bind_some, ← hports]
  refine Outcome.andThen_of_quiet ?_
  refine (Outcome.andThen_of_quiet (forEach_openPort (r := ⟨which, (l.identities which).rednCount,
    ustream.length + 1, ports, output, [], [], false⟩) ?_ rfl hnd' ?_)).trans ?_
  · exact Function.update_self ..
  · exact hp
  simp only [activateComponent, Function.update_self, Option.bind_some, List.append_nil, ← hdevs]
  refine (forEach_passthru (r := ⟨which, (l.identities which).rednCount,
    ustream.length + 1, ports, output, [], [], true⟩) ?_ rfl ?_).trans ?_
  · exact Function.update_self ..
  · simp; omega
  · simp

end Spec

end Locality

end Hypercomm
