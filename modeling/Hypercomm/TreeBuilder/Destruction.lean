import Mathlib.Data.List.ReduceOption
import Hypercomm.Core.Locality
import Hypercomm.Transition.Run
import Hypercomm.Tree.Rooted

/-! # The destruction of elements

An element of a managed array can be destroyed while no reducer of it is under way. Its parent is
told to replace it by its children from the first reduction on that it took no part in, and the
messages of these children go on to the parent. Elements create children, which take part in the
reductions after those that their parent has issued. Reductions go on at all elements meanwhile,
and the messages arrive in any order.
-/

namespace Hypercomm.TreeBuilder.Destruction

variable {σ γ β ι V κ : Type*}

/-- A state after a call that did not abort, with what was sent meanwhile. -/
abbrev Outcome (σ γ : Type*) := Option (σ × List γ)

def Outcome.andThen (o : Outcome σ γ) (f : σ → Outcome σ γ) : Outcome σ γ :=
  o.bind fun p => (f p.1).map fun q => (q.1, p.2 ++ q.2)

def forEach (f : β → σ → Outcome σ γ) : List β → σ → Outcome σ γ
  | [], s => some (s, [])
  | b :: bs, s => (f b s).andThen (forEach f bs)

/-- Where a reducer sends its result: to the callback, or to the port for the element at its parent.
-/
inductive Output (ι κ : Type*) where
  | callback (cb : κ)
  | forward (upstream : ι)

/-- A reducer with the indices of its open ports. A value is kept with the index of its port, or of
the element itself. -/
structure Reducer (ι V κ : Type*) where
  nUstream : ℕ
  output : Output ι κ
  ports : List ι := []
  devs : List (ι × Deliverable V) := []
  incoming : List (ι × Deliverable V) := []
  active : Bool := false

abbrev Result (ι V κ : Type*) := Output ι κ × Multiset V

/-- The reducer of one reduction while it is under way, and the queues of the ports that belong to
the reduction. -/
structure Slot (ι V κ : Type*) where
  rdcr : Option (Reducer ι V κ) := none
  portQueue : ι → List (Multiset V) := fun _ => []

/-- A child that was destroyed, what replaces it, and the first reduction that it took no part in.
-/
structure Event (ι : Type*) where
  from_ : ι
  to_ : List ι
  stamp : ReductionId
  deriving DecidableEq

/-- What is staged: a deletion, or the replacement by one child. -/
structure Transaction (ι : Type*) where
  from_ : ι
  to_ : Option ι
  stamp : ReductionId

def Event.transaction (e : Event ι) : Transaction ι := ⟨e.from_, e.to_.head?, e.stamp⟩

/-- The result of an element in one reduction. -/
structure Contribution (ι V κ : Type*) where
  count : ReductionId
  output : Output ι κ
  value : Multiset V

structure Element (ι V κ : Type*) where
  rednCount : ReductionId := 0
  upstream : Option ι
  downstream : List ι
  staged : List (Transaction ι) := []
  slots : ReductionId → Slot ι V κ := fun _ => {}

inductive Body (ι V : Type*) where
  | contribution (count : ReductionId) (index : ι) (value : Multiset V)
  | replaceDownstream (event : Event ι)
  deriving DecidableEq

structure Message (ι V : Type*) where
  dest : ι
  body : Body ι V
  deriving DecidableEq

namespace Slot

/-- `reducer::action` on a value. With its last value the reducer sends its result and is collected,
which closes its ports. -/
def action (s : Slot ι V κ) (r : Reducer ι V κ) (dev : ι × Deliverable V) :
    Slot ι V κ × List (Result ι V κ) :=
  let devs := r.devs ++ [dev]
  if devs.length < r.nUstream then ({ s with rdcr := some { r with devs } }, [])
  else ({ s with rdcr := none }, [(r.output, combine (devs.map Prod.snd))])

/-- Hand a value to the reducer, which keeps it until it is active. It is asserted that the reducer
exists. -/
def passthru (s : Slot ι V κ) (dev : ι × Deliverable V) : Outcome (Slot ι V κ) (Result ι V κ) :=
  s.rdcr.map fun r =>
    if r.active then s.action r dev
    else ({ s with rdcr := some { r with incoming := dev :: r.incoming } }, [])

def activate (s : Slot ι V κ) : Outcome (Slot ι V κ) (Result ι V κ) :=
  s.rdcr.bind fun r => forEach (fun dev slot => slot.passthru dev) r.incoming
    { s with rdcr := some { r with active := true, incoming := [] } }

/-- What becomes of a reducer that has been handed values: with all of them it is complete. -/
def settle (s : Slot ι V κ) : Slot ι V κ × List (Result ι V κ) :=
  match s.rdcr with
  | none => (s, [])
  | some r =>
      if r.devs.length < r.nUstream then (s, [])
      else ({ s with rdcr := none }, [(r.output, combine (r.devs.map Prod.snd))])

variable [DecidableEq ι]

def flush (idx : ι) (s : Slot ι V κ) : Slot ι V κ :=
  match s.rdcr with
  | none => s
  | some r => { s with
      rdcr := some { r with devs := r.devs ++ (s.portQueue idx).map fun v => (idx, some v) }
      portQueue := Function.update s.portQueue idx [] }

def isOpen (s : Slot ι V κ) (idx : ι) : Bool := s.rdcr.any fun r => decide (idx ∈ r.ports)

/-- Replay the queue of a port that was opened. A value that completes the reducer erases the entry
of the port, which is read next. -/
def resyncPortQueue (idx : ι) :
    List (Multiset V) → Slot ι V κ → Outcome (Slot ι V κ) (Result ι V κ)
  | [], s => some (s, [])
  | value :: buffer, s =>
      (passthru { s with portQueue := Function.update s.portQueue idx buffer }
        (idx, some value)).andThen fun s =>
          if s.isOpen idx then resyncPortQueue idx buffer s else none

def openPort (idx : ι) (s : Slot ι V κ) : Outcome (Slot ι V κ) (Result ι V κ) :=
  s.rdcr.bind fun r =>
    if idx ∈ r.ports then none
    else resyncPortQueue idx (s.portQueue idx)
      { s with rdcr := some { r with ports := r.ports ++ [idx] } }

def receive (idx : ι) (value : Multiset V) (s : Slot ι V κ) : Outcome (Slot ι V κ) (Result ι V κ) :=
  if s.isOpen idx then s.passthru (idx, some value)
  else
    let queue := s.portQueue idx ++ [value]
    some ({ s with portQueue := Function.update s.portQueue idx queue }, [])

/-- `vil::local_contribution`, once the number of the reduction is taken. -/
def contribute (mine : ι) (ustream : List ι) (output : Output ι κ) (value : V) (s : Slot ι V κ) :
    Outcome (Slot ι V κ) (Result ι V κ) :=
  ((forEach openPort ustream
    { s with rdcr := some { nUstream := ustream.length + 1, output } }).andThen activate).andThen
      (passthru · (mine, some {value}))

/-- A reducer waits for one more child. -/
def addDownstream (idx : ι) (s : Slot ι V κ) : Outcome (Slot ι V κ) (Result ι V κ) :=
  match s.rdcr with
  | none => some (s, [])
  | some r => openPort idx { s with rdcr := some { r with nUstream := r.nUstream + 1 } }

/-- `affect_ports`, at the ports of one reducer. A port that is reopened for another child goes on
to the same reducer, and a deletion sends it null. -/
def affectPorts (t : Transaction ι) (s : Slot ι V κ) : Outcome (Slot ι V κ) (Result ι V κ) :=
  match s.rdcr with
  | none => some (s, [])
  | some r =>
      if t.from_ ∈ r.ports then
        match t.to_ with
        | none => s.passthru (t.from_, none)
        | some next =>
            openPort next { s with rdcr := some { r with ports := r.ports.erase t.from_ } }
      else some (s, [])

section Spec

variable {s : Slot ι V κ} {r : Reducer ι V κ} {idx : ι} {dev : ι × Deliverable V}
variable {devs : List (ι × Deliverable V)} {values : List (Multiset V)}

omit [DecidableEq ι] in
theorem passthru_active (h : s.rdcr = some r) (ha : r.active = true) :
    s.passthru dev = some (settle { s with rdcr := some { r with devs := r.devs ++ [dev] } }) := by
  rw [passthru, h, Option.map_some, if_pos ha]
  unfold action settle
  rfl

omit [DecidableEq ι] in
theorem passthru_inactive (h : s.rdcr = some r) (ha : r.active = false) :
    s.passthru dev = some
      ({ s with rdcr := some { r with incoming := dev :: r.incoming } }, []) := by
  simp [passthru, h, ha]

omit [DecidableEq ι] in
theorem settle_of_missing (h : s.rdcr = some r) (hlt : r.devs.length < r.nUstream) :
    s.settle = (s, []) := by
  simp [settle, h, hlt]

omit [DecidableEq ι] in
theorem settle_of_complete (h : s.rdcr = some r) (hle : r.nUstream ≤ r.devs.length) :
    s.settle = ({ s with rdcr := none }, [(r.output, combine (r.devs.map Prod.snd))]) := by
  simp [settle, h, not_lt.mpr hle]

/-- A port is opened to an active reducer, which misses more than the value that waits. -/
theorem openPort_eq (h : s.rdcr = some r) (ha : r.active = true) (hi : idx ∉ r.ports)
    (hlt : r.devs.length < r.nUstream) (hq : (s.portQueue idx).length ≤ 1)
    (hl : s.portQueue idx = [] ∨ r.devs.length + 1 < r.nUstream) :
    s.openPort idx =
      some (settle (flush idx { s with rdcr := some { r with ports := r.ports ++ [idx] } })) := by
  unfold openPort
  rw [h, Option.bind_some, if_neg hi]
  match hqueue : s.portQueue idx with
  | [] =>
    have hs : settle (flush idx { s with rdcr := some { r with ports := r.ports ++ [idx] } }) =
        ({ s with
          rdcr := some { r with ports := r.ports ++ [idx] }
          portQueue := Function.update s.portQueue idx [] }, []) := by
      simp [flush, settle, hqueue, hlt]
    rw [hs, ← hqueue, Function.update_eq_self, hqueue]
    rfl
  | [value] =>
    have hlt := hl.resolve_left (by rw [hqueue]; exact List.cons_ne_nil _ _)
    unfold resyncPortQueue
    rw [passthru_active (r := { r with ports := r.ports ++ [idx] }) rfl ha]
    simp [flush, hqueue, settle, hlt, Outcome.andThen, resyncPortQueue, isOpen]
  | _ :: _ :: _ => simp [hqueue] at hq

theorem resyncPortQueue_inactive (h : s.rdcr = some r) (ha : r.active = false)
    (hi : idx ∈ r.ports) (hq : s.portQueue idx = values) :
    resyncPortQueue idx values s = some ({ s with
      rdcr := some { r with
        incoming := (values.map fun v => (idx, some v)).reverse ++ r.incoming }
      portQueue := Function.update s.portQueue idx [] }, []) := by
  induction values generalizing s r with
  | nil =>
    have he : Function.update s.portQueue idx [] = s.portQueue := by
      rw [← hq, Function.update_eq_self]
    simp [resyncPortQueue, he, ← h]
  | cons v values ih =>
    unfold resyncPortQueue
    rw [passthru_inactive (r := r) (by exact h) ha]
    unfold Outcome.andThen
    rw [Option.bind_some]
    dsimp only
    rw [if_pos (by simp [isOpen, hi]),
      ih (r := { r with incoming := (idx, some v) :: r.incoming }) rfl ha hi]
    · simp
    · simp

theorem openPort_inactive (h : s.rdcr = some r) (ha : r.active = false) (hi : idx ∉ r.ports) :
    s.openPort idx = some ({ s with
      rdcr := some { r with
        ports := r.ports ++ [idx]
        incoming := ((s.portQueue idx).map fun v => (idx, some v)).reverse ++ r.incoming }
      portQueue := Function.update s.portQueue idx [] }, []) := by
  unfold openPort
  rw [h, Option.bind_some, if_neg hi]
  exact resyncPortQueue_inactive (r := { r with ports := r.ports ++ [idx] }) rfl ha (by simp) rfl

def queued (portQueue : ι → List (Multiset V)) (ports : List ι) : List (ι × Deliverable V) :=
  ports.flatMap fun idx => (portQueue idx).map fun v => (idx, some v)

theorem queued_update {ports : List ι} {portQueue : ι → List (Multiset V)} (h : idx ∉ ports) :
    queued (Function.update portQueue idx []) ports = queued portQueue ports := by
  refine List.flatMap_congr fun i hi => ?_
  have hne : i ≠ idx := fun he => h (he ▸ hi)
  simp [hne]

theorem queues_update (ports : List ι) (portQueue : ι → List (Multiset V)) :
    (fun i => if i ∈ ports then [] else Function.update portQueue idx [] i) =
      fun i => if i ∈ idx :: ports then [] else portQueue i := by
  funext i
  by_cases h1 : i = idx <;> by_cases h2 : i ∈ ports <;> simp [h1, h2]

omit [DecidableEq ι] in
theorem queued_cons (ports : List ι) (portQueue : ι → List (Multiset V)) :
    queued portQueue (idx :: ports) =
      (portQueue idx).map (fun v => (idx, some v)) ++ queued portQueue ports := rfl

theorem forEach_openPort (ports : List ι) (h : s.rdcr = some r) (ha : r.active = false)
    (hnd : ports.Nodup) (hi : ∀ idx ∈ ports, idx ∉ r.ports) :
    forEach openPort ports s = some ({ s with
      rdcr := some { r with
        ports := r.ports ++ ports
        incoming := (queued s.portQueue ports).reverse ++ r.incoming }
      portQueue := fun idx => if idx ∈ ports then [] else s.portQueue idx }, []) := by
  induction ports generalizing s r with
  | nil => simp [forEach, queued, ← h]
  | cons idx ports ih =>
    obtain ⟨hmem, hnd⟩ := List.nodup_cons.mp hnd
    unfold forEach Outcome.andThen
    rw [openPort_inactive h ha (hi idx List.mem_cons_self), Option.bind_some,
      ih (r := { r with
        ports := r.ports ++ [idx]
        incoming := ((s.portQueue idx).map fun v => (idx, some v)).reverse ++ r.incoming })
        rfl ha hnd]
    · simp [queued_update hmem, queues_update, queued_cons]
    · intro i hidx hmem'
      rcases List.mem_append.mp hmem' with hr | hr
      · exact hi i (List.mem_cons_of_mem _ hidx) hr
      · exact hmem (List.mem_singleton.mp hr ▸ hidx)

omit [DecidableEq ι] in
theorem forEach_passthru (h : s.rdcr = some r) (ha : r.active = true)
    (hlt : r.devs.length + devs.length < r.nUstream) :
    forEach (fun dev slot => passthru slot dev) devs s =
      some ({ s with rdcr := some { r with devs := r.devs ++ devs } }, []) := by
  induction devs generalizing s r with
  | nil => simp [forEach, ← h]
  | cons dev devs ih =>
    rw [List.length_cons] at hlt
    have hlt' : (r.devs ++ [dev]).length < r.nUstream := by
      rw [List.length_append, List.length_singleton]
      omega
    unfold forEach Outcome.andThen
    rw [passthru_active h ha, settle_of_missing rfl hlt', Option.bind_some,
      ih (r := { r with devs := r.devs ++ [dev] }) rfl ha]
    · simp
    · dsimp only
      rw [List.length_append, List.length_singleton]
      omega

theorem contribute_eq (mine : ι) (ustream : List ι) (output : Output ι κ) (value : V)
    (hnd : ustream.Nodup) (hq : (queued s.portQueue ustream).length ≤ ustream.length) :
    s.contribute mine ustream output value = some (settle { s with
      rdcr := some {
        nUstream := ustream.length + 1
        output
        ports := ustream
        devs := (queued s.portQueue ustream).reverse ++ [(mine, some {value})]
        active := true }
      portQueue := fun idx => if idx ∈ ustream then [] else s.portQueue idx }) := by
  unfold contribute Outcome.andThen
  rw [forEach_openPort ustream rfl rfl hnd fun _ _ => List.not_mem_nil]
  simp only [Option.bind_some, activate, List.append_nil, List.nil_append]
  rw [forEach_passthru rfl rfl (by simpa using Nat.lt_succ_of_le hq)]
  simp only [Option.bind_some, Option.map_some, List.nil_append]
  rw [passthru_active rfl rfl]
  rfl

theorem addDownstream_eq (hq : (s.portQueue idx).length ≤ 1)
    (h : ∀ r, s.rdcr = some r → r.active = true ∧ r.devs.length < r.nUstream ∧ idx ∉ r.ports) :
    s.addDownstream idx = some (settle (flush idx { s with
      rdcr := s.rdcr.map fun r =>
        { r with nUstream := r.nUstream + 1, ports := r.ports ++ [idx] } })) := by
  unfold addDownstream
  cases hs : s.rdcr with
  | none =>
    obtain ⟨rdcr, portQueue⟩ := s
    obtain rfl : rdcr = none := hs
    rfl
  | some r =>
    obtain ⟨ha, hlt, hi⟩ := h r hs
    dsimp only
    rw [openPort_eq (r := { r with nUstream := r.nUstream + 1 }) rfl ha hi]
    · rfl
    · exact Nat.lt_succ_of_lt hlt
    · exact hq
    · exact .inr (Nat.succ_lt_succ hlt)

theorem affectPorts_delete {child : ι} {stamp : ReductionId}
    (h : ∀ r, s.rdcr = some r → r.active = true ∧ r.devs.length < r.nUstream ∧ child ∈ r.ports) :
    s.affectPorts ⟨child, none, stamp⟩ = some (settle { s with
      rdcr := s.rdcr.map fun r => { r with devs := r.devs ++ [(child, none)] } }) := by
  unfold affectPorts
  cases hs : s.rdcr with
  | none =>
    obtain ⟨rdcr, portQueue⟩ := s
    obtain rfl : rdcr = none := hs
    rfl
  | some r =>
    obtain ⟨ha, -, hi⟩ := h r hs
    dsimp only
    rw [if_pos hi, passthru_active hs ha]
    rfl

theorem affectPorts_replace {child next : ι} {stamp : ReductionId}
    (hq : (s.portQueue next).length ≤ 1)
    (h : ∀ r, s.rdcr = some r → r.active = true ∧ r.devs.length < r.nUstream ∧ child ∈ r.ports ∧
      next ∉ r.ports)
    (hl : ∀ r, s.rdcr = some r → s.portQueue next = [] ∨ r.devs.length + 1 < r.nUstream) :
    s.affectPorts ⟨child, some next, stamp⟩ = some (settle (flush next { s with
      rdcr := s.rdcr.map fun r => { r with ports := r.ports.erase child ++ [next] } })) := by
  unfold affectPorts
  cases hs : s.rdcr with
  | none =>
    obtain ⟨rdcr, portQueue⟩ := s
    obtain rfl : rdcr = none := hs
    rfl
  | some r =>
    obtain ⟨ha, hlt, hi, hn⟩ := h r hs
    dsimp only
    rw [if_pos hi, openPort_eq (r := { r with ports := r.ports.erase child }) rfl ha]
    · rfl
    · exact fun hmem => hn (List.mem_of_mem_erase hmem)
    · exact hlt
    · exact hq
    · exact hl r hs

end Spec

end Slot

namespace Element

def atSlot (f : Slot ι V κ → Outcome (Slot ι V κ) (Result ι V κ)) (count : ReductionId)
    (e : Element ι V κ) : Outcome (Element ι V κ) (Contribution ι V κ) :=
  (f (e.slots count)).map fun p =>
    ({ e with slots := Function.update e.slots count p.1 },
      p.2.map fun r => ⟨count, r.1, r.2⟩)

def affectedBy (e : Element ι V κ) (stamp : ReductionId) : List ReductionId :=
  (List.range e.rednCount).filter fun count => stamp ≤ count

def output (e : Element ι V κ) (cb : κ) : Output ι κ :=
  match e.upstream with
  | none => .callback cb
  | some up => .forward up

variable [DecidableEq ι]

def localContribution (e : Element ι V κ) (mine : ι) (value : V) (cb : κ) :
    Outcome (Element ι V κ) (Contribution ι V κ) :=
  atSlot (Slot.contribute mine e.downstream (e.output cb) value) e.rednCount
    { e with rednCount := e.rednCount + 1 }

def addDownstream (stamp : ReductionId) (idx : ι) (e : Element ι V κ) :
    Outcome (Element ι V κ) (Contribution ι V κ) :=
  forEach (atSlot (Slot.addDownstream idx)) (e.affectedBy stamp)
    { e with downstream := e.downstream ++ [idx] }

/-- Apply a staged transaction to a child that is known. -/
def resolve (t : Transaction ι) (e : Element ι V κ) :
    Outcome (Element ι V κ) (Contribution ι V κ) :=
  forEach (atSlot (Slot.affectPorts t)) (e.affectedBy t.stamp)
    { e with
      downstream := match t.to_ with
        | none => e.downstream.erase t.from_
        | some next => e.downstream.replace t.from_ next }

def resolveRounds : ℕ → Element ι V κ → Outcome (Element ι V κ) (Contribution ι V κ)
  | 0, e => some (e, [])
  | n + 1, e =>
      match e.staged.findFinIdx? fun t => decide (t.from_ ∈ e.downstream) with
      | none => some (e, [])
      | some i => (resolve (e.staged.get i) e).andThen fun u =>
          resolveRounds n { u with staged := e.staged.eraseIdx i }

def resolveTransactions (e : Element ι V κ) : Outcome (Element ι V κ) (Contribution ι V κ) :=
  resolveRounds e.staged.length e

/-- The children from the second on are added directly, then the first replaces the child. -/
def replaceDownstream (event : Event ι) (e : Element ι V κ) :
    Outcome (Element ι V κ) (Contribution ι V κ) :=
  (forEach (addDownstream event.stamp) event.to_.tail e).andThen fun e =>
    resolveTransactions { e with staged := e.staged ++ [event.transaction] }

def receive (e : Element ι V κ) : Body ι V → Outcome (Element ι V κ) (Contribution ι V κ)
  | .contribution count index value => atSlot (Slot.receive index value) count e
  | .replaceDownstream event => e.replaceDownstream event

end Element

/-- The indices of all elements that there have been, the elements, whose indices are forwarded to
whom, the messages in flight, and the results that were handed to a callback. -/
structure System (ι V κ : Type*) where
  members : List ι
  elements : ι → Element ι V κ
  alive : ι → Bool
  forwards : ι → Option ι
  inFlight : Multiset (Message ι V)
  called : List (ReductionId × κ × Multiset V)

/-- An element contributes, creates a child or is destroyed, a message arrives or is forwarded, or a
value leaves the port queue of an element that was destroyed. -/
inductive Action (ι V κ : Type*) where
  | contribute (x : ι) (value : V) (cb : κ)
  | create (x child : ι)
  | destroy (x : ι)
  | deliver (m : Message ι V)
  | redirect (m : Message ι V)
  | loopback (x : ι) (count : ReductionId) (index : ι) (value : Multiset V)

namespace System

variable [DecidableEq ι]

def start (T : RankedTree ι) : System ι V κ where
  members := T.nodes
  elements x := { upstream := T.parent x, downstream := T.children x }
  alive x := decide (x ∈ T.nodes)
  forwards _ := none
  inFlight := 0
  called := []

def send (mine : ι) (s : System ι V κ) (c : Contribution ι V κ) : System ι V κ :=
  match c.output with
  | .callback cb => { s with called := s.called ++ [(c.count, cb, c.value)] }
  | .forward up =>
      { s with inFlight := ⟨up, .contribution c.count mine c.value⟩ ::ₘ s.inFlight }

def commit (s : System ι V κ) (x : ι) (o : Element ι V κ × List (Contribution ι V κ)) :
    System ι V κ :=
  o.2.foldl (send x) { s with elements := Function.update s.elements x o.1 }

/-- `tree_builder::create_child`, with the element that is constructed from its result. -/
def createChild (s : System ι V κ) (x child : ι) : System ι V κ :=
  let e := s.elements x
  { s with
    members := s.members ++ [child]
    elements := Function.update
      (Function.update s.elements x { e with downstream := e.downstream ++ [child] }) child
      { rednCount := e.rednCount, upstream := some x, downstream := [] }
    alive := Function.update s.alive child true }

/-- `tree_builder::disassociate`, for an element with a parent. -/
def disassociate (s : System ι V κ) (x parent : ι) : System ι V κ :=
  let e := s.elements x
  { s with
    alive := Function.update s.alive x false
    inFlight := ⟨parent, .replaceDownstream ⟨x, e.downstream, e.rednCount⟩⟩ ::ₘ s.inFlight
    forwards := if e.downstream = [] then s.forwards
      else Function.update s.forwards x (some parent) }

/-- Put the first value of a port queue in flight, to the element itself. -/
def loopback (s : System ι V κ) (x : ι) (count : ReductionId) (index : ι) (value : Multiset V)
    (buffer : List (Multiset V)) : System ι V κ :=
  let e := s.elements x
  let slot := e.slots count
  { s with
    elements := Function.update s.elements x { e with
      slots := Function.update e.slots count { slot with
        portQueue := Function.update slot.portQueue index buffer } }
    inFlight := ⟨x, .contribution count index value⟩ ::ₘ s.inFlight }

inductive Step (s : System ι V κ) : Action ι V κ → System ι V κ → Prop
  | contribute {x : ι} {value : V} {cb : κ} {o : Element ι V κ × List (Contribution ι V κ)}
      (hx : s.alive x) (ho : (s.elements x).localContribution x value cb = some o) :
      Step s (.contribute x value cb) (s.commit x o)
  | create {x child : ι} (hx : s.alive x) (hc : child ∉ s.members) :
      Step s (.create x child) (s.createChild x child)
  | destroy {x parent : ι} (hx : s.alive x) (hup : (s.elements x).upstream = some parent)
      (hidle : ∀ count < (s.elements x).rednCount, ((s.elements x).slots count).rdcr = none) :
      Step s (.destroy x) (s.disassociate x parent)
  | deliver {m : Message ι V} {rest : Multiset (Message ι V)}
      {o : Element ι V κ × List (Contribution ι V κ)} (hm : s.inFlight = m ::ₘ rest)
      (hx : s.alive m.dest) (ho : (s.elements m.dest).receive m.body = some o) :
      Step s (.deliver m) (({ s with inFlight := rest } : System ι V κ).commit m.dest o)
  | redirect {m : Message ι V} {rest : Multiset (Message ι V)} {next : ι}
      (hm : s.inFlight = m ::ₘ rest) (hf : s.forwards m.dest = some next) :
      Step s (.redirect m) { s with inFlight := ⟨next, m.body⟩ ::ₘ rest }
  | loopback {x : ι} {count : ReductionId} {index : ι} {value : Multiset V}
      {buffer : List (Multiset V)} (hx : ¬ s.alive x)
      (hq : ((s.elements x).slots count).portQueue index = value :: buffer) :
      Step s (.loopback x count index value) (s.loopback x count index value buffer)

def perform [DecidableEq V] (s : System ι V κ) : Action ι V κ → Option (System ι V κ)
  | .contribute x value cb =>
      if s.alive x then ((s.elements x).localContribution x value cb).map (s.commit x) else none
  | .create x child =>
      if s.alive x ∧ child ∉ s.members then some (s.createChild x child) else none
  | .destroy x =>
      (s.elements x).upstream.bind fun parent =>
        if s.alive x ∧ ∀ count < (s.elements x).rednCount,
          ((s.elements x).slots count).rdcr.isNone then some (s.disassociate x parent) else none
  | .deliver m =>
      if m ∈ s.inFlight ∧ s.alive m.dest then
        ((s.elements m.dest).receive m.body).map
          (({ s with inFlight := s.inFlight.erase m } : System ι V κ).commit m.dest)
      else none
  | .redirect m =>
      (s.forwards m.dest).bind fun next =>
        if m ∈ s.inFlight then some { s with inFlight := ⟨next, m.body⟩ ::ₘ s.inFlight.erase m }
        else none
  | .loopback x count index value =>
      let queue := ((s.elements x).slots count).portQueue index
      if ¬ s.alive x ∧ queue.head? = some value then
        some (s.loopback x count index value queue.tail)
      else none

theorem Step.of_perform [DecidableEq V] {s t : System ι V κ} {a : Action ι V κ}
    (h : s.perform a = some t) : Step s a t := by
  cases a with
  | contribute x value cb =>
    obtain ⟨hx, h⟩ := Option.ite_none_right_eq_some.mp h
    obtain ⟨o, ho, rfl⟩ := Option.map_eq_some_iff.mp h
    exact .contribute hx ho
  | create x child =>
    obtain ⟨⟨hx, hc⟩, h⟩ := Option.ite_none_right_eq_some.mp h
    obtain rfl := Option.some.inj h
    exact .create hx hc
  | destroy x =>
    obtain ⟨parent, hup, h⟩ := Option.bind_eq_some_iff.mp h
    obtain ⟨⟨hx, hidle⟩, h⟩ := Option.ite_none_right_eq_some.mp h
    obtain rfl := Option.some.inj h
    exact .destroy hx hup fun count hc => Option.isNone_iff_eq_none.mp (hidle count hc)
  | deliver m =>
    obtain ⟨⟨hm, hx⟩, h⟩ := Option.ite_none_right_eq_some.mp h
    obtain ⟨o, ho, rfl⟩ := Option.map_eq_some_iff.mp h
    exact .deliver (Multiset.cons_erase hm).symm hx ho
  | redirect m =>
    obtain ⟨next, hf, h⟩ := Option.bind_eq_some_iff.mp h
    obtain ⟨hm, h⟩ := Option.ite_none_right_eq_some.mp h
    obtain rfl := Option.some.inj h
    exact .redirect (Multiset.cons_erase hm).symm hf
  | loopback x count index value =>
    obtain ⟨⟨hx, hq⟩, h⟩ := Option.ite_none_right_eq_some.mp h
    obtain rfl := Option.some.inj h
    obtain ⟨buffer, hq⟩ := List.head?_eq_some_iff.mp hq
    rw [hq, List.tail_cons]
    exact .loopback hx hq

def Aborts (s : System ι V κ) : Action ι V κ → Prop
  | .contribute x value cb => s.alive x ∧ (s.elements x).localContribution x value cb = none
  | .deliver m => m ∈ s.inFlight ∧ s.alive m.dest ∧ (s.elements m.dest).receive m.body = none
  | _ => False

end System

/-- What is known once the staged transactions are resolved. -/
inductive Known (downstream : List ι) (staged : List (Transaction ι)) : ι → Prop
  | child {i : ι} : i ∈ downstream → Known downstream staged i
  | next {t : Transaction ι} {i : ι} : t ∈ staged → Known downstream staged t.from_ →
      t.to_ = some i → Known downstream staged i

/-- No value waits for a child that is to replace another one, or a reducer misses more values than
there are transactions that affect it. -/
def Slot.Lasts (count : ReductionId) (staged : List (Transaction ι)) (s : Slot ι V κ) : Prop :=
  ∀ r ∈ s.rdcr,
    (∀ t ∈ staged, t.stamp ≤ count → ∀ next ∈ t.to_, (s.portQueue next).isEmpty) ∨
      r.devs.length + staged.countP (fun t => t.stamp ≤ count) < r.nUstream

instance (count : ReductionId) (staged : List (Transaction ι)) (s : Slot ι V κ) :
    Decidable (s.Lasts count staged) :=
  inferInstanceAs (Decidable (∀ r ∈ s.rdcr,
    (∀ t ∈ staged, t.stamp ≤ count → ∀ next ∈ t.to_, (s.portQueue next).isEmpty) ∨
      r.devs.length + staged.countP (fun t => t.stamp ≤ count) < r.nUstream))

def Element.Lasts (staged : List (Transaction ι)) (e : Element ι V κ) : Prop :=
  ∀ count < e.rednCount, (e.slots count).Lasts count staged

instance (staged : List (Transaction ι)) (e : Element ι V κ) : Decidable (e.Lasts staged) :=
  inferInstanceAs (Decidable (∀ count < e.rednCount, (e.slots count).Lasts count staged))

/-- An element that learns of the destruction of a child has issued all reductions that the child
took part in, before it adopts the children of the child or resolves its transaction, and each
reducer waits for more than what the replacing children have sent. An element that is destroyed has
nothing staged. -/
def Timely (s : System ι V κ) : Action ι V κ → Prop
  | .destroy x => (s.elements x).staged = []
  | .deliver ⟨x, .replaceDownstream event⟩ =>
      let e := s.elements x
      let staged := e.staged ++ [event.transaction]
      (event.to_.tail ≠ [] → event.stamp ≤ e.rednCount) ∧
      (∀ t ∈ staged, Known (e.downstream ++ event.to_.tail) staged t.from_ →
        t.stamp ≤ e.rednCount) ∧
      e.Lasts staged
  | _ => True

variable [DecidableEq ι]

def Action.record (given : ι → List (Option V)) : Action ι V κ → ι → List (Option V)
  | .contribute x value _ => Function.update given x (given x ++ [some value])
  | .create x child => Function.update given child (List.replicate (given x).length none)
  | _ => given

/-- What the elements contributed to each reduction, with none for those before they were created.
-/
def contributed (as : List (Action ι V κ)) : ι → List (Option V) :=
  as.foldl Action.record fun _ => []

@[simp] theorem contributed_snoc (as : List (Action ι V κ)) (a : Action ι V κ) :
    contributed (as ++ [a]) = a.record (contributed as) := by
  simp [contributed]

end Hypercomm.TreeBuilder.Destruction
