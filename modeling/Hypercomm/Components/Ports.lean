import Hypercomm.Components.Cascade
import Hypercomm.Components.Mailbox
import Hypercomm.Transition.Run

/-! # Entry ports and the components behind them

A port that is connected to a component is closed by a listener on the status of the
component. The deactivation of a component begins and ends in two steps, since whatever
takes the values that it hands back acts in between, and a component is erased at the
end of a deactivation, by a collection, or by its activation after an invalidation.
-/

namespace Hypercomm.Components

open Transition

variable {π κ η V : Type*}

inductive Endpoint (π η : Type*) where
  | port (p : π)
  | handler (h : η)

/-- Where an entry port leads. -/
inductive PortDestination (π κ η : Type*) where
  | direct (dst : Destination κ)
  | endpoint (ep : Endpoint π η)

/-- A deactivation that has begun: by a completion or a null value, or by
`invalidate_component`, with whether the component was active. -/
inductive Call where
  | deactivate (id : ComponentId)
  | invalidateComponent (id : ComponentId) (wasAlive : Bool)

def Call.id : Call → ComponentId
  | .deactivate id => id
  | .invalidateComponent id _ => id

structure GenericLocality (π κ η V : Type*) where
  entryPorts : π → Option (PortDestination π κ η) := fun _ => none
  alive : π → Bool := fun _ => false
  components : ComponentId → Option (Component π V) := fun _ => none
  invalidations : List ComponentId := []
  componentAuthority : ComponentId := 0
  /-- the deactivations that have begun, the innermost in front -/
  calls : List Call := []

namespace GenericLocality

def put (s : GenericLocality π κ η V) (id : ComponentId) (com : Option (Component π V)) :
    GenericLocality π κ η V :=
  { s with components := Function.update s.components id com }

def emplaceComponent (s : GenericLocality π κ η V) : GenericLocality π κ η V :=
  { s with componentAuthority := s.componentAuthority + 1 }.put (s.componentAuthority + 1) (some {})

section Ports

variable [DecidableEq π]

/-- It is fatal to open a port twice. -/
def openPort (s : GenericLocality π κ η V) (ours : π) (theirs : PortDestination π κ η) :
    Option (GenericLocality π κ η V) :=
  match s.entryPorts ours with
  | some _ => none
  | none => some { s with
      alive := Function.update s.alive ours true
      entryPorts := Function.update s.entryPorts ours (some theirs) }

def connect (s : GenericLocality π κ η V) (srcPort : π) (dst : ComponentId) (dstPort : ℕ) :
    Option (GenericLocality π κ η V) :=
  (s.components dst).bind fun com =>
    (s.put dst (some { com with listeners := srcPort :: com.listeners })).openPort srcPort
      (.direct (.component dst dstPort))

def invalidatePort (keepAlive : π → Bool) (port : π) (s : GenericLocality π κ η V) :
    GenericLocality π κ η V :=
  let alive := s.alive port && keepAlive port
  let s := { s with alive := Function.update s.alive port alive }
  if alive then s else { s with entryPorts := Function.update s.entryPorts port none }

def notifyListeners (keepAlive : π → Bool) (id : ComponentId) (s : GenericLocality π κ η V) :
    GenericLocality π κ η V :=
  match s.components id with
  | none => s
  | some com => (com.listeners.foldr (invalidatePort keepAlive) s).put id
      (some { com with listeners := [] })

end Ports

def tryCollect (id : ComponentId) (s : GenericLocality π κ η V) : GenericLocality π κ η V :=
  match s.components id with
  | none => s
  | some com => if com.collectible then s.put id none else s

def beginCall (s : GenericLocality π κ η V) (call : Call) (com : Component π V) :
    GenericLocality π κ η V :=
  { s.put call.id (some { com with active := false }) with calls := call :: s.calls }

def endCall (s : GenericLocality π κ η V) : Call → GenericLocality π κ η V
  | .deactivate id => s.tryCollect id
  | .invalidateComponent id true => s.put id none
  | .invalidateComponent id false => { s with invalidations := s.invalidations ++ [id] }

def finish [DecidableEq π] (keepAlive : π → Bool) (s : GenericLocality π κ η V) :
    Option (GenericLocality π κ η V) :=
  match s.calls with
  | [] => none
  | call :: calls => (s.components call.id).map fun _ =>
      endCall (notifyListeners keepAlive call.id { s with calls }) call

/-- A component that was invalidated before its activation is erased by it. -/
def activateComponent (s : GenericLocality π κ η V) (id : ComponentId) :
    Option (GenericLocality π κ η V) :=
  (s.components id).bind fun com =>
    if id ∈ s.invalidations then
      some ({ s with invalidations := s.invalidations.erase id }.put id none)
    else if com.active then none
    else some (s.put id (some { com with active := true, activated := true }))

inductive Event (π κ η V : Type*) where
  | emplaceComponent
  | openPort (ours : π) (theirs : PortDestination π κ η)
  | connect (srcPort : π) (dst : ComponentId) (dstPort : ℕ)
  | invalidatePort (port : π)
  | activateComponent (id : ComponentId)
  /-- a completion of an active component -/
  | complete (id : ComponentId)
  /-- a null value is accepted -/
  | onInvalidation (id : ComponentId)
  | invalidateComponent (id : ComponentId)
  | finish
  /-- a component that is buffering accepts a value, or relays the values of its outbox -/
  | buffer (id : ComponentId) (incoming outgoing : List V)
  /-- a component accepts a value, and is collected if it is to be -/
  | tryCollect (id : ComponentId)

/-- There is no step where the code aborts, and none for a component that is missing. -/
def step [DecidableEq π] (keepAlive : π → Bool) (s : GenericLocality π κ η V) :
    Event π κ η V → Option (GenericLocality π κ η V)
  | .emplaceComponent => some s.emplaceComponent
  | .openPort ours theirs => s.openPort ours theirs
  | .connect srcPort dst dstPort => s.connect srcPort dst dstPort
  | .invalidatePort port => some (s.invalidatePort keepAlive port)
  | .activateComponent id => s.activateComponent id
  | .complete id => (s.components id).bind fun com =>
      if com.active then some (s.beginCall (.deactivate id) com) else none
  | .onInvalidation id => (s.components id).map fun com => s.beginCall (.deactivate id) com
  | .invalidateComponent id => (s.components id).map fun com =>
      s.beginCall (.invalidateComponent id com.active) com
  | .finish => s.finish keepAlive
  | .buffer id incoming outgoing => (s.components id).map fun com =>
      s.put id (some { com with incoming, outgoing })
  | .tryCollect id => (s.components id).map fun _ => s.tryCollect id

def LeadsTo (s : GenericLocality π κ η V) (port : π) (id : ComponentId) : Prop :=
  ∃ dstPort, s.entryPorts port = some (.direct (.component id dstPort))

def Present (s : GenericLocality π κ η V) (id : ComponentId) : Prop :=
  ∃ com, s.components id = some com

def Sound (s : GenericLocality π κ η V) : Prop := ∀ port id, s.LeadsTo port id → s.Present id

def Delivers (s : GenericLocality π κ η V) : Prop :=
  ∀ port dst, s.entryPorts port = some (.direct dst) →
    passthru (fun id => (s.components id).isSome) dst

def Closes (keepAlive : π → Bool) (s : GenericLocality π κ η V) (id : ComponentId) : Prop :=
  ∀ port, s.LeadsTo port id →
    keepAlive port = false ∧ ∃ com, s.components id = some com ∧ port ∈ com.listeners

def Collectible (s : GenericLocality π κ η V) (id : ComponentId) : Prop :=
  ∃ com, s.components id = some com ∧ com.collectible

/-- A component that is erased at the end of its deactivation closes each port that leads
to it. -/
def EndsWell (keepAlive : π → Bool) (s : GenericLocality π κ η V) : Call → Prop
  | .deactivate id => s.Collectible id → s.Closes keepAlive id
  | .invalidateComponent id wasAlive => wasAlive → s.Closes keepAlive id

/-- Ports are opened to components that exist, deactivations end well, and no port leads to
a component that is erased otherwise. -/
def Meets (keepAlive : π → Bool) (s : GenericLocality π κ η V) : Event π κ η V → Prop
  | .openPort _ (.direct (.component id _)) => s.Present id
  | .activateComponent id => id ∈ s.invalidations → ∀ port, ¬ s.LeadsTo port id
  | .finish => ∀ call ∈ s.calls.head?, s.EndsWell keepAlive call
  | .tryCollect id => s.Collectible id → ∀ port, ¬ s.LeadsTo port id
  | _ => True

section Steps

variable {s t : GenericLocality π κ η V} {id : ComponentId} {port : π} {com : Component π V}

theorem delivers_of_sound (h : s.Sound) : s.Delivers := by
  intro port dst hp
  cases dst with
  | callback cb => rfl
  | component id dstPort =>
    obtain ⟨com, hc⟩ := h port id ⟨dstPort, hp⟩
    simp [passthru, hc]

@[simp] theorem put_entryPorts (c : Option (Component π V)) :
    (s.put id c).entryPorts = s.entryPorts := rfl

@[simp] theorem leadsTo_put (c : Option (Component π V)) (x : ComponentId) :
    (s.put id c).LeadsTo port x ↔ s.LeadsTo port x := Iff.rfl

theorem present_put_some (x : ComponentId) (h : s.Present x) : (s.put id (some com)).Present x := by
  unfold Present put
  by_cases hx : x = id
  · simp [hx]
  · obtain ⟨c, hc⟩ := h
    exact ⟨c, by simp [hx, hc]⟩

theorem not_present_put_none : ¬ (s.put id none).Present id := by
  simp [Present, put]

theorem present_put_none {x : ComponentId} (h : s.Present x) (hx : x ≠ id) :
    (s.put id none).Present x := by
  simpa [Present, put, hx] using h

theorem Sound.mono (h : s.Sound) (hp : ∀ port id, t.LeadsTo port id → s.LeadsTo port id)
    (hc : ∀ id, s.Present id → t.Present id) : t.Sound := by
  intro port id hl
  exact hc id (h port id (hp port id hl))

theorem Sound.put_some (h : s.Sound) : (s.put id (some com)).Sound :=
  h.mono (fun _ _ hl => hl) fun x => present_put_some x

/-- A component can go when no port leads to it, and not otherwise. -/
theorem sound_put_none_iff (h : ∀ port x, s.LeadsTo port x → x = id ∨ s.Present x) :
    (s.put id none).Sound ↔ ∀ port, ¬ s.LeadsTo port id := by
  constructor
  · intro hs port hl
    exact not_present_put_none (hs port id hl)
  · intro hn port x hl
    have hx : x ≠ id := by
      rintro rfl
      exact hn port hl
    apply present_put_none _ hx
    exact (h port x hl).resolve_left hx

end Steps

def OpenAlive (s : GenericLocality π κ η V) : Prop :=
  ∀ port, s.entryPorts port ≠ none → s.alive port

section Listeners

variable [DecidableEq π] {keepAlive : π → Bool} {s t : GenericLocality π κ η V}
variable {id : ComponentId} {port : π} {com : Component π V} {l : List π}

@[simp] theorem invalidatePort_components :
    (s.invalidatePort keepAlive port).components = s.components := by
  unfold invalidatePort
  dsimp only
  split <;> rfl

theorem invalidatePort_entryPorts (x : π) : (s.invalidatePort keepAlive port).entryPorts x =
    if x = port ∧ ¬ (s.alive port && keepAlive port) then none else s.entryPorts x := by
  unfold invalidatePort
  dsimp only
  by_cases hx : x = port <;> by_cases ha : s.alive port && keepAlive port <;> simp [hx, ha]

theorem invalidatePort_alive (x : π) : (s.invalidatePort keepAlive port).alive x =
    if x = port then s.alive port && keepAlive port else s.alive x := by
  unfold invalidatePort
  dsimp only
  by_cases hx : x = port <;> split <;> simp [*]

theorem openAlive_invalidatePort (h : s.OpenAlive) :
    (s.invalidatePort keepAlive port).OpenAlive := by
  intro x hx
  rw [invalidatePort_entryPorts] at hx
  rw [invalidatePort_alive]
  split at hx
  · exact absurd rfl hx
  · rename_i hn
    by_cases hp : x = port
    · simpa [hp] using hn
    · simpa [hp] using h x hx

theorem openAlive_foldr (h : s.OpenAlive) : (l.foldr (invalidatePort keepAlive) s).OpenAlive := by
  induction l with
  | nil => exact h
  | cons port l ih => exact openAlive_invalidatePort ih

@[simp] theorem foldr_components :
    (l.foldr (invalidatePort keepAlive) s).components = s.components := by
  induction l with
  | nil => rfl
  | cons port l ih => simpa using ih

@[simp] theorem foldr_invalidations :
    (l.foldr (invalidatePort keepAlive) s).invalidations = s.invalidations := by
  induction l with
  | nil => rfl
  | cons port l ih =>
    rw [← ih, List.foldr_cons]
    unfold invalidatePort
    dsimp only
    split <;> rfl

theorem foldr_entryPorts (h : s.OpenAlive) (x : π) :
    (l.foldr (invalidatePort keepAlive) s).entryPorts x =
      if x ∈ l ∧ ¬ keepAlive x then none else s.entryPorts x := by
  induction l with
  | nil => simp
  | cons port l ih =>
    rw [List.foldr_cons, invalidatePort_entryPorts, ih]
    by_cases hx : x = port
    · subst hx
      by_cases hk : keepAlive x
      · by_cases ho : s.entryPorts x = none
        · simp [ho]
        · have ha : (l.foldr (invalidatePort keepAlive) s).alive x := by
            apply openAlive_foldr h
            rw [ih]
            simpa [hk] using ho
          simp [hk, ha]
      · simp [hk]
    · simp [hx]

theorem leadsTo_notifyListeners (h : s.OpenAlive) (hc : s.components id = some com)
    (x : ComponentId) :
    (s.notifyListeners keepAlive id).LeadsTo port x ↔
      s.LeadsTo port x ∧ ¬ (port ∈ com.listeners ∧ ¬ keepAlive port) := by
  unfold LeadsTo notifyListeners
  rw [hc]
  simp only [put_entryPorts, foldr_entryPorts h]
  by_cases hl : port ∈ com.listeners ∧ ¬ keepAlive port
  · simp [hl]
  · rw [if_neg hl]
    exact (and_iff_left hl).symm

theorem present_notifyListeners (hc : s.components id = some com) {x : ComponentId}
    (h : s.Present x) : (s.notifyListeners keepAlive id).Present x := by
  unfold notifyListeners
  rw [hc]
  apply present_put_some
  unfold Present
  rw [foldr_components]
  exact h

theorem collectible_notifyListeners (keepAlive : π → Bool) (hc : s.components id = some com) :
    (s.notifyListeners keepAlive id).Collectible id ↔ s.Collectible id := by
  unfold Collectible notifyListeners
  rw [hc]
  simp [put, Component.collectible]

end Listeners

theorem sound_tryCollect_iff {s : GenericLocality π κ η V} {id : ComponentId} (h : s.Sound) :
    (s.tryCollect id).Sound ↔ (s.Collectible id → ∀ port, ¬ s.LeadsTo port id) := by
  unfold tryCollect
  cases hc : s.components id with
  | none => simp [h, Collectible, hc]
  | some com =>
    dsimp only
    split
    · rename_i hcol
      rw [sound_put_none_iff fun port x hl => Or.inr (h port x hl)]
      simp [Collectible, hc, hcol]
    · rename_i hcol
      simp [h, Collectible, hc, hcol]

section Run

variable [DecidableEq π] {keepAlive : π → Bool} {s t : GenericLocality π κ η V}
variable {e : Event π κ η V} {id : ComponentId}

theorem closes_iff (h : s.OpenAlive) {com : Component π V} (hc : s.components id = some com) :
    s.Closes keepAlive id ↔ ∀ port, ¬ (s.notifyListeners keepAlive id).LeadsTo port id := by
  simp only [leadsTo_notifyListeners h hc, Closes, hc]
  constructor
  · rintro hcl port ⟨hl, hn⟩
    obtain ⟨hk, c, hc', hm⟩ := hcl port hl
    obtain rfl := Option.some.inj hc'
    exact hn ⟨hm, by simp [hk]⟩
  · intro hn port hl
    have hm : port ∈ com.listeners ∧ ¬ keepAlive port := by
      by_contra hm
      exact hn port ⟨hl, hm⟩
    exact ⟨by simpa using hm.2, com, rfl, hm.1⟩

theorem sound_notifyListeners (keepAlive : π → Bool) (hs : s.Sound) (h : s.OpenAlive)
    {com : Component π V} (hc : s.components id = some com) :
    (s.notifyListeners keepAlive id).Sound :=
  hs.mono (fun _ _ hl => ((leadsTo_notifyListeners h hc _).mp hl).1)
    fun _ => present_notifyListeners hc

theorem sound_endCall_iff (keepAlive : π → Bool) (hs : s.Sound) (h : s.OpenAlive)
    {com : Component π V} {call : Call} (hc : s.components call.id = some com) :
    ((s.notifyListeners keepAlive call.id).endCall call).Sound ↔ s.EndsWell keepAlive call := by
  have hn := sound_notifyListeners keepAlive hs h hc
  cases call with
  | deactivate id =>
    dsimp only [Call.id] at hc hn
    have hcol := collectible_notifyListeners keepAlive hc
    simp only [endCall, EndsWell, closes_iff h hc, ← hcol]
    exact sound_tryCollect_iff hn
  | invalidateComponent id wasAlive =>
    cases wasAlive with
    | false => exact iff_of_true hn (by simp [EndsWell])
    | true =>
      dsimp only [Call.id] at hc hn
      simp only [endCall, EndsWell, closes_iff h hc, true_implies]
      exact sound_put_none_iff fun port x hl => Or.inr (hn port x hl)

theorem sound_openPort_iff {ours : π} {theirs : PortDestination π κ η} (hs : s.Sound)
    (he : s.openPort ours theirs = some t) :
    t.Sound ↔ ∀ id dstPort, theirs = .direct (.component id dstPort) → s.Present id := by
  unfold openPort at he
  split at he
  · cases he
  · obtain rfl := Option.some.inj he
    constructor
    · rintro ht id dstPort rfl
      exact ht ours id ⟨dstPort, by simp⟩
    · rintro hp port id ⟨dstPort, hl⟩
      by_cases hport : port = ours
      · subst hport
        exact hp id dstPort (by simpa using hl)
      · exact hs port id ⟨dstPort, by simpa [hport] using hl⟩

theorem sound_step_iff (hs : s.Sound) (h : s.OpenAlive) (he : s.step keepAlive e = some t) :
    t.Sound ↔ s.Meets keepAlive e := by
  cases e with
  | emplaceComponent =>
    obtain rfl := Option.some.inj he
    exact iff_of_true (Sound.put_some hs) trivial
  | openPort ours theirs =>
    have he : s.openPort ours theirs = some t := he
    rw [sound_openPort_iff hs he]
    cases theirs with
    | endpoint ep => simp [Meets]
    | direct dst => cases dst <;> simp [Meets]
  | connect srcPort dst dstPort =>
    obtain ⟨com, hc, ho⟩ := Option.bind_eq_some_iff.mp he
    rw [sound_openPort_iff (Sound.put_some hs) ho]
    apply iff_of_true _ trivial
    intro id dstPort hd
    cases hd
    exact present_put_some _ ⟨com, hc⟩
  | invalidatePort port =>
    obtain rfl := Option.some.inj he
    apply iff_of_true _ trivial
    apply hs.mono
    · rintro x id ⟨dstPort, hl⟩
      rw [invalidatePort_entryPorts] at hl
      split at hl
      · cases hl
      · exact ⟨dstPort, hl⟩
    · rintro id ⟨com, hc⟩
      exact ⟨com, by simpa using hc⟩
  | activateComponent id =>
    obtain ⟨com, hc, ha⟩ := Option.bind_eq_some_iff.mp he
    split at ha
    · rename_i hi
      obtain rfl := Option.some.inj ha
      have hput : (put { s with invalidations := s.invalidations.erase id } id none).Sound ↔
          ∀ port, ¬ s.LeadsTo port id :=
        sound_put_none_iff fun port x hl => Or.inr (hs port x hl)
      rw [hput]
      exact ⟨fun hn _ => hn, fun hn => hn hi⟩
    · rename_i hi
      split at ha
      · cases ha
      · obtain rfl := Option.some.inj ha
        exact iff_of_true (Sound.put_some hs) fun h => absurd h hi
  | complete id =>
    obtain ⟨com, hc, ha⟩ := Option.bind_eq_some_iff.mp he
    split at ha
    · obtain rfl := Option.some.inj ha
      exact iff_of_true (Sound.put_some hs) trivial
    · cases ha
  | onInvalidation id =>
    obtain ⟨com, hc, rfl⟩ := Option.map_eq_some_iff.mp he
    exact iff_of_true (Sound.put_some hs) trivial
  | invalidateComponent id =>
    obtain ⟨com, hc, rfl⟩ := Option.map_eq_some_iff.mp he
    exact iff_of_true (Sound.put_some hs) trivial
  | finish =>
    have he : s.finish keepAlive = some t := he
    unfold finish at he
    split at he
    · cases he
    · rename_i call calls hcalls
      obtain ⟨com, hc, rfl⟩ := Option.map_eq_some_iff.mp he
      have hend := sound_endCall_iff (s := { s with calls }) keepAlive hs h hc
      simp only [Meets, hcalls, List.head?_cons, Option.mem_some_iff, forall_eq']
      exact hend
  | buffer id incoming outgoing =>
    obtain ⟨com, hc, rfl⟩ := Option.map_eq_some_iff.mp he
    exact iff_of_true (Sound.put_some hs) trivial
  | tryCollect id =>
    obtain ⟨com, hc, rfl⟩ := Option.map_eq_some_iff.mp he
    exact sound_tryCollect_iff hs

theorem openAlive_openPort {ours : π} {theirs : PortDestination π κ η} (h : s.OpenAlive)
    (he : s.openPort ours theirs = some t) : t.OpenAlive := by
  unfold openPort at he
  split at he
  · cases he
  · obtain rfl := Option.some.inj he
    intro port hp
    by_cases hport : port = ours
    · simp [hport]
    · simpa [hport] using h port (by simpa [hport] using hp)

theorem openAlive_notifyListeners (h : s.OpenAlive) :
    (s.notifyListeners keepAlive id).OpenAlive := by
  unfold notifyListeners
  split
  · exact h
  · exact openAlive_foldr h

omit [DecidableEq π] in
theorem openAlive_tryCollect (h : s.OpenAlive) : (s.tryCollect id).OpenAlive := by
  unfold tryCollect
  split
  · exact h
  · split <;> exact h

theorem openAlive_step (h : s.OpenAlive) (he : s.step keepAlive e = some t) : t.OpenAlive := by
  cases e with
  | emplaceComponent =>
    obtain rfl := Option.some.inj he
    exact h
  | openPort ours theirs => exact openAlive_openPort h he
  | connect srcPort dst dstPort =>
    obtain ⟨com, hc, ho⟩ := Option.bind_eq_some_iff.mp he
    have hput : (s.put dst (some { com with listeners := srcPort :: com.listeners })).OpenAlive := h
    exact openAlive_openPort hput ho
  | invalidatePort port =>
    obtain rfl := Option.some.inj he
    exact openAlive_invalidatePort h
  | activateComponent id =>
    obtain ⟨com, hc, ha⟩ := Option.bind_eq_some_iff.mp he
    split at ha
    · obtain rfl := Option.some.inj ha
      exact h
    · split at ha
      · cases ha
      · obtain rfl := Option.some.inj ha
        exact h
  | complete id =>
    obtain ⟨com, hc, ha⟩ := Option.bind_eq_some_iff.mp he
    split at ha
    · obtain rfl := Option.some.inj ha
      exact h
    · cases ha
  | onInvalidation id =>
    obtain ⟨com, hc, rfl⟩ := Option.map_eq_some_iff.mp he
    exact h
  | invalidateComponent id =>
    obtain ⟨com, hc, rfl⟩ := Option.map_eq_some_iff.mp he
    exact h
  | finish =>
    have he : s.finish keepAlive = some t := he
    unfold finish at he
    split at he
    · cases he
    · rename_i call calls hcalls
      obtain ⟨com, hc, rfl⟩ := Option.map_eq_some_iff.mp he
      have hn : (notifyListeners keepAlive call.id { s with calls }).OpenAlive :=
        openAlive_notifyListeners h
      cases call with
      | deactivate id => exact openAlive_tryCollect hn
      | invalidateComponent id wasAlive => cases wasAlive <;> exact hn
  | buffer id incoming outgoing =>
    obtain ⟨com, hc, rfl⟩ := Option.map_eq_some_iff.mp he
    exact h
  | tryCollect id =>
    obtain ⟨com, hc, rfl⟩ := Option.map_eq_some_iff.mp he
    exact openAlive_tryCollect h

/-- No local delivery fails and no port leads to a component that is gone, throughout a run,
exactly when the steps of the run meet the condition. -/
theorem sound_throughout_iff {es : List (Event π κ η V)}
    (h : Run (ofFun (step keepAlive)) ({} : GenericLocality π κ η V) es t) :
    Throughout (ofFun (step keepAlive)) (fun s => s.Sound ∧ s.Delivers)
        ({} : GenericLocality π κ η V) es ↔
      Run (restrict (ofFun (step keepAlive)) (Meets keepAlive)) {} es t := by
  apply Run.throughout_iff (I := fun s => s.Sound ∧ s.OpenAlive)
  · intro s e t u ht hu
    exact Option.some.inj (ht.symm.trans hu)
  · rintro s e t ⟨hs, ho⟩ hm he
    exact ⟨(sound_step_iff hs ho he).mpr hm, openAlive_step ho he⟩
  · rintro s ⟨hs, -⟩
    exact ⟨hs, delivers_of_sound hs⟩
  · rintro s e t ⟨hs, ho⟩ hm he ⟨ht, -⟩
    exact hm ((sound_step_iff hs ho he).mp ht)
  · constructor
    · rintro port id ⟨dstPort, hp⟩
      cases hp
    · intro port hp
      exact absurd rfl hp
  · exact h

end Run

section Persistent

def connected : List (Event ℕ Unit Unit Unit) :=
  [.emplaceComponent, .connect 0 1 0, .activateComponent 1, .invalidateComponent 1, .finish]

/-- A port that is not kept alive is closed before its component is erased. -/
theorem sound_connected :
    Throughout (ofFun (step fun _ => false)) (fun s => s.Sound ∧ s.Delivers)
      ({} : GenericLocality ℕ Unit Unit Unit) connected := by
  have h0 : Run (restrict (ofFun (step fun _ => false)) (Meets fun _ => false))
      ({} : GenericLocality ℕ Unit Unit Unit) [] {} := .nil
  have h1 := h0.snoc_restrict .emplaceComponent trivial rfl
  have h2 := h1.snoc_restrict (.connect 0 1 0) trivial rfl
  have h3 := h2.snoc_restrict (.activateComponent 1) (fun h => by cases h) rfl
  have h4 := h3.snoc_restrict (.invalidateComponent 1) trivial rfl
  have h5 := h4.snoc_restrict .finish
    (fun call hc => by
      obtain rfl : Call.invalidateComponent 1 true = call := Option.some.inj hc
      rintro - port ⟨dstPort, hl⟩
      by_cases hp : port = 0
      · subst hp
        exact ⟨rfl, _, rfl, List.mem_singleton.mpr rfl⟩
      · cases (Function.update_of_ne hp _ _).symm.trans hl) rfl
  exact (sound_throughout_iff h5.of_restrict).mpr h5

/-- A port that is kept alive leads to a component that is gone. -/
theorem not_sound_connected :
    ∃ t, Run (ofFun (step fun _ => true)) ({} : GenericLocality ℕ Unit Unit Unit) connected t ∧
      ¬ (t.Sound ∧ t.Delivers) := by
  refine ⟨_, run_of_exec rfl, ?_⟩
  rintro ⟨hs, -⟩
  obtain ⟨com, hc⟩ := hs 0 1 ⟨0, rfl⟩
  cases hc

end Persistent

end GenericLocality

end Hypercomm.Components
