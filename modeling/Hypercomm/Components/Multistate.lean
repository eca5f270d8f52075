import Mathlib.Data.List.Sort
import Hypercomm.Components.Acceptor
import Hypercomm.Transition.Run

/-! # States and inputs

A multistate component takes the state of a tag from a server when it accepts a value for
this tag. The state that it took last is the one that its next action gets, so that a
component which accepts two values before it is activated mixes up their states.
-/

namespace Hypercomm.Components

open Transition

/-- A server of tagged states. Which states were released is logged, with a mark on those
that a continuation got. -/
structure StateServer (S : Type*) where
  avail : List (ℕ × S) := []
  isInserting : Bool := false
  continuations : List ℕ := []
  released : List ((ℕ × Option S) × Bool) := []

namespace StateServer

variable {S : Type*}

def done (srv : StateServer S) : Bool := srv.avail.isEmpty && !srv.isInserting

/-- It is asserted that the tag has no state yet. -/
def putState (srv : StateServer S) (tag : ℕ) (st : S) : Option (StateServer S) :=
  if tag ∈ srv.avail.map Prod.fst then none
  else some { srv with
    avail := (tag, st) :: srv.avail
    isInserting := true }

def findState (srv : StateServer S) (tag : ℕ) : Option S := srv.avail.lookup tag

def acquireState (srv : StateServer S) (tag : ℕ) : StateServer S :=
  { srv with avail := srv.avail.filter (·.1 ≠ tag) }

/-- A continuation gets the state of its tag once. Without one the state is not moved from. -/
def releaseState (srv : StateServer S) (val : ℕ × Option S) : StateServer S :=
  { srv with
    continuations := srv.continuations.erase val.1
    released := srv.released ++ [(val, decide (val.1 ∈ srv.continuations))] }

def putContinuation (srv : StateServer S) (tag : ℕ) : Option (StateServer S) :=
  if tag ∈ srv.continuations then none
  else some { srv with continuations := tag :: srv.continuations }

end StateServer

/-- What the action is run on: the tag under which its input set was kept, the set and the state. -/
structure Pairing (n : ℕ) (V S : Type*) where
  tag : ℕ
  set : InSet n V
  state : ℕ × Option S

/-- A run of the action, and whether a continuation waits for the tag then. -/
structure Stage (n : ℕ) (V S : Type*) extends Pairing n V S where
  continued : Bool

structure Accepted (V S : Type*) where
  port : ℕ
  val : V
  state : S

def Accepted.pairing {V S : Type*} (a : Accepted V S) : Pairing 1 V S :=
  ⟨a.port, fun _ => some a.val, (a.port, some a.state)⟩

/-- A multistate component and its server. The sets that wait are sorted by their keys. -/
structure Multistate (n : ℕ) (V S : Type*) where
  active : Bool := false
  activated : Bool := false
  persistent : Bool := false
  state : ℕ × Option S := (0, none)
  incoming : List (ℕ × InSet n V) := []
  server : StateServer S := {}
  stages : List (Stage n V S) := []
  accepted : List (Accepted V S) := []

namespace Multistate

variable {n : ℕ} {V S : Type*}

/-- The component persists until the server is done. It keeps a state that is not released to a
continuation. -/
def updateServer (s : Multistate n V S) : Multistate n V S :=
  { s with
    persistent := !s.server.done
    server := s.server.releaseState s.state
    state := if s.state.1 ∈ s.server.continuations then (s.state.1, none) else s.state }

def stageAction (s : Multistate n V S) (tag : ℕ) (set : InSet n V)
    (cleanup : Multistate n V S → Multistate n V S) : Option (Multistate n V S) :=
  if s.active then
    let continued := decide (tag ∈ s.server.continuations)
    let s := cleanup { s with stages := s.stages ++ [⟨⟨tag, set, s.state⟩, continued⟩] }
    some (if s.persistent then s else { s with
      active := false
      incoming := [] })
  else none

/-- It is asserted that there is no set with this key. -/
def emplace (s : Multistate n V S) (key : ℕ) (set : InSet n V) : Option (Multistate n V S) :=
  if key ∈ s.incoming.map Prod.fst then none
  else some { s with
    incoming := s.incoming.orderedInsert (fun a b => a.1 ≤ b.1) (key, set) }

def stageAt (s : Multistate n V S) (key : ℕ) (set : InSet n V) : Option (Multistate n V S) :=
  s.stageAction key set fun s =>
    updateServer { s with incoming := s.incoming.filter (·.1 ≠ key) }

def directStage (s : Multistate n V S) (val : V) : Option (Multistate n V S) :=
  let tag := s.state.1
  let set : InSet n V := fun _ => some val
  match s.stageAction tag set updateServer with
  | some s => some s
  | none => s.emplace tag set

def acquire (s : Multistate n V S) (tag : ℕ) (st : S) : Multistate n V S :=
  { s with
    state := (tag, some st)
    server := s.server.acquireState tag }

/-- The port is the key of the set. It is asserted that the set misses the value. -/
def seekStage (s : Multistate n V S) (port : ℕ) (i : Fin n) (tag : ℕ) (st : S) (val : V) :
    Option (Multistate n V S) :=
  match s.incoming.find? (·.1 = port) with
  | none => s.emplace port (Function.update (fun _ => none) i (some val))
  | some (key, set) =>
      if (set i).isSome then none
      else
        let set : InSet n V := Function.update set i (some val)
        let s := { s with
          incoming := s.incoming.map fun e => if e.1 = key then (key, set) else e }
        if InSet.isReady set then
          let s := s.acquire tag st
          some ((s.stageAt key set).getD s)
        else some s

/-- A value for a tag that has no state is refused. -/
def accept (s : Multistate (n + 1) V S) (port : ℕ) (val : V) :
    Option (Multistate (n + 1) V S) :=
  let tag := port / (n + 1)
  match s.server.findState tag with
  | none => some s
  | some st =>
      let s := { s with accepted := s.accepted ++ [Accepted.mk port val st] }
      if n + 1 = 1 then (s.acquire tag st).directStage val
      else s.seekStage port (Fin.ofNat (n + 1) port) tag st val

def findReady (s : Multistate n V S) : Option (ℕ × InSet n V) :=
  s.incoming.find? fun e => InSet.isReady e.2

theorem length_stageAt {s t : Multistate n V S} {e : ℕ × InSet n V} (he : s.findReady = some e)
    (h : s.stageAt e.1 e.2 = some t) : t.incoming.length < s.incoming.length := by
  have hmem : e ∈ s.incoming := List.mem_of_find?_eq_some he
  have hlt : (s.incoming.filter (·.1 ≠ e.1)).length < s.incoming.length :=
    List.length_filter_lt_length_iff_exists.mpr ⟨e, hmem, by simp⟩
  unfold stageAt stageAction at h
  split_ifs at h
  obtain rfl := Option.some.inj h
  split_ifs
  · exact hlt
  · exact Nat.zero_lt_of_lt hlt

/-- The sets that are ready are staged in the order of their keys. -/
def stageReady (s : Multistate n V S) : Multistate n V S :=
  match _he : s.findReady with
  | none => s
  | some e =>
      match _h : s.stageAt e.1 e.2 with
      | none => s
      | some t => stageReady t
termination_by s.incoming.length
decreasing_by exact length_stageAt _he _h

def activate (s : Multistate n V S) : Option (Multistate n V S) :=
  if s.active then none
  else some (stageReady { s with
    activated := true
    active := true })

inductive Event (V S : Type*)
  | putState (tag : ℕ) (st : S)
  | putContinuation (tag : ℕ)
  | accept (port : ℕ) (val : V)
  | activate

def step (s : Multistate (n + 1) V S) : Event V S → Option (Multistate (n + 1) V S)
  | .putState tag st => (s.server.putState tag st).map fun srv => { s with server := srv }
  | .putContinuation tag =>
      (s.server.putContinuation tag).map fun srv => { s with server := srv }
  | .accept port val => s.accept port val
  | .activate => s.activate

section Staging

variable {s t : Multistate n V S} {tag : ℕ} {set : InSet n V} {e : ℕ × InSet n V}

@[simp] theorem stageAction_of_inactive (h : s.active = false) (tag : ℕ) (set : InSet n V)
    (cleanup : Multistate n V S → Multistate n V S) : s.stageAction tag set cleanup = none := by
  simp [stageAction, h]

theorem stageAt_of_inserting (h : s.active = true) (hi : s.server.isInserting = true) (tag : ℕ)
    (set : InSet n V) :
    s.stageAt tag set = some { s with
      persistent := true
      state := if s.state.1 ∈ s.server.continuations then (s.state.1, none) else s.state
      incoming := s.incoming.filter (·.1 ≠ tag)
      server := s.server.releaseState s.state
      stages := s.stages ++
        [⟨⟨tag, set, s.state⟩, decide (tag ∈ s.server.continuations)⟩] } := by
  simp [stageAt, stageAction, updateServer, StateServer.done, h, hi]

theorem stageReady_of_none (h : s.findReady = none) : s.stageReady = s := by
  rw [stageReady, h]

theorem stageReady_of_findReady (h : s.findReady = some e) :
    s.stageReady = (s.stageAt e.1 e.2).elim s stageReady := by
  rw [stageReady, h]
  change (match _h : s.stageAt e.1 e.2 with
    | none => s
    | some t => t.stageReady) = _
  split
  · rename_i hn
    rw [hn]
    rfl
  · rename_i hu
    rw [hu]
    rfl

theorem stageAt_stages (ht : s.stageAt tag set = some t) :
    t.stages = s.stages ++ [⟨⟨tag, set, s.state⟩, decide (tag ∈ s.server.continuations)⟩] ∧
      t.activated = s.activated ∧ t.accepted = s.accepted := by
  unfold stageAt stageAction at ht
  split_ifs at ht
  obtain rfl := Option.some.inj ht
  split_ifs <;> exact ⟨rfl, rfl, rfl⟩

theorem stages_prefix_stageReady (s : Multistate n V S) :
    s.stages <+: s.stageReady.stages ∧ s.stageReady.activated = s.activated ∧
      s.stageReady.accepted = s.accepted := by
  induction s using stageReady.induct with
  | case1 s h =>
    rw [stageReady_of_none h]
    exact ⟨List.prefix_rfl, rfl, rfl⟩
  | case2 s e h hn =>
    rw [stageReady_of_findReady h, hn]
    exact ⟨List.prefix_rfl, rfl, rfl⟩
  | case3 s e h t ht ih =>
    obtain ⟨hp, ha, hacc⟩ := ih
    obtain ⟨hst, hat, hact⟩ := stageAt_stages ht
    rw [stageReady_of_findReady h, ht]
    rw [hst] at hp
    exact ⟨(List.prefix_append _ _).trans hp, ha.trans hat, hacc.trans hact⟩

theorem exists_stage_of_ne (ha : s.active = true) (hi : s.server.isInserting = true)
    (hs : s.state.1 ≠ e.1) (hf : s.findReady = some e) :
    ∃ x ∈ s.stageReady.stages, x.state.1 ≠ x.tag := by
  rw [stageReady_of_findReady hf, stageAt_of_inserting ha hi, Option.elim_some]
  exact ⟨_, (stages_prefix_stageReady _).1.subset
    (List.mem_append_right _ (List.mem_singleton_self _)), hs⟩

end Staging

section Single

variable {s t : Multistate 1 V S} {port : ℕ} {val : V} {st : S}

/-- Once the component is activated, its action ran for each value that was accepted, with
the state of its own tag, and each of these states was released, to the continuation of the tag if
there was one. -/
structure Pairs (s : Multistate 1 V S) : Prop where
  waiting : s.activated = false → s.stages = []
  stages : s.activated = true →
    (s.stages.map Stage.toPairing).Perm (s.accepted.map Accepted.pairing)
  released : s.server.released = s.stages.map fun x => (x.state, x.continued)

def Meets (s : Multistate 1 V S) : Event V S → Prop
  | .activate => s.accepted.length ≤ 1
  | _ => True

/-- Before the activation the values wait, and the last state that was taken is kept. After
it they do not wait. -/
structure Sound (s : Multistate 1 V S) : Prop where
  released : s.server.released = s.stages.map fun x => (x.state, x.continued)
  inserting : s.server.avail ≠ [] ∨ s.accepted ≠ [] → s.server.isInserting = true
  active : s.active = s.activated
  waiting : s.activated = false → s.stages = [] ∧
    s.incoming.Perm (s.accepted.map fun a => (a.port, fun _ => some a.val)) ∧
    (s.incoming.map Prod.fst).Nodup ∧
    ∀ a ∈ s.accepted.getLast?, s.state = (a.port, some a.state)
  stages : s.activated = true →
    s.incoming = [] ∧ s.stages.map Stage.toPairing = s.accepted.map Accepted.pairing

theorem Sound.pairs (h : Sound s) : Pairs s :=
  ⟨fun ha => (h.waiting ha).1, fun ha => by rw [(h.stages ha).2], h.released⟩

theorem isReady_some (v : V) : InSet.isReady (fun _ : Fin 1 => some v) = true := by
  simp [InSet.isReady]

theorem accept_of_inactive (hf : s.server.findState port = some st) (ha : s.active = false) :
    s.accept port val = if port ∈ s.incoming.map Prod.fst then none else some { s with
      state := (port, some st)
      incoming := s.incoming.orderedInsert (fun a b => a.1 ≤ b.1) (port, fun _ => some val)
      server := s.server.acquireState port
      accepted := s.accepted ++ [Accepted.mk port val st] } := by
  simp only [accept, Nat.zero_add, Nat.div_one, hf, if_true, acquire, directStage, emplace]
  rw [stageAction_of_inactive (by exact ha)]

theorem accept_of_active (hf : s.server.findState port = some st) (ha : s.active = true)
    (hi : s.server.isInserting = true) :
    s.accept port val = some { s with
      persistent := true
      state := if port ∈ s.server.continuations then (port, none) else (port, some st)
      server := (s.server.acquireState port).releaseState (port, some st)
      stages := s.stages ++
        [⟨(Accepted.mk port val st).pairing, decide (port ∈ s.server.continuations)⟩]
      accepted := s.accepted ++ [Accepted.mk port val st] } := by
  simp [accept, hf, acquire, directStage, stageAction, ha, updateServer, StateServer.done,
    StateServer.acquireState, hi, Accepted.pairing]

theorem Sound.accept (h : Sound s) (ht : s.accept port val = some t) : Sound t := by
  rcases hf : s.server.findState port with _ | st
  · have : s.accept port val = some s := by simp [Multistate.accept, hf]
    rw [this] at ht
    obtain rfl := Option.some.inj ht
    exact h
  · have havail : s.server.avail ≠ [] := by
      intro hn
      rw [StateServer.findState, hn] at hf
      cases hf
    have hins := h.inserting (Or.inl havail)
    cases hact : s.activated with
    | false =>
      obtain ⟨hst, hin, hnd, -⟩ := h.waiting hact
      rw [accept_of_inactive hf (h.active.trans hact)] at ht
      split_ifs at ht with hmem
      obtain rfl := Option.some.inj ht
      have hperm := List.perm_orderedInsert (fun a b : ℕ × InSet 1 V => a.1 ≤ b.1)
        (port, fun _ => some val) s.incoming
      refine ⟨h.released, fun _ => hins, h.active, fun _ => ⟨hst, ?_, ?_, ?_⟩, fun hc => ?_⟩
      · refine hperm.trans ?_
        rw [List.map_append]
        exact (hin.cons _).trans (List.perm_append_singleton _ _).symm
      · rw [(hperm.map Prod.fst).nodup_iff, List.map_cons]
        exact List.nodup_cons.mpr ⟨hmem, hnd⟩
      · simp
      · rw [hact] at hc
        cases hc
    | true =>
      obtain ⟨hin, hst⟩ := h.stages hact
      rw [accept_of_active hf (h.active.trans hact) hins] at ht
      obtain rfl := Option.some.inj ht
      refine ⟨?_, fun _ => hins, h.active, fun hc => ?_, fun _ => ⟨hin, ?_⟩⟩
      · simp [StateServer.releaseState, StateServer.acquireState, h.released, Accepted.pairing]
      · rw [hact] at hc
        cases hc
      · simp [hst]

theorem Sound.activate (h : Sound s) (hm : s.accepted.length ≤ 1)
    (ht : s.activate = some t) : Sound t := by
  unfold Multistate.activate at ht
  split_ifs at ht with ha
  obtain rfl := Option.some.inj ht
  have hact : s.activated = false := by
    rw [← h.active]
    simpa using ha
  obtain ⟨hst, hin, -, hlast⟩ := h.waiting hact
  by_cases hacc : s.accepted = []
  · rw [hacc, List.map_nil] at hin
    have hnil := hin.eq_nil
    rw [stageReady_of_none (by simp [findReady, hnil])]
    exact ⟨h.released, h.inserting, rfl, fun hc => (by cases hc),
      fun _ => ⟨hnil, by simp [hst, hacc]⟩⟩
  · have hi := h.inserting (Or.inr hacc)
    obtain ⟨a, ha⟩ : ∃ a, s.accepted = [a] := by
      rw [← List.length_eq_one_iff]
      have := List.length_pos_iff.mpr hacc
      omega
    rw [ha] at hin hlast
    have hone := List.perm_singleton.mp hin
    have hstate := hlast a rfl
    have hready : findReady { s with
        activated := true
        active := true } = some (a.port, fun _ => some a.val) := by
      simp [findReady, hone, isReady_some]
    rw [stageReady_of_findReady hready, stageAt_of_inserting (by rfl) (by exact hi),
      Option.elim_some,
      stageReady_of_none (by simp [findReady, hone])]
    refine ⟨?_, fun _ => hi, rfl, fun hc => (by cases hc), fun _ => ⟨by simp [hone], ?_⟩⟩
    · simp [StateServer.releaseState, h.released, hstate]
    · simp [hst, ha, Accepted.pairing, hstate]

/-- With two values that wait, one of the actions does not get the state of its tag. -/
theorem not_pairs_activate (h : Sound s) (hm : ¬ s.accepted.length ≤ 1)
    (ht : s.activate = some t) : ¬ Pairs t := by
  unfold Multistate.activate at ht
  split_ifs at ht with ha
  obtain rfl := Option.some.inj ht
  have hact : s.activated = false := by
    rw [← h.active]
    simpa using ha
  obtain ⟨-, hin, hnd, -⟩ := h.waiting hact
  have hi := h.inserting (Or.inr (by
    rintro hnil
    simp [hnil] at hm))
  have hready : ∀ e ∈ s.incoming, InSet.isReady e.2 = true := by
    intro e he
    obtain ⟨a, -, rfl⟩ := List.mem_map.mp (hin.mem_iff.mp he)
    exact isReady_some a.val
  obtain ⟨e, e', l, hl⟩ : ∃ e e' l, s.incoming = e :: e' :: l := by
    have hlen := hin.length_eq
    rw [List.length_map] at hlen
    match hs : s.incoming with
    | [] => simp [hs] at hlen; omega
    | [_] => simp [hs] at hlen; omega
    | e :: e' :: l => exact ⟨e, e', l, rfl⟩
  have hne : e'.1 ≠ e.1 := by
    rw [hl] at hnd
    intro heq
    simp [heq] at hnd
  have hfirst : findReady { s with
      activated := true
      active := true } = some e := by
    simp [findReady, hl, hready e (by simp [hl])]
  have hacti := (stages_prefix_stageReady { s with
    activated := true
    active := true }).2.1
  suffices hx : ∃ x ∈ (stageReady { s with activated := true, active := true }).stages,
      x.state.1 ≠ x.tag by
    intro hp
    obtain ⟨x, hx, hne⟩ := hx
    obtain ⟨a, -, ha⟩ := List.mem_map.mp
      ((hp.stages hacti).mem_iff.mp (List.mem_map_of_mem (f := Stage.toPairing) hx))
    rw [← ha] at hne
    exact hne rfl
  by_cases htag : s.state.1 = e.1
  · -- the second action gets the state of the first one, or none
    rw [stageReady_of_findReady hfirst, stageAt_of_inserting (by rfl) (by exact hi),
      Option.elim_some]
    apply exists_stage_of_ne (e := e') rfl (by exact hi)
    · dsimp only
      split_ifs
      · exact htag ▸ hne.symm
      · exact htag ▸ hne.symm
    · simp [findReady, hl, hne, hready e' (by simp [hl])]
  · exact exists_stage_of_ne (by rfl) (by exact hi) htag hfirst

theorem Sound.step (h : Sound s) {e : Event V S} (hm : s.Meets e) (ht : s.step e = some t) :
    Sound t := by
  cases e with
  | putState tag st =>
    obtain ⟨srv, hsrv, rfl⟩ := Option.map_eq_some_iff.mp ht
    unfold StateServer.putState at hsrv
    split_ifs at hsrv
    obtain rfl := Option.some.inj hsrv
    exact ⟨h.released, fun _ => rfl, h.active, h.waiting, h.stages⟩
  | putContinuation tag =>
    obtain ⟨srv, hsrv, rfl⟩ := Option.map_eq_some_iff.mp ht
    unfold StateServer.putContinuation at hsrv
    split_ifs at hsrv
    obtain rfl := Option.some.inj hsrv
    exact ⟨h.released, h.inserting, h.active, h.waiting, h.stages⟩
  | accept port val => exact h.accept ht
  | activate => exact h.activate hm ht

theorem sound_start (persistent : Bool) :
    Sound ({ persistent := persistent } : Multistate 1 V S) :=
  ⟨rfl, fun h => h.elim (absurd rfl) (absurd rfl), rfl,
    fun _ => ⟨rfl, .nil, List.nodup_nil, fun a ha => (by cases ha)⟩, fun h => by cases h⟩

def oneWaits : List (Event ℕ ℕ) := [.putState 1 10, .accept 1 100, .activate]

def twoWait : List (Event ℕ ℕ) :=
  [.putState 1 10, .putState 2 20, .accept 1 100, .accept 2 200, .activate]

end Single

end Multistate

end Hypercomm.Components
