import Hypercomm.Components.Multistate

/-! # Joining by tag

With more than one input, a multistate component keeps its sets by port instead of tag, so
that each value gets a set of its own and no set is ever ready.
-/

namespace Hypercomm.Components

open Transition

namespace Multistate

variable {n : ℕ} {V S : Type*} {s t : Multistate (n + 2) V S} {port : ℕ} {val : V} {st : S}

/-- The set that the values of a tag make, once all of them have arrived. -/
def Completes (s : Multistate n V S) (tag : ℕ) (set : InSet n V) (st : S) : Prop :=
  ∀ i : Fin n, ∃ v, set i = some v ∧ Accepted.mk (tag * n + i) v st ∈ s.accepted

/-- The action ran for exactly the tags whose values have arrived, on these values in the
order of the inputs and with the state of the tag, and no set mixes values of two tags. -/
structure Joins (s : Multistate n V S) : Prop where
  stages : ∀ tag set st, (∃ x ∈ s.stages, x.set = set ∧ x.state = (tag, some st)) ↔
    Completes s tag set st
  once : (s.stages.map fun x => x.state).Nodup
  unmixed : ∀ e ∈ s.incoming, ∃ tag, ∀ i v, e.2 i = some v →
    ∃ a ∈ s.accepted, a.port = tag * n + i ∧ a.val = v

def started (a : Accepted V S) : ℕ × InSet (n + 2) V :=
  (a.port, Function.update (fun _ => none) (Fin.ofNat (n + 2) a.port) (some a.val))

structure Alone (s : Multistate (n + 2) V S) : Prop where
  active : s.active = true
  stages : s.stages = []
  incoming : s.incoming.Perm (s.accepted.map started)
  state : ∀ a ∈ s.accepted, s.server.findState (a.port / (n + 2)) = some a.state

theorem Alone.find? (h : Alone s) (port : ℕ) : s.incoming.find? (·.1 = port) = none ∨
    ∃ e, s.incoming.find? (·.1 = port) = some e ∧
      (e.2 (Fin.ofNat (n + 2) port)).isSome = true := by
  rcases hf : s.incoming.find? (·.1 = port) with _ | e
  · exact Or.inl hf
  · refine Or.inr ⟨e, hf, ?_⟩
    have hmem := h.incoming.mem_iff.mp (List.mem_of_find?_eq_some hf)
    obtain ⟨a, -, rfl⟩ := List.mem_map.mp hmem
    have hfound := List.find?_some hf
    have hport : a.port = port := of_decide_eq_true hfound
    subst hport
    simp [started]

theorem Alone.accept (h : Alone s) (ht : s.accept port val = some t) : Alone t := by
  rcases hf : s.server.findState (port / (n + 2)) with _ | st
  · have hs : s.accept port val = some s := by simp [Multistate.accept, hf]
    rw [hs] at ht
    obtain rfl := Option.some.inj ht
    exact h
  · have hs : s.accept port val = Multistate.seekStage
        { s with accepted := s.accepted ++ [Accepted.mk port val st] } port
        (Fin.ofNat (n + 2) port) (port / (n + 2)) st val := by
      simp [Multistate.accept, hf]
    rw [hs] at ht
    rcases h.find? port with hn | ⟨e, he, hsome⟩
    · simp only [seekStage, hn, emplace] at ht
      split_ifs at ht
      obtain rfl := Option.some.inj ht
      refine ⟨h.active, h.stages, ?_, ?_⟩
      · rw [List.map_append]
        exact (List.perm_orderedInsert _ _ _).trans
          ((h.incoming.cons _).trans (List.perm_append_singleton _ _).symm)
      · intro a ha
        rcases List.mem_append.mp ha with ha | ha
        · exact h.state a ha
        · obtain rfl := List.mem_singleton.mp ha
          exact hf
    · simp only [seekStage, he, hsome] at ht
      cases ht

theorem Alone.step (h : Alone s) {e : Event V S} (ht : s.step e = some t) : Alone t := by
  cases e with
  | putState tag st =>
    obtain ⟨srv, hsrv, rfl⟩ := Option.map_eq_some_iff.mp ht
    unfold StateServer.putState at hsrv
    split_ifs at hsrv with hmem
    obtain rfl := Option.some.inj hsrv
    refine ⟨h.active, h.stages, h.incoming, fun a ha => ?_⟩
    have hfound := h.state a ha
    have hne : a.port / (n + 2) ≠ tag := by
      rintro rfl
      have hnone : s.server.avail.lookup (a.port / (n + 2)) = none :=
        List.lookup_eq_none_iff.mpr fun p hp => by
          rw [bne_iff_ne]
          exact fun heq => hmem (heq ▸ List.mem_map_of_mem hp)
      rw [StateServer.findState, hnone] at hfound
      cases hfound
    rw [StateServer.findState, List.lookup_cons, beq_false_of_ne hne]
    exact hfound
  | putContinuation tag =>
    obtain ⟨srv, hsrv, rfl⟩ := Option.map_eq_some_iff.mp ht
    unfold StateServer.putContinuation at hsrv
    split_ifs at hsrv
    obtain rfl := Option.some.inj hsrv
    exact ⟨h.active, h.stages, h.incoming, h.state⟩
  | accept port val => exact h.accept ht
  | activate =>
    change s.activate = some t at ht
    rw [activate, if_pos h.active] at ht
    cases ht

theorem Alone.unmixed (h : Alone s) : ∀ e ∈ s.incoming, ∃ tag, ∀ i v, e.2 i = some v →
    ∃ a ∈ s.accepted, a.port = tag * (n + 2) + i ∧ a.val = v := by
  intro e he
  obtain ⟨a, ha, rfl⟩ := List.mem_map.mp (h.incoming.mem_iff.mp he)
  refine ⟨a.port / (n + 2), fun i v hi => ⟨a, ha, ?_⟩⟩
  dsimp only [started] at hi
  by_cases hp : i = Fin.ofNat (n + 2) a.port
  · subst hp
    refine ⟨?_, by simpa using hi⟩
    have := Nat.div_add_mod' a.port (n + 2)
    simpa using this.symm
  · rw [Function.update_of_ne hp] at hi
    cases hi

def online (n : ℕ) (V S : Type*) : Multistate (n + 2) V S where
  active := true
  activated := true
  persistent := true

theorem alone_of_run {es : List (Event V S)} (h : Run (ofFun step) (online n V S) es s) :
    Alone s := h.invariant (fun _ _ _ hs ht => hs.step ht)
      ⟨rfl, rfl, .nil, fun a ha => by cases ha⟩

/-- Values are joined by tag exactly while no tag has all of its values. -/
theorem joins_iff {es : List (Event V S)} (h : Run (ofFun step) (online n V S) es s) :
    Joins s ↔ ∀ tag, ∃ i : Fin (n + 2), ∀ a ∈ s.accepted, a.port ≠ tag * (n + 2) + i := by
  have hs := alone_of_run h
  constructor
  · intro hj tag
    by_contra hall
    simp only [not_exists, not_forall, not_not] at hall
    choose a ha hport using hall
    have hdiv : ∀ i, (a i).port / (n + 2) = tag := by
      intro i
      rw [hport, Nat.mul_comm, Nat.mul_add_div (by omega), Nat.div_eq_of_lt i.isLt, Nat.add_zero]
    have hstate : ∀ i, (a i).state = (a 0).state := by
      intro i
      have hi := hs.state _ (ha i)
      have h0 := hs.state _ (ha 0)
      rw [hdiv] at hi h0
      exact Option.some.inj (hi.symm.trans h0)
    obtain ⟨x, hx, -⟩ := (hj.stages tag (fun i => some (a i).val) (a 0).state).mpr fun i =>
      ⟨(a i).val, rfl, by rw [← hport i, ← hstate i]; exact ha i⟩
    rw [hs.stages] at hx
    cases hx
  · intro hall
    refine ⟨fun tag set st => ⟨?_, fun hc => ?_⟩, by simp [hs.stages], hs.unmixed⟩
    · rintro ⟨x, hx, -⟩
      rw [hs.stages] at hx
      cases hx
    · obtain ⟨i, hi⟩ := hall tag
      obtain ⟨v, -, hmem⟩ := hc i
      exact absurd rfl (hi _ hmem)

/-- One of the two values of a tag has arrived. -/
def oneArrived : List (Event ℕ ℕ) := [.putState 0 10, .accept 0 100]

theorem joins_oneArrived : ∃ s, Run (ofFun step) (online 0 ℕ ℕ) oneArrived s ∧ Joins s := by
  have hr : Run (ofFun step) (online 0 ℕ ℕ) oneArrived _ := run_of_exec rfl
  refine ⟨_, hr, (joins_iff hr).mpr fun tag => ⟨1, fun a ha => ?_⟩⟩
  obtain rfl : a = ⟨0, 100, 10⟩ := List.mem_singleton.mp ha
  simp

/-- Both values of a tag have arrived, and the action did not run. -/
theorem not_joins_bothArrived :
    ∃ s, Run (ofFun step) (online 0 ℕ ℕ) (oneArrived ++ [.accept 1 200]) s ∧ ¬ Joins s := by
  refine ⟨_, run_of_exec rfl, fun h => ?_⟩
  obtain ⟨x, hx, -⟩ := (h.stages 0 (fun i => if i = 0 then some 100 else some 200) 10).mpr (by
    intro i
    match i with
    | 0 => exact ⟨100, rfl, List.mem_cons_self⟩
    | 1 => exact ⟨200, rfl, List.mem_cons_of_mem _ List.mem_cons_self⟩)
  cases hx

end Multistate

end Hypercomm.Components
