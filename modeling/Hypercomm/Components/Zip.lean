import Mathlib.Order.Bounds.Basic
import Hypercomm.Components.Activation

/-! # Joining inputs in order

An active component that persists stages the sets in the order of their positions, whether
its actions return or suspend it. The values that are left wait in partial sets.
-/

namespace Hypercomm.Components

variable {n : ℕ} {V : Type*}

/-- A value for a port, and whether the action suspends if the value makes a set ready. -/
structure Arrival (n : ℕ) (V : Type*) where
  port : Fin n
  value : V
  suspends : Bool

def Arrival.input (a : Arrival n V) : Fin n × V := (a.port, a.value)

namespace Acceptor

/-- A suspended action has no results and its component does not complete, but the set is
cleaned up. -/
def stageOrSuspend (s : Acceptor n V) (suspends : Bool) (set : InSet n V)
    (cleanup : Acceptor n V → Acceptor n V) : Option (Acceptor n V) :=
  if s.active then
    let s := cleanup { s with actions := s.actions ++ [set] }
    some (if suspends || s.persistent then s else s.deactivate .completion)
  else none

def arrive (s : Acceptor n V) (a : Arrival n V) : Acceptor n V :=
  match s.findGap a.port with
  | none => { s with
      incoming := Function.update (fun _ => none) a.port (some a.value) :: s.incoming }
  | some j =>
      let set : InSet n V := Function.update (s.incoming.get j) a.port (some a.value)
      let s := { s with incoming := s.incoming.set j set }
      if set.isReady then
        (s.stageOrSuspend a.suspends set fun s =>
          { s with incoming := s.incoming.eraseIdx j }).getD s
      else s

/-- The sets before the least number of values on a port went to the action, in order. The
others are buffered, the newest in front, and none of them is complete. -/
def Joined (xs : List (Fin n × V)) (s : Acceptor n V) : Prop :=
  ∃ m l, IsLeast (Set.range fun i => (valuesAt xs i).length) m ∧
    IsGreatest (Set.range fun i => (valuesAt xs i).length) l ∧
    s.actions = (List.range m).map (setAt xs) ∧
    s.incoming = ((List.range' m (l - m)).map (setAt xs)).reverse ∧
    ∀ set ∈ s.incoming, ¬ set.isReady

section Order

variable {s : Acceptor n V} {suspends : Bool} {set : InSet n V} {a : Arrival n V}

theorem stageOrSuspend_eq {cleanup : Acceptor n V → Acceptor n V}
    (hc : (cleanup { s with actions := s.actions ++ [set] }).persistent = true) :
    s.stageOrSuspend suspends set cleanup = s.stageAction set cleanup := by
  simp [stageOrSuspend, stageAction, hc]

theorem accept_eq_arrive (hp : s.persistent = true) (hn : n ≠ 1) :
    s.accept a.port (some a.value) = some (s.arrive a) := by
  simp only [accept, if_neg hn, seekStage, arrive]
  cases s.findGap a.port with
  | none => rfl
  | some j =>
    dsimp only
    rw [stageOrSuspend_eq (by exact hp)]
    rfl

end Order

section Zip

variable {xs : List (Fin (n + 1) × V)} {s : Acceptor (n + 1) V} {m : ℕ}

theorem isLeast_complete (xs : List (Fin (n + 1) × V)) :
    IsLeast (Set.range fun i => (valuesAt xs i).length) (complete xs) := by
  constructor
  · have hn : ¬ (setAt xs (complete xs)).isReady := fun h => lt_irrefl _ (isReady_iff.mp h)
    rw [isReady_setAt, not_forall] at hn
    obtain ⟨i, hi⟩ := hn
    exact ⟨i, le_antisymm (not_lt.mp hi) (complete_le xs i)⟩
  · rintro _ ⟨i, rfl⟩
    exact complete_le xs i

theorem Buffers.isGreatest (hb : Buffers xs (complete xs) m s) :
    IsGreatest (Set.range fun i => (valuesAt xs i).length) (complete xs + m) := by
  constructor
  · cases m with
    | zero => exact (isLeast_complete xs).1
    | succ m =>
      obtain ⟨i, hi⟩ := hb.exists_lt (complete xs + m) (by omega)
      have hle := hb.le i
      exact ⟨i, by dsimp only; omega⟩
  · rintro _ ⟨i, rfl⟩
    exact hb.le i

theorem Buffers.joined (hb : Buffers xs (complete xs) m s) (ha : s.actions = completeSets xs) :
    Joined xs s := by
  refine ⟨complete xs, complete xs + m, isLeast_complete xs, hb.isGreatest, ha, ?_, ?_⟩
  · rw [Nat.add_sub_cancel_left]
    exact hb.incoming
  · intro set hset hr
    rw [hb.incoming] at hset
    simp only [List.mem_reverse, List.mem_map, List.mem_range'_1] at hset
    obtain ⟨k, hk, rfl⟩ := hset
    have hlt := isReady_iff.mp hr
    omega

end Zip

theorem Buffers.arrive {xs : List (Fin (n + 2) × V)} {s : Acceptor (n + 2) V} {m : ℕ}
    (hb : Buffers xs (complete xs) m s) (h : s.active) (hp : s.persistent)
    (ha : s.actions = completeSets xs) (a : Arrival (n + 2) V) :
    ∃ m', Buffers (xs ++ [a.input]) (complete (xs ++ [a.input])) m' (s.arrive a) ∧
      (s.arrive a).active ∧ (s.arrive a).persistent ∧
      (s.arrive a).actions = completeSets (xs ++ [a.input]) := by
  obtain ⟨t, m', l, ht, hbt, hact, hpt, hl, hat⟩ := hb.exists_stage h hp a.port a.value
  rw [accept_eq_arrive hp (by omega), Option.some_inj] at ht
  rw [ht]
  refine ⟨m', hbt, hact, hpt, ?_⟩
  rw [hat, ha]
  exact hl.symm

theorem Buffers.exists_arrivals {xs : List (Fin (n + 2) × V)} {s : Acceptor (n + 2) V} {m : ℕ}
    (hb : Buffers xs (complete xs) m s) (h : s.active) (hp : s.persistent)
    (ha : s.actions = completeSets xs) (as : List (Arrival (n + 2) V)) :
    ∃ m', Buffers (xs ++ as.map Arrival.input) (complete (xs ++ as.map Arrival.input)) m'
      (as.foldl Acceptor.arrive s) ∧
      (as.foldl Acceptor.arrive s).actions = completeSets (xs ++ as.map Arrival.input) := by
  induction as generalizing xs s m with
  | nil =>
    refine ⟨m, ?_, ?_⟩
    · simpa using hb
    · simpa using ha
  | cons a as ih =>
    obtain ⟨m', hbt, hact, hpt, hat⟩ := hb.arrive h hp ha a
    obtain ⟨m'', hbu, hau⟩ := ih hbt hact hpt hat
    rw [List.append_assoc, List.singleton_append] at hbu hau
    exact ⟨m'', hbu, hau⟩

/-- A component with at least two inputs joins them in the order of their arrival. -/
theorem joined_arrivals (permissive : Bool) (as : List (Arrival (n + 2) V)) :
    Joined (as.map Arrival.input) (as.foldl arrive
      { active := true, activated := true, permissive := permissive, persistent := true }) := by
  have hc : complete ([] : List (Fin (n + 2) × V)) = 0 :=
    Nat.le_zero.mp (Nat.find_min' _ (by simp [isReady_setAt, valuesAt]))
  have hb : Buffers ([] : List (Fin (n + 2) × V)) (complete ([] : List (Fin (n + 2) × V))) 0
      { active := true, activated := true, permissive := permissive, persistent := true } := by
    rw [hc]
    exact ⟨rfl, by simp [valuesAt], by simp, Nat.zero_le _⟩
  obtain ⟨m, hm, ha⟩ := hb.exists_arrivals rfl rfl completeSets_nil.symm as
  exact hm.joined ha

example : ((([⟨0, 1, false⟩, ⟨0, 2, false⟩, ⟨1, 3, true⟩] : List (Arrival 2 ℕ)).foldl arrive
    { active := true, persistent := true }).actions.map fun set => (set 0, set 1)) =
      [(some 1, some 3)] := by decide

end Acceptor

end Hypercomm.Components
