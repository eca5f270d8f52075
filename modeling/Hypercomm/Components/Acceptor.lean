import Mathlib.Data.Fin.Rev
import Mathlib.Logic.Function.Basic
import Mathlib.Tactic.SplitIfs

/-! # Input sets

A component collects its inputs in sets, the newest in front. A value goes to the oldest
set that misses it, and a set is staged when it becomes ready. The sets of a component
that is not active wait for its activation, which looks for ready sets from the front.
-/

namespace Hypercomm.Components

/-- What arrived on each of the ports. -/
abbrev InSet (n : ℕ) (V : Type*) := Fin n → Option V

def InSet.isReady {n : ℕ} {V : Type*} (set : InSet n V) : Bool := decide (∀ i, (set i).isSome)

inductive Status
  | completion
  | invalidation
  deriving DecidableEq, Repr

/-- A component as its `default_acceptor_` sees it, with the sets that its action was run on
and the signals of its deactivations. -/
structure Acceptor (n : ℕ) (V : Type*) where
  active : Bool := false
  activated : Bool := false
  permissive : Bool := false
  persistent : Bool := false
  incoming : List (InSet n V) := []
  actions : List (InSet n V) := []
  signals : List Status := []

namespace Acceptor

variable {n : ℕ} {V : Type*}

def deactivate (s : Acceptor n V) (signal : Status) : Acceptor n V :=
  { s with
    active := false
    incoming := []
    signals := s.signals ++ [signal] }

/-- Run the action on a set, if the component is active. The cleanup comes before the
completion. -/
def stageAction (s : Acceptor n V) (set : InSet n V) (cleanup : Acceptor n V → Acceptor n V) :
    Option (Acceptor n V) :=
  if s.active then
    let s := cleanup { s with actions := s.actions ++ [set] }
    some (if s.persistent then s else s.deactivate .completion)
  else none

def stageAt (s : Acceptor n V) (i : ℕ) (set : InSet n V) : Option (Acceptor n V) :=
  s.stageAction set fun s => { s with incoming := s.incoming.eraseIdx i }

def findReady (s : Acceptor n V) : Option (Fin s.incoming.length) :=
  s.incoming.findFinIdx? InSet.isReady

/-- The search runs backwards, over the reversed list. -/
def findGap (s : Acceptor n V) (i : Fin n) : Option (Fin s.incoming.length) :=
  (s.incoming.reverse.findFinIdx? fun set => (set i).isNone).map fun j =>
    (j.cast List.length_reverse).rev

/-- A component with a single input does not seek a set. -/
def directStage (s : Acceptor n V) (val : V) : Acceptor n V :=
  let set : InSet n V := fun _ => some val
  (s.stageAction set id).getD { s with incoming := set :: s.incoming }

/-- A new set is not staged, and a set that becomes ready is. -/
def seekStage (s : Acceptor n V) (i : Fin n) (val : Option V) : Acceptor n V :=
  match s.findGap i with
  | none => { s with incoming := Function.update (fun _ => none) i val :: s.incoming }
  | some j =>
      let set : InSet n V := Function.update (s.incoming.get j) i val
      let s := { s with incoming := s.incoming.set j set }
      if set.isReady then (s.stageAt j set).getD s else s

/-- Accept a value, which is null if there is none. It is asserted that a permissive
component with a single input is not given null. -/
def accept (s : Acceptor n V) (i : Fin n) (val : Option V) : Option (Acceptor n V) :=
  match val with
  | none =>
      if s.permissive then (if n = 1 then none else some (s.seekStage i none))
      else some (s.deactivate .invalidation)
  | some v => some (if n = 1 then s.directStage v else s.seekStage i (some v))

theorem length_stageAt {s t : Acceptor n V} {i : ℕ} {set : InSet n V}
    (hi : i < s.incoming.length) (h : s.stageAt i set = some t) :
    t.incoming.length < s.incoming.length := by
  unfold stageAt stageAction at h
  split_ifs at h with ha
  cases h
  dsimp only
  split_ifs with hp
  · rw [List.length_eraseIdx_of_lt hi]
    omega
  · exact Nat.zero_lt_of_lt hi

/-- The ready sets are staged one after another, while the component is active. -/
def stageReady (s : Acceptor n V) : Acceptor n V :=
  match s.findReady with
  | none => s
  | some j =>
      match _h : s.stageAt j (s.incoming.get j) with
      | none => s
      | some t => stageReady t
termination_by s.incoming.length
decreasing_by exact length_stageAt j.isLt _h

/-- It is asserted that the component is not active. -/
def activate (s : Acceptor n V) : Option (Acceptor n V) :=
  if s.active then none
  else some { s with
    activated := true
    active := true }.stageReady

def feed (s : Acceptor n V) (xs : List (Fin n × V)) : Option (Acceptor n V) :=
  xs.foldlM (fun s x => s.accept x.1 (some x.2)) s

section Frame

variable {s t : Acceptor n V} {i : Fin n} {val : Option V}

@[simp] theorem stageAction_of_inactive (h : s.active = false) (set : InSet n V)
    (cleanup : Acceptor n V → Acceptor n V) : s.stageAction set cleanup = none := by
  simp [stageAction, h]

@[simp] theorem stageAt_of_inactive (h : s.active = false) (k : ℕ) (set : InSet n V) :
    s.stageAt k set = none := stageAction_of_inactive h _ _

theorem seekStage_of_inactive (h : s.active = false) (i : Fin n) (val : Option V) :
    s.seekStage i val = { s with incoming := (s.seekStage i val).incoming } := by
  unfold seekStage
  split
  · rfl
  · dsimp only
    split_ifs
    · rw [stageAt_of_inactive (by exact h)]
      rfl
    · rfl

theorem accept_of_inactive (h : s.active = false) (ht : s.accept i val = some t) :
    t = { s with
      incoming := t.incoming
      signals := t.signals } := by
  cases val with
  | none =>
    simp only [accept] at ht
    split_ifs at ht with hp hn
    · cases ht
      rw [seekStage_of_inactive h]
    · cases ht
      simp [deactivate, h]
  | some v =>
    simp only [accept] at ht
    cases ht
    split_ifs
    · rw [directStage, stageAction_of_inactive h]
      rfl
    · rw [seekStage_of_inactive h]

theorem stageReady_of_findReady {j : Fin s.incoming.length} (hj : s.findReady = some j) :
    s.stageReady = (s.stageAt j (s.incoming.get j)).elim s stageReady := by
  rw [stageReady, hj]
  change (match _h : s.stageAt j (s.incoming.get j) with
    | none => s
    | some t => t.stageReady) = _
  split
  · rename_i h
    rw [h]
    rfl
  · rename_i h
    rw [h]
    rfl

theorem stageAt_actions {set : InSet n V} {k : ℕ} (ht : s.stageAt k set = some t) :
    t.actions = s.actions ++ [set] := by
  unfold stageAt stageAction at ht
  split_ifs at ht
  cases ht
  dsimp only
  split_ifs <;> rfl

theorem stageReady_active (h : s.active = true ∨ s.actions ≠ []) :
    s.stageReady.active = true ∨ s.stageReady.actions ≠ [] := by
  induction s using stageReady.induct with
  | case1 s hf =>
    rw [stageReady, hf]
    exact h
  | case2 s j hf hst =>
    rw [stageReady_of_findReady hf, hst]
    exact h
  | case3 s j hf t hst ih =>
    rw [stageReady_of_findReady hf, hst]
    refine ih (Or.inr ?_)
    rw [stageAt_actions hst]
    simp

end Frame

end Acceptor

end Hypercomm.Components
