import Mathlib.Algebra.Order.Group.Multiset
import Mathlib.Tactic.Abel
import Hypercomm.Transition.Run

/-! # Oldest-first pairing

Values arrive, and requests for values are made. A value goes to the oldest pending
request that it fits and that can take it. A request takes the oldest value in the
buffer that fits it.
-/

namespace Pairing

open Transition

variable {R T : Type*}

/-- The pending requests and the buffered values, the oldest first, and the pairs. -/
structure State (R T : Type*) where
  pending : List R := []
  buffer : List T := []
  paired : List (T × R) := []

inductive Event (R T : Type*) where
  | arrive (v : T) (can : R → Bool)
  | ask (r : R)

variable (fits : R → T → Bool)

/-- Pending requests that fit a value and cannot take it are given up. -/
inductive Step (s : State R T) : Event R T → State R T → Prop
  | pair {v : T} {can : R → Bool} {older newer : List R} {r : R}
      (hs : s.pending = older ++ r :: newer) (hr : fits r v) (hc : can r)
      (ho : ∀ q ∈ older, fits q v → ¬ can q) :
      Step s (.arrive v can) { s with
        pending := older.filter (fun q => !fits q v) ++ newer
        paired := s.paired ++ [(v, r)] }
  | buffer {v : T} {can : R → Bool} (hs : ∀ q ∈ s.pending, fits q v → ¬ can q) :
      Step s (.arrive v can) { s with
        pending := s.pending.filter fun q => !fits q v
        buffer := s.buffer ++ [v] }
  | take {r : R} {older newer : List T} {v : T} (hs : s.buffer = older ++ v :: newer)
      (hr : fits r v) (ho : ∀ w ∈ older, ¬ fits r w) :
      Step s (.ask r) { s with
        buffer := older ++ newer
        paired := s.paired ++ [(v, r)] }
  | store {r : R} (hs : ∀ w ∈ s.buffer, ¬ fits r w) :
      Step s (.ask r) { s with pending := s.pending ++ [r] }

def State.Unmatched (s : State R T) : Prop := ∀ v ∈ s.buffer, ∀ r ∈ s.pending, ¬ fits r v

def arrived (es : List (Event R T)) : List T :=
  es.filterMap fun
    | .arrive v _ => some v
    | .ask _ => none

variable {fits} {s t : State R T} {e : Event R T} {es : List (Event R T)}

theorem State.Unmatched.step (h : s.Unmatched fits) (hs : Step fits s e t) : t.Unmatched fits := by
  cases hs with
  | pair hp hr hc ho =>
    intro w hw q hq
    rcases List.mem_append.mp hq with hq | hq
    · exact h w hw q (by simp [hp, List.mem_of_mem_filter hq])
    · exact h w hw q (by simp [hp, hq])
  | buffer hp =>
    intro w hw q hq
    obtain ⟨hq, hf⟩ := List.mem_filter.mp hq
    rcases List.mem_append.mp hw with hw | hw
    · exact h w hw q hq
    · obtain rfl := List.mem_singleton.mp hw
      simpa using hf
  | take hp hr ho =>
    intro w hw
    apply h w
    rw [hp]
    rcases List.mem_append.mp hw with hw | hw
    · exact List.mem_append_left _ hw
    · exact List.mem_append_right _ (List.mem_cons_of_mem _ hw)
  | store hp =>
    intro w hw q hq
    rcases List.mem_append.mp hq with hq | hq
    · exact h w hw q hq
    · obtain rfl := List.mem_singleton.mp hq
      exact hp w hw

/-- A request that fits a value and cannot take it does not change where the value goes. -/
theorem Step.of_failed {v : T} {can : R → Bool} {older newer : List R} {r : R}
    (hs : s.pending = older ++ r :: newer) (hr : fits r v) (hc : ¬ can r)
    (ho : ∀ q ∈ older, ¬ fits q v)
    (h : Step fits { s with pending := older ++ newer } (.arrive v can) t) :
    Step fits s (.arrive v can) t := by
  cases h with
  | @pair _ _ older' newer' r' hp hr' hc' ho' =>
    -- the request that takes the value is newer than the one that fails
    obtain ⟨mid, rfl, rfl⟩ : ∃ mid, older' = older ++ mid ∧ newer = mid ++ r' :: newer' := by
      rcases List.append_eq_append_iff.mp hp with ⟨mid, hm, hn⟩ | ⟨mid, hm, hn⟩
      · exact ⟨mid, hm, hn⟩
      · cases mid with
        | nil => exact ⟨[], by simpa using hm.symm, by simpa using hn.symm⟩
        | cons q mid =>
          obtain ⟨rfl, -⟩ := List.cons.inj hn
          exact absurd hr' (ho _ (by simp [hm]))
    have hf : (older ++ r :: mid).filter (fun q => !fits q v) =
        (older ++ mid).filter fun q => !fits q v := by
      simp [hr]
    rw [← hf]
    have hsplit : s.pending = (older ++ r :: mid) ++ r' :: newer' := by simp [hs]
    refine .pair hsplit hr' hc' ?_
    intro q hq hfq
    rcases List.mem_append.mp hq with hq | hq
    · exact ho' q (by simp [hq]) hfq
    · rcases List.mem_cons.mp hq with rfl | hq
      · exact hc
      · exact ho' q (by simp [hq]) hfq
  | buffer hp =>
    have hf : s.pending.filter (fun q => !fits q v) =
        (older ++ newer).filter fun q => !fits q v := by
      simp [hs, hr]
    rw [← hf]
    apply Step.buffer
    intro q hq hfq
    rw [hs] at hq
    rcases List.mem_append.mp hq with hq | hq
    · exact absurd hfq (ho q hq)
    · rcases List.mem_cons.mp hq with rfl | hq
      · exact hc
      · exact hp q (by simp [hq]) hfq

def State.Accounted (es : List (Event R T)) (s : State R T) : Prop :=
  (s.buffer : Multiset T) + (s.paired.map Prod.fst : Multiset T) = arrived es

theorem State.Accounted.step (h : s.Accounted es) (hs : Step fits s e t) :
    t.Accounted (es ++ [e]) := by
  unfold State.Accounted at *
  cases hs with
  | pair hp hr hc ho =>
    simp only [List.map_append, List.map_cons, List.map_nil, ← Multiset.coe_add, ← add_assoc, h,
      arrived, List.filterMap_append, List.filterMap_cons, List.filterMap_nil]
  | @buffer v can hp =>
    simp only [arrived, List.filterMap_append, List.filterMap_cons, List.filterMap_nil] at h ⊢
    rw [← Multiset.coe_add, ← Multiset.coe_add, ← h]
    abel
  | @take r older newer v hp hr ho =>
    rw [hp] at h
    simp only [arrived, List.filterMap_append, List.filterMap_cons, List.filterMap_nil,
      List.append_nil, List.map_append, List.map_cons, List.map_nil] at h ⊢
    have hcons : ((v :: newer : List T) : Multiset T) = {v} + newer := rfl
    rw [← h, ← Multiset.coe_add, ← Multiset.coe_add, ← Multiset.coe_add, hcons,
      Multiset.coe_singleton]
    abel
  | store hp => simpa [arrived] using h

theorem unmatched_of_run (h : Run (Step fits) {} es s) : s.Unmatched fits :=
  h.invariant (fun _ _ _ hu hs => hu.step hs) fun _ hv => by simp at hv

theorem accounted_of_run (h : Run (Step fits) {} es s) : s.Accounted es :=
  h.invariant_labels (I := State.Accounted) (by simp [State.Accounted, arrived])
    fun _ _ _ _ ha hs => ha.step hs

end Pairing
