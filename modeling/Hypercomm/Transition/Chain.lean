import Mathlib.Data.List.Nodup
import Mathlib.Data.List.Perm.Subperm

/-! # Following a partial map

A chain follows a partial map to an element where it is undefined. Following with
fuel finds the end of every chain once the fuel exceeds the number of elements
where the map is defined, and nothing when the map runs into a cycle.
-/

namespace Transition

variable {α : Type*} {f g : α → Option α} {a b c : α} {n : ℕ}

/-- The chain of `f` from one element ends in another. -/
inductive Leads (f : α → Option α) : α → α → Prop
  | stop {a : α} : f a = none → Leads f a a
  | next {a b c : α} : f a = some b → Leads f b c → Leads f a c

def follow (f : α → Option α) : ℕ → α → Option α
  | 0, _ => none
  | n + 1, a =>
      match f a with
      | none => some a
      | some b => follow f n b

theorem follow_succ_of_none (h : f a = none) : follow f (n + 1) a = some a := by
  simp [follow, h]

theorem follow_succ_of_some (h : f a = some b) : follow f (n + 1) a = follow f n b := by
  simp [follow, h]

theorem leads_of_follow (h : follow f n a = some b) : Leads f a b := by
  induction n generalizing a with
  | zero => simp [follow] at h
  | succ n ih =>
    cases ha : f a with
    | none =>
      obtain rfl : a = b := by simpa [follow, ha] using h
      exact .stop ha
    | some d => exact .next ha (ih (by rwa [follow_succ_of_some ha] at h))

theorem Leads.end_eq_none (h : Leads f a b) : f b = none := by
  induction h with
  | stop h => exact h
  | next _ _ ih => exact ih

theorem Leads.unique (h : Leads f a b) (h' : Leads f a c) : b = c := by
  induction h with
  | stop ha =>
    cases h' with
    | stop => rfl
    | next hb => simp [ha] at hb
  | next ha _ ih =>
    cases h' with
    | stop hb => simp [ha] at hb
    | next hb h' =>
      obtain rfl := Option.some.inj (ha.symm.trans hb)
      exact ih h'

theorem Leads.of_part (hfg : ∀ x y, f x = some y → g x = some y) (h : Leads f a b)
    (h' : Leads g a c) : Leads g b c := by
  induction h with
  | stop => exact h'
  | next ha _ ih =>
    cases h' with
    | stop hb => simp [hfg _ _ ha] at hb
    | next hb h' =>
      obtain rfl := Option.some.inj ((hfg _ _ ha).symm.trans hb)
      exact ih h'

theorem follow_mono {m : ℕ} (h : follow f n a = some b) (hm : n ≤ m) : follow f m a = some b := by
  induction n generalizing a m with
  | zero => simp [follow] at h
  | succ n ih =>
    obtain ⟨m, rfl⟩ := Nat.exists_eq_succ_of_ne_zero (by omega : m ≠ 0)
    cases ha : f a with
    | none => simpa [follow, ha] using h
    | some d =>
      rw [follow_succ_of_some ha] at h ⊢
      exact ih h (by omega)

/-- The elements a chain passes are distinct: each needs less fuel than the one before. -/
theorem Leads.exists_path (h : Leads f a b) : ∃ path : List α, path.Nodup ∧
    (∀ x ∈ path, f x ≠ none) ∧ (∀ x ∈ path, follow f (path.length + 1) x = some b) ∧
    follow f path.length a = none ∧ follow f (path.length + 1) a = some b := by
  induction h with
  | stop h => exact ⟨[], by simp, by simp, by simp, rfl, follow_succ_of_none h⟩
  | @next a d b ha _ ih =>
    obtain ⟨path, hnd, hdef, hall, hmin, hd⟩ := ih
    have hnext : follow f (path.length + 1) a = none := by rwa [follow_succ_of_some ha]
    have hstart : follow f (path.length + 2) a = some b := by rwa [follow_succ_of_some ha]
    refine ⟨a :: path, List.nodup_cons.mpr ⟨fun hmem => ?_, hnd⟩, ?_, ?_, hnext, hstart⟩
    · exact absurd (hnext.symm.trans (hall a hmem)) (by simp)
    · rintro x (_ | ⟨_, hx⟩)
      · simp [ha]
      · exact hdef x hx
    · rintro x (_ | ⟨_, hx⟩)
      · exact hstart
      · exact follow_mono (hall x hx) (Nat.le_succ _)

/-- Fuel for every element where the map is defined, and one more, is enough. -/
theorem Leads.follow_eq {keys : List α} (h : Leads f a b) (hk : ∀ x, f x ≠ none → x ∈ keys) :
    follow f (keys.length + 1) a = some b := by
  obtain ⟨path, hnd, hdef, -, -, ha⟩ := h.exists_path
  have hle : path.length ≤ keys.length :=
    (hnd.subperm fun x hx => hk x (hdef x hx)).length_le
  exact follow_mono ha (Nat.succ_le_succ hle)

theorem follow_eq_some_iff {keys : List α} (hk : ∀ x, f x ≠ none → x ∈ keys) :
    follow f (keys.length + 1) a = some b ↔ Leads f a b :=
  ⟨leads_of_follow, fun h => h.follow_eq hk⟩

/-- Every chain ends when a bounded rank rises along it. -/
theorem exists_leads_of_rising (rank : α → ℕ) (hb : ∀ x, f x ≠ none → rank x < n)
    (hr : ∀ x y, f x = some y → f y ≠ none → rank x < rank y) (a : α) : ∃ b, Leads f a b := by
  induction hk : n - rank a using Nat.strongRecOn generalizing a with
  | ind k ih =>
    cases ha : f a with
    | none => exact ⟨a, .stop ha⟩
    | some d =>
      cases hd : f d with
      | none => exact ⟨d, .next ha (.stop hd)⟩
      | some e =>
        have hlt := hr a d ha (by simp [hd])
        have hlt' := hb d (by simp [hd])
        obtain ⟨b, hdb⟩ := ih (n - rank d) (by omega) d rfl
        exact ⟨b, .next ha hdb⟩

end Transition
