import Mathlib.Data.BitVec
import Mathlib.Data.List.Perm.Basic
import Mathlib.Tactic.Linarith
import Mathlib.Tactic.Ring

/-! # Hash codes and the binary tree

Hash codes are folded with `hash_combine` over the elements of a list. Node and
section trees are heap-shaped: the children of `i` are `2i + 1` and `2i + 2`,
computed in a signed integer type that wraps around.
-/

namespace Hypercomm

abbrev HashCode := BitVec 64

def hashCombine (lhs rhs : HashCode) : HashCode :=
  lhs + 0x9e3779b9#64 + (rhs <<< 6) + (rhs >>> 2)

def hashIterable {α : Type*} (hash : α → HashCode) (t : List α) : HashCode :=
  t.foldl (fun seed i => hashCombine seed (hash i)) 0#64

theorem hashCombine_right_comm (a b c : HashCode) :
    hashCombine (hashCombine a b) c = hashCombine (hashCombine a c) b := by
  unfold hashCombine; ring

/-- The fold adds a term for each element, so it forgets the order of the list. -/
theorem hashIterable_perm {α : Type*} {hash : α → HashCode} {t t' : List α} (h : t.Perm t') :
    hashIterable hash t = hashIterable hash t' :=
  have : RightCommutative fun seed i => hashCombine seed (hash i) :=
    ⟨fun _ _ _ => hashCombine_right_comm _ _ _⟩
  h.foldl_eq 0#64

/-- Two's complement wrap-around at the given width. -/
def wrap (w : ℕ) (x : ℤ) : ℤ := x.bmod (2 ^ w)

theorem two_pow_pred {w : ℕ} (hw : 0 < w) : (2 : ℤ) ^ w = 2 * 2 ^ (w - 1) := by
  conv_lhs => rw [← Nat.succ_pred_eq_of_pos hw]
  exact pow_succ' 2 (w - 1)

theorem wrap_of_lt {w : ℕ} (hw : 0 < w) {x : ℤ} (h0 : 0 ≤ x) (h : x < 2 ^ (w - 1)) :
    wrap w x = x := by
  have hp := two_pow_pred hw
  exact Int.bmod_eq_of_le (by push_cast; omega) (by push_cast; omega)

theorem wrap_of_ge {w : ℕ} (hw : 0 < w) {x : ℤ} (h : 2 ^ (w - 1) ≤ x) (h' : x < 2 ^ w) :
    wrap w x = x - 2 ^ w := by
  have hp := two_pow_pred hw
  have he : wrap w x = (x - (2 ^ w : ℕ)).bmod (2 ^ w) := (Int.sub_bmod_right x _).symm
  rw [he, Int.bmod_eq_of_le (by push_cast; omega) (by push_cast; omega)]
  push_cast; rfl

namespace BinaryTree

def leftChild (w : ℕ) (i : ℤ) : ℤ := wrap w (2 * i + 1)

def rightChild (w : ℕ) (i : ℤ) : ℤ := wrap w (2 * i + 2)

def parent (i : ℤ) : ℤ := if i > 0 then (i - 1) / 2 else -1

def leaves (w : ℕ) (which max : ℤ) : List ℤ :=
  let left := leftChild w which
  let right := rightChild w which
  (if 0 ≤ left ∧ left < max then [left] else []) ++
    (if 0 ≤ right ∧ right < max then [right] else [])

@[simp] theorem parent_zero : parent 0 = -1 := rfl

theorem parent_nonneg_iff {i : ℤ} : 0 ≤ parent i ↔ 0 < i := by
  unfold parent; split <;> omega

theorem parent_lt {i : ℤ} (h : 0 ≤ i) : parent i < i := by
  unfold parent; split <;> omega

theorem parent_eq_iff {i j : ℤ} (hi : 0 ≤ i) : parent j = i ↔ j = 2 * i + 1 ∨ j = 2 * i + 2 := by
  unfold parent; split <;> omega

section Bounded

variable {w : ℕ} {i max : ℤ}

/-- An index computed past the largest node wraps to a negative value, so the
bounds check drops it. -/
theorem wrap_in_range_iff (hw : 0 < w) (hmax : max < 2 ^ (w - 1)) {x : ℤ} (h0 : 0 ≤ x)
    (hx : x < 2 ^ w) : 0 ≤ wrap w x ∧ wrap w x < max ↔ x < max := by
  rcases lt_or_ge x (2 ^ (w - 1)) with h | h
  · rw [wrap_of_lt hw h0 h]; omega
  · rw [wrap_of_ge hw h hx]; omega

theorem leaves_eq (hw : 0 < w) (hmax : max < 2 ^ (w - 1)) (h0 : 0 ≤ i) (hi : i < max) :
    leaves w i max = [2 * i + 1, 2 * i + 2].filter (· < max) := by
  have hp := two_pow_pred hw
  have hl := wrap_in_range_iff hw hmax (x := 2 * i + 1) (by omega) (by omega)
  have hr := wrap_in_range_iff hw hmax (x := 2 * i + 2) (by omega) (by omega)
  have wl : 2 * i + 1 < max → wrap w (2 * i + 1) = 2 * i + 1 := fun h =>
    wrap_of_lt hw (by omega) (by omega)
  have wr : 2 * i + 2 < max → wrap w (2 * i + 2) = 2 * i + 2 := fun h =>
    wrap_of_lt hw (by omega) (by omega)
  simp only [leaves, leftChild, rightChild, hl, hr, List.filter_cons, List.filter_nil,
    decide_eq_true_eq]
  split <;> split <;> simp_all

theorem mem_leaves_iff (hw : 0 < w) (hmax : max < 2 ^ (w - 1)) (h0 : 0 ≤ i) (hi : i < max)
    {j : ℤ} : j ∈ leaves w i max ↔ parent j = i ∧ j < max := by
  rw [leaves_eq hw hmax h0 hi, parent_eq_iff h0]
  simp

theorem leaves_nodup (hw : 0 < w) (hmax : max < 2 ^ (w - 1)) (h0 : 0 ≤ i) (hi : i < max) :
    (leaves w i max).Nodup := by
  rw [leaves_eq hw hmax h0 hi]
  exact List.Nodup.filter _ (by simp)

end Bounded

end BinaryTree

end Hypercomm
