import Mathlib.Data.List.Basic

/-! # A reader of channels

A reader names the one channel it wants to read next, and what it reads decides
its next state. Whatever the order in which messages arrive on different channels,
a reader that reads for as long as it can reads the same sequence.
-/

namespace Transition

/-- A process that waits on one channel at a time, or has stopped. -/
structure Reader (σ κ π : Type*) where
  wants : σ → Option κ
  read : σ → π → σ

namespace Reader

variable {σ κ π : Type*} [DecidableEq κ] (R : Reader σ κ π)

def readAll : σ → List (κ × π) → Option σ
  | s, [] => some s
  | s, (k, p) :: l => if R.wants s = some k then readAll (R.read s p) l else none

def received (k : κ) (l : List (κ × π)) : List π := (l.filter (·.1 = k)).map Prod.snd

variable {R} {s t t₁ t₂ : σ} {k : κ} {p : π} {l l' l₁ l₂ : List (κ × π)} {ch : κ → List π}

@[simp] theorem received_nil : received k ([] : List (κ × π)) = [] := rfl

@[simp] theorem received_append : received k (l ++ l') = received k l ++ received k l' := by
  simp [received]

theorem received_cons (x : κ × π) :
    received k (x :: l) = if x.1 = k then x.2 :: received k l else received k l := by
  by_cases h : x.1 = k <;> simp [received, h]

@[simp] theorem received_singleton (x : κ × π) :
    received k [x] = if x.1 = k then [x.2] else [] := received_cons x

theorem readAll_append : R.readAll s (l ++ l') = (R.readAll s l).bind (R.readAll · l') := by
  induction l generalizing s with
  | nil => rfl
  | cons x l ih => by_cases h : R.wants s = some x.1 <;> simp [readAll, h, ih]

theorem readAll_concat (h : R.readAll s l = some t) (hk : R.wants t = some k) :
    R.readAll s (l ++ [(k, p)]) = some (R.read t p) := by
  simp [readAll_append, h, readAll, hk]

theorem readAll_cons_eq_some (h : R.readAll s ((k, p) :: l) = some t) :
    R.wants s = some k ∧ R.readAll (R.read s p) l = some t := by
  by_cases hk : R.wants s = some k
  · exact ⟨hk, by simpa [readAll, hk] using h⟩
  · simp [readAll, hk] at h

/-- The sequence reads from the channels in order, until the reader wants a message
that is not there. -/
structure Exhausts (R : Reader σ κ π) (ch : κ → List π) (s : σ) (l : List (κ × π)) (t : σ) :
    Prop where
  reads : R.readAll s l = some t
  ordered : ∀ k, received k l <+: ch k
  last : ∀ k, R.wants t = some k → received k l = ch k

theorem Exhausts.tail (h : Exhausts R ch s ((k, p) :: l) t) : R.wants s = some k ∧
    ch k = p :: (ch k).tail ∧ Exhausts R (Function.update ch k (ch k).tail) (R.read s p) l t := by
  obtain ⟨hk, hl⟩ := readAll_cons_eq_some h.reads
  obtain ⟨rest, hrest⟩ : ∃ rest, p :: received k l ++ rest = ch k := by
    obtain ⟨rest, hrest⟩ := h.ordered k
    exact ⟨rest, by simpa [received_cons] using hrest⟩
  refine ⟨hk, by simp [← hrest], hl, fun j => ?_, fun j hj => ?_⟩
  · rcases eq_or_ne j k with rfl | hne
    · simp [← hrest]
    · simpa [received_cons, hne, hne.symm] using h.ordered j
  · have hlast := h.last j hj
    rcases eq_or_ne j k with rfl | hne
    · simp only [received_cons, if_true] at hlast
      simp [← hlast]
    · simpa [received_cons, hne, hne.symm] using hlast

theorem Exhausts.not_nil_cons {x : κ × π} (hn : Exhausts R ch s [] t₁)
    (hc : Exhausts R ch s (x :: l) t₂) : False := by
  obtain ⟨hk, hch, -⟩ := Exhausts.tail (k := x.1) (p := x.2) hc
  obtain rfl : s = t₁ := Option.some.inj hn.reads
  have := hn.last x.1 hk
  rw [hch] at this
  simp at this

/-- Two readers of the same channels that read for as long as they can read the same
sequence: each state determines the channel, and the channel the message. -/
theorem Exhausts.unique (h₁ : Exhausts R ch s l₁ t₁) (h₂ : Exhausts R ch s l₂ t₂) : l₁ = l₂ := by
  induction l₁ generalizing s l₂ ch with
  | nil =>
    cases l₂ with
    | nil => rfl
    | cons x l₂ => exact absurd h₂ h₁.not_nil_cons
  | cons x l₁ ih =>
    cases l₂ with
    | nil => exact absurd h₁ h₂.not_nil_cons
    | cons y l₂ =>
      obtain ⟨hk, hp, ht⟩ := Exhausts.tail (k := x.1) (p := x.2) h₁
      obtain ⟨hk', hp', ht'⟩ := Exhausts.tail (k := y.1) (p := y.2) h₂
      obtain ⟨k, p⟩ := x
      obtain ⟨j, q⟩ := y
      obtain rfl : k = j := Option.some.inj (hk.symm.trans hk')
      obtain rfl : p = q := (List.cons.inj (hp.symm.trans hp')).1
      rw [ih ht ht']

end Reader

end Transition
