import Mathlib.Data.List.Basic

/-! # Runs of a labelled step relation

A run records the labels it took. Invariants are established once, by induction
on the last step. A restricted relation keeps the steps that meet a condition in
the state before them.
-/

namespace Transition

variable {σ α : Type*}

/-- A run of a labelled step relation, built from its last step. -/
inductive Run (step : σ → α → σ → Prop) (s : σ) : List α → σ → Prop
  | nil : Run step s [] s
  | snoc {t u : σ} {as : List α} {a : α} :
      Run step s as t → step t a u → Run step s (as ++ [a]) u

/-- Keep only the steps whose label meets a condition in the state before them. -/
def restrict (step : σ → α → σ → Prop) (ok : σ → α → Prop) : σ → α → σ → Prop :=
  fun s a t => ok s a ∧ step s a t

def ofFun (f : σ → α → Option σ) : σ → α → σ → Prop := fun s a t => f s a = some t

def exec (f : σ → α → Option σ) : σ → List α → Option σ
  | s, [] => some s
  | s, a :: as => (f s a).bind (exec f · as)

section Run

variable {step step' : σ → α → σ → Prop} {ok : σ → α → Prop} {s t u : σ} {a : α} {as bs : List α}

theorem Run.single (h : step s a t) : Run step s [a] t := Run.nil.snoc h

theorem Run.snoc_restrict {f : σ → α → Option σ} (h : Run (restrict (ofFun f) ok) s as t) (a : α)
    (hok : ok t a) (hf : f t a = some u) : Run (restrict (ofFun f) ok) s (as ++ [a]) u :=
  h.snoc ⟨hok, hf⟩

theorem Run.append (h : Run step s as t) (h' : Run step t bs u) : Run step s (as ++ bs) u := by
  induction h' with
  | nil => simpa using h
  | snoc _ hs ih => rw [← List.append_assoc]; exact ih.snoc hs

theorem Run.cons (h : step s a t) (h' : Run step t as u) : Run step s (a :: as) u :=
  (Run.single h).append h'

theorem Run.mono (hm : ∀ s a t, step s a t → step' s a t) (h : Run step s as t) :
    Run step' s as t := by
  induction h with
  | nil => exact .nil
  | snoc _ hs ih => exact ih.snoc (hm _ _ _ hs)

theorem Run.mono_restrict {ok' : σ → α → Prop} (h : Run (restrict step ok) s as t)
    (hm : ∀ a ∈ as, ∀ s, ok s a → ok' s a) : Run (restrict step ok') s as t := by
  induction h with
  | nil => exact .nil
  | snoc _ hs ih =>
    refine (ih fun a ha => hm a (List.mem_append_left _ ha)).snoc ⟨?_, hs.2⟩
    exact hm _ (List.mem_append_right _ (List.mem_singleton_self _)) _ hs.1

theorem Run.of_restrict (h : Run (restrict step ok) s as t) : Run step s as t :=
  h.mono fun _ _ _ hs => hs.2

/-- The invariant rule: what one step preserves holds after every run. -/
theorem Run.invariant {I : σ → Prop} (hstep : ∀ s a t, I s → step s a t → I t)
    (h : Run step s as t) (h0 : I s) : I t := by
  induction h with
  | nil => exact h0
  | snoc _ hs ih => exact hstep _ _ _ ih hs

theorem Run.invariant_labels {I : List α → σ → Prop} (h0 : I [] s)
    (hstep : ∀ as s a t, I as s → step s a t → I (as ++ [a]) t) (h : Run step s as t) :
    I as t := by
  induction h with
  | nil => exact h0
  | snoc _ hs ih => exact hstep _ _ _ _ ih hs

theorem run_of_exec {f : σ → α → Option σ} (h : exec f s as = some t) :
    Run (ofFun f) s as t := by
  induction as generalizing s with
  | nil => obtain rfl : s = t := by simpa [exec] using h
           exact .nil
  | cons a as ih =>
    obtain ⟨r, hr, ht⟩ := Option.bind_eq_some_iff.mp h
    exact .cons hr (ih ht)

theorem run_of_exec_restrict {f : σ → α → Option σ} [∀ s a, Decidable (ok s a)]
    (h : exec (fun s a => if ok s a then f s a else none) s as = some t) :
    Run (restrict (ofFun f) ok) s as t := by
  refine (run_of_exec h).mono fun s a t ht => ?_
  by_cases hok : ok s a
  · exact ⟨hok, by simpa [ofFun, hok] using ht⟩
  · simp [ofFun, hok] at ht

theorem run_nil_iff : Run step s [] t ↔ t = s := by
  constructor
  · intro h
    generalize hn : ([] : List α) = l at h
    cases h with
    | nil => rfl
    | snoc => simp at hn
  · rintro rfl; exact .nil

theorem run_snoc_iff : Run step s (as ++ [a]) u ↔ ∃ t, Run step s as t ∧ step t a u := by
  constructor
  · intro h
    generalize hn : as ++ [a] = l at h
    cases h with
    | nil => simp at hn
    | snoc hr hs =>
      obtain ⟨rfl, ha⟩ := List.append_inj' hn rfl
      obtain rfl := List.singleton_inj.mp ha
      exact ⟨_, hr, hs⟩
  · rintro ⟨t, hr, hs⟩; exact hr.snoc hs

theorem run_append_iff : Run step s (as ++ bs) u ↔ ∃ t, Run step s as t ∧ Run step t bs u := by
  constructor
  · intro h
    induction bs generalizing as with
    | nil => exact ⟨u, by simpa using h, .nil⟩
    | cons b bs ih =>
      obtain ⟨v, hv, hb⟩ := @ih (as ++ [b]) (by simpa using h)
      obtain ⟨t, ht, hs⟩ := run_snoc_iff.mp hv
      exact ⟨t, ht, .cons hs hb⟩
  · rintro ⟨t, ht, hb⟩
    exact ht.append hb

theorem run_singleton_iff : Run step s [a] t ↔ step s a t := by
  rw [← List.nil_append [a], run_snoc_iff]
  constructor
  · rintro ⟨u, hu, hs⟩
    rwa [run_nil_iff.mp hu] at hs
  · intro hs
    exact ⟨s, .nil, hs⟩

theorem Run.deterministic (hdet : ∀ s a t u, step s a t → step s a u → t = u)
    (h : Run step s as t) (h' : Run step s as u) : t = u := by
  induction h generalizing u with
  | nil => exact (run_nil_iff.mp h').symm
  | snoc _ hs ih =>
    obtain ⟨v, hv, hs'⟩ := run_snoc_iff.mp h'
    obtain rfl := ih hv
    exact hdet _ _ _ _ hs hs'

/-- A property holds throughout a run when it holds after each of its prefixes. -/
def Throughout (step : σ → α → σ → Prop) (good : σ → Prop) (s : σ) (as : List α) : Prop :=
  ∀ bs t, bs <+: as → Run step s bs t → good t

/-- When the steps that break the property are exactly those that break the
condition, a run keeps the property throughout iff all its steps meet the condition. -/
theorem Run.throughout_iff {I good : σ → Prop}
    (hdet : ∀ s a t u, step s a t → step s a u → t = u)
    (hstep : ∀ s a t, I s → ok s a → step s a t → I t) (hgood : ∀ s, I s → good s)
    (hbad : ∀ s a t, I s → ¬ ok s a → step s a t → ¬ good t) (h0 : I s)
    (h : Run step s as t) : Throughout step good s as ↔ Run (restrict step ok) s as t := by
  have hinv : ∀ {as t}, Run (restrict step ok) s as t → I t := fun hr =>
    hr.invariant (fun s a t hi hs => hstep s a t hi hs.1 hs.2) h0
  constructor
  · intro hall
    induction h with
    | nil => exact .nil
    | @snoc t u as a hr hs ih =>
      have hrr := ih fun bs t hp => hall bs t (hp.trans (List.prefix_append _ _))
      by_cases hok : ok t a
      · exact hrr.snoc ⟨hok, hs⟩
      · exact absurd (hall _ _ List.prefix_rfl (hr.snoc hs)) (hbad _ _ _ (hinv hrr) hok hs)
  · intro hr bs u hp hu
    refine hgood u ?_
    clear h
    induction hr with
    | nil =>
      obtain rfl := List.prefix_nil.mp hp
      exact hu.deterministic hdet .nil ▸ h0
    | snoc hr hs ih =>
      rcases List.prefix_concat_iff.mp hp with rfl | hp
      · exact hu.deterministic hdet (hr.of_restrict.snoc hs.2) ▸ hinv (hr.snoc hs)
      · exact ih hp

end Run

end Transition
