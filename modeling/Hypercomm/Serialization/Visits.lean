import Hypercomm.Serialization.Passes

/-! # Visits

A pass over a value follows the pointers that lead to an owner for the first time. Which ones these
are depends on the owners alone, neither on what is deferred nor on the records.
-/

namespace Hypercomm.Serialization

/-- The pointers that lead to an owner for the first time, depth first, before and after some
pointers are followed. -/
inductive Visits {ω α : Type*} [DecidableEq α] (h : Heap ω α) :
    List (Ptr ω α) → List (Ptr ω α) → List (Ptr ω α) → Prop
  | nil (V) : Visits h [] V V
  | again {p ps V W} : p.owner ∈ V.map Ptr.owner → Visits h ps V W → Visits h (p :: ps) V W
  | first {p o ps V W U} : p.owner ∉ V.map Ptr.owner → h.lookup p.addr = some o →
      Visits h o.value.ptrs (V ++ [p]) W → Visits h ps W U → Visits h (p :: ps) V U

section Visits

variable {ω α : Type*} [DecidableEq α] {h : Heap ω α} {ps qs V W U : List (Ptr ω α)}
variable {G : Ptr ω α → Prop} {p q : Ptr ω α}

theorem visits_append :
    Visits h (ps ++ qs) V U ↔ ∃ W, Visits h ps V W ∧ Visits h qs W U := by
  constructor
  · intro hv
    induction ps generalizing V with
    | nil => exact ⟨V, .nil V, hv⟩
    | cons p ps ih =>
      cases hv with
      | again hm hv =>
        obtain ⟨W, hW, hU⟩ := ih hv
        exact ⟨W, .again hm hW, hU⟩
      | first hm ho hx hv =>
        obtain ⟨W, hW, hU⟩ := ih hv
        exact ⟨W, .first hm ho hx hW, hU⟩
  · rintro ⟨W, hps, hqs⟩
    induction hps with
    | nil => exact hqs
    | again hm _ ih => exact .again hm (ih hqs)
    | first hm ho hx _ _ ih => exact .first hm ho hx (ih hqs)

theorem Visits.eq (hW : Visits h ps V W) (hU : Visits h ps V U) : W = U := by
  induction hW generalizing U with
  | nil => cases hU; rfl
  | again hm _ ih =>
    cases hU with
    | again _ hU => exact ih hU
    | first hn => exact absurd hm hn
  | first hm ho _ _ ihx ih =>
    cases hU with
    | again hm' => exact absurd hm' hm
    | first _ ho' hx hU =>
      cases ho.symm.trans ho'
      cases ihx hx
      exact ih hU

theorem Visits.mem (hv : Visits h ps V W) (hstep : ∀ p q, G p → Edge h p q → G q)
    (hps : ∀ p ∈ ps, G p) (hV : ∀ p ∈ V, G p) : ∀ p ∈ W, G p := by
  induction hv with
  | nil => exact hV
  | again _ _ ih => exact ih (fun p hp => hps p (List.mem_cons_of_mem _ hp)) hV
  | @first p o _ _ _ _ _ ho _ _ ihx ih =>
    have hp : G p := hps p List.mem_cons_self
    apply ih (fun q hq => hps q (List.mem_cons_of_mem _ hq))
    apply ihx (fun q hq => hstep p q hp ⟨o, ho, hq⟩)
    intro q hq
    rcases List.mem_append.mp hq with hq | hq
    · exact hV q hq
    · exact List.mem_singleton.mp hq ▸ hp

theorem Visits.nodup (hv : Visits h ps V W) (hV : (V.map Ptr.owner).Nodup) :
    (W.map Ptr.owner).Nodup := by
  induction hv with
  | nil => exact hV
  | again _ _ ih => exact ih hV
  | first ho _ _ _ ihx ih =>
    apply ih
    apply ihx
    rw [List.map_append, List.map_singleton, List.nodup_append]
    refine ⟨hV, List.nodup_singleton _, fun a ha b hb hab => ?_⟩
    rw [List.mem_singleton] at hb
    exact ho (hb ▸ hab ▸ ha)

/-- The pointers that were followed before matter only by their owners. -/
theorem Visits.shift (hv : Visits h ps V W) (hstep : ∀ p q, G p → Edge h p q → G q)
    (hps : ∀ p ∈ ps, G p) : ∃ U, W = V ++ U ∧ ∀ V',
      (∀ p, G p → (p.owner ∈ V'.map Ptr.owner ↔ p.owner ∈ V.map Ptr.owner)) →
        Visits h ps V' (V' ++ U) := by
  induction hv with
  | nil V =>
    refine ⟨[], by simp, fun V' _ => ?_⟩
    rw [List.append_nil]
    exact .nil V'
  | again hm _ ih =>
    obtain ⟨U, hU, ih⟩ := ih fun p hp => hps p (List.mem_cons_of_mem _ hp)
    exact ⟨U, hU, fun V' hV => .again ((hV _ (hps _ List.mem_cons_self)).mpr hm) (ih V' hV)⟩
  | @first p o ps V W U hm ho _ _ ihx ih =>
    have hp : G p := hps p List.mem_cons_self
    obtain ⟨X, rfl, hX⟩ := ihx fun q hq => hstep p q hp ⟨o, ho, hq⟩
    obtain ⟨Y, rfl, hY⟩ := ih fun p hp => hps p (List.mem_cons_of_mem _ hp)
    refine ⟨p :: X ++ Y, by simp, fun V' hV => ?_⟩
    have hcons : ∀ q, G q → (q.owner ∈ (V' ++ [p]).map Ptr.owner ↔
        q.owner ∈ (V ++ [p]).map Ptr.owner) := by
      intro q hq
      simp only [List.map_append, List.mem_append, hV q hq]
    have hboth : ∀ q, G q → (q.owner ∈ (V' ++ [p] ++ X).map Ptr.owner ↔
        q.owner ∈ (V ++ [p] ++ X).map Ptr.owner) := by
      intro q hq
      have hq := hcons q hq
      simp only [List.map_append, List.mem_append] at hq ⊢
      rw [hq]
    have hV' : V' ++ (p :: X ++ Y) = V' ++ [p] ++ X ++ Y := by simp
    rw [hV']
    exact .first (mt (hV p hp).mp hm) ho (hX _ hcons) (hY _ hboth)

theorem ptrs_eq_nil_of_defers {fields : ℕ → Ty} {x : Obj (Ptr ω α)} (hx : x.HasTy fields h)
    (hd : x.defers true = true) : x.value.ptrs = [] := by
  cases x with
  | poly c w => cases hd
  | data T w =>
    cases T with
    | bytes n =>
      cases hx
      rfl
    | _ => cases hd

end Visits

end Hypercomm.Serialization
