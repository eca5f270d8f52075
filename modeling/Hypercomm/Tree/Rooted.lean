import Mathlib.Algebra.GroupWithZero.Nat
import Mathlib.Data.List.Nodup
import Mathlib.Data.Multiset.Bind
import Mathlib.Logic.Relation

/-! # Rooted trees and what travels down them

The nodes of a tree know their parent and their children. A token that is passed
from a node to all its children reaches every node below exactly once: the tokens
on their way to a node are those held by its ancestors.
-/

/-- A finite tree among the elements of a type, with a rank that grows towards the
leaves. -/
structure RankedTree (ι : Type*) where
  nodes : List ι
  root : ι
  parent : ι → Option ι
  children : ι → List ι
  rank : ι → ℕ
  root_mem : root ∈ nodes
  parent_root : parent root = none
  exists_parent : ∀ x ∈ nodes, x ≠ root → ∃ p ∈ nodes, parent x = some p ∧ rank p < rank x
  mem_children_iff : ∀ x ∈ nodes, ∀ y, y ∈ children x ↔ y ∈ nodes ∧ parent y = some x
  nodup_children : ∀ x ∈ nodes, (children x).Nodup

namespace RankedTree

variable {ι : Type*} (T : RankedTree ι) {x y z : ι}

/-- `T.Above y x` when `y` is `x` or an ancestor of `x`. -/
def Above (y x : ι) : Prop := Relation.ReflTransGen (fun a b => T.parent a = some b) x y

variable {T}

@[refl] theorem Above.refl : T.Above x x := Relation.ReflTransGen.refl

theorem Above.trans (h : T.Above x y) (h' : T.Above y z) : T.Above x z :=
  Relation.ReflTransGen.trans h' h

theorem Above.of_parent (h : T.parent x = some y) : T.Above y x := .single h

theorem Above.total (h : T.Above y x) (h' : T.Above z x) : T.Above z y ∨ T.Above y z :=
  Relation.ReflTransGen.total_of_right_unique
    (fun _ _ _ hb hc => Option.some.inj (hb.symm.trans hc)) h h'

theorem exists_parent_of_some (hx : x ∈ T.nodes) (h : T.parent x = some y) :
    y ∈ T.nodes ∧ T.rank y < T.rank x := by
  have hne : x ≠ T.root := by
    rintro rfl
    simp [T.parent_root] at h
  obtain ⟨p, hp, hxp, hr⟩ := T.exists_parent x hx hne
  obtain rfl : p = y := Option.some.inj (hxp.symm.trans h)
  exact ⟨hp, hr⟩

theorem Above.mem_rank (hx : x ∈ T.nodes) (h : T.Above y x) :
    y ∈ T.nodes ∧ T.rank y ≤ T.rank x := by
  induction h with
  | refl => exact ⟨hx, le_rfl⟩
  | tail _ hp ih =>
    obtain ⟨hmem, hlt⟩ := exists_parent_of_some ih.1 hp
    exact ⟨hmem, hlt.le.trans ih.2⟩

theorem root_above (hx : x ∈ T.nodes) : T.Above T.root x := by
  induction hn : T.rank x using Nat.strong_induction_on generalizing x with
  | _ n ih =>
    by_cases h : x = T.root
    · exact h ▸ .refl
    · obtain ⟨p, hp, hxp, hlt⟩ := T.exists_parent x hx h
      exact (ih _ (hn ▸ hlt) hp rfl).trans (.of_parent hxp)

theorem not_above_parent (hx : x ∈ T.nodes) (h : T.parent x = some y) : ¬ T.Above x y := by
  intro ha
  obtain ⟨hy, hlt⟩ := exists_parent_of_some hx h
  exact absurd (ha.mem_rank hy).2 (by omega)

theorem child_above_unique {c d : ι} (hc : c ∈ T.nodes) (hd : d ∈ T.nodes)
    (hcy : T.parent c = some y) (hdy : T.parent d = some y) (hcx : T.Above c x)
    (hdx : T.Above d x) : c = d := by
  wlog h : T.Above d c generalizing c d
  · exact (this hd hc hdy hcy hdx hcx ((hcx.total hdx).resolve_left h)).symm
  rcases Relation.ReflTransGen.cases_head h with rfl | ⟨p, hp, hdp⟩
  · rfl
  · obtain rfl : p = y := Option.some.inj (hp.symm.trans hcy)
    exact absurd hdp (not_above_parent hd hdy)

theorem Above.exists_child (hx : x ∈ T.nodes) (hy : y ∈ T.nodes) (h : T.Above y x) (hne : x ≠ y) :
    ∃ c ∈ T.children y, T.Above c x := by
  rcases Relation.ReflTransGen.cases_tail h with rfl | ⟨c, hxc, hc⟩
  · exact absurd rfl hne
  · exact ⟨c, (T.mem_children_iff y hy c).mpr ⟨(Above.mem_rank hx hxc).1, hc⟩, hxc⟩

open Classical in
theorem countP_children (hx : x ∈ T.nodes) (hy : y ∈ T.nodes) :
    (T.children y).countP (T.Above · x) = if T.Above y x ∧ x ≠ y then 1 else 0 := by
  split
  case isTrue h =>
    obtain ⟨c, hc, hcx⟩ := h.1.exists_child hx hy h.2
    have hcp := (T.mem_children_iff y hy c).mp hc
    rw [← List.count_eq_one_of_mem (T.nodup_children y hy) hc, List.count]
    refine List.countP_congr fun d hd => ?_
    have hdp := (T.mem_children_iff y hy d).mp hd
    simp only [decide_eq_true_eq, beq_iff_eq]
    constructor
    · exact fun hdx => child_above_unique hdp.1 hcp.1 hdp.2 hcp.2 hdx hcx
    · rintro rfl; exact hcx
  case isFalse h =>
    refine List.countP_eq_zero.mpr fun c hc hcx => h ?_
    have hcp := (T.mem_children_iff y hy c).mp hc
    have hcx : T.Above c x := by simpa using hcx
    refine ⟨(Above.of_parent hcp.2).trans hcx, ?_⟩
    rintro rfl
    exact not_above_parent hcp.1 hcp.2 hcx

section Below

open Classical in
variable (T) in
noncomputable def below (x : ι) : Multiset ι := (T.nodes : Multiset ι).filter (T.Above x)

theorem below_root : T.below T.root = T.nodes := by
  classical
  exact Multiset.filter_eq_self.mpr fun _ hx => root_above hx

theorem sum_map_ite (p : ι → Prop) [DecidablePred p] (l : List ι) :
    (l.map fun a => if p a then 1 else 0).sum = l.countP p := by
  induction l with
  | nil => rfl
  | cons a l ih => by_cases h : p a <;> simp [h, ih, Nat.add_comm]

theorem below_eq (hnd : T.nodes.Nodup) (hx : x ∈ T.nodes) :
    T.below x = x ::ₘ (T.children x : Multiset ι).bind T.below := by
  classical
  ext y
  have hcount : ∀ z, (T.below z).count y = if T.Above z y then T.nodes.count y else 0 := fun z => by
    rw [below, Multiset.count_filter, Multiset.coe_count]
  rw [Multiset.count_cons, Multiset.count_bind, hcount]
  simp only [hcount, Multiset.map_coe, Multiset.sum_coe]
  by_cases hy : y ∈ T.nodes
  · rw [List.count_eq_one_of_mem hnd hy, sum_map_ite (T.Above · y), countP_children hy hx]
    rcases eq_or_ne y x with rfl | hne
    · simp [Above.refl]
    · simp [hne]
  · have hyx : y ≠ x := by rintro rfl; exact hy hx
    simp [List.count_eq_zero_of_not_mem hy, hyx]

end Below

section Paths

structure IsPath (next : ι → List ι) (x y : ι) (path : List ι) : Prop where
  head : path.head? = some x
  last : path.getLast? = some y
  chain : path.IsChain fun a b => b ∈ next a

theorem IsPath.singleton (next : ι → List ι) (x : ι) : IsPath next x x [x] :=
  ⟨rfl, rfl, .singleton x⟩

theorem IsPath.snoc {next : ι → List ι} {path : List ι} (h : IsPath next x y path)
    (hz : z ∈ next y) : IsPath next x z (path ++ [z]) where
  head := by simp [h.head]
  last := by simp
  chain := by
    apply h.chain.append (.singleton z)
    intro a ha b hb
    rw [h.last, Option.mem_some_iff] at ha
    simp only [List.head?_cons, Option.mem_some_iff] at hb
    exact ha ▸ hb ▸ hz

theorem IsPath.snoc_cases {next : ι → List ι} {path : List ι} (h : IsPath next x z path) :
    (path = [x] ∧ z = x) ∨ ∃ y path', path = path' ++ [z] ∧ z ∈ next y ∧ IsPath next x y path' := by
  rcases List.eq_nil_or_concat' path with rfl | ⟨path', z', rfl⟩
  · cases h.head
  · obtain rfl : z' = z := by simpa using h.last
    rcases List.eq_nil_or_concat' path' with rfl | ⟨path'', y, rfl⟩
    · have hx : z' = x := by simpa using h.head
      exact .inl ⟨by rw [hx]; rfl, hx⟩
    · have hc := List.isChain_append.mp h.chain
      refine .inr ⟨y, path'' ++ [y], rfl, hc.2.2 y (by simp) z' (by simp), ?_, by simp, hc.1⟩
      have := h.head
      simpa using this

/-- Each node is reached from the root on exactly one path. -/
theorem existsUnique_path (hx : x ∈ T.nodes) : ∃! path, IsPath T.children T.root x path := by
  have hroot : ∀ y ∈ T.nodes, T.root ∉ T.children y := by
    intro y hy hr
    have hp := ((T.mem_children_iff y hy _).mp hr).2
    rw [T.parent_root] at hp
    cases hp
  have hmem : ∀ {x path}, IsPath T.children T.root x path → x ∈ T.nodes := by
    intro x path h
    induction hn : path.length generalizing x path with
    | zero =>
      rw [List.length_eq_zero_iff] at hn
      cases hn ▸ h.head
    | succ n ih =>
      rcases h.snoc_cases with ⟨-, rfl⟩ | ⟨y, path', rfl, hz, hp⟩
      · exact T.root_mem
      · have hy := ih hp (by simpa using hn)
        exact ((T.mem_children_iff y hy x).mp hz).1
  induction hn : T.rank x using Nat.strong_induction_on generalizing x with
  | _ n ih =>
    by_cases hxr : x = T.root
    · subst hxr
      refine ⟨[T.root], .singleton _ _, fun path h => ?_⟩
      rcases h.snoc_cases with ⟨rfl, -⟩ | ⟨y, path', -, hz, hp⟩
      · rfl
      · exact absurd hz (hroot y (hmem hp))
    · obtain ⟨p, hp, hxp, hlt⟩ := T.exists_parent x hx hxr
      obtain ⟨path, hpath, hunique⟩ := ih _ (hn ▸ hlt) hp rfl
      have hchild : x ∈ T.children p := (T.mem_children_iff p hp x).mpr ⟨hx, hxp⟩
      refine ⟨path ++ [x], hpath.snoc hchild, fun path' h => ?_⟩
      rcases h.snoc_cases with ⟨-, hr⟩ | ⟨y, path'', rfl, hz, hy⟩
      · exact absurd hr hxr
      · have hyp := ((T.mem_children_iff y (hmem hy) x).mp hz).2
        obtain rfl : y = p := Option.some.inj (hyp.symm.trans hxp)
        rw [hunique path'' hy]

end Paths

section OnTheWay

variable {α : Type*} {f : Multiset (ι × α)}

variable (T) in
open Classical in
/-- The tokens on their way to a node. -/
noncomputable def onTheWay (f : Multiset (ι × α)) (x : ι) : Multiset α :=
  (f.filter fun t => T.Above t.1 x).map Prod.snd

@[simp] theorem onTheWay_zero : T.onTheWay (0 : Multiset (ι × α)) x = 0 := by
  simp [onTheWay]

@[simp] theorem onTheWay_add (f g : Multiset (ι × α)) :
    T.onTheWay (f + g) x = T.onTheWay f x + T.onTheWay g x := by
  simp [onTheWay]

open Classical in
@[simp] theorem onTheWay_cons (t : ι × α) :
    T.onTheWay (t ::ₘ f) x = (if T.Above t.1 x then {t.2} else 0) + T.onTheWay f x := by
  by_cases h : T.Above t.1 x <;> simp [onTheWay, h]

/-- Handing a token to all children of a node changes nothing for the others. -/
theorem onTheWay_children [DecidableEq ι] (hx : x ∈ T.nodes) (hy : y ∈ T.nodes) (a : α) :
    T.onTheWay ((T.children y).map (·, a) : Multiset (ι × α)) x +
      (if x = y then {a} else (0 : Multiset α)) = T.onTheWay {(y, a)} x := by
  classical
  have hmap : T.onTheWay ((T.children y).map (·, a) : Multiset (ι × α)) x =
      Multiset.replicate ((T.children y).countP (T.Above · x)) a := by
    rw [Multiset.eq_replicate]
    refine ⟨?_, fun b hb => ?_⟩
    · simp [onTheWay, List.countP_eq_length_filter, List.filter_map, Function.comp_def]
    · simp only [onTheWay, Multiset.mem_map, Multiset.mem_filter, Multiset.mem_coe,
        List.mem_map] at hb
      obtain ⟨_, ⟨⟨c, -, rfl⟩, -⟩, rfl⟩ := hb
      rfl
  rw [hmap, countP_children hx hy]
  rcases eq_or_ne x y with rfl | hne
  · simp [onTheWay, Multiset.filter_singleton, Above.refl]
  · by_cases h : T.Above y x <;> simp [onTheWay, Multiset.filter_singleton, h, hne]

end OnTheWay

end RankedTree
