import Mathlib.Algebra.Order.BigOperators.Group.Finset
import Mathlib.Algebra.Order.Group.Multiset
import Mathlib.Data.Finset.Lattice.Fold
import Mathlib.Logic.Function.Basic
import Hypercomm.Tree.Rooted

/-! # Gathering in a tree that loses nodes

Nodes give values round after round. In each round a node waits for its children, and then sends
what it has gathered. A node may leave once it waits for nothing, and its children are adopted by
the node above it that is left. A node that has left is awaited in the rounds that it took part
in, and its children are awaited in the rounds after these.
-/

namespace Contraction

def assign {α β γ : Type*} [DecidableEq α] [DecidableEq β] (f : α → β → γ) (a : α) (b : β) (v : γ) :
    α → β → γ :=
  fun a' b' => if a' = a ∧ b' = b then v else f a' b'

section Assign

variable {α β γ : Type*} [DecidableEq α] [DecidableEq β] {f : α → β → γ} {v : γ}
variable {a a' : α} {b b' : β}

@[simp] theorem assign_self : assign f a b v a b = v := if_pos ⟨rfl, rfl⟩

theorem assign_of_ne (h : ¬ (a' = a ∧ b' = b)) : assign f a b v a' b' = f a' b' := if_neg h

theorem assign_none_eq_some_iff {f : α → β → Option γ} {w : γ} :
    assign f a b none a' b' = some w ↔ ¬ (a' = a ∧ b' = b) ∧ f a' b' = some w := by
  unfold assign
  split_ifs with h <;> simp [h]

end Assign

/-- Who is there, whose messages go on to its parent, what was given in each round (nothing in those
before a node was there), the children, what a node waits for in a round with what it has gathered,
and what it sent and nobody took. -/
structure State (ι V : Type*) where
  alive : ι → Prop
  forwards : ι → Prop
  own : ι → List (Option V)
  children : ι → Finset ι
  pending : ι → ℕ → Option (Finset ι × Multiset V)
  sent : ι → ℕ → Option (Multiset V)

variable {ι V : Type*} [DecidableEq ι]

namespace State

def issue (x : ι) (v : V) (s : State ι V) : State ι V :=
  { s with
    own := Function.update s.own x (s.own x ++ [some v])
    pending := assign s.pending x (s.own x).length (some (s.children x, {v})) }

def take (x y : ι) (c : ℕ) (wait : Finset ι) (acc : Multiset V) (s : State ι V) : State ι V :=
  { s with
    pending := assign s.pending x c (some (wait, acc))
    sent := assign s.sent y c none }

def complete (x : ι) (c : ℕ) (acc : Multiset V) (s : State ι V) : State ι V :=
  { s with
    pending := assign s.pending x c none
    sent := assign s.sent x c (some acc) }

def leave (x : ι) (s : State ι V) : State ι V :=
  { s with
    alive := Function.update s.alive x False
    forwards := Function.update s.forwards x (s.children x).Nonempty }

/-- Change what a node waits for in the rounds that another one takes no part in. -/
def rewait (x u : ι) (f : Finset ι → Finset ι) (s : State ι V) :
    ι → ℕ → Option (Finset ι × Multiset V) :=
  fun z c => if z = x ∧ (s.own u).length ≤ c then (s.pending z c).map (Prod.map f id)
    else s.pending z c

def adopt (x u y : ι) (s : State ι V) : State ι V :=
  { s with
    children := Function.update (Function.update s.children u ((s.children u).erase y)) x
      (insert y (s.children x))
    pending := s.rewait x u (insert y) }

def drop (x u : ι) (s : State ι V) : State ι V :=
  { s with
    children := Function.update s.children x ((s.children x).erase u)
    pending := s.rewait x u (Finset.erase · u) }

def Done (s : State ι V) (x : ι) (c : ℕ) : Prop := c < (s.own x).length ∧ s.pending x c = none

def Consumed (s : State ι V) (x : ι) (c : ℕ) : Prop := s.Done x c ∧ s.sent x c = none

def Owned (s : State ι V) (y : ι) : Prop := ∃ x, y ∈ s.children x

/-- A node will not be heard of in a round any more. -/
def Silent (s : State ι V) (y : ι) (c : ℕ) : Prop :=
  s.sent y c = none ∧ (s.Done y c ∨ ¬ s.alive y ∧ ¬ s.Owned y)

/-- What a node has gathered in a round and nobody took. -/
def gathered (s : State ι V) (x : ι) (c : ℕ) : Multiset V :=
  (s.pending x c).elim 0 Prod.snd + (s.sent x c).getD 0

def given (s : State ι V) (x : ι) (c : ℕ) : Multiset V := (s.own x)[c]?.join.toList

end State

variable (T : RankedTree ι)

/-- Where messages for a node are forwarded to. -/
def Reaches (s : State ι V) : ι → ι → Prop :=
  Relation.ReflTransGen fun a b => s.forwards a ∧ T.parent a = some b

/-- Messages of the first node for its parent get to the second. -/
def Under (s : State ι V) (y x : ι) : Prop := ∃ p, T.parent y = some p ∧ Reaches T s p x

structure Inv (s : State ι V) : Prop where
  nodes : ∀ x, s.alive x → x ∈ T.nodes
  own : ∀ x, s.own x ≠ [] → x ∈ T.nodes
  root : s.alive T.root
  forwards : ∀ x, s.forwards x → x ∈ T.nodes ∧ ¬ s.alive x
  mem : ∀ x, ∀ y ∈ s.children x, y ∈ T.nodes
  unique : ∀ x x' y, y ∈ s.children x → y ∈ s.children x' → x = x'
  owned : ∀ y, s.alive y → y ≠ T.root → s.Owned y
  under : ∀ x, ∀ y ∈ s.children x, Under T s y x
  left : ∀ x, ¬ s.alive x → (s.children x).Nonempty → s.forwards x ∧ s.Owned x
  pending : ∀ x c p, s.pending x c = some p →
    s.alive x ∧ c < (s.own x).length ∧ ∀ y ∈ p.1, Under T s y x
  waits : ∀ x c p, s.pending x c = some p → ∀ y ∈ s.children x, y ∈ p.1 ∨ s.Consumed y c
  awaited : ∀ x c p, s.pending x c = some p → ∀ y ∈ p.1,
    (y ∈ s.children x ∧ (s.Done y c → s.sent y c ≠ none)) ∨ (¬ s.Owned y ∧ s.sent y c ≠ none)
  consumed : ∀ x c, s.Done x c → ∀ y ∈ s.children x, s.Consumed y c
  early : ∀ x c, (s.own x).length ≤ c → ∀ y ∈ s.children x, s.Done y c → s.sent y c ≠ none
  sent : ∀ y c, s.sent y c ≠ none →
    s.Done y c ∧ (y = T.root ∨ s.Owned y ∨ ∃ x p, s.pending x c = some p ∧ y ∈ p.1)

variable {T} {s t : State ι V} {x y z u : ι} {c : ℕ} {v : V} {p : Finset ι × Multiset V}
variable {acc : Multiset V}

section Paths

omit [DecidableEq ι]

theorem Reaches.mono (h : Reaches T s x y) (hf : ∀ z, s.forwards z → t.forwards z) :
    Reaches T t x y :=
  Relation.ReflTransGen.mono (fun _ _ he => ⟨hf _ he.1, he.2⟩) x y h

theorem Under.mono (h : Under T s x y) (hf : ∀ z, s.forwards z → t.forwards z) : Under T t x y := by
  obtain ⟨p, hp, hr⟩ := h
  exact ⟨p, hp, hr.mono hf⟩

theorem Reaches.total (h : Reaches T s x y) (h' : Reaches T s x z) :
    Reaches T s y z ∨ Reaches T s z y :=
  Relation.ReflTransGen.total_of_right_unique
    (fun _ _ _ hb hc => Option.some.inj (hb.2.symm.trans hc.2)) h h'

theorem Reaches.eq_of_not_forwards (h : Reaches T s x y) (hx : ¬ s.forwards x) : x = y := by
  rcases Relation.ReflTransGen.cases_head h with rfl | ⟨z, hz, -⟩
  · rfl
  · exact absurd hz.1 hx

theorem Reaches.above (h : Reaches T s x y) : T.Above y x := by
  induction h with
  | refl => rfl
  | tail _ hab ih => exact RankedTree.Above.trans (RankedTree.Above.of_parent hab.2) ih

theorem Reaches.forwards_or_above (h : Reaches T s x y) (hz : T.Above z x) :
    s.forwards z ∨ T.Above z y := by
  induction h using Relation.ReflTransGen.head_induction_on with
  | refl => exact .inr hz
  | head hab _ ih =>
    rcases Relation.ReflTransGen.cases_head hz with rfl | ⟨q, hq, hzq⟩
    · exact .inl hab.1
    · obtain rfl := Option.some.inj (hq.symm.trans hab.2)
      exact ih hzq

theorem Under.rank_lt (h : Under T s y x) (hy : y ∈ T.nodes) :
    x ∈ T.nodes ∧ T.rank x < T.rank y := by
  obtain ⟨p, hp, hr⟩ := h
  obtain ⟨hmem, hlt⟩ := RankedTree.exists_parent_of_some hy hp
  obtain ⟨hx, hle⟩ := hr.above.mem_rank hmem
  exact ⟨hx, hle.trans_lt hlt⟩

theorem Under.ne_root (h : Under T s y x) : y ≠ T.root := by
  rintro rfl
  obtain ⟨p, hp, -⟩ := h
  rw [T.parent_root] at hp
  cases hp

theorem Under.reaches (h : Under T s y x) (h' : Under T s y z) (hx : ¬ s.forwards x) :
    Reaches T s z x := by
  obtain ⟨p, hp, hr⟩ := h
  obtain ⟨p', hp', hr'⟩ := h'
  obtain rfl := Option.some.inj (hp.symm.trans hp')
  rcases hr.total hr' with hxz | hzx
  · exact hxz.eq_of_not_forwards hx ▸ .refl
  · exact hzx

theorem Under.tail (h : Under T s y x) (hx : s.forwards x) (h' : Under T s x z) :
    Under T s y z := by
  obtain ⟨p, hp, hr⟩ := h
  obtain ⟨q, hq, hr'⟩ := h'
  exact ⟨p, hp, (hr.tail ⟨hx, hq⟩).trans hr'⟩

end Paths

namespace Inv

variable (h : Inv T s)

include h

section Owners

omit [DecidableEq ι]

theorem not_forwards (hx : s.alive x) : ¬ s.forwards x := fun hf => (h.forwards x hf).2 hx

theorem under_unique (hx : s.alive x) (hz : s.alive z) (hyx : Under T s y x) (hyz : Under T s y z) :
    z = x :=
  (hyx.reaches hyz (h.not_forwards hx)).eq_of_not_forwards (h.not_forwards hz)

/-- The owner of a node is there, or its messages get to the same place as those of the node. -/
theorem owner_cases (hx : s.alive x) (hyx : Under T s y x) (hy : y ∈ s.children z) :
    z = x ∨ ¬ s.alive z ∧ Under T s z x := by
  have hr := hyx.reaches (h.under z y hy) (h.not_forwards hx)
  rcases Relation.ReflTransGen.cases_head hr with rfl | ⟨q, hq, hqx⟩
  · exact .inl rfl
  · exact .inr ⟨(h.forwards z hq.1).2, q, hq.2, hqx⟩

/-- Above a node that is owned, a node forwards, or has a child that is above the node as well. -/
theorem forwards_or_child (hy : s.Owned y) (hu : T.Above u y) (hne : u ≠ y) :
    s.forwards u ∨ ∃ w ∈ s.children u, T.Above w y := by
  induction hn : T.rank y using Nat.strong_induction_on generalizing y with
  | _ n ih =>
    obtain ⟨z, hz⟩ := hy
    obtain ⟨p, hp, hr⟩ := h.under z y hz
    obtain ⟨p', hp', hup⟩ := (Relation.ReflTransGen.cases_head hu).resolve_left (Ne.symm hne)
    obtain rfl := Option.some.inj (hp'.symm.trans hp)
    rcases hr.forwards_or_above hup with hf | hzu
    · exact .inl hf
    · rcases eq_or_ne u z with rfl | huz
      · exact .inr ⟨y, hz, .refl⟩
      · have hzo : s.Owned z := by
          by_cases hza : s.alive z
          · refine h.owned z hza fun hroot => huz ?_
            rcases Relation.ReflTransGen.cases_head hzu with rfl | ⟨q, hq, -⟩
            · rfl
            · rw [hroot, T.parent_root] at hq
              cases hq
          · exact (h.left z hza ⟨y, hz⟩).2
        have hlt := ((h.under z y hz).rank_lt (h.mem z y hz)).2
        refine (ih _ (hn ▸ hlt) hzo hzu huz rfl).imp_right ?_
        rintro ⟨w, hw, hwz⟩
        exact ⟨w, hw, hwz.trans (hr.above.trans (.of_parent hp))⟩

theorem done_of_done (hx : s.alive x) (hu : Under T s u x) (ho : s.Owned u) (hd : s.Done x c) :
    s.Done u c := by
  induction hn : T.rank u using Nat.strong_induction_on generalizing u with
  | _ n ih =>
    obtain ⟨z, hz⟩ := ho
    refine (h.consumed z c ?_ u hz).1
    rcases h.owner_cases hx hu hz with rfl | ⟨hzd, hzx⟩
    · exact hd
    · have hlt := ((h.under z u hz).rank_lt (h.mem z u hz)).2
      exact ih _ (hn ▸ hlt) hzx (h.left z hzd ⟨u, hz⟩).2 rfl

theorem ne_of_mem (hy : y ∈ s.children x) : x ≠ y := by
  rintro rfl
  exact lt_irrefl _ ((h.under x x hy).rank_lt (h.mem x x hy)).2

theorem done_of_left (hx : ¬ s.alive x) (hc : c < (s.own x).length) : s.Done x c := by
  refine ⟨hc, ?_⟩
  cases hp : s.pending x c with
  | none => rfl
  | some p => exact absurd (h.pending x c p hp).1 hx

theorem sent_eq_none (hd : ¬ s.Done y c) : s.sent y c = none := by
  by_contra hne
  exact hd (h.sent y c hne).1

theorem mem_of_sent (hs : s.sent y c ≠ none) : y ∈ T.nodes := by
  apply h.own y
  have hc := (h.sent y c hs).1.1
  exact List.ne_nil_of_length_pos (Nat.zero_lt_of_lt hc)

theorem wait_unique {x' : ι} {p' : Finset ι × Multiset V} (hp : s.pending x c = some p)
    (hp' : s.pending x' c = some p') (hy : y ∈ p.1) (hy' : y ∈ p'.1) : x' = x :=
  h.under_unique (h.pending x c p hp).1 (h.pending x' c p' hp').1 ((h.pending x c p hp).2.2 y hy)
    ((h.pending x' c p' hp').2.2 y hy')

end Owners

omit h in
@[simp] theorem issue_done : (s.issue x v).Done y c ↔ s.Done y c := by
  unfold State.Done State.issue
  dsimp only
  by_cases hy : y = x ∧ c = (s.own x).length
  · obtain ⟨rfl, rfl⟩ := hy
    simp
  · rw [assign_of_ne hy]
    rcases eq_or_ne y x with rfl | hne
    · have hc : c ≠ (s.own y).length := fun hc => hy ⟨rfl, hc⟩
      rw [Function.update_self, List.length_append, List.length_singleton]
      refine and_congr_left fun _ => ?_
      omega
    · rw [Function.update_of_ne hne]

theorem issue (hx : s.alive x) (v : V) : Inv T (s.issue x v) := by
  have hlt : ∀ z c, c < (s.own z).length → c < ((s.issue x v).own z).length := by
    intro z c hc
    change c < (Function.update s.own x (s.own x ++ [some v]) z).length
    rcases eq_or_ne z x with rfl | hne
    · rw [Function.update_self, List.length_append]
      exact hc.trans_le (Nat.le_add_right _ _)
    · rwa [Function.update_of_ne hne]
  have hcases : ∀ z c p, (s.issue x v).pending z c = some p →
      (z = x ∧ c = (s.own x).length ∧ p = (s.children x, {v})) ∨ s.pending z c = some p := by
    intro z c p hp
    change assign s.pending x (s.own x).length (some (s.children x, {v})) z c = some p at hp
    unfold assign at hp
    split_ifs at hp with hzc
    · exact .inl ⟨hzc.1, hzc.2, (Option.some.inj hp).symm⟩
    · exact .inr hp
  have hkeep : ∀ z c p, s.pending z c = some p → (s.issue x v).pending z c = some p := by
    intro z c p hp
    change assign s.pending x (s.own x).length (some (s.children x, {v})) z c = some p
    rw [assign_of_ne, hp]
    rintro ⟨rfl, rfl⟩
    exact lt_irrefl _ (h.pending z _ p hp).2.1
  have hconsumed : ∀ y c, s.Consumed y c → (s.issue x v).Consumed y c := fun y c hc =>
    ⟨issue_done.mpr hc.1, hc.2⟩
  constructor
  · exact h.nodes
  · intro z hz
    rcases eq_or_ne z x with rfl | hne
    · exact h.nodes z hx
    · apply h.own z
      change Function.update s.own x (s.own x ++ [some v]) z ≠ [] at hz
      rwa [Function.update_of_ne hne] at hz
  · exact h.root
  · exact h.forwards
  · exact h.mem
  · exact h.unique
  · exact h.owned
  · exact h.under
  · exact h.left
  · intro z c p hp
    rcases hcases z c p hp with ⟨rfl, rfl, rfl⟩ | hp
    · refine ⟨hx, ?_, fun y hy => h.under z y hy⟩
      simp [State.issue]
    · obtain ⟨hz, hc, hw⟩ := h.pending z c p hp
      exact ⟨hz, hlt z c hc, hw⟩
  · intro z c p hp y hy
    rcases hcases z c p hp with ⟨rfl, rfl, rfl⟩ | hp
    · exact .inl hy
    · exact (h.waits z c p hp y hy).imp_right (hconsumed y c)
  · intro z c p hp y hy
    rcases hcases z c p hp with ⟨rfl, rfl, rfl⟩ | hp
    · exact .inl ⟨hy, fun hd => h.early z _ le_rfl y hy (issue_done.mp hd)⟩
    · exact (h.awaited z c p hp y hy).imp_left fun hw => ⟨hw.1, fun hd => hw.2 (issue_done.mp hd)⟩
  · exact fun z c hd y hy => hconsumed y c (h.consumed z c (issue_done.mp hd) y hy)
  · intro z c hc y hy hd
    refine h.early z c ?_ y hy (issue_done.mp hd)
    by_contra hlt'
    exact absurd (hlt z c (not_le.mp hlt')) (not_lt.mpr hc)
  · intro y c hy
    obtain ⟨hd, hor⟩ := h.sent y c hy
    refine ⟨issue_done.mpr hd, hor.imp_right (Or.imp_right ?_)⟩
    rintro ⟨z, p, hp, hmem⟩
    exact ⟨z, p, hkeep z c p hp, hmem⟩

omit h in
theorem take_done (y : ι) (wait : Finset ι) (acc : Multiset V) (hp : s.pending x c = some p)
    {z : ι} {d : ℕ} :
    (s.take x y c wait acc).Done z d ↔ s.Done z d := by
  unfold State.Done State.take
  dsimp only
  by_cases hz : z = x ∧ d = c
  · obtain ⟨rfl, rfl⟩ := hz
    simp [hp]
  · rw [assign_of_ne hz]

theorem take {a : Multiset V} (hp : s.pending x c = some p) (hy : y ∈ p.1)
    (hs : s.sent y c = some a) : Inv T (s.take x y c (p.1.erase y) (p.2 + a)) := by
  have hdone {z : ι} {d : ℕ} : (s.take x y c (p.1.erase y) (p.2 + a)).Done z d ↔ s.Done z d :=
    take_done y _ _ hp
  have hcases : ∀ z d q, (s.take x y c (p.1.erase y) (p.2 + a)).pending z d = some q →
      (z = x ∧ d = c ∧ q = (p.1.erase y, p.2 + a)) ∨
        ¬ (z = x ∧ d = c) ∧ s.pending z d = some q := by
    intro z d q hq
    change assign s.pending x c (some (p.1.erase y, p.2 + a)) z d = some q at hq
    unfold assign at hq
    split_ifs at hq with hzd
    · exact .inl ⟨hzd.1, hzd.2, (Option.some.inj hq).symm⟩
    · exact .inr ⟨hzd, hq⟩
  have hother : ∀ z d, ¬ (z = y ∧ d = c) →
      (s.take x y c (p.1.erase y) (p.2 + a)).sent z d = s.sent z d := fun z d hz => assign_of_ne hz
  have hconsumed : ∀ z d, s.Consumed z d → (s.take x y c (p.1.erase y) (p.2 + a)).Consumed z d := by
    intro z d hc
    refine ⟨hdone.mpr hc.1, ?_⟩
    rw [hother, hc.2]
    rintro ⟨rfl, rfl⟩
    cases hs.symm.trans hc.2
  have htaken : (s.take x y c (p.1.erase y) (p.2 + a)).Consumed y c :=
    ⟨hdone.mpr (h.sent y c (by rw [hs]; exact Option.some_ne_none a)).1, assign_self⟩
  constructor
  · exact h.nodes
  · exact h.own
  · exact h.root
  · exact h.forwards
  · exact h.mem
  · exact h.unique
  · exact h.owned
  · exact h.under
  · exact h.left
  · intro z d q hq
    rcases hcases z d q hq with ⟨rfl, rfl, rfl⟩ | ⟨-, hq⟩
    · obtain ⟨hz, hc, hw⟩ := h.pending z d p hp
      exact ⟨hz, hc, fun w hw' => hw w (Finset.mem_of_mem_erase hw')⟩
    · exact h.pending z d q hq
  · intro z d q hq w hw
    rcases hcases z d q hq with ⟨rfl, rfl, rfl⟩ | ⟨-, hq⟩
    · rcases eq_or_ne w y with rfl | hne
      · exact .inr htaken
      · exact (h.waits z d p hp w hw).imp (Finset.mem_erase_of_ne_of_mem hne) (hconsumed w d)
    · exact (h.waits z d q hq w hw).imp_right (hconsumed w d)
  · intro z d q hq w hw
    have hne : ¬ (w = y ∧ d = c) := by
      rintro ⟨rfl, rfl⟩
      rcases hcases z d q hq with ⟨rfl, -, rfl⟩ | ⟨hzd, hq⟩
      · exact Finset.notMem_erase w p.1 hw
      · exact hzd ⟨h.wait_unique hp hq hy hw, rfl⟩
    rw [hother w d hne, hdone]
    rcases hcases z d q hq with ⟨rfl, rfl, rfl⟩ | ⟨-, hq⟩
    · exact h.awaited z d p hp w (Finset.mem_of_mem_erase hw)
    · exact h.awaited z d q hq w hw
  · exact fun z d hd w hw => hconsumed w d (h.consumed z d (hdone.mp hd) w hw)
  · intro z d hd w hw hdw
    have hne : ¬ (w = y ∧ d = c) := by
      rintro ⟨rfl, rfl⟩
      rcases h.awaited x d p hp w hy with ⟨hwx, -⟩ | ⟨ho, -⟩
      · obtain rfl := h.unique x z w hwx hw
        exact absurd (h.pending x d p hp).2.1 (not_lt.mpr hd)
      · exact ho ⟨z, hw⟩
    rw [hother w d hne]
    exact h.early z d hd w hw (hdone.mp hdw)
  · intro w d hw
    have hne : ¬ (w = y ∧ d = c) := by
      rintro ⟨rfl, rfl⟩
      exact hw htaken.2
    rw [hother w d hne] at hw
    obtain ⟨hd, hor⟩ := h.sent w d hw
    refine ⟨hdone.mpr hd, hor.imp_right (Or.imp_right ?_)⟩
    rintro ⟨z, q, hq, hmem⟩
    by_cases hzd : z = x ∧ d = c
    · obtain ⟨rfl, rfl⟩ := hzd
      obtain rfl := Option.some.inj (hp.symm.trans hq)
      exact ⟨z, _, assign_self, Finset.mem_erase_of_ne_of_mem (fun he => hne ⟨he, rfl⟩) hmem⟩
    · exact ⟨z, q, (assign_of_ne hzd).trans hq, hmem⟩

omit h in
theorem complete_done (hp : s.pending x c = some p) (hc : c < (s.own x).length) {z : ι} {d : ℕ} :
    (s.complete x c acc).Done z d ↔ (z = x ∧ d = c) ∨ s.Done z d := by
  unfold State.Done State.complete
  dsimp only
  by_cases hz : z = x ∧ d = c
  · obtain ⟨rfl, rfl⟩ := hz
    simp [hc]
  · rw [assign_of_ne hz]
    simp [hz]

theorem complete (hp : s.pending x c = some (∅, acc)) : Inv T (s.complete x c acc) := by
  obtain ⟨hx, hc, -⟩ := h.pending x c _ hp
  have hdone {z : ι} {d : ℕ} : (s.complete x c acc).Done z d ↔ (z = x ∧ d = c) ∨ s.Done z d :=
    complete_done hp hc
  have hnot : ¬ s.Done x c := fun hd => by cases hp.symm.trans hd.2
  have hcases : ∀ z d q, (s.complete x c acc).pending z d = some q →
      ¬ (z = x ∧ d = c) ∧ s.pending z d = some q := fun z d q hq => assign_none_eq_some_iff.mp hq
  have hsome : (s.complete x c acc).sent x c = some acc := assign_self
  have hother : ∀ z d, ¬ (z = x ∧ d = c) → (s.complete x c acc).sent z d = s.sent z d :=
    fun z d hz => assign_of_ne hz
  have hsent : ∀ z d, s.sent z d ≠ none → (s.complete x c acc).sent z d ≠ none := by
    intro z d hz
    by_cases hzd : z = x ∧ d = c
    · obtain ⟨rfl, rfl⟩ := hzd
      exact absurd (h.sent z d hz).1 hnot
    · rwa [hother z d hzd]
  have hconsumed : ∀ z d, s.Consumed z d → (s.complete x c acc).Consumed z d := by
    intro z d hzd
    refine ⟨hdone.mpr (.inr hzd.1), ?_⟩
    rw [hother, hzd.2]
    rintro ⟨rfl, rfl⟩
    exact hnot hzd.1
  have hnew : ∀ z d, (s.Done z d → s.sent z d ≠ none) → (s.complete x c acc).Done z d →
      (s.complete x c acc).sent z d ≠ none := by
    intro z d hz hd
    rcases hdone.mp hd with ⟨rfl, rfl⟩ | hd
    · rw [hsome]
      exact Option.some_ne_none acc
    · exact hsent z d (hz hd)
  constructor
  · exact h.nodes
  · exact h.own
  · exact h.root
  · exact h.forwards
  · exact h.mem
  · exact h.unique
  · exact h.owned
  · exact h.under
  · exact h.left
  · exact fun z d q hq => h.pending z d q (hcases z d q hq).2
  · exact fun z d q hq w hw => (h.waits z d q (hcases z d q hq).2 w hw).imp_right (hconsumed w d)
  · intro z d q hq w hw
    refine (h.awaited z d q (hcases z d q hq).2 w hw).imp ?_ ?_
    · exact fun hor => ⟨hor.1, hnew w d hor.2⟩
    · exact fun hor => ⟨hor.1, hsent w d hor.2⟩
  · intro z d hd w hw
    rcases hdone.mp hd with ⟨rfl, rfl⟩ | hd
    · exact hconsumed w d ((h.waits z d _ hp w hw).resolve_left (Finset.notMem_empty w))
    · exact hconsumed w d (h.consumed z d hd w hw)
  · exact fun z d hd w hw => hnew w d (h.early z d hd w hw)
  · intro w d hw
    by_cases hwd : w = x ∧ d = c
    · obtain ⟨rfl, rfl⟩ := hwd
      refine ⟨hdone.mpr (.inl ⟨rfl, rfl⟩), ?_⟩
      by_cases hroot : w = T.root
      · exact .inl hroot
      · exact .inr (.inl (h.owned w hx hroot))
    · rw [hother w d hwd] at hw
      obtain ⟨hd, hor⟩ := h.sent w d hw
      refine ⟨hdone.mpr (.inr hd), hor.imp_right (Or.imp_right ?_)⟩
      rintro ⟨z, q, hq, hmem⟩
      refine ⟨z, q, assign_none_eq_some_iff.mpr ⟨?_, hq⟩, hmem⟩
      rintro ⟨rfl, rfl⟩
      obtain rfl := Option.some.inj (hp.symm.trans hq)
      exact Finset.notMem_empty w hmem

omit h in
theorem leave_alive : (s.leave x).alive z ↔ z ≠ x ∧ s.alive z := by
  rcases eq_or_ne z x with rfl | hne <;> simp [State.leave, *]

theorem leave_forwards (hx : s.alive x) : (s.leave x).forwards z ↔
    (z = x ∧ (s.children x).Nonempty) ∨ s.forwards z := by
  rcases eq_or_ne z x with rfl | hne
  · simp [State.leave, h.not_forwards hx]
  · simp [State.leave, hne]

theorem leave (hx : s.alive x) (hroot : x ≠ T.root) (hidle : ∀ c, s.pending x c = none) :
    Inv T (s.leave x) := by
  have halive {z : ι} : (s.leave x).alive z ↔ z ≠ x ∧ s.alive z := leave_alive
  have hforwards {z : ι} : (s.leave x).forwards z ↔
      (z = x ∧ (s.children x).Nonempty) ∨ s.forwards z := h.leave_forwards hx
  have hmono : ∀ z, s.forwards z → (s.leave x).forwards z := fun z hz => hforwards.mpr (.inr hz)
  have hne : ∀ z c p, s.pending z c = some p → z ≠ x := by
    rintro z c p hp rfl
    cases hp.symm.trans (hidle c)
  constructor
  · exact fun z hz => h.nodes z (halive.mp hz).2
  · exact h.own
  · exact halive.mpr ⟨hroot.symm, h.root⟩
  · intro z hz
    rcases hforwards.mp hz with ⟨rfl, -⟩ | hz
    · exact ⟨h.nodes z hx, fun hza => (halive.mp hza).1 rfl⟩
    · exact ⟨(h.forwards z hz).1, fun hza => (h.forwards z hz).2 (halive.mp hza).2⟩
  · exact h.mem
  · exact h.unique
  · exact fun y hy hyr => h.owned y (halive.mp hy).2 hyr
  · exact fun z y hy => (h.under z y hy).mono hmono
  · intro z hz hne
    rcases eq_or_ne z x with rfl | hzx
    · exact ⟨hforwards.mpr (.inl ⟨rfl, hne⟩), h.owned z hx hroot⟩
    · obtain ⟨hf, ho⟩ := h.left z (fun hza => hz (halive.mpr ⟨hzx, hza⟩)) hne
      exact ⟨hmono z hf, ho⟩
  · intro z c p hp
    obtain ⟨hz, hc, hw⟩ := h.pending z c p hp
    exact ⟨halive.mpr ⟨hne z c p hp, hz⟩, hc, fun y hy => (hw y hy).mono hmono⟩
  · exact h.waits
  · exact h.awaited
  · exact h.consumed
  · exact h.early
  · exact h.sent

omit h in
theorem rewait_eq_none {f : Finset ι → Finset ι} : s.rewait x u f z c = none ↔
    s.pending z c = none := by
  unfold State.rewait
  split_ifs <;> simp

omit h in
theorem rewait_eq_some {f : Finset ι → Finset ι} {q : Finset ι × Multiset V} :
    s.rewait x u f z c = some q ↔
      (z = x ∧ (s.own u).length ≤ c ∧ ∃ p, s.pending z c = some p ∧ q = (f p.1, p.2)) ∨
      (¬ (z = x ∧ (s.own u).length ≤ c) ∧ s.pending z c = some q) := by
  unfold State.rewait
  split_ifs with hzc
  · rw [Option.map_eq_some_iff]
    constructor
    · rintro ⟨p, hp, rfl⟩
      exact .inl ⟨hzc.1, hzc.2, p, hp, rfl⟩
    · rintro (⟨-, -, p, hp, rfl⟩ | ⟨hne, -⟩)
      · exact ⟨p, hp, rfl⟩
      · exact absurd hzc hne
  · refine ⟨fun hq => .inr ⟨hzc, hq⟩, ?_⟩
    rintro (⟨hz, hc, -⟩ | ⟨-, hq⟩)
    · exact absurd ⟨hz, hc⟩ hzc
    · exact hq

omit h in
theorem adopt_done : (s.adopt x u y).Done z c ↔ s.Done z c :=
  and_congr_right fun _ => rewait_eq_none

omit h in
theorem mem_adopt (hxu : x ≠ u) {w : ι} : w ∈ (s.adopt x u y).children z ↔
    (z = x ∧ w = y) ∨ (w ∈ s.children z ∧ ¬ (z = u ∧ w = y)) := by
  rcases eq_or_ne z x with rfl | hzx
  · simp [State.adopt, hxu]
  · rcases eq_or_ne z u with rfl | hzu
    · simp [State.adopt, hzx, and_comm]
    · simp [State.adopt, hzx, hzu]

omit h in
theorem adopt_owned (hxu : x ≠ u) (hy : y ∈ s.children u) {w : ι} :
    (s.adopt x u y).Owned w ↔ s.Owned w := by
  constructor
  · rintro ⟨z, hz⟩
    rcases (mem_adopt hxu).mp hz with ⟨-, rfl⟩ | ⟨hz, -⟩
    · exact ⟨u, hy⟩
    · exact ⟨z, hz⟩
  · rintro ⟨z, hz⟩
    by_cases hw : z = u ∧ w = y
    · exact ⟨x, (mem_adopt hxu).mpr (.inl ⟨rfl, hw.2⟩)⟩
    · exact ⟨z, (mem_adopt hxu).mpr (.inr ⟨hz, hw⟩)⟩

theorem adopt (hx : s.alive x) (hu : ¬ s.alive u) (hux : Under T s u x) (hy : y ∈ s.children u)
    (hle : (s.own u).length ≤ (s.own x).length) : Inv T (s.adopt x u y) := by
  have hxu : x ≠ u := by
    rintro rfl
    exact hu hx
  obtain ⟨hfu, hou⟩ := h.left u hu ⟨y, hy⟩
  have hyx : Under T s y x := (h.under u y hy).tail hfu hux
  have hdone {z : ι} {d : ℕ} : (s.adopt x u y).Done z d ↔ s.Done z d := adopt_done
  have hconsumed {z : ι} {d : ℕ} : (s.adopt x u y).Consumed z d ↔ s.Consumed z d :=
    and_congr_left fun _ => hdone
  have hmem {z w : ι} : w ∈ (s.adopt x u y).children z ↔
      (z = x ∧ w = y) ∨ (w ∈ s.children z ∧ ¬ (z = u ∧ w = y)) := mem_adopt hxu
  have howned {w : ι} : (s.adopt x u y).Owned w ↔ s.Owned w := adopt_owned hxu hy
  constructor
  · exact h.nodes
  · exact h.own
  · exact h.root
  · exact h.forwards
  · intro z w hw
    rcases hmem.mp hw with ⟨-, rfl⟩ | ⟨hw, -⟩
    · exact h.mem u w hy
    · exact h.mem z w hw
  · intro z z' w hw hw'
    rcases hmem.mp hw with ⟨rfl, rfl⟩ | ⟨hwz, hne⟩
    · rcases hmem.mp hw' with ⟨rfl, -⟩ | ⟨hwz', hne⟩
      · rfl
      · exact absurd ⟨h.unique z' u w hwz' hy, rfl⟩ hne
    · rcases hmem.mp hw' with ⟨rfl, rfl⟩ | ⟨hwz', -⟩
      · exact absurd ⟨h.unique z u w hwz hy, rfl⟩ hne
      · exact h.unique z z' w hwz hwz'
  · exact fun w hw hr => howned.mpr (h.owned w hw hr)
  · intro z w hw
    rcases hmem.mp hw with ⟨rfl, rfl⟩ | ⟨hw, -⟩
    · exact hyx
    · exact h.under z w hw
  · rintro z hz ⟨w, hw⟩
    rcases hmem.mp hw with ⟨rfl, -⟩ | ⟨hw, -⟩
    · exact absurd hx hz
    · obtain ⟨hf, ho⟩ := h.left z hz ⟨w, hw⟩
      exact ⟨hf, howned.mpr ho⟩
  · intro z c q hq
    rcases rewait_eq_some.mp hq with ⟨rfl, -, p, hp, rfl⟩ | ⟨-, hq⟩
    · obtain ⟨hz, hc, hw⟩ := h.pending z c p hp
      refine ⟨hz, hc, fun w hw' => ?_⟩
      rcases Finset.mem_insert.mp hw' with rfl | hw'
      · exact hyx
      · exact hw w hw'
    · exact h.pending z c q hq
  · intro z c q hq w hw
    rw [hconsumed]
    rcases rewait_eq_some.mp hq with ⟨rfl, -, p, hp, rfl⟩ | ⟨hne, hq⟩
    · rcases hmem.mp hw with ⟨-, rfl⟩ | ⟨hw, -⟩
      · exact .inl (Finset.mem_insert_self _ _)
      · exact (h.waits z c p hp w hw).imp_left Finset.mem_insert_of_mem
    · rcases hmem.mp hw with ⟨rfl, rfl⟩ | ⟨hw, -⟩
      · have hc : c < (s.own u).length := not_le.mp fun hc => hne ⟨rfl, hc⟩
        exact .inr (h.consumed u c (h.done_of_left hu hc) w hy)
      · exact h.waits z c q hq w hw
  · intro z c q hq w hw
    rw [howned, hdone]
    have hold : ∀ p, s.pending z c = some p → w ∈ p.1 →
        (w ∈ (s.adopt x u y).children z ∧ (s.Done w c → s.sent w c ≠ none)) ∨
          (¬ s.Owned w ∧ s.sent w c ≠ none) := by
      intro p hp hwp
      refine (h.awaited z c p hp w hwp).imp_left fun hor => ⟨hmem.mpr (.inr ⟨hor.1, ?_⟩), hor.2⟩
      rintro ⟨rfl, -⟩
      exact hu (h.pending z c p hp).1
    rcases rewait_eq_some.mp hq with ⟨rfl, hc, p, hp, rfl⟩ | ⟨-, hq⟩
    · rcases Finset.mem_insert.mp hw with rfl | hw
      · exact .inl ⟨hmem.mpr (.inl ⟨rfl, rfl⟩), h.early u c hc w hy⟩
      · exact hold p hp hw
    · exact hold q hq hw
  · intro z c hd w hw
    rw [hconsumed]
    rw [hdone] at hd
    rcases hmem.mp hw with ⟨rfl, rfl⟩ | ⟨hw, -⟩
    · exact h.consumed u c (h.done_of_done hx hux hou hd) w hy
    · exact h.consumed z c hd w hw
  · intro z c hc w hw hd
    rw [hdone] at hd
    rcases hmem.mp hw with ⟨rfl, rfl⟩ | ⟨hw, -⟩
    · exact h.early u c (hle.trans hc) w hy hd
    · exact h.early z c hc w hw hd
  · intro w c hw
    obtain ⟨hd, hor⟩ := h.sent w c hw
    refine ⟨hdone.mpr hd, hor.imp_right (Or.imp howned.mpr ?_)⟩
    rintro ⟨z, p, hp, hwp⟩
    by_cases hzc : z = x ∧ (s.own u).length ≤ c
    · obtain ⟨rfl, hc⟩ := hzc
      exact ⟨z, _, rewait_eq_some.mpr (.inl ⟨rfl, hc, p, hp, rfl⟩), Finset.mem_insert_of_mem hwp⟩
    · exact ⟨z, p, rewait_eq_some.mpr (.inr ⟨hzc, hp⟩), hwp⟩

omit h in
theorem drop_done : (s.drop x u).Done z c ↔ s.Done z c :=
  and_congr_right fun _ => rewait_eq_none

theorem mem_drop (hux : u ∈ s.children x) {w : ι} :
    w ∈ (s.drop x u).children z ↔ w ∈ s.children z ∧ w ≠ u := by
  rcases eq_or_ne z x with rfl | hzx
  · simp [State.drop, and_comm]
  · have hsame : (s.drop x u).children z = s.children z := Function.update_of_ne hzx _ _
    rw [hsame]
    refine (and_iff_left_of_imp fun hw => ?_).symm
    rintro rfl
    exact hzx (h.unique z x w hw hux)

theorem drop_owned (hux : u ∈ s.children x) {w : ι} :
    (s.drop x u).Owned w ↔ s.Owned w ∧ w ≠ u := by
  constructor
  · rintro ⟨z, hz⟩
    exact ⟨⟨z, ((h.mem_drop hux).mp hz).1⟩, ((h.mem_drop hux).mp hz).2⟩
  · rintro ⟨⟨z, hz⟩, hne⟩
    exact ⟨z, (h.mem_drop hux).mpr ⟨hz, hne⟩⟩

theorem drop (hx : s.alive x) (hu : ¬ s.alive u) (hux : u ∈ s.children x)
    (hempty : s.children u = ∅) (hle : (s.own u).length ≤ (s.own x).length) :
    Inv T (s.drop x u) := by
  have hdone {z : ι} {d : ℕ} : (s.drop x u).Done z d ↔ s.Done z d := drop_done
  have hconsumed {z : ι} {d : ℕ} : (s.drop x u).Consumed z d ↔ s.Consumed z d :=
    and_congr_left fun _ => hdone
  have hmem {z w : ι} : w ∈ (s.drop x u).children z ↔ w ∈ s.children z ∧ w ≠ u := h.mem_drop hux
  have howned {w : ι} : (s.drop x u).Owned w ↔ s.Owned w ∧ w ≠ u := h.drop_owned hux
  constructor
  · exact h.nodes
  · exact h.own
  · exact h.root
  · exact h.forwards
  · exact fun z w hw => h.mem z w (hmem.mp hw).1
  · exact fun z z' w hw hw' => h.unique z z' w (hmem.mp hw).1 (hmem.mp hw').1
  · intro w hw hr
    refine howned.mpr ⟨h.owned w hw hr, ?_⟩
    rintro rfl
    exact hu hw
  · exact fun z w hw => h.under z w (hmem.mp hw).1
  · rintro z hz ⟨w, hw⟩
    obtain ⟨hf, ho⟩ := h.left z hz ⟨w, (hmem.mp hw).1⟩
    refine ⟨hf, howned.mpr ⟨ho, ?_⟩⟩
    rintro rfl
    have hwz := (hmem.mp hw).1
    rw [hempty] at hwz
    exact Finset.notMem_empty w hwz
  · intro z c q hq
    rcases rewait_eq_some.mp hq with ⟨rfl, -, p, hp, rfl⟩ | ⟨-, hq⟩
    · obtain ⟨hz, hc, hw⟩ := h.pending z c p hp
      exact ⟨hz, hc, fun w hw' => hw w (Finset.mem_of_mem_erase hw')⟩
    · exact h.pending z c q hq
  · intro z c q hq w hw
    obtain ⟨hwz, hwu⟩ := hmem.mp hw
    rw [hconsumed]
    rcases rewait_eq_some.mp hq with ⟨rfl, -, p, hp, rfl⟩ | ⟨-, hq⟩
    · exact (h.waits z c p hp w hwz).imp_left (Finset.mem_erase_of_ne_of_mem hwu)
    · exact h.waits z c q hq w hwz
  · intro z c q hq w hw
    rw [howned, hdone]
    rcases rewait_eq_some.mp hq with ⟨rfl, hc, p, hp, rfl⟩ | ⟨hne, hq⟩
    · obtain ⟨hwu, hw⟩ := Finset.mem_erase.mp hw
      refine (h.awaited z c p hp w hw).imp ?_ ?_
      · exact fun hor => ⟨hmem.mpr ⟨hor.1, hwu⟩, hor.2⟩
      · exact fun hor => ⟨fun ho => hor.1 ho.1, hor.2⟩
    · rcases h.awaited z c q hq w hw with ⟨hwz, hs⟩ | ⟨ho, hs⟩
      · rcases eq_or_ne w u with rfl | hwu
        · obtain rfl := h.unique z x w hwz hux
          have hc : c < (s.own w).length := not_le.mp fun hc => hne ⟨rfl, hc⟩
          exact .inr ⟨fun ho => ho.2 rfl, hs (h.done_of_left hu hc)⟩
        · exact .inl ⟨hmem.mpr ⟨hwz, hwu⟩, hs⟩
      · exact .inr ⟨fun ho' => ho ho'.1, hs⟩
  · intro z c hd w hw
    rw [hconsumed]
    exact h.consumed z c (hdone.mp hd) w (hmem.mp hw).1
  · exact fun z c hc w hw hd => h.early z c hc w (hmem.mp hw).1 (hdone.mp hd)
  · intro w c hw
    obtain ⟨hd, hor⟩ := h.sent w c hw
    refine ⟨hdone.mpr hd, ?_⟩
    have hkeep : ∀ z p, s.pending z c = some p → w ∈ p.1 → ¬ (w = u ∧ (s.own u).length ≤ c) →
        ∃ z p, (s.drop x u).pending z c = some p ∧ w ∈ p.1 := by
      intro z p hp hwp hne
      by_cases hzc : z = x ∧ (s.own u).length ≤ c
      · obtain ⟨rfl, hc⟩ := hzc
        refine ⟨z, _, rewait_eq_some.mpr (.inl ⟨rfl, hc, p, hp, rfl⟩), ?_⟩
        exact Finset.mem_erase_of_ne_of_mem (fun he => hne ⟨he, hc⟩) hwp
      · exact ⟨z, p, rewait_eq_some.mpr (.inr ⟨hzc, hp⟩), hwp⟩
    have hnot : ¬ (w = u ∧ (s.own u).length ≤ c) := by
      rintro ⟨rfl, hc⟩
      exact absurd hd.1 (not_lt.mpr hc)
    rcases hor with hr | ho | ⟨z, p, hp, hwp⟩
    · exact .inl hr
    · rcases eq_or_ne w u with rfl | hwu
      · -- what a node sent before it left is awaited by the node that drops it
        cases hp : s.pending x c with
        | none =>
          have hdx : s.Done x c := ⟨hd.1.trans_le hle, hp⟩
          exact absurd (h.consumed x c hdx w hux).2 hw
        | some p =>
          refine .inr (.inr (hkeep x p hp ?_ hnot))
          exact (h.waits x c p hp w hux).resolve_right fun hc => hw hc.2
      · exact .inr (.inl (howned.mpr ⟨ho, hwu⟩))
    · exact .inr (.inr (hkeep z p hp hwp hnot))

section Root

variable (hd : s.Done T.root c)

include hd

theorem consumed_of_root (ho : s.Owned y) : s.Consumed y c := by
  induction hn : T.rank y using Nat.strong_induction_on generalizing y with
  | _ n ih =>
    obtain ⟨x, hy⟩ := ho
    apply h.consumed x c _ y hy
    by_cases hx : x = T.root
    · exact hx ▸ hd
    · have hlt := ((h.under x y hy).rank_lt (h.mem x y hy)).2
      have hox : s.Owned x := by
        by_cases hxa : s.alive x
        · exact h.owned x hxa hx
        · exact (h.left x hxa ⟨y, hy⟩).2
      exact (ih _ (hn ▸ hlt) hox rfl).1

theorem done_of_root (hx : s.alive x) : s.Done x c := by
  by_cases hr : x = T.root
  · exact hr ▸ hd
  · exact (h.consumed_of_root hd (h.owned x hx hr)).1

theorem pending_of_root (x : ι) : s.pending x c = none := by
  cases hp : s.pending x c with
  | none => rfl
  | some p =>
    have hx := h.done_of_root hd (h.pending x c p hp).1
    cases hp.symm.trans hx.2

theorem sent_of_root (hr : y ≠ T.root) : s.sent y c = none := by
  by_contra hne
  rcases (h.sent y c hne).2 with hy | ho | ⟨x, p, hp, -⟩
  · exact hr hy
  · exact hne (h.consumed_of_root hd ho).2
  · cases (h.pending_of_root hd x).symm.trans hp

end Root

/-- When nobody waits for what was sent, nobody waits at all: a node that does waits for one below,
which waits as well. -/
theorem done_at_rest (hall : ∀ x, s.alive x → c < (s.own x).length)
    (howned : ∀ y, s.Owned y → s.alive y)
    (hwait : ∀ x p, s.pending x c = some p → p.1.Nonempty ∧ ∀ y ∈ p.1, s.sent y c = none)
    (hx : s.alive x) : s.Done x c := by
  induction hn : T.nodes.toFinset.sup T.rank - T.rank x using Nat.strong_induction_on
    generalizing x with
  | _ n ih =>
    refine ⟨hall x hx, ?_⟩
    by_contra hne
    obtain ⟨p, hp⟩ := Option.ne_none_iff_exists'.mp hne
    obtain ⟨⟨y, hy⟩, hsent⟩ := hwait x p hp
    rcases h.awaited x c p hp y hy with ⟨hyx, hd⟩ | ⟨-, hs⟩
    · have hnode := h.mem x y hyx
      have hlt := ((h.under x y hyx).rank_lt hnode).2
      have hle : T.rank y ≤ T.nodes.toFinset.sup T.rank :=
        Finset.le_sup (f := T.rank) (List.mem_toFinset.mpr hnode)
      exact hd (ih _ (by omega) (howned y ⟨x, hyx⟩) rfl) (hsent y hy)
    · exact hs (hsent y hy)

end Inv

section Values

/-- Nothing is lost and nothing is counted twice. -/
def Conserves (T : RankedTree ι) (s : State ι V) : Prop :=
  ∀ c, ∑ x ∈ T.nodes.toFinset, s.gathered x c = ∑ x ∈ T.nodes.toFinset, s.given x c

theorem sum_at {N : Finset ι} (hx : x ∈ N) (a : Multiset V) (d : ℕ) :
    ∑ z ∈ N, (if z = x ∧ d = c then a else 0) = if d = c then a else 0 := by
  rw [Finset.sum_eq_single_of_mem x hx fun z _ hz => if_neg fun hzd => hz hzd.1]
  exact if_congr (and_iff_right rfl) rfl rfl

/-- What the root sends in a round are the values that all nodes gave in it. -/
theorem Inv.exact (h : Inv T s) (hc : Conserves T s) {a : Multiset V}
    (hs : s.sent T.root c = some a) : a = ∑ x ∈ T.nodes.toFinset, s.given x c := by
  have hd : s.Done T.root c := (h.sent T.root c (by rw [hs]; exact Option.some_ne_none a)).1
  have hroot : T.root ∈ T.nodes.toFinset := List.mem_toFinset.mpr T.root_mem
  rw [← hc c, Finset.sum_eq_single_of_mem T.root hroot]
  · simp [State.gathered, hd.2, hs]
  · intro y _ hy
    simp [State.gathered, h.pending_of_root hd y, h.sent_of_root hd hy]

theorem Inv.sent_root (h : Inv T s) (hc : Conserves T s) (hr : none ∉ s.own T.root)
    (hd : s.Done T.root c) : ∃ a, s.sent T.root c = some a := by
  apply Option.ne_none_iff_exists'.mp
  intro hnone
  have hroot : T.root ∈ T.nodes.toFinset := List.mem_toFinset.mpr T.root_mem
  have hzero : ∑ x ∈ T.nodes.toFinset, s.gathered x c = 0 := by
    refine Finset.sum_eq_zero fun y _ => ?_
    have hsent : s.sent y c = none := by
      by_cases hy : y = T.root
      · exact hy ▸ hnone
      · exact h.sent_of_root hd hy
    simp [State.gathered, h.pending_of_root hd y, hsent]
  have hle : s.given T.root c ≤ ∑ x ∈ T.nodes.toFinset, s.given x c :=
    Finset.single_le_sum (f := fun x => s.given x c) (fun _ _ => Multiset.zero_le _) hroot
  rw [← hc c, hzero] at hle
  have hgiven := Multiset.le_zero.mp hle
  obtain ⟨v, hv⟩ : ∃ v, (s.own T.root)[c]? = some (some v) := by
    obtain ⟨w, hw⟩ : ∃ w, (s.own T.root)[c]? = some w := ⟨_, List.getElem?_eq_getElem hd.1⟩
    cases w with
    | none => exact absurd (List.mem_of_getElem? hw) hr
    | some v => exact ⟨v, hw⟩
  simp [State.given, hv] at hgiven

theorem Inv.issue_conserves (h : Inv T s) (hc : Conserves T s) (hx : s.alive x) (v : V) :
    Conserves T (s.issue x v) := by
  intro d
  set δ : ι → Multiset V := fun z => if z = x ∧ d = (s.own x).length then {v} else 0
  have hgath : ∀ z, (s.issue x v).gathered z d = s.gathered z d + δ z := by
    intro z
    by_cases hz : z = x ∧ d = (s.own x).length
    · obtain ⟨rfl, rfl⟩ := hz
      have hnone : s.pending z (s.own z).length = none := by
        cases hp : s.pending z (s.own z).length with
        | none => rfl
        | some p => exact absurd (h.pending z _ p hp).2.1 (lt_irrefl _)
      have hsent := h.sent_eq_none (fun hd : s.Done z (s.own z).length => lt_irrefl _ hd.1)
      simp [State.gathered, State.issue, δ, hnone, hsent]
    · simp [State.gathered, State.issue, δ, assign_of_ne hz, hz]
  have hgiven : ∀ z, (s.issue x v).given z d = s.given z d + δ z := by
    intro z
    rcases eq_or_ne z x with rfl | hz
    · rcases lt_trichotomy d (s.own z).length with hd | rfl | hd
      · simp [State.given, State.issue, δ, List.getElem?_append_left hd, hd.ne]
      · simp [State.given, State.issue, δ]
      · have hle : (s.own z ++ [some v]).length ≤ d := by
          rw [List.length_append]
          exact hd
        have hnone := List.getElem?_eq_none_iff.mpr hle
        simp [State.given, State.issue, δ, hd.ne', hnone, List.getElem?_eq_none_iff.mpr hd.le]
    · simp [State.given, State.issue, δ, hz]
  simp only [hgath, hgiven, Finset.sum_add_distrib, hc d]

theorem Inv.take_conserves (h : Inv T s) (hc : Conserves T s) {a : Multiset V}
    (hp : s.pending x c = some p) (hs : s.sent y c = some a) (hy : y ∈ T.nodes)
    (wait : Finset ι) : Conserves T (s.take x y c wait (p.2 + a)) := by
  intro d
  have hx : x ∈ T.nodes := h.nodes x (h.pending x c p hp).1
  have hgath : ∀ z, (s.take x y c wait (p.2 + a)).gathered z d +
      (if z = y ∧ d = c then a else 0) = s.gathered z d + (if z = x ∧ d = c then a else 0) := by
    intro z
    by_cases hzy : z = y ∧ d = c <;> by_cases hzx : z = x ∧ d = c
    · obtain ⟨rfl, rfl⟩ := hzy
      obtain ⟨rfl, -⟩ := hzx
      simp [State.gathered, State.take, hp, hs, add_assoc]
    · obtain ⟨rfl, rfl⟩ := hzy
      rw [if_pos ⟨rfl, rfl⟩, if_neg hzx]
      simp [State.gathered, State.take, assign_of_ne hzx, hs]
    · obtain ⟨rfl, rfl⟩ := hzx
      rw [if_neg hzy, if_pos ⟨rfl, rfl⟩]
      simp [State.gathered, State.take, assign_of_ne hzy, hp, add_assoc, add_comm]
    · simp [State.gathered, State.take, assign_of_ne hzy, assign_of_ne hzx, hzy, hzx]
  have hsum := Finset.sum_congr (rfl : T.nodes.toFinset = T.nodes.toFinset) fun z _ => hgath z
  rw [Finset.sum_add_distrib, Finset.sum_add_distrib, sum_at (List.mem_toFinset.mpr hy),
    sum_at (List.mem_toFinset.mpr hx)] at hsum
  exact (add_right_cancel hsum).trans (hc d)

theorem Inv.complete_conserves (h : Inv T s) (hc : Conserves T s)
    (hp : s.pending x c = some (∅, acc)) : Conserves T (s.complete x c acc) := by
  intro d
  refine Eq.trans (Finset.sum_congr rfl fun z _ => ?_) (hc d)
  by_cases hz : z = x ∧ d = c
  · obtain ⟨rfl, rfl⟩ := hz
    have hnone := h.sent_eq_none (fun hd : s.Done z d => by cases hp.symm.trans hd.2)
    simp [State.gathered, State.complete, hp, hnone]
  · simp [State.gathered, State.complete, assign_of_ne hz]

theorem rewait_elim (f : Finset ι → Finset ι) (z : ι) (d : ℕ) :
    (s.rewait x u f z d).elim 0 Prod.snd = (s.pending z d).elim 0 Prod.snd := by
  unfold State.rewait
  split_ifs
  · cases s.pending z d <;> rfl
  · rfl

theorem adopt_conserves (hc : Conserves T s) (x u y : ι) : Conserves T (s.adopt x u y) := by
  intro d
  refine Eq.trans (Finset.sum_congr rfl fun z _ => ?_) (hc d)
  exact congrArg (· + _) (rewait_elim _ z d)

theorem drop_conserves (hc : Conserves T s) (x u : ι) : Conserves T (s.drop x u) := by
  intro d
  refine Eq.trans (Finset.sum_congr rfl fun z _ => ?_) (hc d)
  exact congrArg (· + _) (rewait_elim _ z d)

/-- The steps of nodes. Only the node that is reached by the messages of a node that has left adopts
its children, or drops it when it has none, and not before it took part in as many rounds. -/
inductive Step (T : RankedTree ι) (s : State ι V) : State ι V → Prop
  | issue {x : ι} (hx : s.alive x) (v : V) : Step T s (s.issue x v)
  | take {x y : ι} {c : ℕ} {p : Finset ι × Multiset V} {a : Multiset V}
      (hp : s.pending x c = some p) (hy : y ∈ p.1) (hs : s.sent y c = some a) :
      Step T s (s.take x y c (p.1.erase y) (p.2 + a))
  | complete {x : ι} {c : ℕ} {acc : Multiset V} (hp : s.pending x c = some (∅, acc)) :
      Step T s (s.complete x c acc)
  | leave {x : ι} (hx : s.alive x) (hroot : x ≠ T.root) (hidle : ∀ c, s.pending x c = none) :
      Step T s (s.leave x)
  | adopt {x u y : ι} (hx : s.alive x) (hu : ¬ s.alive u) (hux : Under T s u x)
      (hy : y ∈ s.children u) (hle : (s.own u).length ≤ (s.own x).length) :
      Step T s (s.adopt x u y)
  | drop {x u : ι} (hx : s.alive x) (hu : ¬ s.alive u) (hux : u ∈ s.children x)
      (hempty : s.children u = ∅) (hle : (s.own u).length ≤ (s.own x).length) :
      Step T s (s.drop x u)

structure Sound (T : RankedTree ι) (s : State ι V) : Prop where
  inv : Inv T s
  conserves : Conserves T s
  rooted : none ∉ s.own T.root

def State.start (T : RankedTree ι) : State ι V where
  alive x := x ∈ T.nodes
  forwards _ := False
  own _ := []
  children x := if x ∈ T.nodes then (T.children x).toFinset else ∅
  pending _ _ := none
  sent _ _ := none

theorem State.mem_start {w : ι} : w ∈ (State.start (V := V) T).children z ↔
    z ∈ T.nodes ∧ w ∈ T.nodes ∧ T.parent w = some z := by
  unfold State.start
  dsimp only
  split_ifs with hz
  · rw [List.mem_toFinset, T.mem_children_iff z hz]
    exact (and_iff_right hz).symm
  · exact ⟨fun hw => absurd hw (Finset.notMem_empty w), fun hw => absurd hw.1 hz⟩

theorem Sound.start (T : RankedTree ι) : Sound T (State.start (V := V) T) := by
  have hdone : ∀ (x : ι) (c : ℕ), ¬ (State.start (V := V) T).Done x c :=
    fun x c hd => Nat.not_lt_zero c hd.1
  refine ⟨?_, fun c => by simp [State.gathered, State.given, State.start], List.not_mem_nil⟩
  constructor
  · exact fun x hx => hx
  · exact fun x hx => absurd rfl hx
  · exact T.root_mem
  · exact fun x hx => hx.elim
  · exact fun x y hy => (State.mem_start.mp hy).2.1
  · intro x x' y hy hy'
    have hp := (State.mem_start.mp hy).2.2
    exact Option.some.inj (hp.symm.trans (State.mem_start.mp hy').2.2)
  · intro y hy hroot
    obtain ⟨p, hp, hpar, -⟩ := T.exists_parent y hy hroot
    exact ⟨p, State.mem_start.mpr ⟨hp, hy, hpar⟩⟩
  · exact fun x y hy => ⟨x, (State.mem_start.mp hy).2.2, .refl⟩
  · rintro x hx ⟨y, hy⟩
    exact absurd (State.mem_start.mp hy).1 hx
  · intro x c p hp
    cases hp
  · intro x c p hp
    cases hp
  · intro x c p hp
    cases hp
  · exact fun x c hd => absurd hd (hdone x c)
  · exact fun x c _ y _ hd => absurd hd (hdone y c)
  · exact fun y c hs => absurd rfl hs

theorem Sound.step (h : Sound T s) (hs : Step T s t) : Sound T t := by
  obtain ⟨h, hc, hr⟩ := h
  cases hs with
  | @issue x hx v =>
    refine ⟨h.issue hx v, h.issue_conserves hc hx v, ?_⟩
    rcases eq_or_ne T.root x with rfl | hne
    · simpa [State.issue] using hr
    · simpa [State.issue, hne] using hr
  | take hp hy hs =>
    refine ⟨h.take hp hy hs, h.take_conserves hc hp hs ?_ _, hr⟩
    exact h.mem_of_sent (by rw [hs]; exact Option.some_ne_none _)
  | complete hp => exact ⟨h.complete hp, h.complete_conserves hc hp, hr⟩
  | leave hx hroot hidle => exact ⟨h.leave hx hroot hidle, hc, hr⟩
  | adopt hx hu hux hy hle => exact ⟨h.adopt hx hu hux hy hle, adopt_conserves hc _ _ _, hr⟩
  | drop hx hu hux hempty hle => exact ⟨h.drop hx hu hux hempty hle, drop_conserves hc _ _, hr⟩

end Values

section Step

variable (h : Inv T s) (hs : Step T s t)

include h hs

theorem Step.forwards (hz : s.forwards z) : t.forwards z := by
  cases hs with
  | leave hx hroot hidle => exact (h.leave_forwards hx).mpr (.inr hz)
  | _ => exact hz

theorem Step.silent (hy : s.Silent y c) : t.Silent y c := by
  obtain ⟨hsent, hor⟩ := hy
  cases hs with
  | issue hx v => exact ⟨hsent, hor.imp_left Inv.issue_done.mpr⟩
  | @take x w d p a hp hw hs =>
    refine ⟨?_, hor.imp_left (Inv.take_done _ _ _ hp).mpr⟩
    change assign s.sent w d none y c = none
    unfold assign
    rw [hsent, ite_self]
  | @complete x d acc hp =>
    obtain ⟨hx, hd, -⟩ := h.pending x d _ hp
    refine ⟨?_, hor.imp_left fun hdone => (Inv.complete_done hp hd).mpr (.inr hdone)⟩
    change assign s.sent x d (some acc) y c = none
    rw [assign_of_ne, hsent]
    rintro ⟨rfl, rfl⟩
    rcases hor with hdone | ⟨hdead, -⟩
    · cases hp.symm.trans hdone.2
    · exact hdead hx
  | leave hx hroot hidle =>
    exact ⟨hsent, hor.imp_right fun hd => ⟨fun ha => hd.1 (Inv.leave_alive.mp ha).2, hd.2⟩⟩
  | @adopt x u w hx hu hux hw hle =>
    have hxu : x ≠ u := by
      rintro rfl
      exact hu hx
    exact ⟨hsent, hor.imp Inv.adopt_done.mpr fun hd =>
      ⟨hd.1, fun ho => hd.2 ((Inv.adopt_owned hxu hw).mp ho)⟩⟩
  | drop hx hu hux hempty hle =>
    exact ⟨hsent, hor.imp Inv.drop_done.mpr fun hd =>
      ⟨hd.1, fun ho => hd.2 ((h.drop_owned hux).mp ho).1⟩⟩

end Step

end Contraction
