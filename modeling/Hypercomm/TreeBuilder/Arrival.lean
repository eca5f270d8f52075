import Mathlib.Order.Lattice.Nat
import Hypercomm.TreeBuilder.Broadcast

/-! # Broadcasts come to rest

As long as an element does not know that a child was destroyed, the copy for the child comes back
to it, is executed again and sent again. Once the news has arrived everywhere, copies for destroyed
elements only go up, and all others only go down, so that no delivery goes on forever.
-/

namespace Hypercomm.TreeBuilder.Destruction

variable {ι V κ M : Type*} [DecidableEq ι]
variable {T : RankedTree ι} {acts : List (Action ι V κ)} {S : System ι V κ} {x y : ι}

namespace System

/-- The news of all destructions has arrived, and nothing is staged. -/
structure Informed (S : System ι V κ) : Prop where
  inFlight : ∀ m ∈ S.inFlight, ∀ event, m.body ≠ .replaceDownstream event
  staged : ∀ x ∈ S.members, (S.elements x).staged = []

omit [DecidableEq ι] in
theorem Message.record?_eq_none {m : Message ι V} (h : ∀ event, m.body ≠ .replaceDownstream event) :
    m.record? = none := by
  obtain ⟨dest, body⟩ := m
  cases body with
  | contribution => rfl
  | replaceDownstream event => exact absurd rfl (h event)

theorem Informed.records_eq_zero (h : Informed S) (hsafe : Safe T acts S) :
    (S.view T).records = 0 := by
  have hflight : S.inFlight.filterMap Message.record? = 0 := by
    refine Multiset.eq_zero_of_forall_notMem fun q hq => ?_
    obtain ⟨m, hm, hmq⟩ := (Multiset.mem_filterMap _ _).mp hq
    cases (Message.record?_eq_none (h.inFlight m hm)).symm.trans hmq
  have hstaged : ∑ x ∈ T.nodes.toFinset, (S.elements x).records x = 0 := by
    refine Finset.sum_eq_zero fun x hx => ?_
    have hmem : x ∈ S.members := by
      rw [hsafe.members]
      exact List.mem_toFinset.mp hx
    unfold Element.records
    rw [h.staged x hmem]
    rfl
  unfold view
  dsimp only
  rw [hflight, hstaged, add_zero]

theorem Informed.downstream_alive (h : Informed S) (hsafe : Safe T acts S)
    (hx : S.alive x = true) (hy : y ∈ (S.elements x).downstream) : S.alive y = true := by
  obtain ⟨A, hA⟩ := hsafe.settled.corresponds
  have howned := (hA.downstream x ((hA.alive x).mp hx) y).mp hy
  by_contra hdead
  have hmem := hA.recorded y (fun ha => hdead ((hA.alive y).mpr ha)) ⟨x, howned⟩
  rw [h.records_eq_zero hsafe] at hmem
  exact Multiset.notMem_zero y hmem

/-- How far down a task can go, or up and then down. -/
def weight (T : RankedTree ι) (S : System ι V κ) (x : ι) : ℕ :=
  let depth := T.nodes.toFinset.sup T.rank
  if S.alive x then depth - T.rank x else depth + 1 + T.rank x

theorem Informed.weight_downstream (h : Informed S) (hsafe : Safe T acts S)
    (hx : S.alive x = true) (hy : y ∈ (S.elements x).downstream) :
    S.weight T y < S.weight T x := by
  have hya := h.downstream_alive hsafe hx hy
  obtain ⟨A, hA⟩ := hsafe.settled.corresponds
  have howned := (hA.downstream x ((hA.alive x).mp hx) y).mp hy
  have hinv := hA.sound.inv
  have hyn := hinv.mem x y howned
  have hlt := ((hinv.under x y howned).rank_lt hyn).2
  have hle : T.rank y ≤ T.nodes.toFinset.sup T.rank :=
    Finset.le_sup (List.mem_toFinset.mpr hyn)
  unfold weight
  dsimp only
  rw [if_pos hx, if_pos hya]
  omega

theorem Safe.weight_forwards (hsafe : Safe T acts S) (hf : S.forwards x = some y) :
    S.weight T y < S.weight T x := by
  obtain ⟨A, hA⟩ := hsafe.settled.corresponds
  obtain ⟨hfx, hp⟩ := (hA.forwards x y).mp hf
  obtain ⟨hxn, hdead⟩ := hA.sound.inv.forwards x hfx
  have hx : ¬ S.alive x = true := fun ha => hdead ((hA.alive x).mp ha)
  have hlt := (RankedTree.exists_parent_of_some hxn hp).2
  unfold weight
  dsimp only
  rw [if_neg hx]
  split_ifs <;> omega

end System

namespace Broadcasting

variable {s t : Broadcasting ι V κ M} {a : Label ι V κ M} {as bs : List (Label ι V κ M)}

def Delivers (_ : Broadcasting ι V κ M) : Label ι V κ M → Prop
  | .execute _ _ | .redirect _ _ => True
  | _ => False

def cost (T : RankedTree ι) (s : Broadcasting ι V κ M) : ℕ :=
  (s.inFlight.map fun p => (T.nodes.length + 1) ^ s.system.weight T p.1).sum

theorem Delivers.system_eq (hd : s.Delivers a) (hs : Step s a t) : t.system = s.system := by
  cases hs with
  | system => exact hd.elim
  | _ => rfl

/-- A delivery takes more off the bound than it adds. -/
theorem Delivers.cost_lt (hd : s.Delivers a) (hs : Step s a t)
    (hsafe : System.Safe T acts s.system) (hinf : s.system.Informed) :
    t.cost T < s.cost T := by
  have hone : 1 < T.nodes.length + 1 :=
    Nat.succ_lt_succ (List.length_pos_of_mem T.root_mem)
  cases hs with
  | system => exact hd.elim
  | broadcast => exact hd.elim
  | @execute mine task rest hm hx =>
    have hnd : (s.system.elements mine).downstream.Nodup := by
      obtain ⟨A, hA⟩ := hsafe.settled.corresponds
      exact hA.nodup mine ((hA.alive mine).mp hx)
    have hsub : (s.system.elements mine).downstream ⊆ T.nodes := fun y hy =>
      hsafe.mem_nodes (hinf.downstream_alive hsafe hx hy)
    have hlength := (hnd.subperm hsub).length_le
    have hchildren : ((s.system.elements mine).downstream.map fun y =>
        (T.nodes.length + 1) ^ s.system.weight T y).sum <
          (T.nodes.length + 1) ^ s.system.weight T mine := by
      rcases hw : s.system.weight T mine with _ | w
      · have hnil : (s.system.elements mine).downstream = [] := by
          refine List.eq_nil_iff_forall_not_mem.mpr fun y hy => ?_
          have hlt := hinf.weight_downstream hsafe hx hy
          rw [hw] at hlt
          exact Nat.not_lt_zero _ hlt
        simp [hnil]
      · have hle : ∀ c ∈ (s.system.elements mine).downstream.map fun y =>
            (T.nodes.length + 1) ^ s.system.weight T y, c ≤ (T.nodes.length + 1) ^ w := by
          intro c hc
          obtain ⟨y, hy, rfl⟩ := List.mem_map.mp hc
          have hlt := hinf.weight_downstream hsafe hx hy
          rw [hw] at hlt
          exact Nat.pow_le_pow_right (Nat.succ_pos _) (Nat.lt_succ_iff.mp hlt)
        calc ((s.system.elements mine).downstream.map fun y =>
                (T.nodes.length + 1) ^ s.system.weight T y).sum
            ≤ (s.system.elements mine).downstream.length • (T.nodes.length + 1) ^ w := by
              simpa using List.sum_le_card_nsmul _ _ hle
          _ ≤ T.nodes.length * (T.nodes.length + 1) ^ w := Nat.mul_le_mul_right _ hlength
          _ < (T.nodes.length + 1) * (T.nodes.length + 1) ^ w :=
              Nat.mul_lt_mul_of_pos_right (Nat.lt_succ_self _) (Nat.pow_pos (Nat.succ_pos _))
          _ = (T.nodes.length + 1) ^ (w + 1) := (Nat.pow_succ' ..).symm
    unfold cost action
    dsimp only
    rw [hm, Multiset.map_cons, Multiset.sum_cons, Multiset.map_add, Multiset.sum_add,
      Multiset.map_coe, Multiset.sum_coe, List.map_map, Nat.add_comm]
    exact Nat.add_lt_add_right hchildren _
  | @redirect x next task rest hm hf =>
    unfold cost
    dsimp only
    rw [hm, Multiset.map_cons, Multiset.sum_cons, Multiset.map_cons, Multiset.sum_cons]
    exact Nat.add_lt_add_right (Nat.pow_lt_pow_right hone (hsafe.weight_forwards hf)) _

theorem length_add_cost_le (hrun : Transition.Run (Transition.restrict Step Delivers) s bs t)
    (hsafe : System.Safe T acts s.system) (hinf : s.system.Informed) :
    bs.length + t.cost T ≤ s.cost T ∧ t.system = s.system := by
  induction hrun with
  | nil => exact ⟨(Nat.zero_add _).le, rfl⟩
  | snoc _ hs ih =>
    obtain ⟨hle, heq⟩ := ih
    have hlt := hs.1.cost_lt hs.2 (heq ▸ hsafe) (heq ▸ hinf)
    refine ⟨?_, (hs.1.system_eq hs.2).trans heq⟩
    rw [List.length_append, List.length_singleton]
    omega

theorem exists_delivery (h : ¬ s.AtRest) : ∃ a t, s.Delivers a ∧ Step s a t := by
  unfold AtRest at h
  push Not at h
  obtain ⟨⟨x, task⟩, hp, hor⟩ := h
  obtain ⟨rest, hm⟩ := Multiset.exists_cons_of_mem hp
  by_cases hx : s.system.alive x = true
  · exact ⟨.execute x task, _, trivial, .execute hm hx⟩
  · obtain ⟨next, hf⟩ := Option.ne_none_iff_exists'.mp (hor hx)
    exact ⟨.redirect x task, _, trivial, .redirect hm hf⟩

/-- Once the news of all destructions has arrived, the deliveries of tasks come to an end, which is
at rest. -/
theorem deliveries_end
    (hrun : Transition.Run (Transition.restrict Step Timely) (start T) as s)
    (hinf : s.system.Informed) :
    ∃ n, ∀ bs t, Transition.Run (Transition.restrict Step Delivers) s bs t →
      bs.length ≤ n ∧ (t.AtRest ∨ ∃ a u, t.Delivers a ∧ Step t a u) := by
  obtain ⟨T', hsafe, -⟩ := carried_of_run hrun
  refine ⟨s.cost T', fun bs t hbs => ⟨?_, or_iff_not_imp_left.mpr exists_delivery⟩⟩
  exact (Nat.le_add_right _ _).trans (length_add_cost_le hbs hsafe hinf).1

theorem deliveries_end_returned : ∃ (s : Broadcasting ℕ ℕ Unit ℕ) (n : ℕ),
    (0, ⟨some (0, 1), 7⟩) ∈ s.inFlight ∧
    ∀ bs t, Transition.Run (Transition.restrict Step Delivers) s bs t →
      bs.length ≤ n ∧ (t.AtRest ∨ ∃ a u, t.Delivers a ∧ Step t a u) := by
  have hall : ((Transition.exec perform (start System.chain : Broadcasting ℕ ℕ Unit ℕ)
      (returned.take 5)).any fun s => decide ((0, ⟨some (0, 1), 7⟩) ∈ s.inFlight ∧
        s.system.inFlight = 0 ∧ ∀ x ∈ s.system.members, (s.system.elements x).staged = [])) =
      true := by
    decide +kernel
  obtain ⟨s, hs, hd⟩ := (Option.any_eq_true _ _).mp hall
  obtain ⟨hmem, hflight, hstaged⟩ := of_decide_eq_true hd
  have hinf : s.system.Informed :=
    ⟨fun m hm => absurd (hflight ▸ hm) (Multiset.notMem_zero m), hstaged⟩
  obtain ⟨n, hn⟩ := deliveries_end ((run_of_exec_perform hs).mono fun _ _ _ h => h.2) hinf
  exact ⟨s, n, hmem, hn⟩

/-- Before the news arrives, the copy for the destroyed element comes back again and again. -/
example : (Transition.exec perform (start System.chain : Broadcasting ℕ ℕ Unit ℕ)
      (returned.take 4 ++ [.execute 0 ⟨some (0, 1), 7⟩, .redirect 1 ⟨some (0, 1), 7⟩])).map
        (·.inFlight) =
    (Transition.exec perform (start System.chain : Broadcasting ℕ ℕ Unit ℕ)
      (returned.take 4)).map (·.inFlight) := by
  decide +kernel

end Broadcasting

end Hypercomm.TreeBuilder.Destruction
