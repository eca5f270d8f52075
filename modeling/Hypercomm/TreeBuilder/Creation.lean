import Hypercomm.Tree.Growth
import Hypercomm.TreeBuilder.Settling

/-! # Elements that are created later

An element is created as a child of another one, which is a node of the tree, and is a leaf of the
tree from then on. Its counter starts at the next reduction of its parent, so that the reducers that
are under way at the parent do not wait for it.
-/

namespace Hypercomm.TreeBuilder.Destruction

open Contraction

variable {ι V κ : Type*} [DecidableEq ι]

def View.create (v : View ι V κ) (x child : ι) : View ι V κ :=
  { v with
    elements := Function.update (Function.update v.elements x { v.elements x with
      downstream := (v.elements x).downstream ++ [child] }) child
        { rednCount := (v.elements x).rednCount, upstream := some x, downstream := [] }
    alive := Function.update v.alive child true }

variable {T : RankedTree ι} {as : List (Action ι V κ)} {v : View ι V κ} {A : State ι V}
variable {x y z : ι} {c : ReductionId}

section Elements

theorem View.create_self : (v.create x y).elements y =
    { rednCount := (v.elements x).rednCount, upstream := some x, downstream := [] } :=
  Function.update_self ..

theorem View.create_of_ne (hz : z ≠ y) : (v.create x y).elements z =
    { v.elements z with downstream :=
      if z = x then (v.elements z).downstream ++ [y] else (v.elements z).downstream } := by
  unfold View.create
  dsimp only
  rw [Function.update_of_ne hz]
  rcases eq_or_ne z x with rfl | hzx
  · simp
  · simp [hzx]

end Elements

theorem Corresponds.mem_of_copies (h : Corresponds T as v A) (hr : y ≠ T.root)
    (hc : v.copies T y c ≠ 0) : y ∈ T.nodes := by
  have hsent := h.sent y c
  unfold View.sent at hsent
  rw [if_neg hr] at hsent
  apply h.sound.inv.mem_of_sent (c := c)
  intro hnone
  rw [hnone] at hsent
  exact hc hsent

theorem Corresponds.index_mem (h : Corresponds T as v A) {m : Delivery ι V}
    (hm : m ∈ v.contributions) : m.index ∈ T.nodes := by
  apply h.mem_of_copies (c := m.count) (h.inFlight m hm).ne_root
  intro hzero
  have hmem : m.value ∈ v.copies T m.index m.count := by
    apply Multiset.mem_add.mpr
    left
    apply Multiset.mem_map_of_mem
    exact Multiset.mem_filter.mpr ⟨hm, rfl, rfl⟩
  rw [hzero] at hmem
  exact Multiset.notMem_zero _ hmem

theorem Corresponds.port_mem (h : Corresponds T as v A)
    (hq : ((v.elements x).slots c).portQueue y ≠ []) : y ∈ T.nodes := by
  obtain ⟨a, -, hs, -⟩ := (h.queue_cases x c y).resolve_left hq
  apply h.sound.inv.mem_of_sent (c := c)
  rw [hs]
  exact Option.some_ne_none a

theorem Corresponds.create (h : Corresponds T as v A) (hx : v.alive x = true) (hxn : x ∈ T.nodes)
    (hy : y ∉ T.nodes) :
    Corresponds (T.graft hxn hy) (as ++ [.create x y]) (v.create x y) (A.enter x y) := by
  have hinv := h.sound.inv
  have hxa := (h.alive x).mp hx
  have hb := hinv.blank hy
  have hne : ∀ z ∈ T.nodes, z ≠ y := fun z hz he => hy (he ▸ hz)
  have hxy := hne x hxn
  have hunder : ∀ w z, w ∈ T.nodes → Under T A w z → Under (T.graft hxn hy) (A.enter x y) w z :=
    fun w z hw hu => hu.graft hxn hy hinv hw
  have hqueue : ∀ z c w, (((v.create x y).elements z).slots c).portQueue w ≠ [] →
      z ≠ y ∧ ((v.elements z).slots c).portQueue w ≠ [] := by
    intro z c w hq
    rcases eq_or_ne z y with rfl | hzy
    · rw [View.create_self] at hq
      exact absurd rfl hq
    · rw [View.create_of_ne hzy] at hq
      exact ⟨hzy, hq⟩
  constructor
  · exact h.sound.enter hxn hy hxa
  · intro z
    rw [contributed_snoc]
    rcases eq_or_ne z y with rfl | hzy
    · simp [Action.record, State.enter, h.own]
    · simp [Action.record, State.enter, h.own, hzy]
  · intro z
    rw [State.enter_alive, ← h.alive]
    rcases eq_or_ne z y with rfl | hzy
    · simp [View.create]
    · simp [View.create, hzy]
  · intro z w
    have hold := h.forwards z w
    change v.forwards z = some w ↔ A.forwards z ∧ Function.update T.parent y (some x) z = some w
    rcases eq_or_ne z y with rfl | hzy
    · rw [hold]
      exact ⟨fun hf => absurd hf.1 hb.forwards, fun hf => absurd hf.1 hb.forwards⟩
    · rwa [Function.update_of_ne hzy]
  · intro z
    change _ = Function.update T.parent y (some x) z
    rcases eq_or_ne z y with rfl | hzy
    · rw [View.create_self, Function.update_self]
    · rw [View.create_of_ne hzy, Function.update_of_ne hzy]
      exact h.upstream z
  · intro z
    rcases eq_or_ne z y with rfl | hzy
    · rw [View.create_self]
      simp [State.enter, h.count]
    · rw [View.create_of_ne hzy]
      simp [State.enter, h.count, hzy]
  · intro z hz
    rcases eq_or_ne z y with rfl | hzy
    · rw [View.create_self]
      exact List.nodup_nil
    · have hza := (State.enter_alive.mp hz).resolve_left hzy
      have hnd := h.nodup z hza
      rw [View.create_of_ne hzy]
      dsimp only
      split_ifs
      · have hnot : y ∉ (v.elements z).downstream := fun hmem =>
          hy (hinv.mem z y ((h.downstream z hza y).mp hmem))
        exact (List.perm_append_singleton y _).nodup_iff.mpr (List.nodup_cons.mpr ⟨hnot, hnd⟩)
      · exact hnd
  · intro z hz i
    rw [State.mem_enter]
    rcases eq_or_ne z y with rfl | hzy
    · rw [View.create_self, hb.children]
      simp [hxy.symm]
    · have hza := (State.enter_alive.mp hz).resolve_left hzy
      have hold := h.downstream z hza i
      rw [View.create_of_ne hzy]
      dsimp only
      split_ifs with hzx
      · subst hzx
        simp [hold, or_comm]
      · simp [hzx, hold]
  · intro z c hz
    rcases eq_or_ne z y with rfl | hzy
    · exact hb.pending c
    · rw [View.create_of_ne hzy] at hz
      exact h.idle z c hz
  · intro z c r hz
    rcases eq_or_ne z y with rfl | hzy
    · rw [View.create_self] at hz
      cases hz
    · rw [View.create_of_ne hzy] at hz
      obtain ⟨p, hp, hr⟩ := h.reducer z c r hz
      refine ⟨p, hp, hr.active, hr.nodup, hr.wait, hr.acc, hr.nUstream, ?_, hr.source, ?_⟩
      · have hout := hr.output
        have hpar : (T.graft hxn hy).parent z = T.parent z := Function.update_of_ne hzy ..
        unfold OutputFor at hout ⊢
        rwa [hpar]
      · intro i hi hip
        obtain ⟨hin, hs⟩ := hr.silent i hi hip
        exact ⟨List.mem_append_left _ hin, hs.enter (hne i hin)⟩
  · intro w c
    refine Eq.trans ?_ (h.sent w c)
    have hcopies : (v.create x y).copies (T.graft hxn hy) w c = v.copies T w c := by
      have hnodes : (T.graft hxn hy).nodes.toFinset = insert y T.nodes.toFinset := by
        simp [RankedTree.graft]
      have hnot : y ∉ T.nodes.toFinset := fun hmem => hy (List.mem_toFinset.mp hmem)
      unfold View.copies
      rw [hnodes, Finset.sum_insert hnot, View.create_self]
      have hsum : ∀ z ∈ T.nodes.toFinset,
          ((((v.create x y).elements z).slots c).portQueue w : Multiset (Multiset V)) =
            ((v.elements z).slots c).portQueue w := by
        intro z hz
        rw [View.create_of_ne (hne z (List.mem_toFinset.mp hz))]
      rw [Finset.sum_congr rfl hsum]
      exact congrArg _ (zero_add _)
    unfold View.sent
    rw [hcopies]
    rfl
  · exact fun m hm => hunder _ _ (h.index_mem hm) (h.inFlight m hm)
  · intro z c w hz
    obtain ⟨-, hq⟩ := hqueue z c w hz
    obtain ⟨hzn, hu⟩ := h.queued z c w hq
    exact ⟨List.mem_append_left _ hzn, hunder w z (h.port_mem hq) hu⟩
  · intro q hq
    have hrec := h.records q hq
    obtain ⟨o, ho⟩ := hrec.owned
    have hfrom : q.2.from_ ∈ T.nodes := hinv.mem o _ ho
    have hfy := hne _ hfrom
    have hfx : q.2.from_ ≠ x := fun he => hrec.dead (he ▸ hxa)
    refine ⟨?_, State.enter_owned.mpr (.inr hrec.owned), ?_, hrec.nodup, ?_,
      hunder _ _ hfrom hrec.under⟩
    · exact fun ha => hrec.dead ((State.enter_alive.mp ha).resolve_left hfy)
    · rw [hrec.stamp]
      simp [State.enter, hfy]
    · intro i
      rw [hrec.children, State.mem_enter]
      simp [hfx]
  · exact h.once
  · intro u hu ho
    have hua : ¬ A.alive u := fun ha => hu (State.enter_alive.mpr (.inr ha))
    have huy : u ≠ y := fun he => hu (State.enter_alive.mpr (.inl he))
    exact h.recorded u hua ((State.enter_owned.mp ho).resolve_left huy)

theorem Settled.create (h : Settled T as v) (hx : v.alive x = true) (hxn : x ∈ T.nodes)
    (hy : y ∉ T.nodes) :
    Settled (T.graft hxn hy) (as ++ [.create x y]) (v.create x y) := by
  obtain ⟨A, hA⟩ := h.corresponds
  refine ⟨⟨_, hA.create hx hxn hy⟩, fun z c => ?_⟩
  rcases eq_or_ne z y with rfl | hzy
  · rw [View.create_self]
    intro r hr
    cases hr
  · rw [View.create_of_ne hzy]
    exact h.settled z c

end Hypercomm.TreeBuilder.Destruction
