import Hypercomm.Tree.Rooted
import Hypercomm.TreeBuilder.Handlers
import Hypercomm.TreeBuilder.Invariant
import Hypercomm.TreeBuilder.Network

/-! # The tree of the nodes

Each node hands an endpoint on to its leaves. An announcement that starts at node zero is on its
way to every node below the nodes that it was sent to, and so it gets to each node once.
-/

namespace Hypercomm.TreeBuilder

open Transition

variable {Idx : Type*} {N : NumNodes}

def NumNodes.list (N : NumNodes) : List ℤ := (List.range N.val.toNat).map Int.ofNat

theorem NumNodes.mem_list {n : ℤ} : n ∈ N.list ↔ 0 ≤ n ∧ n < N.val := by
  simp only [NumNodes.list, List.mem_map, List.mem_range]
  constructor
  · rintro ⟨m, hm, rfl⟩
    simp only [Int.ofNat_eq_natCast]
    omega
  · rintro ⟨h0, hn⟩
    exact ⟨n.toNat, by omega, by simp [h0]⟩

theorem NumNodes.nodup_list : N.list.Nodup := List.nodup_range.map fun _ _ => Int.ofNat.inj

theorem mem_leaves_iff' {i j : ℤ} (h0 : 0 ≤ i) (hi : i < N.val) :
    j ∈ leaves N i ↔ 0 < j ∧ j < N.val ∧ BinaryTree.parent j = i := by
  rw [mem_leaves_iff h0 hi, and_comm]
  constructor
  · rintro ⟨hj, hp⟩
    refine ⟨?_, hj, hp⟩
    rw [← BinaryTree.parent_nonneg_iff, hp]
    exact h0
  · rintro ⟨-, hj, hp⟩
    exact ⟨hj, hp⟩

def nodeTree (N : NumNodes) : RankedTree ℤ where
  nodes := N.list
  root := 0
  parent n := if 0 < n then some (BinaryTree.parent n) else none
  children := leaves N
  rank := Int.toNat
  root_mem := NumNodes.mem_list.mpr ⟨le_rfl, N.pos⟩
  parent_root := rfl
  exists_parent n hn hne := by
    rw [NumNodes.mem_list] at hn
    have hpos : 0 < n := by omega
    have hp := BinaryTree.parent_nonneg_iff.mpr hpos
    have hlt := BinaryTree.parent_lt hn.1
    exact ⟨_, NumNodes.mem_list.mpr ⟨hp, by omega⟩, if_pos hpos, by omega⟩
  mem_children_iff i hi j := by
    rw [NumNodes.mem_list] at hi
    rw [mem_leaves_iff' hi.1 hi.2, NumNodes.mem_list]
    constructor
    · rintro ⟨hpos, hj, hp⟩
      exact ⟨⟨hpos.le, hj⟩, by rw [if_pos hpos, hp]⟩
    · rintro ⟨hj, hp⟩
      split_ifs at hp with hpos
      exact ⟨hpos, hj.2, Option.some.inj hp⟩
  nodup_children i hi := by
    rw [NumNodes.mem_list] at hi
    exact leaves_nodup hi.1 hi.2

/-- No node knows of an endpoint, and one is announced to node zero. -/
structure Network.Announces (net : Network Idx) (src : ℤ) (idx : Idx) : Prop where
  endpoint : ∀ n, (net.nodes n).endpoint = none
  flight : net.flight = {.regEndpoint 0 src idx}

def Action.isDelivery : Action Idx → Prop
  | .create _ _ => False
  | .deliver _ => True

def visited (as : List (Action Idx)) : List ℤ :=
  as.filterMap fun
    | .create _ _ => none
    | .deliver m => some m.dst

@[simp] theorem visited_deliver (as : List (Action Idx)) (m : Message Idx) :
    visited (as ++ [.deliver m]) = visited as ++ [m.dst] := by
  simp [visited]

/-- The announcement gets to the nodes below those that it was sent to. -/
structure Covers (N : NumNodes) (idx : Idx) (as : List (Action Idx)) (net : Network Idx) :
    Prop where
  cover : (visited as : Multiset ℤ) + net.flight.bind (fun m => (nodeTree N).below m.dst) = N.list
  announces : ∀ m ∈ net.flight, ∃ n src, m = .regEndpoint n src idx ∧ n ∈ N.list
  endpoint : ∀ n, n ∉ visited as → (net.nodes n).endpoint = none
  length : as.length = (visited as).length

variable {as : List (Action Idx)} {net net₀ net' : Network Idx} {src : ℤ} {idx : Idx}
variable {m : Message Idx}

theorem Network.Announces.covers (h : net₀.Announces src idx) : Covers N idx [] net₀ where
  cover := by
    have hroot : (nodeTree N).below 0 = N.list := RankedTree.below_root (T := nodeTree N)
    rw [h.flight, Multiset.singleton_bind]
    exact (Multiset.zero_add _).trans hroot
  announces m hm := by
    rw [h.flight, Multiset.mem_singleton] at hm
    exact ⟨0, src, hm, (nodeTree N).root_mem⟩
  endpoint n _ := h.endpoint n
  length := rfl

theorem Covers.not_visited (hc : Covers N idx as net) (hm : m ∈ net.flight) :
    m.dst ∉ visited as := by
  intro hv
  obtain ⟨rest, hrest⟩ := Multiset.exists_cons_of_mem hm
  obtain ⟨n, src, rfl, hn⟩ := hc.announces m hm
  have hcover := hc.cover
  rw [hrest, Multiset.cons_bind, RankedTree.below_eq NumNodes.nodup_list hn] at hcover
  have hcount := congrArg (Multiset.count n) hcover
  have hone : Multiset.count n (N.list : Multiset ℤ) ≤ 1 :=
    Multiset.nodup_iff_count_le_one.mp (Multiset.coe_nodup.mpr NumNodes.nodup_list) n
  have hpos : 0 < Multiset.count n (visited as : Multiset ℤ) := Multiset.count_pos.mpr hv
  rw [← hcount] at hone
  simp only [Message.dst, Multiset.count_add, Multiset.count_cons_self] at hone hpos
  omega

variable [DecidableEq Idx]

/-- What a delivery leaves, the next announcements among it. -/
theorem Covers.handles (hc : Covers N idx as net) {n : ℤ} {rest : Multiset (Message Idx)}
    {r : Except Abort (Node Idx × List (Message Idx))}
    (h : Network.Handles N net (.deliver m) n rest r) :
    n = m.dst ∧ n ∈ N.list ∧ net.flight = m ::ₘ rest ∧ ∃ s : Node Idx,
      r = .ok (s, (leaves N n).map fun leaf => .regEndpoint leaf n idx) := by
  cases h with
  | deliver hrest =>
    have hm : m ∈ net.flight := by simp [hrest]
    have hend := hc.endpoint _ (hc.not_visited hm)
    obtain ⟨k, src, rfl, hk⟩ := hc.announces m hm
    rw [Node.receive_regEndpoint hend]
    exact ⟨rfl, hk, hrest, _, rfl⟩

theorem Covers.step (hc : Covers N idx as net) {a : Action Idx} (ha : a.isDelivery)
    (h : Network.Step N net a net') : Covers N idx (as ++ [a]) net' := by
  cases a with
  | create => exact ha.elim
  | deliver m =>
    cases h with
    | mk hh hels =>
      obtain ⟨rfl, hn, hrest, s, hr⟩ := hc.handles hh
      obtain ⟨rfl, rfl⟩ := Prod.mk.inj (Except.ok.inj hr)
      constructor
      case cover =>
        have hsplit := hc.cover
        have hnext : (((leaves N m.dst).map fun leaf => Message.regEndpoint leaf m.dst idx :
            List (Message Idx)) : Multiset (Message Idx)).bind (fun m => (nodeTree N).below m.dst) =
            ((leaves N m.dst : List ℤ) : Multiset ℤ).bind (nodeTree N).below := by
          rw [← Multiset.map_coe, Multiset.bind_map]
          rfl
        rw [hrest, Multiset.cons_bind, RankedTree.below_eq NumNodes.nodup_list hn] at hsplit
        rw [visited_deliver, Multiset.add_bind, hnext, ← hsplit, ← Multiset.coe_add,
          Multiset.coe_singleton, ← Multiset.singleton_add]
        ac_rfl
      case announces =>
        intro m' hm'
        rcases Multiset.mem_add.mp hm' with hold | hsent
        · exact hc.announces m' (hrest ▸ Multiset.mem_cons_of_mem hold)
        · obtain ⟨leaf, hleaf, rfl⟩ := List.mem_map.mp hsent
          have hi := NumNodes.mem_list.mp hn
          have hj := (mem_leaves_iff' hi.1 hi.2).mp hleaf
          exact ⟨leaf, m.dst, rfl, NumNodes.mem_list.mpr ⟨hj.1.le, hj.2.1⟩⟩
      case endpoint =>
        intro k hk
        rw [visited_deliver, List.mem_append, not_or, List.mem_singleton] at hk
        simp only [Function.update_of_ne hk.2]
        exact hc.endpoint k hk.1
      case length =>
        rw [visited_deliver, List.length_append, List.length_append, hc.length]
        rfl

theorem Covers.deliverable (hc : Covers N idx as net) (hm : m ∈ net.flight) :
    ∃ net', Network.Step N net (.deliver m) net' := by
  obtain ⟨rest, hrest⟩ := Multiset.exists_cons_of_mem hm
  obtain ⟨-, -, -, s, hr⟩ := hc.handles (Network.Handles.deliver hrest)
  exact ⟨_, Network.Step.deliver hrest hr⟩

theorem covers_run (h₀ : net₀.Announces src idx)
    (h : Run (restrict (Network.Step N) fun _ a => a.isDelivery) net₀ as net) :
    Covers N idx as net := by
  induction h with
  | nil => exact h₀.covers
  | snoc _ hs ih => exact ih.step hs.1 hs.2

omit [DecidableEq Idx] in
theorem Covers.le_list (hc : Covers N idx as net) : (visited as : Multiset ℤ) ≤ N.list :=
  hc.cover ▸ Multiset.le_add_right _ _

/-- The leaves of a node are its children in the tree over the nodes, and an announcement that
starts at node zero is delivered to every node once, in whichever order messages arrive. -/
theorem nodes_announced (N : NumNodes) :
    (∀ i, 0 ≤ i → i < N.val → (leaves N i).Nodup ∧
      ∀ j, j ∈ leaves N i ↔ 0 < j ∧ j < N.val ∧ BinaryTree.parent j = i) ∧
    ∀ (src : ℤ) (idx : Idx) (net₀ net : Network Idx) (as : List (Action Idx)),
      net₀.Announces src idx →
      Run (restrict (Network.Step N) fun _ a => a.isDelivery) net₀ as net →
      (visited as).Nodup ∧ (∀ n ∈ visited as, 0 ≤ n ∧ n < N.val) ∧ as.length ≤ N.val.toNat ∧
      (∀ m ∈ net.flight, ∃ net', Network.Step N net (.deliver m) net') ∧
      (net.flight = 0 → ∀ n, (visited as).count n = if 0 ≤ n ∧ n < N.val then 1 else 0) := by
  constructor
  · intro i h0 hi
    exact ⟨leaves_nodup h0 hi, fun j => mem_leaves_iff' h0 hi⟩
  · intro src idx net₀ net as h₀ hrun
    have hc := covers_run h₀ hrun
    have hsub : (visited as).Subperm N.list := Multiset.coe_le.mp hc.le_list
    have hnodup := Multiset.nodup_of_le hc.le_list (Multiset.coe_nodup.mpr NumNodes.nodup_list)
    refine ⟨Multiset.coe_nodup.mp hnodup, ?_, ?_, fun m hm => hc.deliverable hm, ?_⟩
    · intro n hn
      exact NumNodes.mem_list.mp (hsub.subset hn)
    · rw [hc.length]
      apply hsub.length_le.trans
      simp [NumNodes.list]
    · intro hflight n
      have hcover := hc.cover
      rw [hflight, Multiset.zero_bind, Multiset.add_zero, Multiset.coe_eq_coe] at hcover
      rw [hcover.count_eq n]
      split_ifs with hn
      · exact List.count_eq_one_of_mem NumNodes.nodup_list (NumNodes.mem_list.mpr hn)
      · exact List.count_eq_zero_of_not_mem fun h => hn (NumNodes.mem_list.mp h)

/-- With two nodes, the second is announced to once after two deliveries. -/
theorem nodes_announced_two : (visited [Action.deliver (.regEndpoint 0 0 ()),
    .deliver (.regEndpoint 1 0 ())]).count 1 = 1 := by
  let N : NumNodes := ⟨2, by decide, by decide⟩
  let net₀ : Network Unit := ⟨fun _ => {}, {.regEndpoint 0 0 ()}⟩
  have h₀ : net₀.Announces 0 () := ⟨fun _ => rfl, rfl⟩
  obtain ⟨s₀, hs₀⟩ : ∃ s, (net₀.nodes 0).receive N (.regEndpoint 0 0 ()) =
      .ok (s, [.regEndpoint 1 0 ()]) := ⟨_, rfl⟩
  obtain ⟨s₁, hs₁⟩ : ∃ s, (Function.update net₀.nodes 0 s₀ 1).receive N (.regEndpoint 1 0 ()) =
      .ok (s, []) := ⟨_, rfl⟩
  have h₁ := Network.Step.deliver (r := 0) h₀.flight hs₀
  have h₂ : Network.Step N ⟨Function.update net₀.nodes 0 s₀, _⟩ _ _ :=
    Network.Step.deliver (r := 0) (Multiset.zero_add _) hs₁
  have hok : ∀ m, Action.isDelivery (.deliver m : Action Unit) := fun _ => trivial
  have hrun : Run (restrict (Network.Step N) fun _ a => a.isDelivery) net₀ _ _ :=
    (Run.single ⟨hok _, h₁⟩).snoc ⟨hok _, h₂⟩
  exact ((nodes_announced N).2 0 () _ _ _ h₀ hrun).2.2.2.2 rfl 1

end Hypercomm.TreeBuilder
