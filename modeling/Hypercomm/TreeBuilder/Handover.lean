import Hypercomm.TreeBuilder.Quiescence
import Hypercomm.TreeBuilder.Survival

/-! # Reductions over the tree that was built

Once a node has stopped inserting, no tree-building message is in flight and the associations of
the elements are those of a rooted tree. Reductions over the elements start from this tree.
-/

namespace Hypercomm.TreeBuilder

variable {Idx V κ : Type*} {N : NumNodes}

section Distinct

variable [DecidableEq Idx]

def Node.Distinct (s : Node Idx) : Prop := ∀ e ∈ s.elements, e.association.downstream.Nodup

namespace Node

variable {s s' : Node Idx} {n : ℤ} {x t : Idx} {sent : List (Message Idx)}

omit [DecidableEq Idx] in
theorem Distinct.congr (h : s.Distinct) (he : s'.elements = s.elements) : s'.Distinct := by
  intro e hmem
  exact h e (he ▸ hmem)

theorem Distinct.modify (h : s.Distinct) {f : Element Idx → Element Idx}
    (hf : ∀ e ∈ s.elements, (f e).association.downstream.Nodup) : (s.modify t f).Distinct := by
  intro e he
  obtain ⟨d, hd, rfl⟩ := List.mem_map.mp he
  split_ifs
  · exact hf d hd
  · exact h d hd

theorem Distinct.putDownstream (h : s.Distinct)
    (hx : ∀ e ∈ s.elements, x ∉ e.association.downstream) :
    (s.modify t (·.putDownstream x)).Distinct := by
  apply h.modify
  intro e he
  change (e.association.downstream ++ [x]).Nodup
  exact (List.perm_append_singleton x _).nodup_iff.mpr (List.nodup_cons.mpr ⟨hx e he, h e he⟩)

theorem Distinct.regElement (h : s.Distinct) (hi : s.inserting = true)
    (hx : ∀ e ∈ s.elements, x ∉ e.association.downstream)
    (hr : s.regElement N n x none = .ok (s', sent)) : s'.Distinct := by
  cases ht : s.findTarget false with
  | some t =>
    rw [regElement_of_target hi ht] at hr
    obtain ⟨rfl, -⟩ := Prod.mk.inj (Except.ok.inj hr)
    intro e he
    rcases List.mem_cons.mp he with rfl | he
    · exact List.nodup_nil
    · exact h.putDownstream hx e (List.mem_of_mem_filter he)
  | none =>
    have he := findTarget_false_eq_none.mp ht
    have hnew : s'.elements = [{ index := x }] ∨
        s'.elements = [Element.setEndpoint { index := x }] := by
      rcases lt_or_ge 0 n with hn | hn
      · rw [regElement_of_empty hi he hn] at hr
        obtain ⟨rfl, -⟩ := Prod.mk.inj (Except.ok.inj hr)
        exact .inl rfl
      · by_cases hend : s.endpoint = none
        · rw [regElement_of_root hi he hn hend] at hr
          obtain ⟨rfl, -⟩ := Prod.mk.inj (Except.ok.inj hr)
          exact .inr rfl
        · rw [regElement_of_second_root hi he hn hend] at hr
          cases hr
    intro e hmem
    rcases hnew with hnew | hnew
    all_goals
      rw [hnew, List.mem_singleton] at hmem
      rw [hmem]
      exact List.nodup_nil

theorem Distinct.receive {m : Message Idx} (h : s.Distinct)
    (hx : ∀ dst node x, m = .receiveDownstream dst node x →
      ∀ e ∈ s.elements, x ∉ e.association.downstream)
    (hr : s.receive N m = .ok (s', sent)) : s'.Distinct := by
  cases m with
  | regEndpoint dst src x =>
    by_cases hend : s.endpoint = none
    · rw [receive_regEndpoint hend] at hr
      obtain ⟨rfl, -⟩ := Prod.mk.inj (Except.ok.inj hr)
      exact (h.modify (f := Element.setEndpoint) fun e he => h e he).congr rfl
    · have hsome : s.endpoint.isSome = true := Option.isSome_iff_ne_none.mpr hend
      simp [Node.receive, Node.regEndpoint, hsome, bind, Except.bind] at hr
  | receiveDownstream dst node x =>
    cases ht : s.findTarget false with
    | some t =>
      rw [receiveDownstream_of_target ht] at hr
      obtain ⟨rfl, -⟩ := Prod.mk.inj (Except.ok.inj hr)
      exact h.putDownstream (hx dst node x rfl)
    | none =>
      have he := findTarget_false_eq_none.mp ht
      rcases lt_or_ge 0 dst with hn | hn
      · rw [receiveDownstream_of_empty he hn] at hr
        obtain ⟨rfl, -⟩ := Prod.mk.inj (Except.ok.inj hr)
        exact h
      · by_cases hend : s.endpoint = none
        · rw [receiveDownstream_of_root he hn hend] at hr
          obtain ⟨rfl, -⟩ := Prod.mk.inj (Except.ok.inj hr)
          exact h.congr rfl
        · rw [receiveDownstream_of_second_root he hn hend] at hr
          cases hr
  | receiveUpstream dst node x =>
    cases ht : s.findTarget true with
    | none =>
      simp [Node.receive, Node.receiveUpstream, regUpstream, sendDownstream, ht, bind,
        Except.bind] at hr
    | some t =>
      rw [receiveUpstream_of_target ht] at hr
      obtain ⟨rfl, -⟩ := Prod.mk.inj (Except.ok.inj hr)
      exact (h.modify (f := (·.putUpstream x)) fun e he => h e he).congr rfl

end Node

namespace Network

variable {net net' : Network Idx} {f : Forest Idx} {a : Action Idx}

theorem Step.distinct (hi : f.Inv N) (hr : net.Refines f) (hins : net.Inserts a)
    (h : Step N net a net') (hd : ∀ n, (net.nodes n).Distinct) : ∀ n, (net'.nodes n).Distinct := by
  obtain @⟨n, rest, s, _, els, hh, hp⟩ := h
  have hnew : s.Distinct := by
    generalize hres : Except.ok _ = r at hh
    cases hh with
    | @create n x h0 hn hf =>
      have hnone := hi.not_parent_of_absent (hr.status_of_fresh hf)
      refine (hd n).regElement hins (fun e he hmem => ?_) hres.symm
      -- a parent that does not know of the element cannot have it
      have hc := ((hr.2 n).downstream e he x).mp hmem
      rw [hi.children_iff] at hc
      have habs := hr.status_of_fresh hf
      rcases hc with ⟨k, hk⟩ | ⟨k, m, hk, -⟩
      · rw [habs] at hk
        cases hk
      · rw [habs] at hk
        cases hk
    | @deliver m _ hflight =>
      refine (hd m.dst).receive (fun dst node x hm e he hmem => ?_) hres.symm
      subst hm
      have hff : f.flight = .receiveDownstream dst node x ::ₘ rest := hr.1 ▸ hflight
      obtain ⟨-, -, hw⟩ := hi.downstream dst node x (by simp [hff])
      have hc := ((hr.2 dst).downstream e he x).mp hmem
      rw [hi.children_iff] at hc
      rcases hc with ⟨k, hk⟩ | ⟨k, m, hk, hm⟩
      · rw [hw] at hk
        cases hk
      · -- the node waits for one message only
        obtain rfl := Status.waiting.inj (hw.symm.trans hk)
        have hle := hi.serves_le node
        rw [hff] at hle hm
        have hmem := (Multiset.mem_cons.mp hm).resolve_left (by simp)
        have hpos := serving_pos_of_mem hmem (n := node) (by simp [Message.serves])
        simp only [serving_cons, Message.serves, decide_true, if_true] at hle
        omega
  intro m
  rcases eq_or_ne m n with rfl | hne
  · intro e he
    exact hnew e (hp.mem_iff.mp (by simpa using he))
  · simpa [hne] using hd m

end Network

theorem Insertion.distinct {s : Insertion Idx} {es : List (Event Idx)}
    (h : Transition.Run (Transition.restrict (Insertion.Step N) Insertion.Ordered)
      Insertion.init es s) : s.Inv N ∧ ∀ n, (s.net.nodes n).Distinct := by
  refine h.invariant (I := fun s => s.Inv N ∧ ∀ n, (s.net.nodes n).Distinct) ?_
    ⟨Insertion.inv_init, fun n e he => by simp [Insertion.init, Network.init] at he⟩
  rintro s e t ⟨hi, hd⟩ ⟨hord, hs⟩
  refine ⟨hi.step hord hs, ?_⟩
  cases hs with
  | @act a net h hc =>
    obtain ⟨f, hf, hr⟩ := hi.forest
    refine h.distinct hf hr (hi.inserts (fun n x ha => ?_) hc) hd
    subst ha
    obtain @⟨_, _, _, _, _, hh, -⟩ := h
    generalize hres : Except.ok _ = r at hh
    cases hh with
    | create h0 hn _ => exact NumNodes.mem_nodes.mpr ⟨h0, hn⟩
  | contribute => exact hd
  | @recvCount n =>
    intro m e he
    apply hd m e
    simp only [Network.recvCount] at he
    rcases eq_or_ne m n with rfl | hne
    · simp only [Function.update_self, Node.recvCount] at he
      split_ifs at he <;> exact he
    · simpa [hne] using he

end Distinct

namespace Network

/-- The elements that the nodes have registered. -/
def elements (N : NumNodes) (net : Network Idx) : List (Element Idx) :=
  (List.range N.val.toNat).flatMap fun n : ℕ => (net.nodes n).elements

variable [DecidableEq Idx]

def association (N : NumNodes) (net : Network Idx) (x : Idx) : Association Idx :=
  ((net.elements N).find? (·.index = x)).elim {} Element.association

/-- The elements as the reductions find them. -/
def handover (N : NumNodes) (net : Network Idx) : Destruction.System Idx V κ where
  members := (net.elements N).map (·.index)
  elements x :=
    { upstream := (net.association N x).upstream.head?
      downstream := (net.association N x).downstream }
  alive x := decide (x ∈ (net.elements N).map (·.index))
  forwards _ := none
  inFlight := 0
  called := []

section Tree

variable {net : Network Idx} {f : Forest Idx} {x y u : Idx} {n : ℤ} {e : Element Idx}

omit [DecidableEq Idx] in
theorem Refines.mem_elements (hi : f.Inv N) (hr : net.Refines f)
    (he : e ∈ (net.nodes n).elements) : e ∈ net.elements N := by
  obtain ⟨h0, hn⟩ := hi.range n e.index ((hr.2 n).located_of_mem he)
  have hlt : n.toNat < N.val.toNat := by omega
  refine List.mem_flatMap.mpr ⟨n.toNat, List.mem_range.mpr hlt, ?_⟩
  rwa [Int.toNat_of_nonneg h0]

omit [DecidableEq Idx] in
theorem exists_of_mem_elements (he : e ∈ net.elements N) : ∃ n, e ∈ (net.nodes n).elements := by
  obtain ⟨n, -, he⟩ := List.mem_flatMap.mp he
  exact ⟨n, he⟩

theorem Refines.association_eq (hi : f.Inv N) (hr : net.Refines f)
    (he : e ∈ (net.nodes n).elements) : net.association N e.index = e.association := by
  have hsome : ((net.elements N).find? (·.index = e.index)).isSome :=
    List.find?_isSome.mpr ⟨e, hr.mem_elements hi he, by simp⟩
  obtain ⟨d, hd⟩ := Option.isSome_iff_exists.mp hsome
  obtain ⟨m, hm⟩ := exists_of_mem_elements (List.mem_of_find?_eq_some hd)
  obtain rfl : d = e := hr.mem_unique hm he (by simpa using List.find?_some hd)
  unfold association
  rw [hd]
  rfl

theorem association_of_notMem (hx : x ∉ (net.elements N).map (·.index)) :
    net.association N x = {} := by
  have hnone : (net.elements N).find? (·.index = x) = none := by
    rw [List.find?_eq_none]
    intro e he hex
    exact hx (List.mem_map.mpr ⟨e, he, by simpa using hex⟩)
  unfold association
  rw [hnone]
  rfl

variable (hi : f.Inv N) (hr : net.Refines f)

include hi hr

theorem Refines.head_upstream_iff (st : net.SpanningTree) :
    (net.association N x).upstream.head? = some u ↔ net.Upstream x u := by
  constructor
  · intro h
    by_cases hx : x ∈ (net.elements N).map (·.index)
    · obtain ⟨e, he, rfl⟩ := List.mem_map.mp hx
      obtain ⟨n, he⟩ := exists_of_mem_elements he
      rw [hr.association_eq hi he] at h
      exact ⟨n, e, he, rfl, List.mem_of_head? h⟩
    · rw [association_of_notMem hx] at h
      cases h
  · rintro ⟨n, e, he, rfl, hu⟩
    rw [hr.association_eq hi he]
    have hep : ¬ e.isEndpoint := by
      intro hep
      simp only [Element.isEndpoint, Bool.and_eq_true, List.isEmpty_iff] at hep
      rw [hep.2] at hu
      exact List.not_mem_nil hu
    obtain ⟨-, v, hv⟩ := st.member n e he hep
    rw [hv, List.mem_singleton] at hu
    rw [hv, hu]
    rfl

theorem Refines.mem_downstream_iff (st : net.SpanningTree) :
    y ∈ (net.association N x).downstream ↔ net.Upstream y x := by
  rw [st.upstream_iff]
  constructor
  · intro h
    by_cases hx : x ∈ (net.elements N).map (·.index)
    · obtain ⟨e, he, rfl⟩ := List.mem_map.mp hx
      obtain ⟨n, he⟩ := exists_of_mem_elements he
      rw [hr.association_eq hi he] at h
      exact ⟨n, e, he, rfl, h⟩
    · rw [association_of_notMem hx] at h
      exact absurd h List.not_mem_nil
  · rintro ⟨n, e, he, rfl, hy⟩
    rwa [hr.association_eq hi he]

omit [DecidableEq Idx] in
theorem Refines.mem_of_upstream (h : net.Upstream x u) : x ∈ (net.elements N).map (·.index) := by
  obtain ⟨n, e, he, rfl, -⟩ := h
  exact List.mem_map_of_mem (hr.mem_elements hi he)

open Classical in
/-- The associations are those of a rooted tree. -/
theorem Refines.exists_tree (st : net.SpanningTree) (hd : ∀ n, (net.nodes n).Distinct) :
    ∃ T : RankedTree Idx,
      (net.handover N : Destruction.System Idx V κ) = Destruction.System.start T := by
  obtain ⟨r, ⟨⟨k, hr'⟩, hep⟩, hunique⟩ := st.endpoint
  have hup : ∀ x u, (net.association N x).upstream.head? = some u ↔ net.Upstream x u :=
    fun x u => hr.head_upstream_iff hi st
  have hmem : ∀ x u, net.Upstream x u → u ∈ (net.elements N).map (·.index) := by
    intro x u h
    obtain ⟨n, e, he, rfl, -⟩ := (st.upstream_iff x u).mp h
    exact List.mem_map_of_mem (hr.mem_elements hi he)
  let above (x : Idx) : Finset Idx :=
    ((net.elements N).map (·.index)).toFinset.filter (Relation.TransGen net.Upstream x)
  have hlt : ∀ x u, net.Upstream x u → (above u).card < (above x).card := by
    intro x u h
    apply Finset.card_lt_card
    refine Finset.ssubset_iff_of_subset ?_ |>.mpr ⟨u, ?_, ?_⟩
    · intro y hy
      obtain ⟨hyn, hyu⟩ := Finset.mem_filter.mp hy
      exact Finset.mem_filter.mpr ⟨hyn, .head h hyu⟩
    · exact Finset.mem_filter.mpr ⟨List.mem_toFinset.mpr (hmem x u h), .single h⟩
    · exact fun hu => st.acyclic u (Finset.mem_filter.mp hu).2
  let T : RankedTree Idx :=
    { nodes := (net.elements N).map (·.index)
      root := r.index
      parent := fun x => (net.association N x).upstream.head?
      children := fun x => (net.association N x).downstream
      rank := fun x => (above x).card
      root_mem := List.mem_map_of_mem (hr.mem_elements hi hr')
      parent_root := by
        rw [hr.association_eq hi hr']
        simp only [Element.isEndpoint, Bool.and_eq_true, List.isEmpty_iff] at hep
        rw [hep.2]
        rfl
      exists_parent := by
        intro x hx hne
        obtain ⟨e, he, rfl⟩ := List.mem_map.mp hx
        obtain ⟨n, he⟩ := exists_of_mem_elements he
        have hnot : ¬ e.isEndpoint := fun h => hne (congrArg _ (hunique e ⟨⟨n, he⟩, h⟩))
        obtain ⟨-, u, hu⟩ := st.member n e he hnot
        have hxu : net.Upstream e.index u := ⟨n, e, he, rfl, by simp [hu]⟩
        exact ⟨u, hmem _ u hxu, (hup _ u).mpr hxu, hlt _ u hxu⟩
      mem_children_iff := by
        intro x _ y
        rw [hr.mem_downstream_iff hi st, hup]
        exact (and_iff_right_of_imp (hr.mem_of_upstream hi)).symm
      nodup_children := by
        intro x hx
        obtain ⟨e, he, rfl⟩ := List.mem_map.mp hx
        obtain ⟨n, he⟩ := exists_of_mem_elements he
        rw [hr.association_eq hi he]
        exact hd n e he }
  exact ⟨T, rfl⟩

end Tree

end Network

/-- Once a node has stopped inserting, the reductions over the elements are exact, while elements
create children and are destroyed, and none is held up. -/
theorem exact_after_insertion [DecidableEq Idx] {s : Insertion Idx} {es : List (Event Idx)}
    (h : Transition.Run (Transition.restrict (Insertion.Step N) Insertion.Ordered)
      Insertion.init es s)
    {n : ℤ} (hn : (s.net.nodes n).inserting = false)
    (hne : ∃ n, (s.net.nodes n).elements ≠ [])
    {as : List (Destruction.Action Idx V κ)} {t : Destruction.System Idx V κ}
    (ht : Transition.Run (Transition.restrict Destruction.System.Step Destruction.Timely)
      (s.net.handover N) as t) :
    (∀ a, Destruction.Timely t a → ¬ t.Aborts a) ∧
      ∀ c, (t.results c = [] ∨ t.results c = [t.total as c]) ∧
        (t.AtRest →
          (∀ x ∈ t.members, t.alive x = true → c < (Destruction.contributed as x).length) →
          t.results c = [t.total as c]) := by
  obtain ⟨hi, hd⟩ := Insertion.distinct h
  obtain ⟨k, hk, h0⟩ := hi.inserting n hn
  obtain ⟨f, hf, hr⟩ := hi.forest
  obtain ⟨T, hT⟩ := hr.exists_tree (V := V) (κ := κ) hf
    (hr.spanningTree hf (hi.quiet k hk h0) hne) hd
  rw [hT] at ht
  obtain ⟨T', hsafe⟩ := Destruction.System.Timed.safe ht
  refine ⟨fun a => hsafe.not_aborts, fun c => ⟨(hsafe.results_cases c).imp_right And.left, ?_⟩⟩
  intro hrest hall
  refine hsafe.results_at_rest hrest fun x hx => hall x ?_ hx
  rw [hsafe.members]
  exact hsafe.mem_nodes hx

def threeElements : List (Event ℕ) :=
  [.act (.create 0 0), .act (.create 1 1), .act (.create 1 2), .contribute 0, .contribute 1,
    .recvCount 0, .act (.deliver (.regEndpoint 1 0 0)),
    .act (.deliver (.receiveDownstream 0 1 1)), .recvCount 1,
    .act (.deliver (.receiveUpstream 1 0 0)), .contribute 0, .contribute 1, .recvCount 1]

theorem exists_threeElements : ∃ s : Insertion ℕ,
    Transition.Run (Transition.restrict (Insertion.Step ⟨2, by decide, by decide⟩)
      Insertion.Ordered) Insertion.init threeElements s ∧
    (s.net.nodes 1).inserting = false ∧ (s.net.nodes 0).elements ≠ [] ∧
    ((Transition.exec (fun s a => if Destruction.System.isTimely s a then s.perform a else none)
      (s.net.handover ⟨2, by decide, by decide⟩) Destruction.System.replaced).any fun t =>
        decide (t.inFlight = 0 ∧
          (∀ x ∈ t.members, ¬ t.alive x → ∀ y ∈ t.members, ∀ c < (t.elements y).rednCount,
            ((t.elements x).slots c).portQueue y = []) ∧
          ∀ x ∈ t.members, t.alive x = true →
            1 < (Destruction.contributed Destruction.System.replaced x).length)) = true := by
  have hall : ((Transition.exec (fun s e => if s.Ordered e then
      s.perform ⟨2, by decide, by decide⟩ e else none) Insertion.init threeElements).any fun s =>
      decide ((s.net.nodes 1).inserting = false ∧ (s.net.nodes 0).elements ≠ [] ∧
        ((Transition.exec (fun s a => if Destruction.System.isTimely s a then s.perform a
          else none) (s.net.handover ⟨2, by decide, by decide⟩) Destruction.System.replaced).any
            fun t => decide (t.inFlight = 0 ∧
              (∀ x ∈ t.members, ¬ t.alive x → ∀ y ∈ t.members, ∀ c < (t.elements y).rednCount,
                ((t.elements x).slots c).portQueue y = []) ∧
              ∀ x ∈ t.members, t.alive x = true →
                1 < (Destruction.contributed Destruction.System.replaced x).length)) = true)) =
      true := by
    decide +kernel
  obtain ⟨s, hs, hd⟩ := (Option.any_eq_true _ _).mp hall
  exact ⟨s, Insertion.run_of_exec_perform hs, of_decide_eq_true hd⟩

theorem exact_after_insertion_replaced : ∃ t : Destruction.System ℕ ℕ Unit,
    (∀ a, Destruction.Timely t a → ¬ t.Aborts a) ∧
    t.results 1 = [t.total Destruction.System.replaced 1] := by
  obtain ⟨s, h, hi, hne, hall⟩ := exists_threeElements
  obtain ⟨t, ht, hd⟩ := (Option.any_eq_true _ _).mp hall
  obtain ⟨hflight, hqueues, hcount⟩ := of_decide_eq_true hd
  obtain ⟨haborts, hresults⟩ := exact_after_insertion h hi ⟨0, hne⟩
    (Destruction.System.run_of_exec_perform ht)
  exact ⟨t, haborts, (hresults 1).2 ⟨hflight, hqueues⟩ hcount⟩

end Hypercomm.TreeBuilder
