import Hypercomm.TreeBuilder.Refinement

/-! # Static insertion builds a spanning tree

When no tree-building message is in flight the endpoint is known everywhere and
every other element hangs below it. The one way to fail an assertion is to ask
an empty root node for a second endpoint.
-/

namespace Hypercomm.TreeBuilder

variable {Idx : Type*} {N : NumNodes}

namespace Forest

variable {f : Forest Idx} {n : ℤ} {x y u v r : Idx}

theorem Up.unique (h : f.Up x u) (h' : f.Up x v) : u = v := by
  obtain ⟨n, h⟩ := h
  obtain ⟨m, h'⟩ := h'
  exact (Status.child.inj (h.symm.trans h')).2

theorem Inv.endpoint_of_quiet (hi : f.Inv N) (hq : f.flight = 0) (hr : f.endpoint 0 = some r)
    (h0 : 0 ≤ n) (hn : n < N.val) : f.endpoint n = some r := by
  induction hk : n.toNat using Nat.strong_induction_on generalizing n with
  | _ k ih =>
    rcases h0.lt_or_eq with hpos | rfl
    · have hlt := BinaryTree.parent_lt h0
      have hp0 := BinaryTree.parent_nonneg_iff.mpr hpos
      have hp := ih (BinaryTree.parent n).toNat (by omega) hp0 (by omega) rfl
      cases hend : f.endpoint n with
      | none =>
        have := (hi.announces_iff n).mpr ⟨hpos, hn, by simp [hp], hend⟩
        simp [hq] at this
      | some x => exact (hi.endpoint_root n x hend).symm.trans hr
    · exact hr

theorem Inv.not_waiting_of_quiet (hi : f.Inv N) (hq : f.flight = 0) : f.status x ≠ .waiting n := by
  intro hx
  obtain ⟨h0, hn⟩ := hi.range n x (located_of_waiting hx)
  have hroot : f.endpoint 0 = some x := by
    by_contra hne
    have := (hi.serves_iff n).mpr ⟨x, hx, hne⟩
    simp [hq] at this
  obtain ⟨k, ⟨hk, hend⟩ | ⟨hk, -⟩⟩ := hi.endpoint_status x hroot
  · obtain rfl : n = k := by simpa [hx] using hk
    simp [hi.endpoint_of_quiet hq hroot h0 hn] at hend
  · simp [hx] at hk

/-- Following upstream leads to the endpoint: each node hands over to a smaller one. -/
theorem Inv.reaches_endpoint (hi : f.Inv N) (hq : f.flight = 0) (hx : f.Located n x) :
    ∃ k r, f.status r = .endpoint k ∧ Relation.ReflTransGen f.Up x r := by
  induction hk : n.toNat using Nat.strong_induction_on generalizing n x with
  | _ k ih =>
    obtain ⟨r, hr, hxr, hup⟩ := hi.anchored n x hx
    cases hs : f.status r with
    | absent => exact absurd hr (not_located_of_absent hs n)
    | waiting m => exact absurd hs (hi.not_waiting_of_quiet hq)
    | endpoint m => exact ⟨m, r, hs, hxr⟩
    | child m u =>
      obtain ⟨m', hm, hu⟩ := hup u ⟨m, hs⟩
      have := hi.range m' u hu
      obtain ⟨k', r', hr', hur⟩ := ih m'.toNat (by omega) hu rfl
      exact ⟨k', r', hr', (hxr.tail ⟨m, hs⟩).trans hur⟩

theorem not_transGen_of_reaches (h : Relation.ReflTransGen f.Up x r) (hr : ∀ u, ¬ f.Up r u) :
    ¬ Relation.TransGen f.Up x x := by
  induction h using Relation.ReflTransGen.head_induction_on with
  | refl =>
    intro hc
    obtain ⟨u, hu, -⟩ := Relation.TransGen.head'_iff.mp hc
    exact hr u hu
  | head h _ ih =>
    intro hc
    obtain ⟨u, hu, hc⟩ := Relation.TransGen.head'_iff.mp hc
    obtain rfl := hu.unique h
    exact ih (.tail' hc h)

end Forest

namespace Network

variable {net : Network Idx} {f : Forest Idx} {x u : Idx}

/-- `u` is in the upstream of the registered element `x`. -/
def Upstream (net : Network Idx) (x u : Idx) : Prop :=
  ∃ n, ∃ e ∈ (net.nodes n).elements, e.index = x ∧ u ∈ e.association.upstream

/-- `x` is in the downstream of the registered element `u`. -/
def Downstream (net : Network Idx) (u x : Idx) : Prop :=
  ∃ n, ∃ e ∈ (net.nodes n).elements, e.index = u ∧ x ∈ e.association.downstream

structure SpanningTree (net : Network Idx) : Prop where
  endpoint : ∃! e : Element Idx, (∃ n, e ∈ (net.nodes n).elements) ∧ e.isEndpoint
  member : ∀ n, ∀ e ∈ (net.nodes n).elements, ¬ e.isEndpoint →
    e.association.validUpstream = true ∧ ∃ u, e.association.upstream = [u]
  upstream_iff : ∀ x u, net.Upstream x u ↔ net.Downstream u x
  reaches : ∀ n, ∀ e ∈ (net.nodes n).elements, ∃ m, ∃ r ∈ (net.nodes m).elements,
    r.isEndpoint ∧ Relation.ReflTransGen net.Upstream e.index r.index
  acyclic : ∀ x, ¬ Relation.TransGen net.Upstream x x

theorem Refines.mem_unique (hr : net.Refines f) {m n : ℤ} {d e : Element Idx}
    (hd : d ∈ (net.nodes m).elements) (he : e ∈ (net.nodes n).elements)
    (h : d.index = e.index) : d = e := by
  obtain rfl := ((hr.2 m).located_of_mem hd).unique (h ▸ (hr.2 n).located_of_mem he)
  exact List.inj_on_of_nodup_map (hr.2 m).nodup hd he h

theorem Refines.upstream_eq (hr : net.Refines f) : net.Upstream = f.Up := by
  ext x u
  constructor
  · rintro ⟨n, e, he, rfl, hu⟩
    have hst := (hr.2 n).status e he
    cases hs : f.status e.index with
    | child m v =>
      rw [hs] at hst
      obtain rfl : u = v := by simpa [hst.2.2] using hu
      exact ⟨m, hs⟩
    | _ => simp_all [Element.HasStatus]
  · rintro ⟨n, hs⟩
    obtain ⟨e, he, rfl⟩ := (hr.2 n).located x (by simp [Forest.Located, hs, Status.node])
    have hst := (hr.2 n).status e he
    rw [hs] at hst
    exact ⟨n, e, he, rfl, by simp [hst.2.2]⟩

theorem Refines.isEndpoint_iff (hr : net.Refines f) {n : ℤ} {e : Element Idx}
    (he : e ∈ (net.nodes n).elements) : e.isEndpoint ↔ ∃ k, f.status e.index = .endpoint k := by
  have hst := (hr.2 n).status e he
  cases hs : f.status e.index <;> rw [hs] at hst <;>
    simp_all [Element.HasStatus, Element.isEndpoint]

theorem Refines.downstream_iff (hr : net.Refines f) (hi : f.Inv N) (hq : f.flight = 0) :
    net.Downstream u x ↔ f.Up x u := by
  have hc : f.children u x ↔ f.Up x u := by
    rw [hi.children_iff]
    exact or_iff_left fun ⟨n, m, _, hm⟩ => by simp [hq] at hm
  rw [← hc]
  constructor
  · rintro ⟨n, e, he, rfl, hx⟩
    exact ((hr.2 n).downstream e he x).mp hx
  · intro h
    obtain ⟨n, hn⟩ := hi.located_of_up (hc.mp h)
    obtain ⟨e, he, rfl⟩ := (hr.2 n).located u hn
    exact ⟨n, e, he, rfl, ((hr.2 n).downstream e he x).mpr h⟩

theorem Refines.spanningTree (hr : net.Refines f) (hi : f.Inv N) (hq : net.flight = 0)
    (hne : ∃ n, (net.nodes n).elements ≠ []) : net.SpanningTree := by
  have hfq : f.flight = 0 := hr.1 ▸ hq
  have hreach : ∀ n, ∀ e ∈ (net.nodes n).elements, ∃ m, ∃ r ∈ (net.nodes m).elements,
      r.isEndpoint ∧ Relation.ReflTransGen f.Up e.index r.index := fun n e he => by
    obtain ⟨k, x, hx, hp⟩ := hi.reaches_endpoint hfq ((hr.2 n).located_of_mem he)
    obtain ⟨r, hm, rfl⟩ := (hr.2 k).located x (by simp [Forest.Located, hx, Status.node])
    exact ⟨k, r, hm, (hr.isEndpoint_iff hm).mpr ⟨k, hx⟩, hp⟩
  constructor
  · obtain ⟨n, hn⟩ := hne
    obtain ⟨e, he⟩ := List.exists_mem_of_ne_nil _ hn
    obtain ⟨m, r, hm, hep, -⟩ := hreach n e he
    refine ⟨r, ⟨⟨m, hm⟩, hep⟩, ?_⟩
    rintro d ⟨⟨k, hd⟩, hdp⟩
    obtain ⟨i, hi'⟩ := (hr.isEndpoint_iff hd).mp hdp
    obtain ⟨j, hj⟩ := (hr.isEndpoint_iff hm).mp hep
    have := (hi.endpoint_unique i _ hi').symm.trans (hi.endpoint_unique j _ hj)
    exact hr.mem_unique hd hm (Option.some.inj this)
  · intro n e he hep
    have hst := (hr.2 n).status e he
    cases hs : f.status e.index with
    | absent => simp [hs, Element.HasStatus] at hst
    | waiting m => exact absurd hs (hi.not_waiting_of_quiet hfq)
    | endpoint m => exact absurd ((hr.isEndpoint_iff he).mpr ⟨m, hs⟩) hep
    | child m u =>
      rw [hs] at hst
      exact ⟨hst.2.1, u, hst.2.2⟩
  · intro x u
    rw [hr.upstream_eq, hr.downstream_iff hi hfq]
  · rw [hr.upstream_eq]
    exact hreach
  · rw [hr.upstream_eq]
    intro x hc
    obtain ⟨u, hu, -⟩ := Relation.TransGen.head'_iff.mp hc
    obtain ⟨n, hn⟩ := hu.located
    obtain ⟨e, he, rfl⟩ := (hr.2 n).located x hn
    obtain ⟨m, r, hm, hep, hp⟩ := hreach n e he
    obtain ⟨k, hk⟩ := (hr.isEndpoint_iff hm).mp hep
    apply Forest.not_transGen_of_reaches hp _ hc
    rintro v ⟨j, hj⟩
    simp [hk] at hj

variable [DecidableEq Idx]

/-- A handler fails an assertion exactly when it asks the root node for a second
endpoint, and elements form a spanning tree whenever nothing is in flight. -/
theorem aborts_iff_secondRoot_and_spanningTree {as : List (Action Idx)}
    (h : Transition.Run (Step N) init as net) :
    (∀ a n rest r, Handles N net a n rest r → ((∃ e, r = .error e) ↔ net.SecondRoot a)) ∧
      (net.flight = 0 → (∃ n, (net.nodes n).elements ≠ []) → net.SpanningTree) := by
  obtain ⟨⟨f, hi, hr⟩, hins⟩ := exists_forest h
  exact ⟨fun a n rest r hh => hr.aborts_iff hi (inserts_of_inserting hins) hh,
    fun hq hne => hr.spanningTree hi hq hne⟩

/-- The first element of node one waits for a parent on node zero, and has a child by then. -/
def attached : List (Action ℕ) :=
  [.create 0 0, .create 1 1, .create 1 2, .deliver (.receiveDownstream 0 1 1),
    .deliver (.regEndpoint 1 0 0), .deliver (.receiveUpstream 1 0 0)]

theorem spanningTree_attached : ∃ net : Network ℕ,
    Transition.Run (Step ⟨2, by decide, by decide⟩) init attached net ∧
      (net.nodes 1).elements.map Element.index = [2, 1] ∧ net.SpanningTree := by
  have hall : ((Transition.exec (perform ⟨2, by decide, by decide⟩) init attached).any fun net =>
      decide (net.flight = 0 ∧ (net.nodes 1).elements.map Element.index = [2, 1])) = true := by
    decide +kernel
  obtain ⟨net, hs, hd⟩ := (Option.any_eq_true _ _).mp hall
  obtain ⟨hflight, hidx⟩ := of_decide_eq_true hd
  have hrun := run_of_exec_perform hs
  refine ⟨net, hrun, hidx, (aborts_iff_secondRoot_and_spanningTree hrun).2 hflight ⟨1, ?_⟩⟩
  intro hnil
  simp [hnil] at hidx

/-- With two nodes, an element of node one becomes the endpoint of an empty root,
and the first element of the root then fails. -/
theorem second_root_aborts : ¬ ∀ (N : NumNodes) (as : List (Action ℕ)) (net : Network ℕ),
    Transition.Run (Step N) init as net → ∀ a e, ¬ Aborts N net a e := by
  intro h
  have h1 := (Transition.Run.nil (s := init)).snoc
    (Step.create (N := ⟨2, by decide, by decide⟩) (n := 1) (x := 0)
      (s := { arrays := 1, elements := [{ index := 0 }] }) (l := [.receiveDownstream 0 1 0])
      (by decide) (by decide) (fun n => by simp [init]) rfl)
  have h2 := h1.snoc (Step.deliver (m := .receiveDownstream 0 1 0) (r := 0)
    (s := { endpoint := some 0 }) (l := [.regEndpoint 1 0 0]) rfl rfl)
  refine h _ _ _ h2 (.create 0 1) .insertionDidNotOccur
    ⟨0, _, .create (by decide) (by decide) fun n e he => ?_⟩
  rcases eq_or_ne n 0 with rfl | h0
  · simp [Message.dst] at he
  · rcases eq_or_ne n 1 with rfl | h1
    · simp [Message.dst] at he
      simp [he]
    · simp [Message.dst, init, h0, h1] at he

end Network

end Hypercomm.TreeBuilder
