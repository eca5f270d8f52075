import Hypercomm.TreeBuilder.Handlers
import Hypercomm.TreeBuilder.Network
import Hypercomm.TreeBuilder.Invariant

/-! # The nodes refine the forest

A network refines a forest when the registries agree with the status and the
children of every element. Every step of the network is then a rule of the forest.
-/

namespace Hypercomm.TreeBuilder

variable {Idx : Type*} {N : NumNodes}

namespace Element

def HasStatus (e : Element Idx) (n : ℤ) : Status Idx → Prop
  | .absent => False
  | .waiting m => m = n ∧ e.association.validUpstream = false ∧ e.association.upstream = []
  | .endpoint m => m = n ∧ e.association.validUpstream = true ∧ e.association.upstream = []
  | .child m u => m = n ∧ e.association.validUpstream = true ∧ e.association.upstream = [u]

theorem HasStatus.node {e : Element Idx} {n : ℤ} {s : Status Idx} (h : e.HasStatus n s) :
    s.node = some n := by
  cases s <;> simp_all [HasStatus, Status.node]

theorem HasStatus.validUpstream_iff {e : Element Idx} {n : ℤ} {s : Status Idx}
    (h : e.HasStatus n s) : e.association.validUpstream = false ↔ s = .waiting n := by
  cases s <;> simp_all [HasStatus]

theorem HasStatus.of_association_eq {e e' : Element Idx} {n : ℤ} {s : Status Idx}
    (h : e.HasStatus n s) (hv : e'.association.validUpstream = e.association.validUpstream)
    (hu : e'.association.upstream = e.association.upstream) : e'.HasStatus n s := by
  cases s <;> simp_all [HasStatus]

end Element

structure Node.Refines (s : Node Idx) (n : ℤ) (f : Forest Idx) : Prop where
  nodup : (s.elements.map (·.index)).Nodup
  status : ∀ e ∈ s.elements, e.HasStatus n (f.status e.index)
  located : ∀ x, f.Located n x → ∃ e ∈ s.elements, e.index = x
  downstream : ∀ e ∈ s.elements, ∀ y, y ∈ e.association.downstream ↔ f.children e.index y
  endpoint : s.endpoint = f.endpoint n

namespace Node

variable {s : Node Idx} {n m : ℤ} {f g : Forest Idx} {x t u : Idx} {e : Element Idx}

theorem Refines.perm (h : s.Refines n f) {els : List (Element Idx)} (hp : els.Perm s.elements) :
    Refines { s with elements := els } n f where
  nodup := (hp.map _).nodup_iff.mpr h.nodup
  status := by simpa only [hp.mem_iff] using h.status
  located := by simpa only [hp.mem_iff] using h.located
  downstream := by simpa only [hp.mem_iff] using h.downstream
  endpoint := h.endpoint

theorem Refines.setArrays (h : s.Refines n f) (a : ℤ) : Refines { s with arrays := a } n f :=
  ⟨h.nodup, h.status, h.located, h.downstream, h.endpoint⟩

theorem Refines.withFlight (h : s.Refines n f) (l : Multiset (Message Idx)) :
    s.Refines n (f.withFlight l) :=
  ⟨h.nodup, h.status, h.located, h.downstream, h.endpoint⟩

theorem Refines.located_of_mem (h : s.Refines n f) (he : e ∈ s.elements) :
    f.Located n e.index := (h.status e he).node

theorem Refines.located_iff (h : s.Refines n f) : f.Located n x ↔ ∃ e ∈ s.elements, e.index = x :=
  ⟨h.located x, by rintro ⟨e, he, rfl⟩; exact h.located_of_mem he⟩

theorem Refines.empty_iff (h : s.Refines n f) : f.Empty n ↔ s.elements = [] := by
  simp only [Forest.Empty, h.located_iff, List.eq_nil_iff_forall_not_mem]
  exact ⟨fun hx e he => hx e.index ⟨e, he, rfl⟩, fun he x ⟨e, hm, _⟩ => he e hm⟩

theorem Refines.frame (h : s.Refines n f) (hst : ∀ x, f.Located n x → g.status x = f.status x)
    (hloc : ∀ x, g.Located n x → f.Located n x)
    (hch : ∀ x y, f.Located n x → (g.children x y ↔ f.children x y))
    (hend : g.endpoint n = f.endpoint n) : s.Refines n g where
  nodup := h.nodup
  status e he := (hst e.index (h.located_of_mem he)).symm ▸ h.status e he
  located x hx := h.located x (hloc x hx)
  downstream e he y := by rw [h.downstream e he, hch _ _ (h.located_of_mem he)]
  endpoint := h.endpoint.trans hend.symm

theorem Refines.addChild_of_not_located (h : s.Refines m f) (ht : ¬ f.Located m t) :
    s.Refines m (f.addChild t x) :=
  h.frame (fun _ _ => rfl) (fun _ => id)
    (fun _ _ hy => or_iff_left fun he => ht (he.1 ▸ hy)) rfl

theorem Refines.setEndpoint_of_ne (h : s.Refines m f) (hm : m ≠ n) :
    s.Refines m (f.setEndpoint n x) :=
  h.frame (fun _ _ => rfl) (fun _ => id) (fun _ _ _ => Iff.rfl) (Function.update_of_ne hm _ _)

theorem Refines.setEndpoint (h : s.Refines n f) :
    Refines { s with endpoint := some x } n (f.setEndpoint n x) where
  nodup := h.nodup
  status := h.status
  located := h.located
  downstream := h.downstream
  endpoint := by simp

variable [DecidableEq Idx]

theorem Refines.setStatus_of_not_located (h : s.Refines m f) {st : Status Idx}
    (hx : ¬ f.Located m x) (hst : st.node ≠ some m) : s.Refines m (f.setStatus x st) := by
  refine h.frame (fun y hy => ?_) (fun _ hy => ?_) (fun _ _ _ => Iff.rfl) rfl
  · have : y ≠ x := by rintro rfl; exact hx hy
    simp [this]
  · rw [Forest.located_setStatus] at hy
    split at hy
    · exact absurd hy hst
    · exact hy

theorem Refines.modify (h : s.Refines n f) {k : Element Idx → Element Idx}
    (hk : ∀ e, (k e).index = e.index)
    (hst : ∀ e ∈ s.elements, (if e.index = x then k e else e).HasStatus n (g.status e.index))
    (hloc : ∀ y, g.Located n y → f.Located n y)
    (hch : ∀ e ∈ s.elements, ∀ y, y ∈ (if e.index = x then k e else e).association.downstream ↔
      g.children e.index y)
    (hend : g.endpoint n = f.endpoint n) : (s.modify x k).Refines n g := by
  have hidx : ∀ e : Element Idx, (if e.index = x then k e else e).index = e.index := fun e => by
    split <;> simp [hk]
  constructor
  · simpa [Node.modify, Function.comp_def, hidx] using h.nodup
  · intro e he
    obtain ⟨e, hm, rfl⟩ := List.mem_map.mp he
    rw [hidx]; exact hst e hm
  · intro y hy
    obtain ⟨e, he, rfl⟩ := h.located y (hloc y hy)
    exact ⟨_, List.mem_map_of_mem he, hidx e⟩
  · intro e he y
    obtain ⟨e, hm, rfl⟩ := List.mem_map.mp he
    rw [hidx]; exact hch e hm y
  · exact h.endpoint.trans hend.symm

theorem Refines.putDownstream (h : s.Refines n f) :
    (s.modify t (·.putDownstream x)).Refines n (f.addChild t x) := by
  refine h.modify (fun _ => rfl) (fun e he => ?_) (fun _ => id) (fun e he y => ?_) rfl
  · split
    · exact (h.status e he).of_association_eq rfl rfl
    · exact h.status e he
  · rw [Forest.addChild_children, ← h.downstream e he]
    split <;> simp_all [Element.putDownstream]

theorem Refines.putUpstream (h : s.Refines n f) (ht : f.status t = .waiting n) :
    (s.modify t (·.putUpstream u)).Refines n (f.setStatus t (.child n u)) := by
  refine h.modify (fun _ => rfl) (fun e he => ?_) (fun y hy => ?_) (fun e he y => ?_) rfl
  · have hst := h.status e he
    rcases eq_or_ne e.index t with rfl | hne
    · rw [ht] at hst
      simp [Element.HasStatus, Element.putUpstream, hst.2.2]
    · simpa [hne] using hst
  · rw [Forest.located_setStatus] at hy
    split at hy
    · subst y; exact Forest.located_of_waiting ht
    · exact hy
  · rw [Forest.setStatus_children, ← h.downstream e he]
    split <;> simp [Element.putUpstream]

theorem Refines.markEndpoint (h : s.Refines n f) :
    (s.modify x Element.setEndpoint).Refines n
      (f.setStatus x (if f.status x = .waiting n then .endpoint n else f.status x)) := by
  refine h.modify (fun _ => rfl) (fun e he => ?_) (fun y hy => ?_) (fun e he y => ?_) rfl
  · have hst := h.status e he
    rcases eq_or_ne e.index x with rfl | hne
    · cases hs : f.status e.index <;> rw [hs] at hst <;>
        simp_all [Element.HasStatus, Element.setEndpoint]
    · simpa [hne] using hst
  · rw [Forest.located_setStatus] at hy
    split at hy
    · subst y
      split at hy
      · exact Forest.located_of_waiting ‹_›
      · exact hy
    · exact hy
  · rw [Forest.setStatus_children, ← h.downstream e he]
    split <;> simp [Element.setEndpoint]

theorem Refines.insert (h : s.Refines n f) {st : Status Idx} (hx : f.status e.index = .absent)
    (hdown : e.association.downstream = []) (hc : ∀ y, ¬ f.children e.index y)
    (hst : e.HasStatus n st) :
    Refines { s with elements := e :: s.elements.filter (·.index ≠ e.index) } n
      (f.setStatus e.index st) := by
  have hne : ∀ d ∈ s.elements, d.index ≠ e.index := fun d hd heq =>
    Forest.not_located_of_absent hx n (heq ▸ h.located_of_mem hd)
  have hfil : s.elements.filter (·.index ≠ e.index) = s.elements :=
    List.filter_eq_self.mpr fun d hd => by simpa using hne d hd
  simp only [hfil]
  constructor
  · simpa using ⟨hne, h.nodup⟩
  · rintro d (_ | ⟨_, hd⟩)
    · simpa using hst
    · simpa [hne d hd] using h.status d hd
  · intro y hy
    rw [Forest.located_setStatus] at hy
    split at hy
    · exact ⟨e, by simp, by simp_all⟩
    · obtain ⟨d, hd, rfl⟩ := h.located y hy
      exact ⟨d, by simp [hd], rfl⟩
  · rintro d (_ | ⟨_, hd⟩) y
    · simp [hdown, hc]
    · exact h.downstream d hd y
  · exact h.endpoint

end Node

namespace Network

variable {net net' : Network Idx} {f : Forest Idx} {a : Action Idx} {n : ℤ}
  {rest : Multiset (Message Idx)} {r : Except Abort (Node Idx × List (Message Idx))}

/-- Every registry agrees with the forest and the same messages are in flight. -/
def Refines (net : Network Idx) (f : Forest Idx) : Prop :=
  net.flight = f.flight ∧ ∀ n, (net.nodes n).Refines n f

theorem refines_init : (init : Network Idx).Refines Forest.init :=
  ⟨rfl, fun _ => ⟨by simp [init], by simp [init],
    by simp [Forest.init, Forest.Located, Status.node], by simp [init], rfl⟩⟩

/-- The action asks the root node for an endpoint, and it has one already. -/
def SecondRoot (net : Network Idx) (a : Action Idx) : Prop :=
  (net.nodes 0).elements = [] ∧ (net.nodes 0).endpoint ≠ none ∧
    match a with
    | .create n _ => n = 0
    | .deliver (.receiveDownstream dst _ _) => dst = 0
    | .deliver _ => False

/-- Elements are created while the node permits static insertions. -/
def Inserts (net : Network Idx) : Action Idx → Prop
  | .create n _ => (net.nodes n).inserting = true
  | .deliver _ => True

theorem inserts_of_inserting (h : ∀ n, (net.nodes n).inserting = true) : net.Inserts a := by
  cases a <;> simp [Inserts, h]

variable [DecidableEq Idx]

def Matches (N : NumNodes) (net : Network Idx) (f : Forest Idx) (n : ℤ)
    (rest : Multiset (Message Idx)) (r : Except Abort (Node Idx × List (Message Idx))) : Prop :=
  ∃ s sent f', r = .ok (s, sent) ∧ Forest.Step N f f' ∧ s.Refines n f' ∧
    (∀ m ≠ n, (net.nodes m).Refines m f') ∧ rest + sent = f'.flight

omit [DecidableEq Idx] in
theorem Refines.status_of_fresh (hr : net.Refines f) {idx : Idx} (hf : net.Fresh idx) :
    f.status idx = .absent := by
  have hnot : ∀ n, ¬ f.Located n idx := fun n h => by
    obtain ⟨e, he, hidx⟩ := (hr.2 n).located idx h
    exact hf n e he hidx
  cases hs : f.status idx with
  | absent => rfl
  | waiting n => exact absurd (by simp [Forest.Located, hs, Status.node]) (hnot n)
  | endpoint n => exact absurd (by simp [Forest.Located, hs, Status.node]) (hnot n)
  | child n u => exact absurd (by simp [Forest.Located, hs, Status.node]) (hnot n)

theorem Refines.create (hi : f.Inv N) (hr : net.Refines f) {idx : Idx} (h0 : 0 ≤ n)
    (hn : n < N.val) (hf : net.Fresh idx) (hins : (net.nodes n).inserting = true) :
    net.SecondRoot (.create n idx) ∧
        (net.nodes n).regElement N n idx none = .error .insertionDidNotOccur ∨
      ¬ net.SecondRoot (.create n idx) ∧
        Matches N net f n net.flight ((net.nodes n).regElement N n idx none) := by
  have hx := hr.status_of_fresh hf
  have hnot := Forest.not_located_of_absent hx
  have hs := hr.2 n
  have hnone := hi.not_parent_of_absent hx
  cases ht : (net.nodes n).findTarget false with
  | some t =>
    have hmem := Node.mem_of_findTarget_false ht
    have hloc := hs.located_of_mem hmem
    have hti : idx ≠ t.index := by rintro rfl; exact hnot n hloc
    refine .inr ⟨fun h => ?_, _, _, _, Node.regElement_of_target hins ht,
      .attachLocal hloc hx, ?_, fun m hm => ?_, by simpa using hr.1⟩
    · rw [h.2.2, h.1] at hmem
      simp at hmem
    · have hst : (Element.putUpstream t.index { index := idx }).HasStatus n (.child n t.index) := by
        simp [Element.HasStatus, Element.putUpstream]
      exact hs.putDownstream.insert hx rfl (by simp [hnone, hti]) hst
    · have htm : ¬ f.Located m t.index := fun h => hm (h.unique hloc)
      exact ((hr.2 m).addChild_of_not_located htm).setStatus_of_not_located (hnot m)
        (by simpa [Status.node] using hm.symm)
  | none =>
    have he := Node.findTarget_false_eq_none.mp ht
    rcases h0.lt_or_eq with h0 | rfl
    · refine .inr ⟨fun h => h0.ne' h.2.2, _, _, _, Node.regElement_of_empty hins he h0,
        .sendUp h0 hn (hs.empty_iff.mpr he) hx, ?_, fun m hm => ?_, by simp [hr.1]⟩
      · have hst : Element.HasStatus { index := idx } n (.waiting n) := ⟨rfl, rfl, rfl⟩
        simpa [he] using
          ((hs.insert hx rfl hnone hst).setArrays ((net.nodes n).arrays + 1)).withFlight _
      · exact ((hr.2 m).setStatus_of_not_located (hnot m)
          (by simpa [Status.node] using hm.symm)).withFlight _
    · by_cases hend : (net.nodes 0).endpoint = none
      · refine .inr ⟨fun h => h.2.1 hend, _, _, _,
          Node.regElement_of_root hins he le_rfl hend,
          .rootLocal (hs.empty_iff.mpr he) (hs.endpoint ▸ hend) hx, ?_, fun m hm => ?_,
          by simp [hr.1, broadcast]⟩
        · have hst : (Element.setEndpoint { index := idx }).HasStatus 0 (.endpoint 0) :=
            ⟨rfl, rfl, rfl⟩
          simpa [he] using ((hs.insert hx rfl hnone hst).setEndpoint.setArrays
            ((net.nodes 0).arrays + ((leaves N 0).length - 1) + 1)).withFlight _
        · exact (((hr.2 m).setStatus_of_not_located (hnot m)
            (by simpa [Status.node] using hm.symm)).setEndpoint_of_ne hm).withFlight _
      · exact .inl ⟨⟨he, hend, rfl⟩, Node.regElement_of_second_root hins he le_rfl hend⟩

theorem Refines.receiveDownstream (hi : f.Inv N) (hr : net.Refines f) {node : ℤ} {idx : Idx}
    (hflight : net.flight = .receiveDownstream n node idx ::ₘ rest) :
    net.SecondRoot (.deliver (.receiveDownstream n node idx)) ∧
        (net.nodes n).receive N (.receiveDownstream n node idx) = .error .insertionDidNotOccur ∨
      ¬ net.SecondRoot (.deliver (.receiveDownstream n node idx)) ∧
        Matches N net f n rest ((net.nodes n).receive N (.receiveDownstream n node idx)) := by
  have hff : f.flight = .receiveDownstream n node idx ::ₘ rest := hr.1 ▸ hflight
  obtain ⟨h0, hnode, -⟩ := hi.downstream n node idx (by simp [hff])
  have hs := hr.2 n
  cases ht : (net.nodes n).findTarget false with
  | some t =>
    have hmem := Node.mem_of_findTarget_false ht
    have hloc := hs.located_of_mem hmem
    refine .inr ⟨fun h => ?_, _, _, _, Node.receiveDownstream_of_target ht, .attach hff hloc,
      hs.putDownstream.withFlight _, fun m hm => ?_, rfl⟩
    · rw [h.2.2, h.1] at hmem
      simp at hmem
    · have htm : ¬ f.Located m t.index := fun h => hm (h.unique hloc)
      exact ((hr.2 m).addChild_of_not_located htm).withFlight _
  | none =>
    have he := Node.findTarget_false_eq_none.mp ht
    have hemp := hs.empty_iff.mpr he
    rcases h0.lt_or_eq with h0 | rfl
    · exact .inr ⟨fun h => h0.ne' h.2.2, _, _, _, Node.receiveDownstream_of_empty he h0,
        .forward hff h0 hemp, hs.withFlight _, fun m _ => (hr.2 m).withFlight _, rfl⟩
    · by_cases hend : (net.nodes 0).endpoint = none
      · exact .inr ⟨fun h => h.2.1 hend, _, _, _,
          Node.receiveDownstream_of_root he le_rfl hend,
          .rootRemote hff le_rfl hemp (hs.endpoint ▸ hend),
          (hs.setArrays _).setEndpoint.withFlight _,
          fun m hm => ((hr.2 m).setEndpoint_of_ne hm).withFlight _, rfl⟩
      · exact .inl ⟨⟨he, hend, rfl⟩, Node.receiveDownstream_of_second_root he le_rfl hend⟩

theorem Refines.receiveUpstream (hi : f.Inv N) (hr : net.Refines f) {node : ℤ} {idx : Idx}
    (hflight : net.flight = .receiveUpstream n node idx ::ₘ rest) :
    Matches N net f n rest ((net.nodes n).receive N (.receiveUpstream n node idx)) := by
  have hff : f.flight = .receiveUpstream n node idx ::ₘ rest := hr.1 ▸ hflight
  have hs := hr.2 n
  obtain ⟨w, hw, -⟩ := (hi.serves_iff n).mp
    (serving_pos_of_mem (hff ▸ Multiset.mem_cons_self _ _) (by simp [Message.serves]))
  -- some element of the node is without an upstream member
  obtain ⟨e, he, rfl⟩ := hs.located w (Forest.located_of_waiting hw)
  have hve := (hs.status e he).validUpstream_iff.mpr hw
  obtain ⟨t, ht⟩ : ∃ t, (net.nodes n).findTarget true = some t :=
    Option.isSome_iff_exists.mp (List.find?_isSome.mpr ⟨e, he, by simpa using hve⟩)
  have htm : t ∈ (net.nodes n).elements := List.mem_of_find?_eq_some ht
  have htv := List.find?_some ht
  rw [Bool.not_eq_true'] at htv
  have htw : f.status t.index = .waiting n := (hs.status t htm).validUpstream_iff.mp htv
  have hloc := Forest.located_of_waiting htw
  refine ⟨_, _, _, Node.receiveUpstream_of_target ht, .adopt hff htw,
    ((hs.putUpstream htw).setArrays _).withFlight _, fun m hm => ?_, by simp⟩
  exact ((hr.2 m).setStatus_of_not_located (fun h => hm (h.unique hloc))
    (by simpa [Status.node] using hm.symm)).withFlight _

theorem Refines.regEndpoint (hi : f.Inv N) (hr : net.Refines f) {src : ℤ} {idx : Idx}
    (hflight : net.flight = .regEndpoint n src idx ::ₘ rest) :
    Matches N net f n rest ((net.nodes n).receive N (.regEndpoint n src idx)) := by
  have hff : f.flight = .regEndpoint n src idx ::ₘ rest := hr.1 ▸ hflight
  have hs := hr.2 n
  obtain ⟨-, -, -, -, hend⟩ := hi.announced n src idx (by simp [hff])
  refine ⟨_, _, _, Node.receive_regEndpoint (hs.endpoint.trans hend), .announce hff hend,
    (hs.markEndpoint.setArrays _).setEndpoint.withFlight _, fun m hm => ?_, rfl⟩
  refine Node.Refines.withFlight (Node.Refines.setEndpoint_of_ne ?_ hm) _
  split
  case isTrue hw =>
    exact (hr.2 m).setStatus_of_not_located
      (fun h => hm (h.unique (Forest.located_of_waiting hw))) (by simpa [Status.node] using hm.symm)
  case isFalse => simpa [Forest.setStatus] using hr.2 m

/-- A handler fails exactly when it asks for a second root, and is a rule of the
forest otherwise. -/
theorem Refines.handles (hi : f.Inv N) (hr : net.Refines f) (hins : net.Inserts a)
    (h : Handles N net a n rest r) :
    net.SecondRoot a ∧ r = .error .insertionDidNotOccur ∨
      ¬ net.SecondRoot a ∧ Matches N net f n rest r := by
  cases h with
  | create h0 hn hf => exact hr.create hi h0 hn hf hins
  | @deliver m _ hflight =>
    cases m with
    | regEndpoint dst src idx => exact .inr ⟨fun h => h.2.2, hr.regEndpoint hi hflight⟩
    | receiveDownstream dst node idx => exact hr.receiveDownstream hi hflight
    | receiveUpstream dst node idx => exact .inr ⟨fun h => h.2.2, hr.receiveUpstream hi hflight⟩

theorem Refines.aborts_iff (hi : f.Inv N) (hr : net.Refines f) (hins : net.Inserts a)
    (h : Handles N net a n rest r) : (∃ e, r = .error e) ↔ net.SecondRoot a := by
  rcases hr.handles hi hins h with ⟨hs, rfl⟩ | ⟨hs, _, _, _, rfl, -⟩
  · exact iff_of_true ⟨_, rfl⟩ hs
  · exact iff_of_false (by simp) hs

theorem Refines.step (hi : f.Inv N) (hr : net.Refines f) (hins : net.Inserts a)
    (h : Step N net a net') : ∃ f', Forest.Step N f f' ∧ net'.Refines f' := by
  obtain @⟨n, _, _, _, _, hh, hp⟩ := h
  rcases hr.handles hi hins hh with ⟨-, h⟩ | ⟨-, s', sent', f', h, hstep, hn, hm, hfl⟩
  · cases h
  · obtain ⟨rfl, rfl⟩ := by simpa using h
    refine ⟨f', hstep, hfl, fun m => ?_⟩
    rcases eq_or_ne m n with rfl | hne
    · simpa using hn.perm hp
    · simpa [hne] using hm m hne

theorem Step.inserting_eq (h : Step N net a net') (m : ℤ) :
    (net'.nodes m).inserting = (net.nodes m).inserting := by
  obtain @⟨n, _, _, _, _, hh, -⟩ := h
  rcases eq_or_ne m n with rfl | hm
  · generalize hr : Except.ok _ = r at hh
    cases hh with
    | create => simpa using (Node.regElement_produces hr.symm).2
    | deliver => simpa using (Node.receive_produces hr.symm).2
  · simp [hm]

/-- Every run of the nodes is matched by the rules of the forest. -/
theorem exists_forest {as : List (Action Idx)} (h : Transition.Run (Step N) init as net) :
    (∃ f : Forest Idx, f.Inv N ∧ net.Refines f) ∧ ∀ n, (net.nodes n).inserting = true :=
  h.invariant (I := fun net => (∃ f : Forest Idx, f.Inv N ∧ net.Refines f) ∧
      ∀ n, (net.nodes n).inserting = true)
    (fun _ _ _ ⟨⟨_, hi, hr⟩, hins⟩ hs => by
      obtain ⟨f', hf, hr'⟩ := hr.step hi (inserts_of_inserting hins) hs
      exact ⟨⟨f', hi.step hf, hr'⟩, fun m => (hs.inserting_eq m).trans (hins m)⟩)
    ⟨⟨_, Forest.inv_init, refines_init⟩, fun _ => rfl⟩

end Network

end Hypercomm.TreeBuilder
