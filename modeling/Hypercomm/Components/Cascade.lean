import Mathlib.Data.Fintype.EquivFin
import Mathlib.Data.Set.Finite.Basic
import Mathlib.Order.WellFounded
import Hypercomm.Core.Locality

/-! # Invalidation cascades

A component that is deactivated by an invalidation relays a null value along its
outputs, and a component that accepts a null value is deactivated in turn, unless its input is a
deliverable, for which a null value is like any other, or it has an acceptor of its own. A connector
is cleared when its relay returns.
-/

namespace Hypercomm.Components

/-- A component, with its buffered inputs and outputs. The newest listener is in front. -/
structure Component (L V : Type*) where
  active : Bool := false
  activated : Bool := false
  incoming : List V := []
  outgoing : List V := []
  connectors : List (Option (ComponentId × ℕ)) := []
  listeners : List L := []

def Component.collectible {L V : Type*} (com : Component L V) : Bool :=
  com.activated && !com.active && com.outgoing.isEmpty

/-- The components of a locality, with the listeners that were called and the inputs that
were handed back. -/
structure Graph (L V : Type*) where
  components : ComponentId → Option (Component L V)
  invalidations : List ComponentId := []
  notified : List (ComponentId × L) := []
  returned : List V := []

namespace Graph

variable {L V : Type*}

def put (s : Graph L V) (id : ComponentId) (com : Option (Component L V)) : Graph L V :=
  { s with components := Function.update s.components id com }

/-- `component::deactivate`, up to its invalidations. -/
def emptyBuffers (id : ComponentId) (com : Component L V) (s : Graph L V) : Graph L V :=
  { s.put id (some { com with active := false, incoming := [] }) with
    returned := s.returned ++ com.incoming }

/-- The listeners are called from the back. -/
def notifyListeners (id : ComponentId) (s : Graph L V) : Graph L V :=
  match s.components id with
  | none => s
  | some com => { s.put id (some { com with listeners := [] }) with
      notified := s.notified ++ com.listeners.reverse.map (id, ·) }

def tryCollect (id : ComponentId) (s : Graph L V) : Graph L V :=
  match s.components id with
  | none => s
  | some com => if com.collectible then s.put id none else s

def connector (s : Graph L V) (id : ComponentId) (o : ℕ) : Option (ComponentId × ℕ) :=
  (s.components id).bind fun com => com.connectors[o]?.join

def clearConnector (id : ComponentId) (o : ℕ) (s : Graph L V) : Graph L V :=
  match s.components id with
  | none => s
  | some com => s.put id (some { com with connectors := com.connectors.set o none })

section Recursion

variable (action : ComponentId → Option (Graph L V → Option (Graph L V)))
variable (deactivate : ComponentId → Graph L V → Option (Graph L V))

/-- Pass a null value to a component, which is deactivated. One that takes the null value for a
value does what its action does. -/
def passthru (dst : ComponentId × ℕ) (s : Graph L V) : Option (Graph L V) :=
  match s.components dst.1 with
  | none => some s
  | some _ => (((action dst.1).getD (deactivate dst.1)) s).map (tryCollect dst.1)

/-- `connector_::implode`, if the connector is ready. -/
def implode (id : ComponentId) (s : Graph L V) (o : ℕ) : Option (Graph L V) :=
  match s.connector id o with
  | none => some s
  | some dst => (passthru action deactivate dst s).map (clearConnector id o)

end Recursion

variable (action : ComponentId → Option (Graph L V → Option (Graph L V)))

/-- `component::deactivate` with an invalidation. It does not ask whether the component is
being deactivated already. There is no result when the fuel runs out. -/
def deactivate : ℕ → ComponentId → Graph L V → Option (Graph L V)
  | 0, _, _ => none
  | fuel + 1, id, s => (s.components id).bind fun com =>
      ((List.range com.connectors.length).foldlM (implode action (deactivate fuel) id)
        (s.emptyBuffers id com)).map (notifyListeners id)

def invalidateComponent (fuel : ℕ) (id : ComponentId) (s : Graph L V) : Option (Graph L V) :=
  match s.components id with
  | none => some s
  | some com => (deactivate action fuel id s).map fun s =>
      if com.active then s.put id none else { s with invalidations := s.invalidations ++ [id] }

def Edge (s : Graph L V) (x y : ComponentId) : Prop :=
  ∃ com port, s.components x = some com ∧ some (y, port) ∈ com.connectors ∧
    s.components y ≠ none

/-- Every component that a component leads to takes a null value for an invalidation. -/
def Typed (s : Graph L V) (id : ComponentId) : Prop :=
  ∀ y, Relation.TransGen s.Edge id y → action y = none

abbrev Reach (s : Graph L V) : ComponentId → ComponentId → Prop := Relation.ReflTransGen s.Edge

def notifiedOf (s : Graph L V) (x : ComponentId) : List L :=
  s.notified.filterMap fun p => if p.1 = x then some p.2 else none

def listenersOf (s : Graph L V) (x : ComponentId) : List L :=
  ((s.components x).map Component.listeners).getD []

/-- A component has vanished, or it is inactive and has neither outputs nor listeners. -/
def Closed (s : Graph L V) (x : ComponentId) : Prop :=
  ∀ com, s.components x = some com →
    com.active = false ∧ (∀ c ∈ com.connectors, c = none) ∧ com.listeners = []

section Settled

variable {s t u : Graph L V} {id x y z : ComponentId} {com : Component L V} {D D' : Set ComponentId}

@[simp] theorem put_components_self (c : Option (Component L V)) :
    (s.put id c).components id = c := by
  simp [put]

@[simp] theorem put_components_of_ne (c : Option (Component L V)) (h : x ≠ id) :
    (s.put id c).components x = s.components x := by
  simp [put, h]

@[simp] theorem notifiedOf_put (c : Option (Component L V)) :
    (s.put id c).notifiedOf x = s.notifiedOf x := rfl

theorem listenersOf_congr (h : t.components x = s.components x) :
    t.listenersOf x = s.listenersOf x := by
  unfold listenersOf
  rw [h]

theorem Closed.listenersOf (h : s.Closed x) : s.listenersOf x = [] := by
  unfold Graph.listenersOf
  cases hx : s.components x with
  | none => rfl
  | some com => exact (h com hx).2.2

theorem Closed.not_edge (h : s.Closed x) : ¬ s.Edge x y := by
  rintro ⟨com, port, hx, hc, -⟩
  exact absurd ((h com hx).2.1 _ hc) (by simp)

open Classical in
/-- The components of a set are closed, each of their listeners has been called once, and
nothing else has changed. -/
structure Settled (s : Graph L V) (D : Set ComponentId) (t : Graph L V) : Prop where
  frame : ∀ x, x ∉ D → t.components x = s.components x
  closed : ∀ x ∈ D, t.Closed x
  absent : ∀ x, s.components x = none → t.components x = none
  notified : ∀ x, t.notifiedOf x = s.notifiedOf x ++ if x ∈ D then (s.listenersOf x).reverse else []

abbrev Ends (s : Graph L V) (x : ComponentId) : Prop := Acc (fun b a => s.Edge a b) x

theorem Settled.edge (h : Settled s D t) (he : t.Edge x y) : s.Edge x y := by
  have hx : x ∉ D := fun hx => (h.closed x hx).not_edge he
  obtain ⟨com, port, hcom, hc, hy⟩ := he
  refine ⟨com, port, by rwa [← h.frame x hx], hc, fun hn => hy (h.absent y hn)⟩

theorem Settled.refl : Settled s ∅ s where
  frame _ _ := rfl
  closed _ h := absurd h (Set.notMem_empty _)
  absent _ h := h
  notified _ := by simp

theorem Ends.not_transGen (h : s.Ends x) : ¬ Relation.TransGen s.Edge x x := by
  induction h with
  | intro x _ ih =>
    intro hc
    obtain ⟨y, hxy, hyx⟩ := Relation.TransGen.head'_iff.mp hc
    exact ih y hxy (Relation.TransGen.tail' hyx hxy)

/-- The state after some outputs of a component were relayed, and before the rest are. -/
structure Relayed (s : Graph L V) (id : ComponentId) (D : Set ComponentId) (u t : Graph L V)
    (com : Component L V) : Prop where
  settled : Settled s D u
  notMem : id ∉ D
  edges : ∀ x ∈ D, ∀ z, s.Edge x z → z ∈ D
  ends : ∀ x ∈ D, s.Ends x
  eq : t = u.put id (some com)

theorem Relayed.components_of_ne (h : Relayed s id D u t com) (hx : x ≠ id) :
    t.components x = u.components x := by
  rw [h.eq, put_components_of_ne _ hx]

theorem Relayed.edge_of (h : Relayed s id D u t com) (he : s.Edge x z) (hx : x ≠ id) (hxD : x ∉ D)
    (hz : z ∉ D) : t.Edge x z := by
  obtain ⟨com', port, hcom, hc, hne⟩ := he
  refine ⟨com', port, ?_, hc, ?_⟩
  · rw [h.components_of_ne hx, h.settled.frame x hxD, hcom]
  · rcases eq_or_ne z id with rfl | hzid
    · simp [h.eq]
    · rwa [h.components_of_ne hzid, h.settled.frame z hz]

/-- Paths that avoid the component either enter what is settled, or are still there. -/
theorem Relayed.reach_cases (h : Relayed s id D u t com) (hr : s.Reach y z)
    (hy : ∀ w, t.Reach y w → w ≠ id) : z ∈ D ∨ t.Reach y z := by
  induction hr with
  | refl => exact .inr .refl
  | @tail w z _ he ih =>
    rcases ih with hw | hw
    · exact .inl (h.edges w hw z he)
    · by_cases hwD : w ∈ D
      · exact .inl (h.edges w hwD z he)
      · by_cases hz : z ∈ D
        · exact .inl hz
        · exact .inr (hw.tail (h.edge_of he (hy w hw) hwD hz))

theorem Relayed.ends_of (h : Relayed s id D u t com) (ha : t.Ends y)
    (hy : ∀ w, t.Reach y w → w ≠ id) : s.Ends y := by
  induction ha with
  | intro y _ ih =>
    by_cases hyD : y ∈ D
    · exact h.ends y hyD
    · refine .intro y fun z he => ?_
      by_cases hz : z ∈ D
      · exact h.ends z hz
      · have he' := h.edge_of he (hy y .refl) hyD hz
        exact ih z he' fun w hw => hy w (.head he' hw)

theorem put_self (s : Graph L V) (id : ComponentId) : s.put id (s.components id) = s := by
  simp [put]

theorem put_put (c c' : Option (Component L V)) : (s.put id c).put id c' = s.put id c' := by
  simp [put]

variable {com' : Component L V} {u' t' : Graph L V}

theorem Relayed.edge (h : Relayed s id D u t com') (hid : s.components id = some com)
    (hc : ∀ dst, some dst ∈ com'.connectors → some dst ∈ com.connectors) (he : t.Edge x z) :
    s.Edge x z := by
  obtain ⟨q, port, hq, hmem, hz⟩ := he
  have hzs : s.components z ≠ none := by
    rcases eq_or_ne z id with rfl | hzid
    · simp [hid]
    · intro hn
      rw [h.components_of_ne hzid] at hz
      exact hz (h.settled.absent z hn)
  rcases eq_or_ne x id with rfl | hx
  · obtain rfl : com' = q := by simpa [h.eq] using hq
    exact ⟨com, port, hid, hc _ hmem, hzs⟩
  · rw [h.components_of_ne hx] at hq
    have hxD : x ∉ D := fun hxD => by
      have := (h.settled.closed x hxD q hq).2.1 _ hmem
      simp at this
    exact ⟨q, port, by rw [← h.settled.frame x hxD, hq], hmem, hzs⟩

theorem Relayed.trans (h : Relayed s id D u t com) (h' : Relayed t id D' u' t' com')
    (hid : s.components id ≠ none) :
    Relayed s id (D ∪ D') (u'.put id (s.components id)) t' com' := by
  have hne : ∀ x ∈ D ∪ D', x ≠ id := by
    rintro x (hx | hx) rfl
    · exact h.notMem hx
    · exact h'.notMem hx
  have havoid : ∀ y ∈ D', ∀ w, t.Reach y w → w ∈ D' := by
    intro y hy w hw
    induction hw with
    | refl => exact hy
    | tail _ he ih => exact h'.edges _ ih _ he
  constructor
  · constructor
    · intro x hx
      rcases eq_or_ne x id with rfl | hxid
      · simp
      · rw [put_components_of_ne _ hxid, h'.settled.frame x fun hx' => hx (.inr hx'),
          h.components_of_ne hxid, h.settled.frame x fun hx' => hx (.inl hx')]
    · intro x hx q hq
      rw [put_components_of_ne _ (hne x hx)] at hq
      by_cases hxD' : x ∈ D'
      · exact h'.settled.closed x hxD' q hq
      · have hxD : x ∈ D := hx.resolve_right hxD'
        rw [h'.settled.frame x hxD', h.components_of_ne (hne x hx)] at hq
        exact h.settled.closed x hxD q hq
    · intro x hx
      have hxid : x ≠ id := by rintro rfl; exact hid hx
      rw [put_components_of_ne _ hxid]
      apply h'.settled.absent
      rw [h.components_of_ne hxid]
      exact h.settled.absent x hx
    · intro x
      have ht : t.notifiedOf x = u.notifiedOf x := by rw [h.eq, notifiedOf_put]
      rw [notifiedOf_put, h'.settled.notified, ht, h.settled.notified, List.append_assoc]
      by_cases hxD' : x ∈ D'
      · have hlisten : t.listenersOf x = u.listenersOf x :=
          listenersOf_congr (h.components_of_ne (hne x (.inr hxD')))
        by_cases hxD : x ∈ D
        · simp [hxD, hxD', hlisten, (h.settled.closed x hxD).listenersOf]
        · simp [hxD, hxD', hlisten, listenersOf_congr (h.settled.frame x hxD)]
      · by_cases hxD : x ∈ D <;> simp [hxD, hxD']
  · exact fun hid' => hne id hid' rfl
  · rintro x (hx | hx) z he
    · exact .inl (h.edges x hx z he)
    · by_cases hxD : x ∈ D
      · exact .inl (h.edges x hxD z he)
      · by_cases hz : z ∈ D
        · exact .inl hz
        · exact .inr (h'.edges x hx z (h.edge_of he (hne x (.inr hx)) hxD hz))
  · rintro x (hx | hx)
    · exact h.ends x hx
    · exact h.ends_of (h'.ends x hx) fun w hw => hne w (.inr (havoid x hx w hw))
  · rw [h'.eq, put_put]

def Below (s : Graph L V) (outputs : List (Option (ComponentId × ℕ))) : Set ComponentId :=
  {x | ∃ y port, some (y, port) ∈ outputs ∧ s.components y ≠ none ∧ s.Reach y x}

theorem Relayed.below_subset (h : Relayed s id D u t com') {com₀ : Component L V}
    (hid : s.components id = some com₀)
    (hc : ∀ dst, some dst ∈ com'.connectors → some dst ∈ com₀.connectors)
    (outputs : List (Option (ComponentId × ℕ))) : t.Below outputs ⊆ s.Below outputs := by
  rintro x ⟨y, port, hmem, hy, hr⟩
  refine ⟨y, port, hmem, fun hn => ?_, hr.lift (fun w => w) fun _ _ he => h.edge hid hc he⟩
  rcases eq_or_ne y id with rfl | hyid
  · simp [hid] at hn
  · rw [h.components_of_ne hyid] at hy
    exact hy (h.settled.absent y hn)

theorem Relayed.below_cons (h : Relayed s id D u t com') (h' : Relayed t id D' u' t' com)
    {com₀ : Component L V} (hid : s.components id = some com₀)
    (hc : ∀ dst, some dst ∈ com'.connectors → some dst ∈ com₀.connectors)
    {c : Option (ComponentId × ℕ)} {outputs : List (Option (ComponentId × ℕ))}
    (hD : D = s.Below [c]) (hD' : D' = t.Below outputs) : D ∪ D' = s.Below (c :: outputs) := by
  have hid' : t.components id ≠ none := by simp [h.eq]
  ext x
  constructor
  · rintro (hx | hx)
    · rw [hD] at hx
      obtain ⟨y, port, hmem, hy, hr⟩ := hx
      exact ⟨y, port, by simpa using .inl (List.mem_singleton.mp hmem), hy, hr⟩
    · rw [hD'] at hx
      obtain ⟨y, port, hmem, hrest⟩ := h.below_subset hid hc outputs hx
      exact ⟨y, port, List.mem_cons_of_mem _ hmem, hrest⟩
  · rintro ⟨y, port, hmem, hy, hr⟩
    rcases List.mem_cons.mp hmem with hmem | hmem
    · apply Or.inl
      rw [hD]
      exact ⟨y, port, by simp [hmem], hy, hr⟩
    · by_cases hyD : y ∈ D
      · apply Or.inl
        clear hmem hy
        induction hr with
        | refl => exact hyD
        | tail _ he ih => exact h.edges _ ih _ he
      · have hyt : t.components y ≠ none := by
          rcases eq_or_ne y id with rfl | hyid
          · exact hid'
          · rwa [h.components_of_ne hyid, h.settled.frame y hyD]
        have hin : ∀ w, t.Reach y w → w ∈ D' := fun w hw => by
          rw [hD']
          exact ⟨y, port, hmem, hyt, hw⟩
        rcases h.reach_cases hr fun w hw hwid => h'.notMem (hwid ▸ hin w hw) with hx | hx
        · exact .inl hx
        · exact .inr (hin x hx)

/-- A component that is deactivated is on no cycle, and what it reaches is settled. -/
def Settles (action : ComponentId → Option (Graph L V → Option (Graph L V)))
    (dea : ComponentId → Graph L V → Option (Graph L V)) : Prop :=
  ∀ id (s t : Graph L V), s.Typed action id → dea id s = some t →
    s.components id ≠ none ∧ s.Ends id ∧ Settled s {x | s.Reach id x} t

variable {action : ComponentId → Option (Graph L V → Option (Graph L V))}
variable {dea : ComponentId → Graph L V → Option (Graph L V)} {dst : ComponentId × ℕ} {o : ℕ}

theorem Settled.tryCollect (h : Settled s D t) (hx : x ∈ D) : Settled s D (t.tryCollect x) := by
  unfold Graph.tryCollect
  split
  · exact h
  · split
    · constructor
      · intro y hy
        have hyx : y ≠ x := by rintro rfl; exact hy hx
        rw [put_components_of_ne _ hyx, h.frame y hy]
      · intro y hy com hcom
        rcases eq_or_ne y x with rfl | hyx
        · simp at hcom
        · rw [put_components_of_ne _ hyx] at hcom
          exact h.closed y hy com hcom
      · intro y hy
        rcases eq_or_ne y x with rfl | hyx
        · simp
        · rw [put_components_of_ne _ hyx, h.absent y hy]
      · exact h.notified
    · exact h

theorem settled_passthru (hdea : Settles action dea)
    (hty : ∀ x ∈ s.Below [some dst], action x = none) (h : passthru action dea dst s = some t) :
    Settled s (s.Below [some dst]) t ∧ ∀ x ∈ s.Below [some dst], s.Ends x := by
  unfold passthru at h
  split at h
  case h_1 hn =>
    obtain rfl := Option.some.inj h
    have hempty : s.Below [some dst] = ∅ := by
      apply Set.eq_empty_of_forall_notMem
      rintro x ⟨y, port, hmem, hy, -⟩
      obtain rfl : (y, port) = dst := by simpa using hmem
      exact hy hn
    rw [hempty]
    exact ⟨.refl, fun x hx => absurd hx (Set.notMem_empty x)⟩
  case h_2 com hdst =>
    have hbelow : s.Below [some dst] = {x | s.Reach dst.1 x} := by
      ext x
      constructor
      · rintro ⟨y, port, hmem, -, hr⟩
        obtain rfl : (y, port) = dst := by simpa using hmem
        exact hr
      · intro hr
        exact ⟨dst.1, dst.2, by simp, by simp [hdst], hr⟩
    rw [hbelow] at hty
    rw [hty dst.1 .refl] at h
    obtain ⟨v, hv, rfl⟩ := Option.map_eq_some_iff.mp h
    obtain ⟨-, hends, hsettled⟩ := hdea _ _ _ (fun y hy => hty y hy.to_reflTransGen) hv
    rw [hbelow]
    refine ⟨hsettled.tryCollect .refl, fun x hx => ?_⟩
    induction hx with
    | refl => exact hends
    | tail _ he ih => exact ih.inv he

theorem connector_eq (hid : s.components id = some com) :
    s.connector id o = com.connectors[o]?.join := by
  simp [connector, hid]

theorem relayed_implode (hdea : Settles action dea) (hid : s.components id = some com)
    {c : Option (ComponentId × ℕ)} (ho : com.connectors[o]? = some c)
    (hty : ∀ x ∈ s.Below [c], action x = none) (h : implode action dea id s o = some t) :
    ∃ u, Relayed s id (s.Below [c]) u t { com with connectors := com.connectors.set o none } := by
  unfold implode at h
  rw [connector_eq hid, ho] at h
  cases c with
  | none =>
    obtain rfl := Option.some.inj h
    have hempty : s.Below [none] = ∅ := by
      apply Set.eq_empty_of_forall_notMem
      rintro x ⟨y, port, hmem, -⟩
      simp at hmem
    have hset : com.connectors.set o none = com.connectors := by
      obtain ⟨hlt, hget⟩ := List.getElem?_eq_some_iff.mp ho
      rw [← hget, List.set_getElem_self]
    rw [hempty, hset]
    exact ⟨s, .refl, Set.notMem_empty _, by simp, by simp, by rw [← hid, put_self]⟩
  | some dst =>
    obtain ⟨u, hu, rfl⟩ := Option.map_eq_some_iff.mp h
    obtain ⟨hsettled, hends⟩ := settled_passthru hdea hty hu
    have hnot : id ∉ s.Below [some dst] := by
      intro hmem
      obtain ⟨y, port, hy, hne, hr⟩ := hmem
      obtain rfl : (y, port) = dst := by simpa using hy
      have he : s.Edge id y := ⟨com, port, hid, List.mem_of_getElem? ho, hne⟩
      exact (hends id ⟨y, port, by simp, hne, hr⟩).not_transGen (Relation.TransGen.head' he hr)
    refine ⟨u, hsettled, hnot, ?_, hends, ?_⟩
    · rintro x ⟨y, port, hmem, hy, hr⟩ z he
      exact ⟨y, port, hmem, hy, hr.tail he⟩
    · simp [clearConnector, hsettled.frame id hnot, hid]

theorem relayed_outputs (hdea : Settles action dea) (m k : ℕ) (hid : s.components id = some com)
    (hlen : com.connectors.length = k + m)
    (hty : ∀ x ∈ s.Below (com.connectors.drop k), action x = none)
    (h : (List.range' k m).foldlM (implode action dea id) s = some t) :
    ∃ u, Relayed s id (s.Below (com.connectors.drop k)) u t
      { com with connectors := com.connectors.take k ++ List.replicate m none } := by
  induction m generalizing k s com with
  | zero =>
    obtain rfl : s = t := by simpa using h
    have hdrop : com.connectors.drop k = [] := List.drop_eq_nil_of_le (by omega)
    have htake : com.connectors.take k = com.connectors := List.take_of_length_le (by omega)
    have hempty : s.Below [] = ∅ := by
      apply Set.eq_empty_of_forall_notMem
      rintro x ⟨y, port, hmem, -⟩
      simp at hmem
    rw [hdrop, hempty, htake]
    refine ⟨s, .refl, Set.notMem_empty _, by simp, by simp, ?_⟩
    simp [← hid, put_self]
  | succ m ih =>
    rw [List.range'_succ, List.foldlM_cons] at h
    obtain ⟨v, hv, ht⟩ := Option.bind_eq_some_iff.mp h
    have hlt : k < com.connectors.length := by omega
    have hhead : s.Below [com.connectors[k]] ⊆ s.Below (com.connectors.drop k) := by
      rintro x ⟨y, port, hmem, hrest⟩
      refine ⟨y, port, ?_, hrest⟩
      rw [List.drop_eq_getElem_cons hlt, List.mem_singleton.mp hmem]
      exact List.mem_cons_self
    obtain ⟨u, hu⟩ := relayed_implode hdea hid (List.getElem?_eq_getElem hlt)
      (fun x hx => hty x (hhead hx)) hv
    have hvid : v.components id = some { com with connectors := com.connectors.set k none } := by
      simp [hu.eq]
    have hdrop : (com.connectors.set k none).drop (k + 1) = com.connectors.drop (k + 1) := by
      simp [List.drop_set]
    have hset : ∀ dst, some dst ∈ com.connectors.set k none → some dst ∈ com.connectors := by
      intro dst hmem
      rcases List.mem_or_eq_of_mem_set hmem with hmem | hmem
      · exact hmem
      · simp at hmem
    obtain ⟨u', hu'⟩ := ih (k + 1) hvid (by simp; omega) (fun x hx => by
      rw [hdrop] at hx
      obtain ⟨y, port, hmem, hrest⟩ := hu.below_subset hid hset _ hx
      refine hty x ⟨y, port, ?_, hrest⟩
      rw [List.drop_eq_getElem_cons hlt]
      exact List.mem_cons_of_mem _ hmem) ht
    have htake : (com.connectors.set k none).take (k + 1) ++ List.replicate m none =
        com.connectors.take k ++ List.replicate (m + 1) none := by
      rw [List.take_succ_eq_append_getElem (by simpa using hlt)]
      simp [List.take_set, List.replicate_succ, List.set_eq_of_length_le]
    rw [hdrop] at hu'
    simp only [htake] at hu'
    have hcut := hu.below_cons hu' hid hset rfl rfl
    rw [List.drop_eq_getElem_cons hlt, ← hcut]
    exact ⟨_, hu.trans hu' (by simp [hid])⟩

@[simp] theorem components_emptyBuffers_of_ne (h : x ≠ id) :
    (s.emptyBuffers id com).components x = s.components x := by
  simp [emptyBuffers, h]

@[simp] theorem components_emptyBuffers_self :
    (s.emptyBuffers id com).components id = some { com with active := false, incoming := [] } := by
  simp [emptyBuffers]

theorem edge_emptyBuffers (hid : s.components id = some com) :
    (s.emptyBuffers id com).Edge = s.Edge := by
  have hnone : ∀ y, (s.emptyBuffers id com).components y = none ↔ s.components y = none := by
    intro y
    rcases eq_or_ne y id with rfl | hy
    · simp [hid]
    · simp [hy]
  ext x y
  unfold Edge
  simp only [Ne, hnone]
  rcases eq_or_ne x id with rfl | hx
  · simp [hid]
  · simp [hx]

theorem reach_iff (hid : s.components id = some com) :
    s.Reach id x ↔ x = id ∨ x ∈ s.Below com.connectors := by
  constructor
  · intro hr
    rcases Relation.ReflTransGen.cases_head hr with rfl | ⟨y, he, hr⟩
    · exact .inl rfl
    · obtain ⟨com', port, hcom, hc, hy⟩ := he
      obtain rfl := Option.some.inj (hid.symm.trans hcom)
      exact .inr ⟨y, port, hc, hy, hr⟩
  · rintro (rfl | ⟨y, port, hc, hy, hr⟩)
    · exact .refl
    · exact .head ⟨com, port, hid, hc, hy⟩ hr

theorem components_notifyListeners (hid : s.components id = some com) :
    (s.notifyListeners id).components x =
      if x = id then some { com with listeners := [] } else s.components x := by
  rcases eq_or_ne x id with rfl | hx
  · simp [notifyListeners, hid]
  · simp [notifyListeners, hid, hx]

theorem notifiedOf_notifyListeners (hid : s.components id = some com) :
    (s.notifyListeners id).notifiedOf x =
      s.notifiedOf x ++ if x = id then com.listeners.reverse else [] := by
  simp only [notifyListeners, hid, notifiedOf, List.filterMap_append, List.filterMap_map]
  rcases eq_or_ne x id with rfl | hx
  · congr 1
    simp
  · simp [hx, hx.symm]

theorem settles_deactivate (action : ComponentId → Option (Graph L V → Option (Graph L V)))
    (fuel : ℕ) : Settles action (deactivate action fuel) := by
  induction fuel with
  | zero =>
    intro id s t _ h
    cases h
  | succ fuel ih =>
    intro id s t hty h
    obtain ⟨com, hid, h⟩ := Option.bind_eq_some_iff.mp h
    obtain ⟨v, hv, rfl⟩ := Option.map_eq_some_iff.mp h
    rw [List.range_eq_range'] at hv
    have hedge := edge_emptyBuffers (s := s) hid
    have hpresent : ∀ y, (s.emptyBuffers id com).components y ≠ none ↔ s.components y ≠ none := by
      intro y
      rcases eq_or_ne y id with rfl | hy
      · simp [hid]
      · simp [hy]
    have hbelow : ∀ x, x ∈ (s.emptyBuffers id com).Below com.connectors ↔
        x ∈ s.Below com.connectors := by
      intro x
      simp only [Below, Reach, hedge, hpresent]
    obtain ⟨u, hu⟩ := relayed_outputs ih com.connectors.length 0 components_emptyBuffers_self
      (Nat.zero_add _).symm (fun x hx => by
        obtain ⟨y, port, hmem, hy, hr⟩ := (hbelow x).mp hx
        exact hty x (.head' ⟨com, port, hid, hmem, hy⟩ hr)) hv
    simp only [List.drop_zero, List.take_zero, List.nil_append] at hu
    have hnot : id ∉ s.Below com.connectors := fun hmem => hu.notMem ((hbelow id).mpr hmem)
    have hvid : v.components id = some { com with
        active := false
        incoming := []
        connectors := List.replicate com.connectors.length none } := by
      simp [hu.eq]
    refine ⟨by simp [hid], ?_, ?_⟩
    · refine .intro id fun y he => ?_
      obtain ⟨com', port, hcom, hc, hy⟩ := he
      obtain rfl := Option.some.inj (hid.symm.trans hcom)
      have := hu.ends y ((hbelow y).mpr ⟨y, port, hc, hy, .refl⟩)
      rwa [Ends, hedge] at this
    · constructor
      · intro x hx
        rw [Set.mem_ofPred_eq, reach_iff hid, not_or] at hx
        rw [components_notifyListeners hvid, if_neg hx.1, hu.components_of_ne hx.1,
          hu.settled.frame x (fun h => hx.2 ((hbelow x).mp h)), components_emptyBuffers_of_ne hx.1]
      · intro x hx q hq
        rw [components_notifyListeners hvid] at hq
        rcases (reach_iff hid).mp hx with rfl | hxb
        · rw [if_pos rfl] at hq
          obtain rfl := Option.some.inj hq
          exact ⟨rfl, fun c hc => List.eq_of_mem_replicate hc, rfl⟩
        · have hxid : x ≠ id := by rintro rfl; exact hnot hxb
          rw [if_neg hxid, hu.components_of_ne hxid] at hq
          exact hu.settled.closed x ((hbelow x).mpr hxb) q hq
      · intro x hx
        have hxid : x ≠ id := by rintro rfl; simp [hid] at hx
        rw [components_notifyListeners hvid, if_neg hxid, hu.components_of_ne hxid]
        apply hu.settled.absent
        rwa [components_emptyBuffers_of_ne hxid]
      · intro x
        have hlog : v.notifiedOf x = u.notifiedOf x := by rw [hu.eq, notifiedOf_put]
        have hold : (s.emptyBuffers id com).notifiedOf x = s.notifiedOf x := rfl
        rw [notifiedOf_notifyListeners hvid, hlog, hu.settled.notified, hold]
        rcases eq_or_ne x id with rfl | hxid
        · have hxr : s.Reach x x := .refl
          simp [hnot, hbelow, hxr, listenersOf, hid]
        · have hx' : (s.emptyBuffers id com).components x = s.components x :=
            components_emptyBuffers_of_ne hxid
          have hl := listenersOf_congr hx'
          by_cases hxb : x ∈ s.Below com.connectors
          · have hxr := (reach_iff hid).mpr (.inr hxb)
            simp [hxid, hbelow, hxb, hxr, hl]
          · have hxr : ¬ s.Reach id x := fun hr => by
              rcases (reach_iff hid).mp hr with h | h
              · exact hxid h
              · exact hxb h
            simp [hxid, hbelow, hxb, hxr]

end Settled

section Termination

variable {s t u : Graph L V} {id x y : ComponentId} {com : Component L V} {fuel fuel' o : ℕ}
variable {action : ComponentId → Option (Graph L V → Option (Graph L V))}
variable {dea dea' : ComponentId → Graph L V → Option (Graph L V)}

theorem foldlM_mono {σ α : Type*} {f g : σ → α → Option σ}
    (hfg : ∀ s a t, f s a = some t → g s a = some t) {l : List α} {s t : σ}
    (h : l.foldlM f s = some t) : l.foldlM g s = some t := by
  induction l generalizing s with
  | nil => exact h
  | cons a l ih =>
    rw [List.foldlM_cons] at h ⊢
    obtain ⟨u, hu, ht⟩ := Option.bind_eq_some_iff.mp h
    exact Option.bind_eq_some_iff.mpr ⟨u, hfg s a u hu, ih ht⟩

theorem implode_mono (hd : ∀ y s t, dea y s = some t → dea' y s = some t)
    (h : implode action dea id s o = some t) : implode action dea' id s o = some t := by
  unfold implode passthru at *
  split at h
  · exact h
  · split at h
    · exact h
    · obtain ⟨w, hw, rfl⟩ := Option.map_eq_some_iff.mp h
      obtain ⟨v, hv, rfl⟩ := Option.map_eq_some_iff.mp hw
      rcases ha : action _ with _ | act
      · rw [ha] at hv
        simp [hd _ _ _ hv]
      · rw [ha] at hv
        simp only [Option.getD_some] at hv ⊢
        rw [hv]
        rfl

theorem deactivate_mono (hle : fuel ≤ fuel') (h : deactivate action fuel id s = some t) :
    deactivate action fuel' id s = some t := by
  induction fuel generalizing fuel' id s t with
  | zero => cases h
  | succ fuel ih =>
    obtain ⟨fuel', rfl⟩ := Nat.exists_eq_add_of_lt hle
    obtain ⟨com, hid, h⟩ := Option.bind_eq_some_iff.mp h
    obtain ⟨v, hv, rfl⟩ := Option.map_eq_some_iff.mp h
    have hmono : ∀ y s t, deactivate action fuel y s = some t →
        deactivate action (fuel + fuel') y s = some t := fun y s t =>
      ih (Nat.le_add_right ..)
    have hv' := foldlM_mono (fun s o t => implode_mono hmono) hv
    simp only [deactivate]
    exact Option.bind_eq_some_iff.mpr ⟨com, hid, Option.map_eq_some_iff.mpr ⟨v, hv', rfl⟩⟩

theorem edge_clearConnector (he : (s.clearConnector id o).Edge x y) : s.Edge x y := by
  unfold clearConnector at he
  split at he
  · exact he
  case h_2 com hid =>
    obtain ⟨q, port, hq, hc, hy⟩ := he
    have hys : s.components y ≠ none := by
      rcases eq_or_ne y id with rfl | hyid
      · simp [hid]
      · rwa [put_components_of_ne _ hyid] at hy
    rcases eq_or_ne x id with rfl | hx
    · obtain rfl := Option.some.inj ((put_components_self _).symm.trans hq)
      refine ⟨com, port, hid, ?_, hys⟩
      rcases List.mem_or_eq_of_mem_set hc with hc | hc
      · exact hc
      · cases hc
    · exact ⟨q, port, by rwa [put_components_of_ne _ hx] at hq, hc, hys⟩

theorem edge_of_connector {dst : ComponentId × ℕ} (hc : s.connector id o = some dst)
    (hd : s.components dst.1 ≠ none) : s.Edge id dst.1 := by
  obtain ⟨com, hid, hj⟩ := Option.bind_eq_some_iff.mp hc
  exact ⟨com, dst.2, hid, List.mem_of_getElem? (Option.join_eq_some_iff.mp hj), hd⟩

theorem edge_implode (hdea : Settles action dea) (hty : s.Typed action id)
    (h : implode action dea id s o = some t) (he : t.Edge x y) : s.Edge x y := by
  unfold implode at h
  split at h
  · obtain rfl := Option.some.inj h
    exact he
  case h_2 dst hc =>
    obtain ⟨u, hu, rfl⟩ := Option.map_eq_some_iff.mp h
    refine (settled_passthru hdea ?_ hu).1.edge (edge_clearConnector he)
    rintro z ⟨w, port, hmem, hw, hr⟩
    obtain rfl : (w, port) = dst := by simpa using hmem
    exact hty z (.head' (edge_of_connector hc hw) hr)

theorem Typed.mono (h : s.Typed action x) (hle : ∀ a b, u.Edge a b → s.Edge a b) :
    u.Typed action x := fun y hy => h y (Relation.TransGen.mono hle _ _ hy)

theorem exists_outputs (id : ComponentId) (l : List ℕ) (hty : s.Typed action id)
    (hle : ∀ a b, u.Edge a b → s.Edge a b)
    (ih : ∀ y, s.Edge id y → ∀ u : Graph L V, (∀ a b, u.Edge a b → s.Edge a b) →
      u.components y ≠ none → ∃ fuel t, deactivate action fuel y u = some t) :
    ∃ fuel t, l.foldlM (implode action (deactivate action fuel) id) u = some t := by
  induction l generalizing u with
  | nil => exact ⟨0, u, rfl⟩
  | cons o l ihl =>
    obtain ⟨fuel, v, hv⟩ : ∃ fuel v, implode action (deactivate action fuel) id u o = some v := by
      unfold implode
      cases hc : u.connector id o with
      | none => exact ⟨0, u, rfl⟩
      | some dst =>
        cases hd : u.components dst.1 with
        | none => exact ⟨0, u.clearConnector id o, by simp [passthru, hd]⟩
        | some com =>
          have he : u.Edge id dst.1 := edge_of_connector hc (by simp [hd])
          obtain ⟨fuel, v, hv⟩ := ih dst.1 (hle _ _ he) u hle (by simp [hd])
          exact ⟨fuel, (v.tryCollect dst.1).clearConnector id o,
            by simp [passthru, hd, hv, hty _ (.single (hle _ _ he))]⟩
    obtain ⟨fuel', t, ht⟩ := ihl (u := v) fun a b he =>
      hle a b (edge_implode (settles_deactivate action fuel) (hty.mono hle) hv he)
    refine ⟨max fuel fuel', t, ?_⟩
    rw [List.foldlM_cons]
    refine Option.bind_eq_some_iff.mpr ⟨v, ?_, ?_⟩
    · exact implode_mono (fun _ _ _ => deactivate_mono (le_max_left ..)) hv
    · exact foldlM_mono (fun _ _ _ =>
        implode_mono fun _ _ _ => deactivate_mono (le_max_right ..)) ht

/-- A component whose paths end is deactivated by a cascade that returns. -/
theorem Ends.exists_deactivate (h : s.Ends x) (hty : s.Typed action x)
    (hle : ∀ a b, u.Edge a b → s.Edge a b) (hx : u.components x ≠ none) :
    ∃ fuel t, deactivate action fuel x u = some t := by
  induction h generalizing u with
  | intro x _ ih =>
    obtain ⟨com, hcom⟩ := Option.ne_none_iff_exists'.mp hx
    have hedge := edge_emptyBuffers hcom
    obtain ⟨fuel, t, ht⟩ := exists_outputs (s := s) (u := u.emptyBuffers x com) x
      (List.range com.connectors.length) hty (by rwa [hedge])
      fun y he u hle hy => ih y he (fun z hz => hty z (.head he hz)) hle hy
    exact ⟨fuel + 1, t.notifyListeners x, by simp [deactivate, hcom, ht]⟩

theorem ends_of_acyclic (hfin : {x | s.components x ≠ none}.Finite)
    (hacyc : ∀ x, s.Reach id x → ¬ Relation.TransGen s.Edge x x) (hx : s.Reach id x) :
    s.Ends x := by
  have : Finite {x // s.components x ≠ none} := hfin.to_subtype
  let r : {x // s.components x ≠ none} → {x // s.components x ≠ none} → Prop := fun b a =>
    s.Reach id a ∧ Relation.TransGen s.Edge a.1 b.1
  have : IsTrans _ r := ⟨fun _ _ _ hcb hba => ⟨hba.1, hba.2.trans hcb.2⟩⟩
  have hirr : ∀ a, ¬ r a a := fun a ha => hacyc a.1 ha.1 ha.2
  have : Std.Irrefl r := ⟨hirr⟩
  have hwf : WellFounded r := Finite.wellFounded_of_trans_of_irrefl r
  have hall : ∀ a : {x // s.components x ≠ none}, s.Reach id a.1 → s.Ends a.1 := fun a => by
    induction a using hwf.induction with
    | _ a ih =>
      refine fun ha => .intro a.1 fun y he => ?_
      obtain ⟨com, port, hcom, hc, hy⟩ := he
      have he : s.Edge a.1 y := ⟨com, port, hcom, hc, hy⟩
      exact ih ⟨y, hy⟩ ⟨ha, .single he⟩ (ha.tail he)
  refine .intro x fun y he => ?_
  obtain ⟨com, port, hcom, hc, hy⟩ := he
  exact hall ⟨y, hy⟩ (hx.tail ⟨com, port, hcom, hc, hy⟩)

def Invalidated (s : Graph L V) (id : ComponentId) (t : Graph L V) : Prop :=
  ∀ x, s.Reach id x → (∀ com, t.components x = some com → com.active = false) ∧
    t.notifiedOf x = s.notifiedOf x ++ (s.listenersOf x).reverse

theorem Settled.invalidated (h : Settled s {x | s.Reach id x} t) : Invalidated s id t := by
  intro x hx
  have hmem : x ∈ {x | s.Reach id x} := hx
  exact ⟨fun com hcom => (h.closed x hmem com hcom).1, by rw [h.notified, if_pos hmem]⟩

/-- A cascade that returns has met no cycle. -/
theorem acyclic_of_invalidateComponent (hty : s.Typed action id)
    (h : s.invalidateComponent action fuel id = some t) (hx : s.Reach id x) :
    ¬ Relation.TransGen s.Edge x x := by
  unfold invalidateComponent at h
  split at h
  case h_1 hid =>
    intro hc
    have hedge : ∀ y, ¬ s.Edge id y := by
      rintro y ⟨com, port, hcom, -⟩
      simp [hid] at hcom
    rcases Relation.ReflTransGen.cases_head hx with rfl | ⟨y, he, -⟩
    · obtain ⟨y, he, -⟩ := Relation.TransGen.head'_iff.mp hc
      exact hedge y he
    · exact hedge y he
  case h_2 com hid =>
    obtain ⟨v, hv, -⟩ := Option.map_eq_some_iff.mp h
    obtain ⟨-, hends, -⟩ := settles_deactivate action fuel id s v hty hv
    have hxe : s.Ends x := by
      induction hx with
      | refl => exact hends
      | tail _ he ih => exact ih.inv he
    exact hxe.not_transGen

theorem exists_invalidateComponent (hty : s.Typed action id) (hends : s.Ends id) :
    ∃ fuel t, s.invalidateComponent action fuel id = some t ∧ Invalidated s id t := by
  unfold invalidateComponent
  cases hid : s.components id with
  | none =>
    refine ⟨0, s, rfl, fun x hx => ?_⟩
    rcases Relation.ReflTransGen.cases_head hx with rfl | ⟨y, ⟨com, port, hcom, -⟩, -⟩
    · simp [hid, listenersOf]
    · simp [hid] at hcom
  | some com =>
    obtain ⟨fuel, t, ht⟩ := hends.exists_deactivate (u := s) hty (fun _ _ he => he)
      (by simp [hid])
    have hinv := (settles_deactivate action fuel id s t hty ht).2.2.invalidated
    refine ⟨fuel, _, congrArg (Option.map _) ht, fun x hx => ?_⟩
    split
    · refine ⟨fun q hq => ?_, (hinv x hx).2⟩
      rcases eq_or_ne x id with rfl | hxid
      · simp at hq
      · rw [put_components_of_ne _ hxid] at hq
        exact (hinv x hx).1 q hq
    · exact hinv x hx

/-- Four components in a diamond, the last of which is not active yet, and one that leads to them.
-/
def diamond : Graph ℕ ℕ where
  components
    | 0 => some { active := true, connectors := [some (1, 0), some (2, 0)], listeners := [10] }
    | 1 => some { active := true, activated := true, connectors := [some (3, 0)] }
    | 2 => some { connectors := [none, some (3, 1)], listeners := [13, 12] }
    | 3 => some { listeners := [14], incoming := [5] }
    | 4 => some { active := true, activated := true, connectors := [some (0, 0)] }
    | _ => none

/-- The input of the last component is a deliverable, which it does nothing with. -/
def hello : ComponentId → Option (Graph ℕ ℕ → Option (Graph ℕ ℕ))
  | 4 => some some
  | _ => none

theorem edge_diamond {x y : ComponentId} (h : diamond.Edge x y) : x < 4 → x < y ∧ y < 4 := by
  obtain ⟨com, port, hcom, hc, -⟩ := h
  match x, hcom with
  | 0, hcom =>
    obtain rfl := Option.some.inj hcom
    obtain ⟨rfl, -⟩ | ⟨rfl, -⟩ : y = 1 ∧ port = 0 ∨ y = 2 ∧ port = 0 := by simpa using hc
    all_goals decide
  | 1, hcom =>
    obtain rfl := Option.some.inj hcom
    obtain ⟨rfl, -⟩ : y = 3 ∧ port = 0 := by simpa using hc
    decide
  | 2, hcom =>
    obtain rfl := Option.some.inj hcom
    obtain ⟨rfl, -⟩ : y = 3 ∧ port = 1 := by simpa using hc
    decide
  | 3, hcom =>
    obtain rfl := Option.some.inj hcom
    simp at hc
  | 4, hcom =>
    obtain rfl := Option.some.inj hcom
    obtain ⟨rfl, -⟩ : y = 0 ∧ port = 0 := by simpa using hc
    decide

def loop : Graph ℕ ℕ where
  components
    | 0 => some { active := true, activated := true, connectors := [some (1, 0)] }
    | 1 => some { active := true, activated := true, connectors := [some (0, 0)] }
    | _ => none

end Termination

end Graph

end Hypercomm.Components
