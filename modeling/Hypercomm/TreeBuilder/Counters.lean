import Hypercomm.TreeBuilder.Quiescence

/-! # The counters of all arrays

The tree builders count the messages of each array apart. Elements are created in any
order and place, with an association or without, and messages arrive in any order.
-/

namespace Hypercomm.TreeBuilder

open Transition

variable {A Idx : Type*} {N : NumNodes}

/-- The node that a message comes from, or that waits for an answer to it. -/
def Message.origin : Message Idx → ℤ
  | .regEndpoint _ src _ => src
  | .receiveDownstream _ node _ => node
  | .receiveUpstream _ node _ => node

def Message.Addressed (N : NumNodes) (m : Message Idx) : Prop :=
  m.dst ∈ N.nodes ∧ m.origin ∈ N.nodes

def Endpoint.Addressed (N : NumNodes) : Endpoint Idx → Prop
  | .elt _ => True
  | .node n => n ∈ N.nodes

theorem parent_mem_nodes {n : ℤ} (hn : n ∈ N.nodes) (hp : 0 ≤ BinaryTree.parent n) :
    BinaryTree.parent n ∈ N.nodes := by
  rw [NumNodes.mem_nodes] at hn ⊢
  exact ⟨hp, (BinaryTree.parent_lt hn.1).trans hn.2⟩

theorem leaf_mem_nodes {n j : ℤ} (hn : n ∈ N.nodes) (hj : j ∈ leaves N n) : j ∈ N.nodes := by
  rw [NumNodes.mem_nodes] at hn ⊢
  obtain ⟨hp, hlt⟩ := (mem_leaves_iff hn.1 hn.2).mp hj
  have hpos : 0 < j := by
    rw [← BinaryTree.parent_nonneg_iff, hp]
    exact hn.1
  exact ⟨hpos.le, hlt⟩

namespace Node

variable [DecidableEq Idx] {s s' : Node Idx} {n : ℤ} {idx : Idx} {ep ep' : Endpoint Idx}
variable {target : Option Idx} {sent : List (Message Idx)} {m : Message Idx}

theorem regEndpoint_addressed (h : s.regEndpoint N n ep idx = .ok (s', ep', sent))
    (hn : n ∈ N.nodes) (hm : m ∈ sent) : m.Addressed N := by
  obtain ⟨-, x, rfl⟩ := regEndpoint_announces h
  obtain ⟨leaf, hleaf, rfl⟩ := List.mem_map.mp hm
  exact ⟨leaf_mem_nodes hn hleaf, hn⟩

theorem sendUpstream_addressed (h : s.sendUpstream N n ep idx = .ok (s', ep', sent))
    (hn : n ∈ N.nodes) (hep : ep.Addressed N) (hm : m ∈ sent) : m.Addressed N := by
  simp only [sendUpstream] at h
  split_ifs at h with hp
  · obtain ⟨-, -, rfl⟩ := by simpa using h
    obtain rfl := List.mem_singleton.mp hm
    refine ⟨parent_mem_nodes hn hp, ?_⟩
    cases ep with
    | elt e => exact hn
    | node k => exact hep
  · cases hr : s.regEndpoint N n ep idx with
    | error e => simp [hr, bind, Except.bind] at h
    | ok p =>
      obtain ⟨s₁, ep₁, sent₁⟩ := p
      obtain ⟨-, -, rfl⟩ := by simpa [hr, bind, Except.bind, pure, Except.pure] using h
      exact regEndpoint_addressed hr hn hm

theorem regDownstream_addressed (h : s.regDownstream N n ep idx = .ok (s', ep', target, sent))
    (hn : n ∈ N.nodes) (hep : ep.Addressed N) (hm : m ∈ sent) : m.Addressed N := by
  cases ht : s.findTarget false with
  | some t =>
    obtain ⟨-, -, -, rfl⟩ := by simpa [regDownstream, ht] using h
    cases hm
  | none =>
    cases hr : s.sendUpstream N n ep idx with
    | error e => simp [regDownstream, ht, hr, bind, Except.bind] at h
    | ok p =>
      obtain ⟨s₁, ep₁, sent₁⟩ := p
      obtain ⟨-, -, -, rfl⟩ := by
        simpa [regDownstream, ht, hr, bind, Except.bind, pure, Except.pure] using h
      exact sendUpstream_addressed hr hn hep hm

theorem regElement_addressed {assoc : Option (Association Idx)}
    (h : s.regElement N n idx assoc = .ok (s', sent)) (hn : n ∈ N.nodes) (hm : m ∈ sent) :
    m.Addressed N := by
  cases assoc with
  | some a =>
    obtain ⟨-, rfl⟩ := by
      simpa [regElement, associate, bind, Except.bind, pure, Except.pure] using h
    cases hm
  | none =>
    cases hins : s.inserting with
    | false => simp [regElement, associate, hins, bind, Except.bind] at h
    | true =>
      cases hr : s.regDownstream N n (.elt { index := idx }) idx with
      | error e => simp [regElement, associate, hins, hr, bind, Except.bind] at h
      | ok p =>
        obtain ⟨s₁, ep₁, t₁, sent₁⟩ := p
        obtain ⟨-, rfl⟩ := by
          simpa [regElement, associate, hins, hr, bind, Except.bind, pure, Except.pure] using h
        exact regDownstream_addressed hr hn trivial hm

theorem receive_addressed {msg : Message Idx} (h : s.receive N msg = .ok (s', sent))
    (hmsg : msg.Addressed N) (hm : m ∈ sent) : m.Addressed N := by
  obtain ⟨hdst, horigin⟩ := hmsg
  cases msg with
  | regEndpoint dst src x =>
    cases hr : s.regEndpoint N dst (.node src) x with
    | error e => simp [receive, hr, bind, Except.bind] at h
    | ok p =>
      obtain ⟨s₁, ep₁, sent₁⟩ := p
      obtain ⟨-, rfl⟩ := by simpa [receive, hr, bind, Except.bind, pure, Except.pure] using h
      exact regEndpoint_addressed hr hdst hm
  | receiveDownstream dst node x =>
    cases hr : s.regDownstream N dst (.node node) x with
    | error e => simp [receive, receiveDownstream, hr, bind, Except.bind] at h
    | ok p =>
      obtain ⟨s₁, ep₁, t₁, sent₁⟩ := p
      have hsent := fun hm => regDownstream_addressed hr hdst horigin (m := m) hm
      cases t₁ with
      | none =>
        obtain ⟨-, rfl⟩ := by
          simpa [receive, receiveDownstream, hr, bind, Except.bind, pure, Except.pure] using h
        exact hsent hm
      | some t =>
        obtain ⟨-, rfl⟩ := by
          simpa [receive, receiveDownstream, hr, bind, Except.bind, pure, Except.pure] using h
        rcases List.mem_append.mp hm with hm | hm
        · exact hsent hm
        · obtain rfl := List.mem_singleton.mp hm
          exact ⟨horigin, hdst⟩
  | receiveUpstream dst node x =>
    cases ht : s.findTarget true with
    | none =>
      simp [receive, receiveUpstream, regUpstream, sendDownstream, ht, bind, Except.bind] at h
    | some t =>
      rw [receiveUpstream_of_target ht] at h
      obtain ⟨-, rfl⟩ := by simpa using h
      cases hm

end Node

/-- The tree builders of all arrays. -/
abbrev Arrays (A Idx : Type*) := A → Network Idx

namespace Arrays

def init (isInserting : A → ℤ → Bool) : Arrays A Idx := fun aid =>
  ⟨fun n => { inserting := isInserting aid n }, 0⟩

inductive Event (A Idx : Type*) where
  | regElement (aid : A) (node : ℤ) (idx : Idx) (assoc : Option (Association Idx))
  | receive (aid : A) (m : Message Idx)

variable [DecidableEq A] [DecidableEq Idx]

/-- The handler changed a node of an array and sent messages. The hash map of the elements
may order its entries anyhow. -/
def put (s : Arrays A Idx) (aid : A) (n : ℤ) (t : Node Idx) (flight : Multiset (Message Idx)) :
    Arrays A Idx :=
  Function.update s aid ⟨Function.update (s aid).nodes n t, flight⟩

inductive Step (N : NumNodes) (s : Arrays A Idx) : Event A Idx → Arrays A Idx → Prop
  | regElement {aid : A} {n : ℤ} {idx : Idx} {assoc : Option (Association Idx)} {t : Node Idx}
      {sent : List (Message Idx)} {els : List (Element Idx)} : n ∈ N.nodes →
      ((s aid).nodes n).regElement N n idx assoc = .ok (t, sent) → els.Perm t.elements →
      Step N s (.regElement aid n idx assoc)
        (s.put aid n { t with elements := els } ((s aid).flight + sent))
  | receive {aid : A} {m : Message Idx} {rest : Multiset (Message Idx)} {t : Node Idx}
      {sent : List (Message Idx)} {els : List (Element Idx)} : (s aid).flight = m ::ₘ rest →
      ((s aid).nodes m.dst).receive N m = .ok (t, sent) → els.Perm t.elements →
      Step N s (.receive aid m) (s.put aid m.dst { t with elements := els } (rest + sent))

def total (N : NumNodes) (net : Network Idx) : ℤ := ∑ n ∈ N.nodes, (net.nodes n).arrays

/-- The counts of an array add up to its messages in flight, which have valid addresses. -/
structure Counted (N : NumNodes) (net : Network Idx) : Prop where
  addressed : ∀ m ∈ net.flight, m.Addressed N
  total : total N net = net.flight.card

variable {s t : Arrays A Idx} {aid : A} {n : ℤ}

omit [DecidableEq Idx] in
theorem total_update {net : Network Idx} {node : Node Idx} {flight : Multiset (Message Idx)}
    (hn : n ∈ N.nodes) : Arrays.total N ⟨Function.update net.nodes n node, flight⟩ =
      Arrays.total N net + (node.arrays - (net.nodes n).arrays) := by
  unfold Arrays.total
  have hother : ∀ m ≠ n, (Function.update net.nodes n node m).arrays = (net.nodes m).arrays := by
    intro m hm
    rw [Function.update_of_ne hm]
  rw [sum_nodes_change hn hother, Function.update_self]

omit [DecidableEq A] [DecidableEq Idx] in
theorem counted_init (isInserting : A → ℤ → Bool) (aid : A) :
    Counted N (init isInserting aid : Network Idx) := by
  constructor
  · intro m hm
    cases hm
  · simp [Arrays.total, init]

theorem Counted.step {e : Event A Idx} (h : ∀ aid, Counted N (s aid)) (hs : Step N s e t) :
    ∀ aid, Counted N (t aid) := by
  intro x
  cases hs with
  | @regElement aid n idx assoc node sent els hn hr hp =>
    by_cases hx : x = aid
    · subst hx
      rw [put, Function.update_self]
      constructor
      · intro m hm
        rcases Multiset.mem_add.mp hm with hm | hm
        · exact (h x).addressed m hm
        · exact Node.regElement_addressed hr hn (Multiset.mem_coe.mp hm)
      · have ha := (Node.regElement_produces hr).1
        rw [total_update hn, (h x).total, ha, Multiset.card_add, Multiset.coe_card]
        push_cast
        ring
    · rw [put, Function.update_of_ne hx]
      exact h x
  | @receive aid m rest node sent els hf hr hp =>
    by_cases hx : x = aid
    · subst hx
      have hm := (h x).addressed m (hf ▸ Multiset.mem_cons_self m rest)
      rw [put, Function.update_self]
      constructor
      · intro m' hm'
        rcases Multiset.mem_add.mp hm' with hm' | hm'
        · exact (h x).addressed m' (hf ▸ Multiset.mem_cons_of_mem hm')
        · exact Node.receive_addressed hr hm (Multiset.mem_coe.mp hm')
      · have ha := (Node.receive_produces hr).1
        rw [total_update hm.1, (h x).total, ha, hf, Multiset.card_cons, Multiset.card_add,
          Multiset.coe_card]
        push_cast
        ring
    · rw [put, Function.update_of_ne hx]
      exact h x

/-- After every handler, the counts of an array over all nodes add up to the number of its
messages that were sent and not yet delivered. -/
theorem total_eq_card {isInserting : A → ℤ → Bool} {es : List (Event A Idx)}
    (h : Run (Step N) (init isInserting) es s) (aid : A) :
    ∑ n ∈ N.nodes, ((s aid).nodes n).arrays = (s aid).flight.card :=
  (h.invariant (fun _ _ _ hi hs => Counted.step hi hs) (counted_init isInserting) aid).total

/-- The first element of an array is created on node two of three: its request is in flight. -/
theorem total_firstOfThree : ∃ s : Arrays ℕ ℕ, (s 7).flight = {.receiveDownstream 0 2 5} ∧
    ∑ n ∈ (NumNodes.mk 3 (by decide) (by decide)).nodes, ((s 7).nodes n).arrays = 1 := by
  let t : Node ℕ := { arrays := 1, elements := [{ index := 5 }] }
  have ht : (((init fun _ _ => true : Arrays ℕ ℕ) 7).nodes 2).regElement
      ⟨3, by decide, by decide⟩ 2 5 none = .ok (t, [.receiveDownstream 0 2 5]) := rfl
  have h : Run (Step ⟨3, by decide, by decide⟩) (init fun _ _ => true : Arrays ℕ ℕ)
      [.regElement 7 2 5 none] _ := .single (.regElement (by decide) ht (.refl t.elements))
  exact ⟨_, rfl, total_eq_card h 7⟩

end Arrays

end Hypercomm.TreeBuilder
