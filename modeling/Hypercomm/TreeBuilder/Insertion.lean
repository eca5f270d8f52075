import Mathlib.Algebra.BigOperators.Group.Finset.Basic
import Mathlib.Algebra.Order.BigOperators.Group.Finset
import Mathlib.Data.Int.Interval
import Hypercomm.TreeBuilder.SpanningTree

/-! # The end of static insertion

Each node contributes its count to a sum, round after round, until a sum is zero.
Counts are sampled at different moments, so a message may leave after one sample
and arrive before another. The announcements of the endpoint are the only ones
that can be missed this way.
-/

namespace Hypercomm.TreeBuilder

variable {Idx : Type*} {N : NumNodes}

def NumNodes.nodes (N : NumNodes) : Finset ℤ :=
  ((List.range N.val.toNat).map Int.ofNat).toFinset

@[simp] theorem NumNodes.mem_nodes {n : ℤ} : n ∈ N.nodes ↔ 0 ≤ n ∧ n < N.val := by
  simp only [NumNodes.nodes, List.mem_toFinset, List.mem_map, List.mem_range]
  constructor
  · rintro ⟨m, hm, rfl⟩
    simp only [Int.ofNat_eq_natCast]
    omega
  · rintro ⟨h0, hn⟩
    exact ⟨n.toNat, by omega, by simp [h0]⟩

def Node.recvCount (gcount : ℤ) (s : Node Idx) : Node Idx :=
  if gcount = 0 then { s with inserting := false } else s

def Network.recvCount (net : Network Idx) (n gcount : ℤ) : Network Idx :=
  { net with nodes := Function.update net.nodes n ((net.nodes n).recvCount gcount) }

/-- The tree builders and the rounds of their `done_inserting` loops. -/
structure Insertion (Idx : Type*) where
  net : Network Idx
  /-- the number of rounds a node contributed to -/
  contributed : ℤ → ℕ
  /-- the number of sums a node received -/
  received : ℤ → ℕ
  counts : ℕ → ℤ → ℤ
  /-- how many rounds a node had contributed to when it registered the endpoint -/
  registered : ℤ → ℕ

inductive Event (Idx : Type*) where
  | act (a : Action Idx)
  | contribute (n : ℤ)
  | recvCount (n : ℤ)

namespace Insertion

def init : Insertion Idx := ⟨Network.init, fun _ => 0, fun _ => 0, fun _ _ => 0, fun _ => 0⟩

/-- Every node contributed to the round. -/
def Complete (N : NumNodes) (s : Insertion Idx) (k : ℕ) : Prop := ∀ n ∈ N.nodes, k < s.contributed n

instance (N : NumNodes) (s : Insertion Idx) (k : ℕ) : Decidable (s.Complete N k) :=
  inferInstanceAs (Decidable (∀ n ∈ N.nodes, k < s.contributed n))

def total (N : NumNodes) (s : Insertion Idx) (k : ℕ) : ℤ := ∑ n ∈ N.nodes, s.counts k n

inductive Step [DecidableEq Idx] (N : NumNodes) (s : Insertion Idx) :
    Event Idx → Insertion Idx → Prop
  | act {a : Action Idx} {net : Network Idx} : Network.Step N s.net a net →
      (∀ n x, a = .create n x → s.contributed n = 0) →
      Step N s (.act a) { s with
        net := net
        registered := fun n =>
          if (s.net.nodes n).endpoint = none then s.contributed n else s.registered n }
  | contribute {n : ℤ} : n ∈ N.nodes → (s.net.nodes n).inserting = true →
      s.contributed n = s.received n →
      Step N s (.contribute n) { s with
        counts := Function.update s.counts (s.contributed n)
          (Function.update (s.counts (s.contributed n)) n (s.net.nodes n).arrays)
        contributed := Function.update s.contributed n (s.contributed n + 1) }
  | recvCount {n : ℤ} : n ∈ N.nodes → s.received n < s.contributed n →
      s.Complete N (s.received n) →
      Step N s (.recvCount n) { s with
        net := s.net.recvCount n (s.total N (s.received n))
        received := Function.update s.received n (s.received n + 1) }

/-- A node that received an announcement contributed to every round its sender had
contributed to when it registered the endpoint. -/
def Ordered (s : Insertion Idx) : Event Idx → Prop
  | .act (.deliver (.regEndpoint dst src _)) => s.registered src ≤ s.contributed dst
  | _ => True

instance (s : Insertion Idx) : DecidablePred s.Ordered
  | .act (.deliver (.regEndpoint dst src _)) =>
      inferInstanceAs (Decidable (s.registered src ≤ s.contributed dst))
  | .act (.deliver (.receiveDownstream _ _ _)) | .act (.deliver (.receiveUpstream _ _ _)) |
      .act (.create _ _) | .contribute _ | .recvCount _ => .isTrue trivial

/-- The next state of a step, when the hash map leaves its entries as they are. -/
def perform [DecidableEq Idx] (N : NumNodes) (s : Insertion Idx) :
    Event Idx → Option (Insertion Idx)
  | .act a =>
      if (match a with | .create n _ => s.contributed n == 0 | .deliver _ => true) then
        (s.net.perform N a).map fun net => { s with
          net := net
          registered := fun n =>
            if (s.net.nodes n).endpoint = none then s.contributed n else s.registered n }
      else none
  | .contribute n =>
      if n ∈ N.nodes ∧ (s.net.nodes n).inserting = true ∧ s.contributed n = s.received n then
        some { s with
          counts := Function.update s.counts (s.contributed n)
            (Function.update (s.counts (s.contributed n)) n (s.net.nodes n).arrays)
          contributed := Function.update s.contributed n (s.contributed n + 1) }
      else none
  | .recvCount n =>
      if n ∈ N.nodes ∧ s.received n < s.contributed n ∧ s.Complete N (s.received n) then
        some { s with
          net := s.net.recvCount n (s.total N (s.received n))
          received := Function.update s.received n (s.received n + 1) }
      else none

theorem Step.of_perform [DecidableEq Idx] {s t : Insertion Idx} {e : Event Idx}
    (hc : s.net.Confined N) (h : s.perform N e = some t) : Step N s e t ∧ t.net.Confined N := by
  cases e with
  | act a =>
    obtain ⟨hcr, h⟩ := Option.ite_none_right_eq_some.mp h
    obtain ⟨net, hn, rfl⟩ := Option.map_eq_some_iff.mp h
    obtain ⟨hst, hc'⟩ := Network.Step.of_perform hc hn
    refine ⟨.act hst ?_, hc'⟩
    rintro n x rfl
    exact beq_iff_eq.mp hcr
  | contribute n =>
    obtain ⟨⟨hn, hi, hcr⟩, h⟩ := Option.ite_none_right_eq_some.mp h
    obtain rfl := Option.some.inj h
    exact ⟨.contribute hn hi hcr, hc⟩
  | recvCount n =>
    obtain ⟨⟨hn, hlt, hk⟩, h⟩ := Option.ite_none_right_eq_some.mp h
    obtain rfl := Option.some.inj h
    refine ⟨.recvCount hn hlt hk, fun k he => hc k ?_⟩
    rcases eq_or_ne k n with rfl | hne
    · simp only [Network.recvCount, Function.update_self, Node.recvCount] at he
      split_ifs at he
      · exact he
      · exact he
    · simpa [Network.recvCount, hne] using he

theorem run_of_exec_perform [DecidableEq Idx] {s : Insertion Idx} {es : List (Event Idx)}
    (h : Transition.exec (fun s e => if s.Ordered e then s.perform N e else none) init es =
      some s) : Transition.Run (Transition.restrict (Step N) Ordered) init es s := by
  have hrun := Transition.run_of_exec_restrict h
  clear h
  suffices Transition.Run (Transition.restrict (Step N) Ordered) init es s ∧ s.net.Confined N
    from this.1
  induction hrun with
  | nil => exact ⟨.nil, fun n hn => absurd rfl hn⟩
  | snoc _ hs ih =>
    obtain ⟨hr, hc⟩ := ih
    obtain ⟨hst, hc'⟩ := Step.of_perform hc hs.2
    exact ⟨hr.snoc ⟨hs.1, hst⟩, hc'⟩

end Insertion

/-- The message was sent before its sender contributed to the round. -/
def Message.isEarly (registered : ℤ → ℕ) (k : ℕ) : Message Idx → Bool
  | .regEndpoint _ src _ => registered src ≤ k
  | _ => true

def early (registered : ℤ → ℕ) (k : ℕ) (l : Multiset (Message Idx)) : ℕ :=
  l.countP (Message.isEarly registered k ·)

namespace Network

variable {net net' : Network Idx} {a : Action Idx} {n : ℤ} {used rest sent : Multiset (Message Idx)}

structure Effect (net : Network Idx) (n : ℤ) (used rest sent : Multiset (Message Idx))
    (net' : Network Idx) : Prop where
  before : net.flight = used + rest
  after : net'.flight = rest + sent
  other : ∀ m ≠ n, net'.nodes m = net.nodes m
  arrays : (net'.nodes n).arrays = (net.nodes n).arrays + (sent.card - used.card)
  inserting : ∀ m, (net'.nodes m).inserting = (net.nodes m).inserting
  cases : (net.nodes n).endpoint = none ∧ (∀ m ∈ sent, ∃ j x, m = .regEndpoint j n x) ∨
    sent.card ≤ 1 ∧ (∀ m ∈ sent, m.isRequest = true) ∧ ∀ m ∈ used, m.isRequest = true

theorem effect_cases {s : Node Idx} {l : List (Message Idx)} {u : Multiset (Message Idx)}
    (h : s.Announces N n l ∨ (∀ m ∈ u, m.isRequest = true) ∧ Node.Requests l) :
    s.endpoint = none ∧ (∀ m ∈ (l : Multiset (Message Idx)), ∃ j x, m = .regEndpoint j n x) ∨
      (l : Multiset (Message Idx)).card ≤ 1 ∧
        (∀ m ∈ (l : Multiset (Message Idx)), m.isRequest = true) ∧ ∀ m ∈ u, m.isRequest = true := by
  refine h.imp ?_ fun ⟨hu, hl, hm⟩ => ⟨hl, hm, hu⟩
  rintro ⟨hn, x, rfl⟩
  refine ⟨hn, fun m hm => ?_⟩
  obtain ⟨j, -, rfl⟩ := by simpa using hm
  exact ⟨j, x, rfl⟩

variable [DecidableEq Idx]

theorem Step.effect (h : Step N net a net') : ∃ n used rest sent, Effect net n used rest sent net' ∧
    ((∃ x, a = .create n x ∧ used = 0 ∧ n ∈ N.nodes) ∨
      ∃ m, a = .deliver m ∧ used = {m} ∧ m.dst = n) := by
  have hins := h.inserting_eq
  obtain @⟨n, rest, s, sent, els, hh, -⟩ := h
  generalize hr : Except.ok _ = r at hh
  cases hh with
  | @create n x h0 hn hf =>
    refine ⟨n, 0, net.flight, sent, ⟨by simp, rfl, fun m hm => by simp [hm], ?_, hins, ?_⟩,
      .inl ⟨x, rfl, rfl, by simp [h0, hn]⟩⟩
    · simpa using (Node.regElement_produces hr.symm).1
    · exact effect_cases ((Node.regElement_sent hr.symm).imp_right fun h => ⟨by simp, h⟩)
  | @deliver m rest hm =>
    refine ⟨m.dst, {m}, rest, sent, ⟨by simp [hm], rfl, fun m hm => by simp [hm], ?_, hins, ?_⟩,
      .inr ⟨m, rfl, rfl, rfl⟩⟩
    · simpa using (Node.receive_produces hr.symm).1
    · exact effect_cases ((Node.receive_sent hr.symm).imp_right fun h => ⟨by simpa using h.1, h.2⟩)

end Network

end Hypercomm.TreeBuilder
