import Hypercomm.TreeBuilder.Insertion

/-! # A sum of zero means quiescence

While a round is being sampled, the samples taken so far and the counts not yet
sampled add up to at least the messages sent before their sender was sampled.
-/

namespace Hypercomm.TreeBuilder

variable {Idx : Type*} {N : NumNodes}

theorem sum_nodes_change {f g : ℤ → ℤ} {n : ℤ} (hn : n ∈ N.nodes) (h : ∀ m ≠ n, g m = f m) :
    ∑ m ∈ N.nodes, g m = ∑ m ∈ N.nodes, f m + (g n - f n) := by
  have he : ∑ m ∈ N.nodes.erase n, g m = ∑ m ∈ N.nodes.erase n, f m :=
    Finset.sum_congr rfl fun m hm => h m (Finset.ne_of_mem_erase hm)
  rw [← Finset.add_sum_erase _ g hn, ← Finset.add_sum_erase _ f hn, he]
  ring

@[simp] theorem early_zero (r : ℤ → ℕ) (k : ℕ) : early r k (0 : Multiset (Message Idx)) = 0 := rfl

theorem early_add (r : ℤ → ℕ) (k : ℕ) (l l' : Multiset (Message Idx)) :
    early r k (l + l') = early r k l + early r k l' := Multiset.countP_add _ _ _

theorem early_eq_card {r : ℤ → ℕ} {k : ℕ} {l : Multiset (Message Idx)}
    (h : ∀ m ∈ l, m.isEarly r k = true) : early r k l = l.card :=
  Multiset.countP_eq_card.mpr h

theorem early_eq_zero {r : ℤ → ℕ} {k : ℕ} {l : Multiset (Message Idx)}
    (h : ∀ m ∈ l, m.isEarly r k = false) : early r k l = 0 :=
  Multiset.countP_eq_zero.mpr fun m hm => by simp [h m hm]

theorem Message.isEarly_of_isRequest {r : ℤ → ℕ} {k : ℕ} {m : Message Idx}
    (h : m.isRequest = true) : m.isEarly r k = true := by
  cases m <;> simp_all [isRequest, isEarly]

namespace Forest

variable {f : Forest Idx}

theorem Inv.dst_mem (hi : f.Inv N) {m : Message Idx} (hm : m ∈ f.flight) : m.dst ∈ N.nodes := by
  rw [NumNodes.mem_nodes]
  cases m with
  | regEndpoint j p x =>
    obtain ⟨-, hj, hN, -⟩ := hi.announced j p x hm
    exact ⟨hj.le, hN⟩
  | receiveDownstream j n x =>
    obtain ⟨hj, hlt, hx⟩ := hi.downstream j n x hm
    have := hi.range n x (located_of_waiting hx)
    exact ⟨hj, hlt.trans this.2⟩
  | receiveUpstream n j u =>
    obtain ⟨w, hw, -⟩ := (hi.serves_iff n).mp (serving_pos_of_mem hm (by simp [Message.serves]))
    exact hi.range n w (located_of_waiting hw)

end Forest

namespace Insertion

variable {s t : Insertion Idx} {k : ℕ} {n : ℤ}

/-- The samples of a round, with the current count of the nodes not sampled yet. -/
def sampled (N : NumNodes) (s : Insertion Idx) (k : ℕ) : ℤ :=
  ∑ n ∈ N.nodes, if k < s.contributed n then s.counts k n else (s.net.nodes n).arrays

/-- Every node contributed to the rounds before this one and none to a later one. -/
def During (N : NumNodes) (s : Insertion Idx) (k : ℕ) : Prop :=
  ∀ n ∈ N.nodes, s.contributed n = k ∨ s.contributed n = k + 1

/-- Every message sent before its sender was sampled is counted, and one more when
a message was sent after. -/
def Counted (N : NumNodes) (s : Insertion Idx) (k : ℕ) : Prop :=
  (early s.registered k s.net.flight : ℤ) ≤ s.sampled N k ∧
    ∀ m ∈ s.net.flight, m.isEarly s.registered k = false →
      (early s.registered k s.net.flight : ℤ) < s.sampled N k

structure Inv (N : NumNodes) (s : Insertion Idx) : Prop where
  forest : ∃ f : Forest Idx, f.Inv N ∧ s.net.Refines f
  balance : ∑ n ∈ N.nodes, (s.net.nodes n).arrays = s.net.flight.card
  received_le : ∀ m ∈ N.nodes, ∀ n ∈ N.nodes, s.received m ≤ s.contributed n
  contributed_le : ∀ n, s.contributed n ≤ s.received n + 1
  registered_le : ∀ n, s.registered n ≤ s.contributed n
  counted : ∀ k, s.During N k → s.Counted N k
  quiet : ∀ k, s.Complete N k → s.total N k = 0 → s.net.flight = 0
  inserting : ∀ n, (s.net.nodes n).inserting = false → ∃ k, s.Complete N k ∧ s.total N k = 0

theorem inv_init : (init : Insertion Idx).Inv N where
  forest := ⟨_, Forest.inv_init, Network.refines_init⟩
  balance := by simp [init, Network.init]
  received_le := by simp [init]
  contributed_le := by simp [init]
  registered_le := by simp [init]
  counted k _ := by simp [Counted, init, Network.init, sampled]
  quiet k _ _ := rfl
  inserting n h := by simp [init, Network.init] at h

theorem Counted.flight_eq_zero (h : s.Counted N k) (h0 : s.sampled N k = 0) : s.net.flight = 0 := by
  obtain ⟨hle, hlt⟩ := h
  refine Multiset.eq_zero_of_forall_notMem fun m hm => ?_
  cases he : m.isEarly s.registered k with
  | false => have := hlt m hm he; omega
  | true =>
    have : 0 < early s.registered k s.net.flight := Multiset.countP_pos.mpr ⟨m, hm, he⟩
    omega

theorem sampled_of_complete (h : s.Complete N k) : s.sampled N k = s.total N k :=
  Finset.sum_congr rfl fun n hn => if_pos (h n hn)

/-- Messages already in flight keep their class: their sender has an endpoint. -/
theorem Inv.registered_eq (hi : s.Inv N) {j p : ℤ} {x : Idx}
    (hm : .regEndpoint j p x ∈ s.net.flight) : (s.net.nodes p).endpoint ≠ none := by
  obtain ⟨f, hf, hr⟩ := hi.forest
  obtain ⟨rfl, -, -, hx, -⟩ := hf.announced j p x (hr.1 ▸ hm)
  rw [(hr.2 _).endpoint, hx]
  simp

theorem Inv.contributed_le_succ (hi : s.Inv N) {m : ℤ} (hm : m ∈ N.nodes) (hn : n ∈ N.nodes) :
    s.contributed m ≤ s.contributed n + 1 :=
  (hi.contributed_le m).trans (Nat.succ_le_succ (hi.received_le m hm n hn))

section Act

variable {net : Network Idx} {used rest sent : Multiset (Message Idx)}

def setNet (s : Insertion Idx) (net : Network Idx) : Insertion Idx :=
  { s with
    net := net
    registered := fun n =>
      if (s.net.nodes n).endpoint = none then s.contributed n else s.registered n }

theorem Inv.isEarly_setNet (hi : s.Inv N) {m : Message Idx} (hm : m ∈ s.net.flight) :
    m.isEarly (s.setNet net).registered k = m.isEarly s.registered k := by
  cases m with
  | regEndpoint j p x => simp [Message.isEarly, setNet, hi.registered_eq hm]
  | _ => rfl

theorem Inv.early_setNet (hi : s.Inv N) (h : ∀ m ∈ rest, m ∈ s.net.flight) :
    early (s.setNet net).registered k rest = early s.registered k rest :=
  Multiset.countP_congr rfl fun m hm => by rw [hi.isEarly_setNet (h m hm)]

theorem sampled_setNet (he : Network.Effect s.net n used rest sent net) (hn : n ∈ N.nodes) :
    (s.setNet net).sampled N k =
      s.sampled N k + if k < s.contributed n then 0 else (sent.card - used.card : ℤ) := by
  unfold sampled
  rw [sum_nodes_change hn (f := fun n => if k < s.contributed n then s.counts k n
    else (s.net.nodes n).arrays)]
  · simp only [setNet, he.arrays]
    split <;> ring
  · intro m hm
    simp [setNet, he.other m hm]

theorem Inv.counted_setNet_before (hi : s.Inv N) (he : Network.Effect s.net n used rest sent net)
    (hn : n ∈ N.nodes) (hc : s.Counted N k) (hk : s.contributed n = k)
    (hu : ∀ m ∈ used, m.isEarly s.registered k = true) : (s.setNet net).Counted N k := by
  have hrest : ∀ m ∈ rest, m ∈ s.net.flight := by simp +contextual [he.before]
  have hsent : ∀ m ∈ sent, m.isEarly (s.setNet net).registered k = true := by
    intro m hm
    rcases he.cases with ⟨hend, hs⟩ | ⟨-, hs, -⟩
    · obtain ⟨j, x, rfl⟩ := hs m hm
      simp [Message.isEarly, setNet, hend, hk]
    · exact Message.isEarly_of_isRequest (hs m hm)
  have hS := sampled_setNet (k := k) he hn
  rw [if_neg (by omega)] at hS
  have hE : early (s.setNet net).registered k (s.setNet net).net.flight =
      early s.registered k rest + sent.card := by
    rw [show (s.setNet net).net.flight = rest + sent from he.after, early_add,
      hi.early_setNet hrest, early_eq_card hsent]
  have hE' : early s.registered k s.net.flight = used.card + early s.registered k rest := by
    rw [he.before, early_add, early_eq_card hu]
  obtain ⟨hle, hlt⟩ := hc
  refine ⟨by omega, fun m hm hl => ?_⟩
  rcases Multiset.mem_add.mp (he.after ▸ hm : m ∈ rest + sent) with hm | hm
  · have := hlt m (hrest m hm) (hi.isEarly_setNet (hrest m hm) ▸ hl)
    omega
  · simp [hsent m hm] at hl

/-- A message that arrives at a node already sampled is not taken off again. -/
theorem Inv.counted_setNet_after (hi : s.Inv N) {m : Message Idx}
    (he : Network.Effect s.net n {m} rest sent net) (hn : n ∈ N.nodes) (hc : s.Counted N k)
    (hk : s.contributed n = k + 1) : (s.setNet net).Counted N k := by
  have hrest : ∀ m ∈ rest, m ∈ s.net.flight := by simp +contextual [he.before]
  have hmem : m ∈ s.net.flight := by simp [he.before]
  have hS := sampled_setNet (k := k) he hn
  rw [if_pos (by omega), add_zero] at hS
  have hE : early (s.setNet net).registered k (s.setNet net).net.flight =
      early s.registered k rest + early (s.setNet net).registered k sent := by
    rw [show (s.setNet net).net.flight = rest + sent from he.after, early_add,
      hi.early_setNet hrest]
  have hE' : early s.registered k s.net.flight =
      early s.registered k {m} + early s.registered k rest := by rw [he.before, early_add]
  obtain ⟨hle, hlt⟩ := hc
  rcases he.cases with ⟨hend, hs⟩ | ⟨h1, hs, hreq⟩
  · -- the announcements leave after the sample, in exchange for the message that arrived
    have hzero : early (s.setNet net).registered k sent = 0 := early_eq_zero fun m hm => by
      obtain ⟨j, x, rfl⟩ := hs m hm
      simp [Message.isEarly, setNet, hend, hk]
    have hless : (early s.registered k rest : ℤ) < s.sampled N k := by
      cases hm : m.isEarly s.registered k with
      | false => have := hlt m hmem hm; omega
      | true =>
        have : early s.registered k {m} = 1 := early_eq_card (by simpa using hm)
        omega
    exact ⟨by omega, fun _ _ _ => by omega⟩
  · have hone : early s.registered k {m} = 1 :=
      early_eq_card (by simpa using Message.isEarly_of_isRequest (hreq m (by simp)))
    have hsent := early_eq_card (r := (s.setNet net).registered) (k := k)
      fun m hm => Message.isEarly_of_isRequest (hs m hm)
    refine ⟨by omega, fun d hd hl => ?_⟩
    rcases Multiset.mem_add.mp (he.after ▸ hd : d ∈ rest + sent) with hd | hd
    · have := hlt d (hrest d hd) (hi.isEarly_setNet (hrest d hd) ▸ hl)
      omega
    · simp [Message.isEarly_of_isRequest (hs d hd)] at hl

end Act

def addCount (s : Insertion Idx) (n : ℤ) : Insertion Idx :=
  { s with
    counts := Function.update s.counts (s.contributed n)
      (Function.update (s.counts (s.contributed n)) n (s.net.nodes n).arrays)
    contributed := Function.update s.contributed n (s.contributed n + 1) }

theorem addCount_counts_of_lt (h : k < s.contributed n) : (s.addCount n).counts k = s.counts k :=
  Function.update_of_ne h.ne _ _

theorem sampled_addCount : (s.addCount n).sampled N k = s.sampled N k := by
  refine Finset.sum_congr rfl fun m _ => ?_
  rcases eq_or_ne m n with rfl | hm
  · rcases lt_trichotomy k (s.contributed m) with h | h | h
    · simp [addCount, h, h.trans (Nat.lt_succ_self _), h.ne]
    · simp [addCount, h]
    · simp [addCount, h.not_gt, show ¬ k < s.contributed m + 1 by omega]
  · rcases eq_or_ne k (s.contributed n) with h | h
    · simp [addCount, h, hm]
    · simp [addCount, h, hm]

/-- Before anyone contributes to a round, the counts add up to the messages in flight. -/
theorem Inv.counted_of_le (hi : s.Inv N) (hk : ∀ m ∈ N.nodes, s.contributed m ≤ k) :
    s.Counted N k := by
  have hall : ∀ m ∈ s.net.flight, m.isEarly s.registered k = true := by
    intro m hm
    cases m with
    | regEndpoint j p x =>
      obtain ⟨f, hf, hr⟩ := hi.forest
      obtain ⟨rfl, hj, hjN, -, -⟩ := hf.announced j p x (hr.1 ▸ hm)
      have hlt := BinaryTree.parent_lt hj.le
      have hp := BinaryTree.parent_nonneg_iff.mpr hj
      have := hk (BinaryTree.parent j) (by simpa using ⟨hp, by omega⟩)
      simpa [Message.isEarly] using (hi.registered_le _).trans this
    | _ => rfl
  have hS : s.sampled N k = s.net.flight.card := by
    rw [← hi.balance]
    exact Finset.sum_congr rfl fun m hm => if_neg (hk m hm).not_gt
  refine ⟨by rw [hS, early_eq_card hall], fun m hm hl => ?_⟩
  simp [hall m hm] at hl

theorem Inv.addCount (hi : s.Inv N) (hn : n ∈ N.nodes) (hcr : s.contributed n = s.received n) :
    (s.addCount n).Inv N := by
  have hself : (s.addCount n).contributed n = s.contributed n + 1 := Function.update_self _ _ _
  have hne : ∀ m ≠ n, (s.addCount n).contributed m = s.contributed m := fun m hm =>
    Function.update_of_ne hm _ _
  have hle : ∀ m, s.contributed m ≤ (s.addCount n).contributed m := fun m => by
    rcases eq_or_ne m n with rfl | hm
    · omega
    · rw [hne m hm]
  have hbound : ∀ m ∈ N.nodes, s.contributed m ≤ s.contributed n + 1 := fun m hm =>
    hi.contributed_le_succ hm hn
  have hcounted : ∀ k, (s.addCount n).During N k → (s.addCount n).Counted N k := fun k hk => by
    unfold Counted
    rw [sampled_addCount]
    rcases hself ▸ hk n hn with h | h
    · refine hi.counted_of_le fun m hm => ?_
      have := hbound m hm
      omega
    · refine hi.counted k fun m hm => ?_
      rcases eq_or_ne m n with rfl | hmn
      · omega
      · exact hne m hmn ▸ hk m hm
  constructor
  · exact hi.forest
  · exact hi.balance
  · exact fun m hm d hd => (hi.received_le m hm d hd).trans (hle d)
  · intro m
    rcases eq_or_ne m n with rfl | hm
    · rw [hself, hcr]; exact le_rfl
    · rw [hne m hm]; exact hi.contributed_le m
  · exact fun m => (hi.registered_le m).trans (hle m)
  · exact hcounted
  · intro k hk h0
    rcases lt_or_ge k (s.contributed n) with h | h
    · -- the round was complete before
      refine hi.quiet k (fun m hm => ?_) ?_
      · rcases eq_or_ne m n with rfl | hmn
        · exact h
        · exact hne m hmn ▸ hk m hm
      · rwa [total, addCount_counts_of_lt h] at h0
    · refine (hcounted k fun m hm => ?_).flight_eq_zero ((sampled_of_complete hk).trans h0)
      have h1 := hk m hm
      have h2 := hk n hn
      have h3 := hbound m hm
      rcases eq_or_ne m n with rfl | hmn
      · omega
      · rw [hne m hmn] at h1 ⊢; omega
  · intro m hm
    obtain ⟨k, hk, h0⟩ := hi.inserting m hm
    exact ⟨k, fun d hd => (hk d hd).trans_le (hle d),
      by rwa [total, addCount_counts_of_lt (hk n hn)]⟩

section RecvCount

variable {net : Network Idx} {f : Forest Idx} {g m : ℤ}

@[simp] theorem recvCount_arrays : ((net.recvCount n g).nodes m).arrays = (net.nodes m).arrays := by
  rcases eq_or_ne m n with rfl | hm
  · simp only [Network.recvCount, Function.update_self, Node.recvCount]; split <;> rfl
  · simp [Network.recvCount, hm]

theorem refines_recvCount (h : net.Refines f) : (net.recvCount n g).Refines f := by
  refine ⟨h.1, fun m => ?_⟩
  rcases eq_or_ne m n with rfl | hm
  · simp only [Network.recvCount, Function.update_self, Node.recvCount]
    split
    · exact ⟨(h.2 m).nodup, (h.2 m).status, (h.2 m).located, (h.2 m).downstream, (h.2 m).endpoint⟩
    · exact h.2 m
  · simpa [Network.recvCount, hm] using h.2 m

theorem recvCount_inserting (h : ((net.recvCount n g).nodes m).inserting = false) :
    (net.nodes m).inserting = false ∨ m = n ∧ g = 0 := by
  rcases eq_or_ne m n with rfl | hm
  · simp only [Network.recvCount, Function.update_self, Node.recvCount] at h
    split at h
    · exact .inr ⟨rfl, ‹_›⟩
    · exact .inl h
  · exact .inl (by simpa [Network.recvCount, hm] using h)

end RecvCount

theorem Inv.recvCount (hi : s.Inv N) (hn : n ∈ N.nodes) (hk : s.Complete N (s.received n)) :
    Inv N { s with
      net := s.net.recvCount n (s.total N (s.received n))
      received := Function.update s.received n (s.received n + 1) } := by
  have hS : ∀ k, sampled N { s with
      net := s.net.recvCount n (s.total N (s.received n))
      received := Function.update s.received n (s.received n + 1) } k = s.sampled N k := fun k =>
    Finset.sum_congr rfl fun m _ => by simp
  constructor
  · obtain ⟨f, hf, hr⟩ := hi.forest
    exact ⟨f, hf, refines_recvCount hr⟩
  · simp only [recvCount_arrays]
    exact hi.balance
  · intro m hm d hd
    rcases eq_or_ne m n with rfl | hmn
    · simpa using Nat.succ_le_of_lt (hk d hd)
    · simpa [hmn] using hi.received_le m hm d hd
  · intro m
    have := hi.contributed_le m
    rcases eq_or_ne m n with rfl | hmn
    · simp only [Function.update_self]; omega
    · simpa [hmn] using this
  · exact hi.registered_le
  · intro k hk
    unfold Counted
    rw [hS]
    exact hi.counted k hk
  · exact hi.quiet
  · intro m hm
    rcases recvCount_inserting hm with hm | ⟨-, h0⟩
    · exact hi.inserting m hm
    · exact ⟨_, hk, h0⟩

theorem Inv.inserts (hi : s.Inv N) {a : Action Idx} (hn : ∀ n x, a = .create n x → n ∈ N.nodes)
    (hc : ∀ n x, a = .create n x → s.contributed n = 0) : s.net.Inserts a := by
  cases a with
  | deliver m => trivial
  | create n x =>
    refine (Bool.not_eq_false _).mp fun hf => ?_
    obtain ⟨k, hk, -⟩ := hi.inserting n hf
    have := hk n (hn n x rfl)
    rw [hc n x rfl] at this
    exact absurd this (Nat.not_lt_zero k)

theorem Inv.validUpstream (hi : s.Inv N) (hq : s.net.flight = 0) {e : Element Idx}
    (he : e ∈ (s.net.nodes n).elements) : e.association.validUpstream = true := by
  obtain ⟨f, hf, hr⟩ := hi.forest
  have hst := (hr.2 n).status e he
  by_contra hv
  exact hf.not_waiting_of_quiet (hr.1 ▸ hq)
    (hst.validUpstream_iff.mp ((Bool.not_eq_true _).mp hv))

variable [DecidableEq Idx]

theorem Inv.act (hi : s.Inv N) {a : Action Idx} {net : Network Idx} (h : Network.Step N s.net a net)
    (hcreate : ∀ n x, a = .create n x → s.contributed n = 0) (hord : s.Ordered (.act a)) :
    (s.setNet net).Inv N := by
  obtain ⟨f, hf, hr⟩ := hi.forest
  obtain ⟨n, used, rest, sent, he, hcase⟩ := h.effect
  have hdst : ∀ m, a = .deliver m → used = {m} → m ∈ s.net.flight := by
    rintro m - rfl; simp [he.before]
  have hn : n ∈ N.nodes := by
    rcases hcase with ⟨x, -, -, hn⟩ | ⟨m, ha, hu, rfl⟩
    · exact hn
    · exact hf.dst_mem (hr.1 ▸ hdst m ha hu)
  have hins : s.net.Inserts a := hi.inserts (fun k x ha => by
    rcases hcase with ⟨y, hy, -, hn⟩ | ⟨m, hm, -, -⟩
    · obtain ⟨rfl, -⟩ := by simpa using ha.symm.trans hy
      exact hn
    · simp [ha] at hm) hcreate
  constructor
  · obtain ⟨f', hstep, hr'⟩ := hr.step hf hins h
    exact ⟨f', hf.step hstep, hr'⟩
  · change ∑ m ∈ N.nodes, (net.nodes m).arrays = (net.flight.card : ℤ)
    rw [sum_nodes_change hn (fun m hm => by rw [he.other m hm]), hi.balance, he.arrays, he.before,
      he.after]
    push_cast [Multiset.card_add]
    ring
  · exact hi.received_le
  · exact hi.contributed_le
  · intro m
    simp only [setNet]
    split
    · exact le_rfl
    · exact hi.registered_le m
  · intro k hk
    have hc := hi.counted k hk
    rcases hcase with ⟨x, rfl, rfl, -⟩ | ⟨m, rfl, rfl, rfl⟩
    · have h0 := hcreate n x rfl
      have hk' : s.contributed n = k ∨ s.contributed n = k + 1 := hk n hn
      exact hi.counted_setNet_before he hn hc (by omega) (by simp)
    · rcases hk m.dst hn with hk | hk
      · refine hi.counted_setNet_before he hn hc hk fun d hd => ?_
        obtain rfl := Multiset.mem_singleton.mp hd
        cases d with
        | regEndpoint dst src x => simpa [Message.isEarly] using hord.trans hk.le
        | _ => rfl
      · exact hi.counted_setNet_after he hn hc hk
  · intro k hk h0
    have hq := hi.quiet k hk h0
    rcases hcase with ⟨x, rfl, -, -⟩ | ⟨m, ha, hu, -⟩
    · have h0 : (s.setNet net).contributed n = 0 := hcreate n x rfl
      exact absurd (hk n hn) (by rw [h0]; simp)
    · have := hdst m ha hu
      simp [hq] at this
  · intro m hm
    exact hi.inserting m ((he.inserting m).symm.trans hm)

theorem Inv.step (hi : s.Inv N) {e : Event Idx} (hord : s.Ordered e) (h : Step N s e t) :
    t.Inv N := by
  cases h with
  | act h hc => exact hi.act h hc hord
  | contribute hn _ hcr => exact hi.addCount hn hcr
  | recvCount hn _ hk => exact hi.recvCount hn hk

/-- When announcements arrive in order of the rounds, a sum of zero means that nothing
is in flight and every element has its upstream member, and only then does a node stop
inserting. -/
theorem quiet_of_total_eq_zero {es : List (Event Idx)}
    (h : Transition.Run (Transition.restrict (Step N) Ordered) init es s) :
    (∀ k, s.Complete N k → s.total N k = 0 → s.net.flight = 0 ∧
      ∀ n, ∀ e ∈ (s.net.nodes n).elements, e.association.validUpstream = true) ∧
    ∀ n, (s.net.nodes n).inserting = false → ∃ k, s.Complete N k ∧ s.total N k = 0 := by
  have hi : s.Inv N := h.invariant (fun _ _ _ hi hs => hi.step hs.1 hs.2) inv_init
  exact ⟨fun k hk h0 => ⟨hi.quiet k hk h0, fun n e he => hi.validUpstream (hi.quiet k hk h0) he⟩,
    hi.inserting⟩

/-- The first sum is taken while messages are in flight, the second one when they arrived. -/
def twoRounds : List (Event ℕ) :=
  [.act (.create 0 0), .act (.create 1 1), .contribute 0, .contribute 1, .recvCount 0,
    .act (.deliver (.regEndpoint 1 0 0)), .act (.deliver (.receiveDownstream 0 1 1)), .recvCount 1,
    .act (.deliver (.receiveUpstream 1 0 0)), .contribute 0, .contribute 1, .recvCount 1]

theorem quiet_twoRounds : ∃ s : Insertion ℕ,
    Transition.Run (Transition.restrict (Step ⟨2, by decide, by decide⟩) Ordered) init twoRounds s ∧
      s.total ⟨2, by decide, by decide⟩ 0 = 2 ∧ (s.net.nodes 1).inserting = false ∧
      s.net.flight = 0 ∧
      ∀ n, ∀ e ∈ (s.net.nodes n).elements, e.association.validUpstream = true := by
  have hall : ((Transition.exec (fun s e => if s.Ordered e then
      s.perform ⟨2, by decide, by decide⟩ e else none) init twoRounds).any fun s =>
      decide (s.Complete ⟨2, by decide, by decide⟩ 1 ∧
        s.total ⟨2, by decide, by decide⟩ 1 = 0 ∧ s.total ⟨2, by decide, by decide⟩ 0 = 2 ∧
        (s.net.nodes 1).inserting = false)) = true := by
    decide +kernel
  obtain ⟨s, hs, hd⟩ := (Option.any_eq_true _ _).mp hall
  obtain ⟨hk, h0, h2, hi⟩ := of_decide_eq_true hd
  have hrun := run_of_exec_perform hs
  exact ⟨s, hrun, h2, hi, (quiet_of_total_eq_zero hrun).1 1 hk h0⟩

/-- With five nodes, nodes one and two are sampled before the endpoint is announced to
them, and the children of node one after: the sum is zero, and the announcement to
node two is still in flight. -/
theorem total_eq_zero_with_announcement : ¬ ∀ (N : NumNodes) (es : List (Event ℕ))
    (s : Insertion ℕ), Transition.Run (Step N) init es s →
      ∀ k, s.Complete N k → s.total N k = 0 → s.net.flight = 0 := by
  intro h
  have h1 := (Transition.Run.nil (s := init)).snoc
    (Step.act (N := ⟨5, by decide, by decide⟩) (.create (n := 0) (x := 0)
      (s := { arrays := 2, elements := [Element.setEndpoint { index := 0 }], endpoint := some 0 })
      (l := [.regEndpoint 1 0 0, .regEndpoint 2 0 0]) (by decide) (by decide)
      (fun n => by simp [init, Network.init]) rfl) fun _ _ _ => rfl)
  have h2 := (h1.snoc (.contribute (n := 1) (by decide) rfl rfl)).snoc
    (.contribute (n := 2) (by decide) rfl rfl)
  have h3 := h2.snoc (.act (.deliver (m := .regEndpoint 1 0 0) (r := {.regEndpoint 2 0 0})
    (s := { arrays := 1, endpoint := some 0 }) (l := [.regEndpoint 3 1 0, .regEndpoint 4 1 0])
    rfl rfl) (by simp))
  have h4 := h3.snoc (.act (.deliver (m := .regEndpoint 3 1 0)
    (r := {.regEndpoint 2 0 0, .regEndpoint 4 1 0}) (s := { arrays := -1, endpoint := some 0 })
    (l := []) (by decide) rfl) (by simp))
  have h5 := h4.snoc (.act (.deliver (m := .regEndpoint 4 1 0) (r := {.regEndpoint 2 0 0})
    (s := { arrays := -1, endpoint := some 0 }) (l := []) (by decide) rfl) (by simp))
  have h6 := ((h5.snoc (.contribute (n := 0) (by decide) rfl rfl)).snoc
    (.contribute (n := 3) (by decide) rfl rfl)).snoc (.contribute (n := 4) (by decide) rfl rfl)
  have hq := h _ _ _ h6 0 (by decide) (by decide)
  exact absurd hq (by decide)

end Insertion

end Hypercomm.TreeBuilder
