import Mathlib.Tactic.SplitIfs
import Hypercomm.TreeBuilder.Forest

/-! # The forest invariant is preserved

One lemma for each rule of the forest. A waiting element keeps exactly one
message or announcement on its way; the endpoint is announced along the node tree.
-/

namespace Hypercomm.TreeBuilder

variable {Idx : Type*} {N : NumNodes}

theorem mem_leaves_iff {n j : ℤ} (h0 : 0 ≤ n) (hn : n < N.val) :
    j ∈ leaves N n ↔ BinaryTree.parent j = n ∧ j < N.val :=
  BinaryTree.mem_leaves_iff (by decide) N.lt h0 hn

theorem leaves_nodup {n : ℤ} (h0 : 0 ≤ n) (hn : n < N.val) : (leaves N n).Nodup :=
  BinaryTree.leaves_nodup (by decide) N.lt h0 hn

theorem mem_broadcast {n : ℤ} {x : Idx} {m : Message Idx} :
    m ∈ broadcast N n x ↔ ∃ j ∈ leaves N n, m = .regEndpoint j n x := by
  simp [broadcast, eq_comm]

@[simp] theorem receiveDownstream_notMem_broadcast {n k j : ℤ} {x y : Idx} :
    .receiveDownstream k j y ∉ broadcast N n x := by
  simp [mem_broadcast]

@[simp] theorem receiveUpstream_notMem_broadcast {n k j : ℤ} {x y : Idx} :
    .receiveUpstream k j y ∉ broadcast N n x := by
  simp [mem_broadcast]

@[simp] theorem serving_zero (n : ℤ) : serving (0 : Multiset (Message Idx)) n = 0 := rfl

@[simp] theorem announcing_zero (n : ℤ) : announcing (0 : Multiset (Message Idx)) n = 0 := rfl

@[simp] theorem serving_add (l l' : Multiset (Message Idx)) (n : ℤ) :
    serving (l + l') n = serving l n + serving l' n := Multiset.countP_add _ _ _

@[simp] theorem serving_cons (m : Message Idx) (l : Multiset (Message Idx)) (n : ℤ) :
    serving (m ::ₘ l) n = serving l n + if m.serves n then 1 else 0 := Multiset.countP_cons _ _ _

@[simp] theorem serving_singleton (m : Message Idx) (n : ℤ) :
    serving {m} n = if m.serves n then 1 else 0 := by
  rw [← Multiset.cons_zero, serving_cons]; simp

@[simp] theorem announcing_add (l l' : Multiset (Message Idx)) (n : ℤ) :
    announcing (l + l') n = announcing l n + announcing l' n := Multiset.countP_add _ _ _

@[simp] theorem announcing_cons (m : Message Idx) (l : Multiset (Message Idx)) (n : ℤ) :
    announcing (m ::ₘ l) n = announcing l n + if m.announces n then 1 else 0 :=
  Multiset.countP_cons _ _ _

@[simp] theorem announcing_singleton (m : Message Idx) (n : ℤ) :
    announcing {m} n = if m.announces n then 1 else 0 := by
  rw [← Multiset.cons_zero, announcing_cons]; simp

theorem serving_pos_of_mem {m : Message Idx} {l : Multiset (Message Idx)} {n : ℤ} (h : m ∈ l)
    (hs : m.serves n = true) : 0 < serving l n :=
  Multiset.countP_pos.mpr ⟨m, h, hs⟩

theorem announcing_pos_of_mem {m : Message Idx} {l : Multiset (Message Idx)} {n : ℤ} (h : m ∈ l)
    (hs : m.announces n = true) : 0 < announcing l n :=
  Multiset.countP_pos.mpr ⟨m, h, hs⟩

@[simp] theorem serving_broadcast (n k : ℤ) (x : Idx) : serving (broadcast N n x) k = 0 := by
  rw [serving, Multiset.countP_eq_zero]
  intro m hm
  obtain ⟨j, -, rfl⟩ := mem_broadcast.mp hm
  simp [Message.serves]

theorem announcing_broadcast {n : ℤ} (h0 : 0 ≤ n) (hn : n < N.val) (k : ℤ) (x : Idx) :
    announcing (broadcast N n x) k = if BinaryTree.parent k = n ∧ k < N.val then 1 else 0 := by
  have h : announcing (broadcast N n x) k = (leaves N n).count k := by
    simp only [announcing, broadcast, Multiset.coe_countP, List.countP_map, List.count]
    exact List.countP_congr fun j _ => by simp [Message.announces]
  rw [h, List.Nodup.count (leaves_nodup h0 hn)]
  simp only [mem_leaves_iff h0 hn]

namespace Forest

variable {f g : Forest Idx}

@[simp] theorem located_addChild {t x y : Idx} {n : ℤ} :
    (f.addChild t x).Located n y ↔ f.Located n y := Iff.rfl

@[simp] theorem located_setEndpoint {x y : Idx} {k n : ℤ} :
    (f.setEndpoint k x).Located n y ↔ f.Located n y := Iff.rfl

@[simp] theorem located_withFlight {y : Idx} {n : ℤ} {l : Multiset (Message Idx)} :
    (f.withFlight l).Located n y ↔ f.Located n y := Iff.rfl

@[simp] theorem up_addChild {t x y u : Idx} : (f.addChild t x).Up y u ↔ f.Up y u := Iff.rfl

@[simp] theorem up_setEndpoint {x y u : Idx} {k : ℤ} :
    (f.setEndpoint k x).Up y u ↔ f.Up y u := Iff.rfl

@[simp] theorem up_withFlight {y u : Idx} {l : Multiset (Message Idx)} :
    (f.withFlight l).Up y u ↔ f.Up y u := Iff.rfl

theorem not_located_of_absent {x : Idx} (h : f.status x = .absent) (n : ℤ) : ¬ f.Located n x := by
  simp [Located, h, Status.node]

theorem located_of_waiting {x : Idx} {n : ℤ} (h : f.status x = .waiting n) : f.Located n x := by
  simp [Located, h, Status.node]

theorem Up.located {x u : Idx} (h : f.Up x u) : ∃ n, f.Located n x := by
  obtain ⟨n, h⟩ := h
  exact ⟨n, by simp [Located, h, Status.node]⟩

theorem Located.unique {x : Idx} {m n : ℤ} (h : f.Located m x) (h' : f.Located n x) : m = n :=
  Option.some.inj (h.symm.trans h')

theorem Anchored.mono {n : ℤ} {x : Idx} (h : f.Anchored n x)
    (hloc : ∀ m y, f.Located m y → g.Located m y) (hup : ∀ y u, f.Up y u → g.Up y u)
    (hnew : ∀ y u, f.Located n y → g.Up y u → f.Up y u ∨ ∃ m, m < n ∧ g.Located m u) :
    g.Anchored n x := by
  obtain ⟨r, hr, hx, hl⟩ := h
  refine ⟨r, hloc _ _ hr, Relation.ReflTransGen.mono hup _ _ hx, fun u hu => ?_⟩
  rcases hnew _ _ hr hu with hf | hm
  · obtain ⟨m, hm, hu⟩ := hl u hf
    exact ⟨m, hm, hloc _ _ hu⟩
  · exact hm

theorem Anchored.self {n : ℤ} {x : Idx} (h : f.Located n x) (hu : ∀ u, ¬ f.Up x u) :
    f.Anchored n x :=
  ⟨x, h, .refl, fun u h => absurd h (hu u)⟩

theorem inv_init : (init : Forest Idx).Inv N where
  range := by simp [init, Located, Status.node]
  waiting_unique := by simp [init]
  downstream := by simp [init]
  upstream := by simp [init]
  announced := by simp [init]
  serves_le := by simp [init]
  serves_iff := by simp [init]
  announces_le := by simp [init]
  announces_iff := by simp [init]
  endpoint_root := by simp [init]
  endpoint_parent := by simp [init]
  endpoint_range := by simp [init]
  endpoint_status := by simp [init]
  endpoint_unique := by simp [init]
  children_iff := by simp [init, Up]
  anchored := by simp [init, Located, Status.node]

theorem Inv.located_of_up (hi : f.Inv N) {x u : Idx} (h : f.Up x u) : ∃ n, f.Located n u := by
  have hfun : ∀ v, f.Up x v → v = u := fun v ⟨m, hm⟩ => by
    obtain ⟨n, hn⟩ := h
    rw [hm] at hn
    exact (Status.child.inj hn).2
  obtain ⟨n, hx⟩ := h.located
  obtain ⟨r, hr, hp, hl⟩ := hi.anchored n x hx
  rcases Relation.ReflTransGen.cases_head hp with rfl | ⟨v, hv, hp⟩
  · obtain ⟨m, -, hm⟩ := hl u h
    exact ⟨m, hm⟩
  · obtain rfl := hfun v hv
    rcases Relation.ReflTransGen.cases_head hp with rfl | ⟨w, hw, -⟩
    · exact ⟨n, hr⟩
    · exact hw.located

theorem Inv.not_parent_of_absent (hi : f.Inv N) {x : Idx} (hx : f.status x = .absent) (y : Idx) :
    ¬ f.children x y := by
  rw [hi.children_iff]
  rintro (h | ⟨n, m, -, hm⟩)
  · obtain ⟨n, hn⟩ := hi.located_of_up h
    exact not_located_of_absent hx n hn
  · exact not_located_of_absent hx m (hi.upstream n m x hm).2

theorem Announcement.congr {e : ℤ → Option Idx} {l l' : Multiset (Message Idx)}
    (h : Announcement N e l) (hmem : ∀ j p x, .regEndpoint j p x ∈ l' → .regEndpoint j p x ∈ l)
    (hann : ∀ j, announcing l' j = announcing l j) : Announcement N e l' where
  announced j p x hm := h.announced j p x (hmem j p x hm)
  announces_le j := hann j ▸ h.announces_le j
  announces_iff j := hann j ▸ h.announces_iff j
  endpoint_root := h.endpoint_root
  endpoint_parent := h.endpoint_parent
  endpoint_range := h.endpoint_range

theorem Announcement.eq_none {e : ℤ → Option Idx} {l : Multiset (Message Idx)}
    (h : Announcement N e l) (h0 : e 0 = none) (n : ℤ) : e n = none := by
  by_contra hn
  obtain ⟨x, hx⟩ := Option.ne_none_iff_exists'.mp hn
  simp [h.endpoint_root n x hx] at h0

/-- A node that learns the endpoint announces it to its children, which cannot
know it yet. -/
theorem Announcement.spread {e : ℤ → Option Idx} {l : Multiset (Message Idx)} {n : ℤ} {x : Idx}
    (h0 : 0 ≤ n) (hn : n < N.val) (hp : 0 < n → e (BinaryTree.parent n) ≠ none)
    (he : e n = none) (hroot : n ≠ 0 → e 0 = some x)
    (hmem : ∀ j p y, .regEndpoint j p y ∈ l → p = BinaryTree.parent j ∧
      0 < j ∧ j < N.val ∧ e (BinaryTree.parent j) = some y ∧ e j = none)
    (hle : ∀ j, announcing l j ≤ 1)
    (hann : ∀ j, 0 < announcing l j ↔
      j ≠ n ∧ 0 < j ∧ j < N.val ∧ e (BinaryTree.parent j) ≠ none ∧ e j = none)
    (hr : ∀ m y, e m = some y → e 0 = some y)
    (hpar : ∀ m, 0 < m → e m ≠ none → e (BinaryTree.parent m) ≠ none)
    (hrange : ∀ m, e m ≠ none → 0 ≤ m ∧ m < N.val) :
    Announcement N (Function.update e n (some x)) (l + broadcast N n x) := by
  have hchild : ∀ j, BinaryTree.parent j = n → 0 < j ∧ j ≠ n ∧ e j = none := fun j hj => by
    have hj0 : 0 < j := BinaryTree.parent_nonneg_iff.mp (hj ▸ h0)
    have hlt := BinaryTree.parent_lt hj0.le
    refine ⟨hj0, by omega, ?_⟩
    by_contra h
    exact hpar j hj0 h (hj ▸ he)
  have hzero : ∀ j, BinaryTree.parent j = n → announcing l j = 0 := fun j hj => by
    by_contra h
    exact ((hann j).mp (Nat.pos_of_ne_zero h)).2.2.2.1 (hj ▸ he)
  have hcount : ∀ j, announcing (l + broadcast N n x) j =
      announcing l j + if BinaryTree.parent j = n ∧ j < N.val then 1 else 0 := fun j => by
    rw [announcing_add, announcing_broadcast h0 hn]
  constructor
  · intro j p y hm
    rcases Multiset.mem_add.mp hm with hm | hm
    · obtain ⟨rfl, hj, hjN, hpj, hej⟩ := hmem j p y hm
      have hjn : j ≠ n := ((hann j).mp (announcing_pos_of_mem hm (by simp [Message.announces]))).1
      have hpn : BinaryTree.parent j ≠ n := fun h => by rw [h, he] at hpj; simp at hpj
      simp [hj, hjN, hpn, hjn, hpj, hej]
    · obtain ⟨k, hk, heq⟩ := mem_broadcast.mp hm
      obtain ⟨rfl, rfl, rfl⟩ := by simpa using heq
      obtain ⟨hpj, hjN⟩ := (mem_leaves_iff h0 hn).mp hk
      obtain ⟨hj, hjn, hej⟩ := hchild j hpj
      simp [hj, hjN, hpj, hjn, hej]
  · intro j
    rw [hcount]
    split
    case isTrue h => simp [hzero j h.1]
    case isFalse => simpa using hle j
  · intro j
    rw [hcount]
    by_cases hj : BinaryTree.parent j = n
    · obtain ⟨h1, h2, h3⟩ := hchild j hj
      simp [hj, hzero j hj, h1, h2, h3]
      split <;> simp_all
    · rcases eq_or_ne j n with rfl | hjn
      · have := hann j
        simp_all
      · simp [hj, hjn, hann]
  · intro m y hm
    rcases eq_or_ne m n with rfl | hmn
    · rcases eq_or_ne m 0 with rfl | h
      · exact hm
      · simp_all [h.symm]
    · have h := hr m y (by simpa [hmn] using hm)
      rcases eq_or_ne n 0 with rfl | h'
      · simp [he] at h
      · simpa [h'.symm] using h
  · intro m hm hem
    rcases eq_or_ne (BinaryTree.parent m) n with h | h
    · simp [h]
    · rw [Function.update_of_ne h]
      rcases eq_or_ne m n with rfl | hmn
      · exact hp hm
      · exact hpar m hm (by simpa [hmn] using hem)
  · intro m hm
    rcases eq_or_ne m n with rfl | hmn
    · exact ⟨h0, hn⟩
    · exact hrange m (by simpa [hmn] using hm)

theorem Announcement.root {e : ℤ → Option Idx} {l : Multiset (Message Idx)} {x : Idx}
    (h : Announcement N e l) (h0 : e 0 = none) :
    Announcement N (Function.update e 0 (some x)) (l + broadcast N 0 x) := by
  have hN := N.pos
  refine .spread le_rfl (by omega) (by simp) h0 (by simp) h.announced h.announces_le (fun j => ?_)
    h.endpoint_root h.endpoint_parent h.endpoint_range
  rw [h.announces_iff]
  exact ⟨fun hj => ⟨hj.1.ne', hj⟩, fun hj => hj.2⟩

theorem Announcement.announce {e : ℤ → Option Idx} {l : Multiset (Message Idx)} {j p : ℤ} {x : Idx}
    (h : Announcement N e (.regEndpoint j p x ::ₘ l)) :
    Announcement N (Function.update e j (some x)) (l + broadcast N j x) := by
  obtain ⟨-, hj, hjN, hpj, hej⟩ := h.announced j p x (Multiset.mem_cons_self _ _)
  have hcons : ∀ k, announcing (.regEndpoint j p x ::ₘ l) k =
      announcing l k + if j = k then 1 else 0 := fun k => by simp [Message.announces]
  have hjl : announcing l j = 0 := by
    have := hcons j ▸ h.announces_le j
    simpa using this
  refine .spread hj.le hjN (fun _ => by simp [hpj]) hej (fun _ => h.endpoint_root _ _ hpj)
    (fun k q y hm => h.announced k q y (Multiset.mem_cons_of_mem hm))
    (fun k => (Nat.le_add_right _ _).trans (hcons k ▸ h.announces_le k)) (fun k => ?_)
    h.endpoint_root h.endpoint_parent h.endpoint_range
  rcases eq_or_ne k j with rfl | hk
  · simp [hjl]
  · have := h.announces_iff k
    rw [hcons, if_neg hk.symm, Nat.add_zero] at this
    simp [this, hk]

theorem Inv.endpoint_ne_of_serves (hi : f.Inv N) {n : ℤ} {y : Idx} {msg : Message Idx}
    (hm : msg ∈ f.flight) (hs : msg.serves n = true) (hy : f.status y = .waiting n) :
    f.endpoint 0 ≠ some y := by
  obtain ⟨w, hw, hne⟩ := (hi.serves_iff n).mp (serving_pos_of_mem hm hs)
  obtain rfl := hi.waiting_unique n w y hw hy
  exact hne

theorem Inv.attach (hi : f.Inv N) {m n : ℤ} {x t : Idx} {rest : Multiset (Message Idx)}
    (hflight : f.flight = .receiveDownstream m n x ::ₘ rest) (ht : f.Located m t) :
    ((f.addChild t x).withFlight (rest + {.receiveUpstream n m t})).Inv N := by
  set g := (f.addChild t x).withFlight (rest + {.receiveUpstream n m t}) with hg
  obtain ⟨-, hmn, hx⟩ := hi.downstream m n x (by simp [hflight])
  have hf : g.flight = rest + {.receiveUpstream n m t} := rfl
  have hs : ∀ k, serving g.flight k = serving f.flight k := fun k => by
    simp [hf, hflight, Message.serves]
  exact
  { toAnnouncement := hi.toAnnouncement.congr (by simp +contextual [hf, hflight])
      (by simp [hf, hflight, Message.announces])
    range := hi.range
    waiting_unique := hi.waiting_unique
    downstream := fun k j y h => hi.downstream k j y (by
      have : .receiveDownstream k j y ∈ rest := by simpa [hf] using h
      simp [hflight, this])
    upstream := fun k j u h => by
      rcases (by simpa [hf] using h : _ ∨ _) with h | ⟨rfl, rfl, rfl⟩
      · exact hi.upstream k j u (by simp [hflight, h])
      · exact ⟨hmn, ht⟩
    serves_le := fun k => hs k ▸ hi.serves_le k
    serves_iff := fun k => hs k ▸ hi.serves_iff k
    endpoint_status := hi.endpoint_status
    endpoint_unique := hi.endpoint_unique
    children_iff := fun u y => by
      have hc : g.children u y ↔ f.children u y ∨ (u = t ∧ y = x) := Iff.rfl
      have hu : g.Up y u ↔ f.Up y u := Iff.rfl
      rw [hc, hi.children_iff, hu, or_assoc]
      refine or_congr_right ⟨?_, ?_⟩
      · rintro (⟨k, j, hy, hm⟩ | ⟨rfl, rfl⟩)
        · exact ⟨k, j, hy, by simpa [hf] using .inl (by simpa [hflight] using hm)⟩
        · exact ⟨n, m, hx, by simp [hf]⟩
      · rintro ⟨k, j, hy, hm⟩
        rcases (by simpa [hf] using hm : _ ∨ _) with hm | ⟨rfl, rfl, rfl⟩
        · exact .inl ⟨k, j, hy, by simp [hflight, hm]⟩
        · exact .inr ⟨rfl, hi.waiting_unique _ _ _ hy hx⟩
    anchored := hi.anchored }

theorem Inv.forward (hi : f.Inv N) {m n : ℤ} {x : Idx} {rest : Multiset (Message Idx)}
    (hflight : f.flight = .receiveDownstream m n x ::ₘ rest) (hm : 0 < m) :
    (f.withFlight (rest + {.receiveDownstream (BinaryTree.parent m) n x})).Inv N := by
  set g := f.withFlight (rest + {.receiveDownstream (BinaryTree.parent m) n x}) with hg
  obtain ⟨-, hmn, hx⟩ := hi.downstream m n x (by simp [hflight])
  have hf : g.flight = rest + {.receiveDownstream (BinaryTree.parent m) n x} := rfl
  have hs : ∀ k, serving g.flight k = serving f.flight k := fun k => by
    simp [hf, hflight, Message.serves]
  have hru : ∀ k j u, .receiveUpstream k j u ∈ g.flight ↔ .receiveUpstream k j u ∈ f.flight := by
    simp [hf, hflight]
  exact
  { toAnnouncement := hi.toAnnouncement.congr (by simp +contextual [hf, hflight])
      (by simp [hf, hflight, Message.announces])
    range := hi.range
    waiting_unique := hi.waiting_unique
    downstream := fun k j y h => by
      rcases (by simpa [hf] using h : _ ∨ _) with h | ⟨rfl, rfl, rfl⟩
      · exact hi.downstream k j y (by simp [hflight, h])
      · exact ⟨BinaryTree.parent_nonneg_iff.mpr hm, (BinaryTree.parent_lt hm.le).trans hmn, hx⟩
    upstream := fun k j u h => hi.upstream k j u ((hru k j u).mp h)
    serves_le := fun k => hs k ▸ hi.serves_le k
    serves_iff := fun k => hs k ▸ hi.serves_iff k
    endpoint_status := hi.endpoint_status
    endpoint_unique := hi.endpoint_unique
    children_iff := fun u y => by
      simp only [hru]
      exact hi.children_iff u y
    anchored := hi.anchored }

theorem Inv.rootRemote (hi : f.Inv N) {m n : ℤ} {x : Idx} {rest : Multiset (Message Idx)}
    (hflight : f.flight = .receiveDownstream m n x ::ₘ rest) (hm : m ≤ 0)
    (hem : f.endpoint m = none) :
    ((f.setEndpoint m x).withFlight (rest + broadcast N m x)).Inv N := by
  obtain ⟨hm0, hmn, hx⟩ := hi.downstream m n x (by simp [hflight])
  obtain rfl : m = 0 := le_antisymm hm hm0
  set g := (f.setEndpoint 0 x).withFlight (rest + broadcast N 0 x) with hg
  have hf : g.flight = rest + broadcast N 0 x := rfl
  have hd : g.endpoint = Function.update f.endpoint 0 (some x) := rfl
  have hann : Announcement N f.endpoint rest := hi.toAnnouncement.congr
    (by simp +contextual [hflight]) (by simp [hflight, Message.announces])
  have hs : ∀ k, serving f.flight k = serving g.flight k + if n = k then 1 else 0 := fun k => by
    simp [hf, hflight, Message.serves]
  have hru : ∀ k j u, .receiveUpstream k j u ∈ g.flight ↔ .receiveUpstream k j u ∈ f.flight := by
    simp [hf, hflight]
  exact
  { toAnnouncement := hann.root hem
    range := hi.range
    waiting_unique := hi.waiting_unique
    downstream := fun k j y h => hi.downstream k j y (by
      have : .receiveDownstream k j y ∈ rest := by simpa [hf] using h
      simp [hflight, this])
    upstream := fun k j u h => hi.upstream k j u ((hru k j u).mp h)
    serves_le := fun k => (Nat.le_add_right _ _).trans (hs k ▸ hi.serves_le k)
    serves_iff := fun k => by
      have hle := hs k ▸ hi.serves_le k
      rcases eq_or_ne n k with rfl | hk
      · refine iff_of_false (by simpa using hle) ?_
        rintro ⟨w, hw, hne⟩
        exact hne (by simp [hd, hi.waiting_unique n w x hw hx])
      · have h := hi.serves_iff k
        rw [hs, if_neg hk, Nat.add_zero] at h
        rw [h]
        refine exists_congr fun w => and_congr_right fun hw => iff_of_true (by simp [hem]) ?_
        rintro heq
        obtain rfl : x = w := by simpa [hd] using heq
        exact hk (by simpa [hx] using hw)
    endpoint_status := fun y hy => by
      obtain rfl : x = y := by simpa [hd] using hy
      exact ⟨n, .inl ⟨hx, by simpa [hd, hmn.ne'] using hi.eq_none hem n⟩⟩
    endpoint_unique := fun k y h => by simpa [hem] using hi.endpoint_unique k y h
    children_iff := fun u y => by
      simp only [hru]
      exact hi.children_iff u y
    anchored := hi.anchored }

variable [DecidableEq Idx]

theorem located_setStatus {x y : Idx} {s : Status Idx} {n : ℤ} :
    (f.setStatus x s).Located n y ↔ if y = x then s.node = some n else f.Located n y := by
  unfold Located setStatus
  by_cases h : y = x <;> simp [h]

theorem up_setStatus {x y u : Idx} {s : Status Idx} :
    (f.setStatus x s).Up y u ↔ if y = x then ∃ n, s = .child n u else f.Up y u := by
  unfold Up setStatus
  by_cases h : y = x <;> simp [h]

theorem Inv.attachLocal (hi : f.Inv N) {n : ℤ} {x t : Idx} (ht : f.Located n t)
    (hx : f.status x = .absent) : ((f.setStatus x (.child n t)).addChild t x).Inv N := by
  set g := (f.setStatus x (.child n t)).addChild t x with hg
  have hf : g.flight = f.flight := rfl
  have hd : g.endpoint = f.endpoint := rfl
  have hw : ∀ y k, g.status y = .waiting k ↔ f.status y = .waiting k := by
    intro y k; rcases eq_or_ne y x with rfl | hy <;> simp_all
  have he : ∀ y k, g.status y = .endpoint k ↔ f.status y = .endpoint k := by
    intro y k; rcases eq_or_ne y x with rfl | hy <;> simp_all
  have hloc : ∀ m y, f.Located m y → y ≠ x := by
    rintro m _ h rfl; exact not_located_of_absent hx _ h
  have hl : ∀ m y, g.Located m y ↔ f.Located m y ∨ (m = n ∧ y = x) := by
    intro m y
    have := hloc m y
    simp only [hg, located_addChild, located_setStatus, Status.node, Option.some.injEq]
    split <;> simp_all [eq_comm]
  have hu : ∀ y u, g.Up y u ↔ f.Up y u ∨ (y = x ∧ u = t) := by
    intro y u
    have : f.Up y u → y ≠ x := fun h => hloc _ _ h.located.choose_spec
    simp only [hg, up_addChild, up_setStatus, Status.child.injEq]
    split <;> simp_all [eq_comm]
  have hold : ∀ m y, f.Anchored m y → g.Anchored m y := fun m y h =>
    h.mono (fun _ _ h => (hl _ _).mpr (.inl h)) (fun _ _ h => (hu _ _).mpr (.inl h))
      fun z u hz h => ((hu _ _).mp h).imp_right fun h => absurd h.1 (hloc _ _ hz)
  exact
  { toAnnouncement := hi.toAnnouncement
    range := fun m y h => by
      rcases (hl m y).mp h with h | ⟨rfl, rfl⟩
      · exact hi.range m y h
      · exact hi.range m t ht
    waiting_unique := by simpa only [hw] using hi.waiting_unique
    downstream := by simpa only [hw, hf] using hi.downstream
    upstream := fun k m u h => (hi.upstream k m u h).imp_right fun h => (hl _ _).mpr (.inl h)
    serves_le := hi.serves_le
    serves_iff := by simpa only [hw, hf, hd] using hi.serves_iff
    endpoint_status := by simpa only [hw, he, hd] using hi.endpoint_status
    endpoint_unique := by simpa only [he, hd] using hi.endpoint_unique
    children_iff := fun u y => by
      have hc : g.children u y ↔ f.children u y ∨ (y = x ∧ u = t) := or_congr_right and_comm
      rw [hc, hi.children_iff]
      simp only [hu, hw, hf]
      exact or_right_comm
    anchored := fun m y h => by
      rcases (hl m y).mp h with h | ⟨rfl, rfl⟩
      · exact hold m y (hi.anchored m y h)
      · obtain ⟨r, hr, hp, hrl⟩ := hold m t (hi.anchored m t ht)
        exact ⟨r, hr, .head ((hu _ _).mpr (.inr ⟨rfl, rfl⟩)) hp, hrl⟩ }

theorem Inv.sendUp (hi : f.Inv N) {n : ℤ} {x : Idx} (h0 : 0 < n) (hn : n < N.val)
    (hempty : f.Empty n) (hx : f.status x = .absent) :
    ((f.setStatus x (.waiting n)).withFlight
      (f.flight + {.receiveDownstream (BinaryTree.parent n) n x})).Inv N := by
  set g := (f.setStatus x (.waiting n)).withFlight
    (f.flight + {.receiveDownstream (BinaryTree.parent n) n x}) with hg
  have hd : g.endpoint = f.endpoint := rfl
  have hf : g.flight = f.flight + {.receiveDownstream (BinaryTree.parent n) n x} := rfl
  have hw : ∀ y k, g.status y = .waiting k ↔ f.status y = .waiting k ∨ (y = x ∧ k = n) := by
    intro y k
    rcases eq_or_ne y x with rfl | hy
    · simpa [hg, hx] using eq_comm
    · simp [hg, hy]
  have he : ∀ y k, g.status y = .endpoint k ↔ f.status y = .endpoint k := by
    intro y k; rcases eq_or_ne y x with rfl | hy <;> simp_all
  have hloc : ∀ m y, f.Located m y → y ≠ x := by
    rintro m _ h rfl; exact not_located_of_absent hx _ h
  have hl : ∀ m y, g.Located m y ↔ f.Located m y ∨ (m = n ∧ y = x) := by
    intro m y
    have := hloc m y
    simp only [hg, located_withFlight, located_setStatus, Status.node, Option.some.injEq]
    split <;> simp_all [eq_comm]
  have hu : ∀ y u, g.Up y u ↔ f.Up y u := by
    intro y u
    have : f.Up y u → y ≠ x := fun h => hloc _ _ h.located.choose_spec
    simp only [hg, up_withFlight, up_setStatus, reduceCtorEq, exists_false]
    split <;> simp_all
  have hnw : ∀ y, f.status y ≠ .waiting n := fun y h => hempty y (located_of_waiting h)
  have hend : f.endpoint 0 ≠ some x := fun h => by
    obtain ⟨k, h⟩ := hi.endpoint_status x h
    simp [hx] at h
  have hs : serving f.flight n = 0 := by
    by_contra h
    obtain ⟨w, hw, -⟩ := (hi.serves_iff n).mp (Nat.pos_of_ne_zero h)
    exact hnw w hw
  have hsg : ∀ k, serving g.flight k = serving f.flight k + if n = k then 1 else 0 := fun k => by
    simp [hf, Message.serves]
  exact
  { toAnnouncement := hi.toAnnouncement.congr (by simp [hf]) (by simp [hf, Message.announces])
    range := fun m y h => by
      rcases (hl m y).mp h with h | ⟨rfl, rfl⟩
      · exact hi.range m y h
      · exact ⟨h0.le, hn⟩
    waiting_unique := fun k y z hy hz => by
      rcases (hw y k).mp hy with hy | ⟨hy, hk⟩ <;> rcases (hw z k).mp hz with hz | ⟨hz, hk'⟩
      · exact hi.waiting_unique k y z hy hz
      · exact absurd (hk' ▸ hy) (hnw y)
      · exact absurd (hk ▸ hz) (hnw z)
      · exact hy.trans hz.symm
    downstream := fun m k y h => by
      simp only [hf, Multiset.mem_add, Multiset.mem_singleton,
        Message.receiveDownstream.injEq] at h
      rcases h with h | ⟨rfl, rfl, rfl⟩
      · obtain ⟨hm, hk, hs⟩ := hi.downstream m k y h
        exact ⟨hm, hk, (hw y k).mpr (.inl hs)⟩
      · exact ⟨BinaryTree.parent_nonneg_iff.mpr h0, BinaryTree.parent_lt h0.le,
          (hw _ _).mpr (.inr ⟨rfl, rfl⟩)⟩
    upstream := fun k m u h =>
      (hi.upstream k m u (by simpa [hf] using h)).imp_right fun h => (hl _ _).mpr (.inl h)
    serves_le := fun k => by
      rw [hsg]
      split
      · subst k; omega
      · exact hi.serves_le k
    serves_iff := fun k => by
      simp only [hsg, hw, hd]
      rcases eq_or_ne n k with rfl | hk
      · exact iff_of_true (by simp) ⟨x, .inr ⟨rfl, rfl⟩, hend⟩
      · simpa [hk, hk.symm] using hi.serves_iff k
    endpoint_status := fun y hy => by
      obtain ⟨k, h⟩ := hi.endpoint_status y hy
      exact ⟨k, h.imp (fun h => ⟨(hw _ _).mpr (.inl h.1), h.2⟩) fun h => ⟨(he _ _).mpr h.1, h.2⟩⟩
    endpoint_unique := by simpa only [he, hd] using hi.endpoint_unique
    children_iff := fun u y => by
      have hc : g.children u y ↔ f.children u y := Iff.rfl
      rw [hc, hi.children_iff, hu]
      simp only [hw, hf, Multiset.mem_add, Multiset.mem_singleton, reduceCtorEq, or_false]
      apply or_congr_right
      constructor
      · rintro ⟨k, m, h, hm⟩
        exact ⟨k, m, .inl h, hm⟩
      · rintro ⟨k, m, h | ⟨rfl, rfl⟩, hm⟩
        · exact ⟨k, m, h, hm⟩
        · exact absurd hs (serving_pos_of_mem hm (by simp [Message.serves])).ne'
    anchored := fun m y h => by
      rcases (hl m y).mp h with hy | ⟨rfl, rfl⟩
      · exact (hi.anchored m y hy).mono (fun _ _ h => (hl _ _).mpr (.inl h))
          (fun _ _ => (hu _ _).mpr) fun _ _ _ h => .inl ((hu _ _).mp h)
      · exact .self h fun u h => hloc _ _ ((hu _ _).mp h).located.choose_spec rfl }

theorem Inv.rootLocal (hi : f.Inv N) {x : Idx} (h0 : f.endpoint 0 = none)
    (hx : f.status x = .absent) :
    (((f.setStatus x (.endpoint 0)).setEndpoint 0 x).withFlight
      (f.flight + broadcast N 0 x)).Inv N := by
  set g := ((f.setStatus x (.endpoint 0)).setEndpoint 0 x).withFlight
    (f.flight + broadcast N 0 x) with hg
  have hd : g.endpoint = Function.update f.endpoint 0 (some x) := rfl
  have hf : g.flight = f.flight + broadcast N 0 x := rfl
  have hw : ∀ y k, g.status y = .waiting k ↔ f.status y = .waiting k := by
    intro y k; rcases eq_or_ne y x with rfl | hy <;> simp_all
  have he : ∀ y k, g.status y = .endpoint k ↔ y = x ∧ k = 0 := by
    intro y k
    rcases eq_or_ne y x with rfl | hy
    · simpa [hg] using eq_comm
    · simpa [hg, hy] using fun h => by simpa [h0] using hi.endpoint_unique k y h
  have hloc : ∀ m y, f.Located m y → y ≠ x := by
    rintro m _ h rfl; exact not_located_of_absent hx _ h
  have hl : ∀ m y, g.Located m y ↔ f.Located m y ∨ (m = 0 ∧ y = x) := by
    intro m y
    have := hloc m y
    simp only [hg, located_withFlight, located_setEndpoint, located_setStatus, Status.node,
      Option.some.injEq]
    split <;> simp_all [eq_comm]
  have hu : ∀ y u, g.Up y u ↔ f.Up y u := by
    intro y u
    have : f.Up y u → y ≠ x := fun h => hloc _ _ h.located.choose_spec
    simp only [hg, up_withFlight, up_setEndpoint, up_setStatus, reduceCtorEq, exists_false]
    split <;> simp_all
  exact
  { toAnnouncement := hi.toAnnouncement.root h0
    range := fun m y h => by
      rcases (hl m y).mp h with h | ⟨rfl, rfl⟩
      · exact hi.range m y h
      · have := N.pos; omega
    waiting_unique := by simpa only [hw] using hi.waiting_unique
    downstream := fun m n y h => by
      rw [hw]; exact hi.downstream m n y (by simpa [hf] using h)
    upstream := fun n m u h =>
      (hi.upstream n m u (by simpa [hf] using h)).imp_right fun h => (hl _ _).mpr (.inl h)
    serves_le := by simpa [hf] using hi.serves_le
    serves_iff := fun n => by
      rw [hf, serving_add, serving_broadcast, Nat.add_zero, hi.serves_iff]
      refine exists_congr fun w => ?_
      rw [hw]
      refine and_congr_right fun h => iff_of_true (by simp [h0]) ?_
      have := hloc n w (located_of_waiting h)
      simpa [hd] using this.symm
    endpoint_status := fun y hy => by
      obtain rfl : x = y := by simpa [hd] using hy
      exact ⟨0, .inr ⟨(he _ _).mpr ⟨rfl, rfl⟩, by simp [hd]⟩⟩
    endpoint_unique := fun n y h => by
      obtain ⟨rfl, rfl⟩ := (he y n).mp h
      simp [hd]
    children_iff := fun u y => by
      have hc : g.children u y ↔ f.children u y := Iff.rfl
      rw [hc, hi.children_iff, hu]
      simp [hw, hf]
    anchored := fun m y h => by
      rcases (hl m y).mp h with hy | ⟨rfl, rfl⟩
      · exact (hi.anchored m y hy).mono (fun _ _ h => (hl _ _).mpr (.inl h))
          (fun _ _ => (hu _ _).mpr) fun _ _ _ h => .inl ((hu _ _).mp h)
      · exact .self h fun u h => hloc _ _ ((hu _ _).mp h).located.choose_spec rfl }

theorem Inv.adopt (hi : f.Inv N) {m n : ℤ} {u w : Idx} {rest : Multiset (Message Idx)}
    (hflight : f.flight = .receiveUpstream n m u ::ₘ rest) (hw : f.status w = .waiting n) :
    ((f.setStatus w (.child n u)).withFlight rest).Inv N := by
  set g := (f.setStatus w (.child n u)).withFlight rest with hg
  obtain ⟨hmn, hum⟩ := hi.upstream n m u (by simp [hflight])
  have hmem : .receiveUpstream n m u ∈ f.flight := by simp [hflight]
  have hrest : ∀ msg ∈ rest, msg ∈ f.flight := by simp +contextual [hflight]
  have hroot := hi.endpoint_ne_of_serves hmem (by simp [Message.serves]) hw
  have hf : g.flight = rest := rfl
  have hd : g.endpoint = f.endpoint := rfl
  have hs : ∀ k, serving f.flight k = serving rest k + if n = k then 1 else 0 := fun k => by
    simp [hflight, Message.serves]
  have hsn : serving rest n = 0 := by have := hs n ▸ hi.serves_le n; simpa using this
  have hnot : ∀ msg ∈ rest, ∀ y k, f.status y = .waiting k → msg.serves k = true → y ≠ w := by
    rintro msg hm _ k hy hk rfl
    obtain rfl : k = n := by simpa [hw] using hy.symm
    exact absurd hsn (serving_pos_of_mem hm hk).ne'
  have hwg : ∀ y k, g.status y = .waiting k ↔ f.status y = .waiting k ∧ y ≠ w := by
    intro y k; rcases eq_or_ne y w with rfl | hy <;> simp_all
  have he : ∀ y k, g.status y = .endpoint k ↔ f.status y = .endpoint k := by
    intro y k; rcases eq_or_ne y w with rfl | hy <;> simp_all
  have hl : ∀ k y, g.Located k y ↔ f.Located k y := by
    intro k y
    rw [hg, located_withFlight, located_setStatus]
    split
    · subst y; simp [Located, hw, Status.node]
    · rfl
  have hu : ∀ y v, g.Up y v ↔ f.Up y v ∨ (y = w ∧ v = u) := by
    intro y v
    simp only [hg, up_withFlight, up_setStatus, Status.child.injEq]
    split
    · subst y; simp [Up, hw, eq_comm]
    · simp_all
  exact
  { toAnnouncement := hi.toAnnouncement.congr (fun _ _ _ h => hrest _ h)
      (by simp [hf, hflight, Message.announces])
    range := fun k y h => hi.range k y ((hl k y).mp h)
    waiting_unique := fun k y z hy hz =>
      hi.waiting_unique k y z ((hwg _ _).mp hy).1 ((hwg _ _).mp hz).1
    downstream := fun k j y h => by
      obtain ⟨hk, hkj, hy⟩ := hi.downstream k j y (hrest _ h)
      exact ⟨hk, hkj, (hwg y j).mpr ⟨hy, hnot _ h y j hy (by simp [Message.serves])⟩⟩
    upstream := fun k j v h => (hi.upstream k j v (hrest _ h)).imp_right (hl _ _).mpr
    serves_le := fun k => (Nat.le_add_right _ _).trans (hs k ▸ hi.serves_le k)
    serves_iff := fun k => by
      rcases eq_or_ne n k with rfl | hk
      · refine iff_of_false (by simp [hf, hsn]) ?_
        rintro ⟨y, hy, -⟩
        exact ((hwg y n).mp hy).2 (hi.waiting_unique n y w ((hwg y n).mp hy).1 hw)
      · have h := hi.serves_iff k
        rw [hs, if_neg hk, Nat.add_zero] at h
        rw [hf, h]
        refine exists_congr fun y => and_congr_left' ⟨fun hy => (hwg y k).mpr ⟨hy, ?_⟩,
          fun hy => ((hwg y k).mp hy).1⟩
        rintro rfl
        exact hk (by simpa [hw] using hy)
    endpoint_status := fun y hy => by
      obtain ⟨k, h⟩ := hi.endpoint_status y hy
      refine ⟨k, h.imp (And.imp_left fun h => (hwg _ _).mpr ⟨h, ?_⟩)
        (And.imp_left (he _ _).mpr)⟩
      rintro rfl
      exact hroot hy
    endpoint_unique := fun k y h => hi.endpoint_unique k y ((he y k).mp h)
    children_iff := fun v y => by
      have hc : g.children v y ↔ f.children v y := Iff.rfl
      rw [hc, hi.children_iff, hu, or_assoc]
      refine or_congr_right ⟨?_, ?_⟩
      · rintro ⟨k, j, hy, hm⟩
        rcases (by simpa [hflight] using hm : _ ∨ _) with ⟨rfl, rfl, rfl⟩ | hm
        · exact .inl ⟨hi.waiting_unique _ _ _ hy hw, rfl⟩
        · exact .inr ⟨k, j, (hwg y k).mpr ⟨hy, hnot _ hm y k hy (by simp [Message.serves])⟩, hm⟩
      · rintro (⟨rfl, rfl⟩ | ⟨k, j, hy, hm⟩)
        · exact ⟨n, m, hw, hmem⟩
        · exact ⟨k, j, ((hwg y k).mp hy).1, hrest _ hm⟩
    anchored := fun k y h => (hi.anchored k y ((hl k y).mp h)).mono (fun _ _ => (hl _ _).mpr)
      (fun _ _ h => (hu _ _).mpr (.inl h)) fun z v hz hv => by
        refine ((hu z v).mp hv).imp_right ?_
        rintro ⟨rfl, rfl⟩
        obtain rfl := hz.unique (located_of_waiting hw)
        exact ⟨m, hmn, (hl _ _).mpr hum⟩ }

theorem Inv.announce (hi : f.Inv N) {j p : ℤ} {x : Idx} {rest : Multiset (Message Idx)}
    (hflight : f.flight = .regEndpoint j p x ::ₘ rest) :
    (((f.setStatus x
      (if f.status x = .waiting j then .endpoint j else f.status x)).setEndpoint j x).withFlight
        (rest + broadcast N j x)).Inv N := by
  set g := ((f.setStatus x
    (if f.status x = .waiting j then .endpoint j else f.status x)).setEndpoint j x).withFlight
      (rest + broadcast N j x) with hg
  obtain ⟨-, hj, -, hp, -⟩ := hi.announced j p x (by simp [hflight])
  have hroot : f.endpoint 0 = some x := hi.endpoint_root _ _ hp
  have hf : g.flight = rest + broadcast N j x := rfl
  have hd : g.endpoint = Function.update f.endpoint j (some x) := rfl
  have hd0 : g.endpoint 0 = some x := by simpa [hd, hj.ne] using hroot
  have hst : g.status = Function.update f.status x
    (if f.status x = .waiting j then .endpoint j else f.status x) := rfl
  have hw : ∀ y k, g.status y = .waiting k ↔ f.status y = .waiting k ∧ ¬ (y = x ∧ k = j) := by
    intro y k
    rcases eq_or_ne y x with rfl | hy
    · by_cases h : f.status y = .waiting j <;> simp [hst, h, eq_comm]
      rintro h' rfl
      exact h h'.symm
    · simp [hst, hy]
  have he : ∀ y k, g.status y = .endpoint k ↔
      f.status y = .endpoint k ∨ (y = x ∧ k = j ∧ f.status x = .waiting j) := by
    intro y k
    rcases eq_or_ne y x with rfl | hy
    · by_cases h : f.status y = .waiting j <;> simp [hst, h, eq_comm]
    · simp [hst, hy]
  have hl : ∀ k y, g.Located k y ↔ f.Located k y := by
    intro k y
    rcases eq_or_ne y x with rfl | hy
    · by_cases h : f.status y = .waiting j <;> simp [Located, hst, h, Status.node]
    · simp [Located, hst, hy]
  have hu : ∀ y v, g.Up y v ↔ f.Up y v := by
    intro y v
    rcases eq_or_ne y x with rfl | hy
    · by_cases h : f.status y = .waiting j <;> simp [Up, hst, h]
    · simp [Up, hst, hy]
  have hs : ∀ k, serving g.flight k = serving f.flight k := fun k => by
    simp [hf, hflight, Message.serves]
  have hru : ∀ k i u, .receiveUpstream k i u ∈ g.flight ↔ .receiveUpstream k i u ∈ f.flight := by
    simp [hf, hflight]
  have hrd : ∀ k i y, .receiveDownstream k i y ∈ g.flight ↔
      .receiveDownstream k i y ∈ f.flight := by
    simp [hf, hflight]
  -- whoever a message will serve is not the endpoint
  have hnot : ∀ msg ∈ f.flight, ∀ y k, f.status y = .waiting k → msg.serves k = true → y ≠ x := by
    rintro msg hm y k hy hk rfl
    exact hi.endpoint_ne_of_serves hm hk hy hroot
  exact
  { toAnnouncement := Announcement.announce (hflight ▸ hi.toAnnouncement)
    range := fun k y h => hi.range k y ((hl k y).mp h)
    waiting_unique := fun k y z hy hz =>
      hi.waiting_unique k y z ((hw _ _).mp hy).1 ((hw _ _).mp hz).1
    downstream := fun k i y h => by
      rw [hrd] at h
      obtain ⟨hk, hki, hy⟩ := hi.downstream k i y h
      have := hnot _ h y i hy (by simp [Message.serves])
      exact ⟨hk, hki, (hw y i).mpr ⟨hy, fun h => this h.1⟩⟩
    upstream := fun k i v h => (hi.upstream k i v ((hru _ _ _).mp h)).imp_right (hl _ _).mpr
    serves_le := fun k => hs k ▸ hi.serves_le k
    serves_iff := fun k => by
      rw [hs, hi.serves_iff, hd0, hroot]
      refine exists_congr fun y => and_congr_left fun hne => ?_
      have : y ≠ x := fun h => hne (by rw [h])
      simp [hw, this]
    endpoint_status := fun y hy => by
      obtain rfl : x = y := by simpa [hd0] using hy
      obtain ⟨n, h⟩ := hi.endpoint_status x hroot
      refine ⟨n, ?_⟩
      rcases eq_or_ne n j with rfl | hn
      · refine .inr ⟨(he _ _).mpr ?_, by simp [hd]⟩
        exact h.elim (fun h => .inr ⟨rfl, rfl, h.1⟩) fun h => .inl h.1
      · rw [hw, he, hd, Function.update_of_ne hn]
        exact h.imp (And.imp_left fun h => ⟨h, fun h => hn h.2⟩) (And.imp_left .inl)
    endpoint_unique := fun k y h => by
      rcases (he y k).mp h with h | ⟨rfl, -, -⟩
      · rw [hd0, ← hroot]; exact hi.endpoint_unique k y h
      · exact hd0
    children_iff := fun v y => by
      have hc : g.children v y ↔ f.children v y := Iff.rfl
      rw [hc, hi.children_iff, hu]
      simp only [hru]
      apply or_congr_right
      constructor
      · rintro ⟨k, i, hy, hm⟩
        have hyx := hnot _ hm y k hy (by simp [Message.serves])
        exact ⟨k, i, (hw y k).mpr ⟨hy, fun h => hyx h.1⟩, hm⟩
      · rintro ⟨k, i, hy, hm⟩
        exact ⟨k, i, ((hw y k).mp hy).1, hm⟩
    anchored := fun k y h => (hi.anchored k y ((hl k y).mp h)).mono (fun _ _ => (hl _ _).mpr)
      (fun _ _ => (hu _ _).mpr) fun _ _ _ h => .inl ((hu _ _).mp h) }

/-- Every rule of the forest keeps the invariant. -/
theorem Inv.step (hi : f.Inv N) (h : Step N f g) : g.Inv N := by
  cases h with
  | attachLocal ht hx => exact hi.attachLocal ht hx
  | sendUp h0 hn he hx => exact hi.sendUp h0 hn he hx
  | rootLocal _ h0 hx => exact hi.rootLocal h0 hx
  | attach hm ht => exact hi.attach hm ht
  | forward hm h0 _ => exact hi.forward hm h0
  | rootRemote hm h0 _ he => exact hi.rootRemote hm h0 he
  | adopt hm hw => exact hi.adopt hm hw
  | announce hm _ => exact hi.announce hm

end Forest

end Hypercomm.TreeBuilder
