import Mathlib.Data.Finset.Card
import Hypercomm.Serialization.Serdes

/-! # Linearisation of a value

What a packer writes is determined by the order of a depth-first traversal. An owner
is labelled with an id, and its object is written where the owner is met first.
-/

namespace Hypercomm.Serialization

variable {ω α : Type*}

/-- What the records of an owner say: its id, a class or a size, and whether its object
is deferred. -/
structure Labels (ω : Type*) where
  ident : Option ω → ℕ
  tag : Option ω → ℕ
  defers : Option ω → Bool

inductive Val.IsShared {P : Type*} (p : Option P) : Option Ty → Val P → Prop
  | data (t : Ty) : IsShared p (some t) (.shared t p)
  | poly : IsShared p none (.sharedPoly p)

theorem Val.IsShared.slots_eq {P : Type*} {p : P} {k : Option Ty} {v : Val P}
    (h : v.IsShared (some p) k) : v.slots = [(k, p)] := by
  cases h <;> rfl

theorem Val.IsShared.mem_ptrs {P : Type*} {p : P} {k : Option Ty} {v : Val P}
    (h : v.IsShared (some p) k) : p ∈ v.ptrs := by
  cases h <;> simp

theorem Val.IsShared.ptrs_eq {P : Type*} {p : P} {k : Option Ty} {v : Val P}
    (h : v.IsShared (some p) k) : v.ptrs = [p] := by
  cases h <;> simp

/-- The cells of a value, and the owners met before and after it. Only some pointers may be
met again. -/
inductive Lin [DecidableEq α] (h : Heap ω α) (L : Labels ω) (R : Ptr ω α → Prop) :
    Val (Ptr ω α) → List (Option ω) → List Cell → List (Option ω) → Prop
  | bytes (b V) : Lin h L R (.bytes b) V (b.map .byte) V
  | builtin (b V) : Lin h L R (.builtin b) V [.puped b] V
  | unit (V) : Lin h L R .unit V [] V
  | nil (V) : Lin h L R .nil V [] V
  | pair {a b V₀ V₁ V₂ x y} : Lin h L R a V₀ x V₁ → Lin h L R b V₁ y V₂ →
      Lin h L R (.pair a b) V₀ (x ++ y) V₂
  | cons {a l V₀ V₁ V₂ x y} : Lin h L R a V₀ x V₁ → Lin h L R l V₁ y V₂ →
      Lin h L R (.cons a l) V₀ (x ++ y) V₂
  | list {l V W x} : Lin h L R l V x W → Lin h L R (.list l) V (.word l.length :: x) W
  | map {l V W x} : Lin h L R l V x W → Lin h L R (.map l) V (.word l.length :: x) W
  | uniqueNull (V) : Lin h L R .uniqueNull V [.byte 1] V
  | unique {v V W x} : Lin h L R v V x W → Lin h L R (.unique v) V (.byte 0 :: x) W
  | poly {c v V W x} : Lin h L R v V x W → Lin h L R (.poly c v) V (.word c :: x) W
  | null {v k} (V) : v.IsShared none k → Lin h L R v V [.byte 1] V
  | reference {v k p V} : v.IsShared (some p) k → R p → p.owner ∈ V →
      L.defers p.owner = false → Lin h L R v V [.byte 3, .word (L.ident p.owner)] V
  | again {v k p V} : v.IsShared (some p) k → p.owner ∈ V → L.defers p.owner = true →
      Lin h L R v V [.byte 2, .word (L.ident p.owner), .word (L.tag p.owner)] V
  | defer {v k p V} : v.IsShared (some p) k → p.owner ∉ V → L.defers p.owner = true →
      Lin h L R v V [.byte 2, .word (L.ident p.owner), .word (L.tag p.owner)] (V ++ [p.owner])
  | «instance» {v k p o V W x} : v.IsShared (some p) k → p.owner ∉ V → L.defers p.owner = false →
      h.lookup p.addr = some o → Lin h L R o.value (V ++ [p.owner]) x W →
      Lin h L R v V (.byte 4 :: .word (L.ident p.owner) :: .word (L.tag p.owner) :: x) W

section Linear

variable [DecidableEq α] {h : Heap ω α} {L L' : Labels ω} {R : Ptr ω α → Prop} {v w : Val (Ptr ω α)}
variable {V W : List (Option ω)} {x : List Cell} {p q : Ptr ω α}

theorem Lin.grows (hl : Lin h L R v V x W) : V <+: W := by
  induction hl with
  | pair _ _ iha ihb | cons _ _ iha ihb => exact iha.trans ihb
  | list _ ih | map _ ih | unique _ ih | poly _ ih => exact ih
  | defer => exact List.prefix_append _ _
  | «instance» _ _ _ _ _ ih => exact (List.prefix_append _ _).trans ih
  | _ => exact List.prefix_rfl

theorem Lin.mem (hl : Lin h L R v V x W) {o : Option ω} (ho : o ∈ V) : o ∈ W := hl.grows.subset ho

/-- Other ids and tags change the cells, but neither their sizes nor what is met. -/
theorem Lin.relabel (hd : L'.defers = L.defers) (hl : Lin h L R v V x W) :
    ∃ y, Lin h L' R v V y W ∧ size y = size x := by
  induction hl with
  | bytes b V => exact ⟨_, .bytes b V, rfl⟩
  | builtin b V => exact ⟨_, .builtin b V, rfl⟩
  | unit V => exact ⟨_, .unit V, rfl⟩
  | nil V => exact ⟨_, .nil V, rfl⟩
  | pair _ _ iha ihb =>
    obtain ⟨y, hy, hys⟩ := iha
    obtain ⟨z, hz, hzs⟩ := ihb
    exact ⟨_, .pair hy hz, by simp [hys, hzs]⟩
  | cons _ _ iha ihb =>
    obtain ⟨y, hy, hys⟩ := iha
    obtain ⟨z, hz, hzs⟩ := ihb
    exact ⟨_, .cons hy hz, by simp [hys, hzs]⟩
  | list _ ih =>
    obtain ⟨y, hy, hys⟩ := ih
    exact ⟨_, .list hy, by simp [hys]⟩
  | map _ ih =>
    obtain ⟨y, hy, hys⟩ := ih
    exact ⟨_, .map hy, by simp [hys]⟩
  | uniqueNull V => exact ⟨_, .uniqueNull V, rfl⟩
  | unique _ ih =>
    obtain ⟨y, hy, hys⟩ := ih
    exact ⟨_, .unique hy, by simp [hys]⟩
  | poly _ ih =>
    obtain ⟨y, hy, hys⟩ := ih
    exact ⟨_, .poly hy, by simp [Cell.size, hys]⟩
  | null V hs => exact ⟨_, .null V hs, rfl⟩
  | reference hs hr hm hf => exact ⟨_, .reference hs hr hm (by rw [hd, hf]), rfl⟩
  | again hs hm hf => exact ⟨_, .again hs hm (by rw [hd, hf]), rfl⟩
  | defer hs hm hf => exact ⟨_, .defer hs hm (by rw [hd, hf]), rfl⟩
  | «instance» hs hm hf ho _ ih =>
    obtain ⟨y, hy, hys⟩ := ih
    exact ⟨_, .instance hs hm (by rw [hd, hf]) ho hy, by simp [Cell.size, hys]⟩

theorem Lin.met (hl : Lin h L R v V x W) {o : Option ω} (ho : o ∈ W) :
    o ∈ V ∨ ∃ p, Reach h v p ∧ p.owner = o := by
  have sub {v w : Val (Ptr ω α)} (hs : ∀ p ∈ v.ptrs, p ∈ w.ptrs)
      (ho : ∃ p, Reach h v p ∧ p.owner = o) : ∃ p, Reach h w p ∧ p.owner = o := by
    obtain ⟨p, hp, he⟩ := ho
    exact ⟨p, hp.mono fun q hq => .root (hs q hq), he⟩
  induction hl with
  | pair ha hb iha ihb | cons ha hb iha ihb =>
    rcases ihb ho with ho | ho
    · exact (iha ho).imp_right (sub (by simp +contextual))
    · exact .inr (sub (by simp +contextual) ho)
  | list _ ih | map _ ih | unique _ ih | poly _ ih => exact (ih ho).imp_right (sub (by simp))
  | defer hs hm hf =>
    refine (List.mem_append.mp ho).imp_right fun ho => ?_
    exact ⟨_, .root hs.mem_ptrs, (List.mem_singleton.mp ho).symm⟩
  | «instance» hs hm hf hlook _ ih =>
    rcases ih ho with ho | ⟨q, hq, he⟩
    · refine (List.mem_append.mp ho).imp_right fun ho => ?_
      exact ⟨_, .root hs.mem_ptrs, (List.mem_singleton.mp ho).symm⟩
    · exact .inr ⟨q, (Reach.root hs.mem_ptrs).object hlook hq, he⟩
  | _ => exact .inl ho

/-- The owners that were met matter only as far as the value leads to them. -/
theorem Lin.shift (hl : Lin h L R v V x W) : ∃ U, W = V ++ U ∧ ∀ V',
    (∀ p, Reach h v p → (p.owner ∈ V' ↔ p.owner ∈ V)) → Lin h L R v V' x (V' ++ U) := by
  induction hl with
  | bytes b V => exact ⟨[], by simp, fun V' _ => by simpa using .bytes b V'⟩
  | builtin b V => exact ⟨[], by simp, fun V' _ => by simpa using .builtin b V'⟩
  | unit V => exact ⟨[], by simp, fun V' _ => by simpa using .unit V'⟩
  | nil V => exact ⟨[], by simp, fun V' _ => by simpa using .nil V'⟩
  | @pair a b _ _ _ _ _ _ _ iha ihb =>
    obtain ⟨U, rfl, ha⟩ := iha
    obtain ⟨U', rfl, hb⟩ := ihb
    refine ⟨U ++ U', List.append_assoc _ _ _, fun V' hV => ?_⟩
    rw [← List.append_assoc]
    apply Lin.pair
    · exact ha V' fun p hp => hV p (hp.mono fun q hq => .root (by simp [hq]))
    · apply hb
      intro p hp
      rw [List.mem_append, List.mem_append, hV p (hp.mono fun q hq => .root (by simp [hq]))]
  | @cons a b _ _ _ _ _ _ _ iha ihb =>
    obtain ⟨U, rfl, ha⟩ := iha
    obtain ⟨U', rfl, hb⟩ := ihb
    refine ⟨U ++ U', List.append_assoc _ _ _, fun V' hV => ?_⟩
    rw [← List.append_assoc]
    apply Lin.cons
    · exact ha V' fun p hp => hV p (hp.mono fun q hq => .root (by simp [hq]))
    · apply hb
      intro p hp
      rw [List.mem_append, List.mem_append, hV p (hp.mono fun q hq => .root (by simp [hq]))]
  | list _ ih =>
    obtain ⟨U, rfl, ih⟩ := ih
    refine ⟨U, rfl, fun V' hV => .list (ih V' fun p hp => hV p (hp.mono fun q hq => .root ?_))⟩
    simpa using hq
  | map _ ih =>
    obtain ⟨U, rfl, ih⟩ := ih
    refine ⟨U, rfl, fun V' hV => .map (ih V' fun p hp => hV p (hp.mono fun q hq => .root ?_))⟩
    simpa using hq
  | uniqueNull V => exact ⟨[], by simp, fun V' _ => by simpa using .uniqueNull V'⟩
  | unique _ ih =>
    obtain ⟨U, rfl, ih⟩ := ih
    refine ⟨U, rfl, fun V' hV => .unique (ih V' fun p hp => hV p (hp.mono fun q hq => .root ?_))⟩
    simpa using hq
  | poly _ ih =>
    obtain ⟨U, rfl, ih⟩ := ih
    refine ⟨U, rfl, fun V' hV => .poly (ih V' fun p hp => hV p (hp.mono fun q hq => .root ?_))⟩
    simpa using hq
  | null V hs => exact ⟨[], by simp, fun V' _ => by simpa using .null V' hs⟩
  | reference hs hr hm hd =>
    refine ⟨[], by simp, fun V' hV => ?_⟩
    rw [List.append_nil]
    exact .reference hs hr ((hV _ (.root hs.mem_ptrs)).mpr hm) hd
  | again hs hm hd =>
    refine ⟨[], by simp, fun V' hV => ?_⟩
    rw [List.append_nil]
    exact .again hs ((hV _ (.root hs.mem_ptrs)).mpr hm) hd
  | defer hs hm hd =>
    refine ⟨_, rfl, fun V' hV => ?_⟩
    exact .defer hs (mt (hV _ (.root hs.mem_ptrs)).mp hm) hd
  | @«instance» v k p o V W x hs hm hd ho hl ih =>
    obtain ⟨U, rfl, ih⟩ := ih
    refine ⟨p.owner :: U, by simp, fun V' hV => ?_⟩
    rw [List.append_cons]
    apply Lin.instance hs (mt (hV _ (.root hs.mem_ptrs)).mp hm) hd ho
    apply ih
    intro q hq
    rw [List.mem_append, List.mem_append, hV q ((Reach.root hs.mem_ptrs).object ho hq)]

theorem Lin.followed (hl : Lin h L R v V x W) : (∀ q ∈ v.ptrs, q.owner ∈ W) ∧
    ∀ o ∈ W, o ∉ V → L.defers o = false → ∃ p y, p.owner = o ∧ Reach h v p ∧
      h.lookup p.addr = some y ∧ ∀ q ∈ y.value.ptrs, q.owner ∈ W := by
  induction hl with
  | @pair a b _ V₁ _ _ _ ha hb iha ihb | @cons a b _ V₁ _ _ _ ha hb iha ihb =>
    constructor
    · intro q hq
      simp only [Val.ptrs_pair, Val.ptrs_cons, List.mem_append] at hq
      rcases hq with hq | hq
      · exact hb.mem (iha.1 q hq)
      · exact ihb.1 q hq
    · intro o ho hV hd
      by_cases hm : o ∈ V₁
      · obtain ⟨p, y, hp, hr, hy, hptrs⟩ := iha.2 o hm hV hd
        exact ⟨p, y, hp, hr.mono fun q hq => .root (by simp [hq]), hy,
          fun q hq => hb.mem (hptrs q hq)⟩
      · obtain ⟨p, y, hp, hr, hy, hptrs⟩ := ihb.2 o ho hm hd
        exact ⟨p, y, hp, hr.mono fun q hq => .root (by simp [hq]), hy, hptrs⟩
  | list _ ih | map _ ih | unique _ ih | poly _ ih =>
    refine ⟨ih.1, fun o ho hV hd => ?_⟩
    obtain ⟨p, y, hp, hr, hrest⟩ := ih.2 o ho hV hd
    exact ⟨p, y, hp, hr.mono fun q hq => .root (by simpa using hq), hrest⟩
  | reference hs _ hm _ | again hs hm _ =>
    refine ⟨fun q hq => ?_, fun o ho hV => absurd ho hV⟩
    rw [hs.ptrs_eq, List.mem_singleton] at hq
    exact hq ▸ hm
  | defer hs _ hd =>
    constructor
    · intro q hq
      rw [hs.ptrs_eq, List.mem_singleton] at hq
      simp [hq]
    · intro o ho hV hdo
      obtain rfl := List.mem_singleton.mp ((List.mem_append.mp ho).resolve_left hV)
      simp [hd] at hdo
  | @«instance» v k p y V x W hs hm hd ho hl ih =>
    constructor
    · intro q hq
      rw [hs.ptrs_eq, List.mem_singleton] at hq
      exact hq ▸ hl.mem (by simp)
    · intro q hq hV hdq
      by_cases hqp : q = p.owner
      · exact ⟨p, y, hqp.symm, .root hs.mem_ptrs, ho, ih.1⟩
      · obtain ⟨r, z, hr, hreach, hrest⟩ := ih.2 q hq (by simp [hV, hqp]) hdq
        exact ⟨r, z, hr, (Reach.root hs.mem_ptrs).object ho hreach, hrest⟩
  | null V hs =>
    refine ⟨fun q hq => ?_, fun o ho hV => absurd ho hV⟩
    cases hs <;> simp at hq
  | _ => exact ⟨fun q hq => absurd hq List.not_mem_nil, fun o ho hV => absurd ho hV⟩

section Existence

variable [DecidableEq ω] {S : Finset (Option ω)}

theorem card_filter_lt {o : Option ω} (ho : o ∈ S) (hV : o ∉ V) :
    (S.filter (· ∉ V ++ [o])).card < (S.filter (· ∉ V)).card := by
  refine Finset.card_lt_card (Finset.ssubset_iff_subset_ne.mpr ⟨fun q hq => ?_, fun he => ?_⟩)
  · simp only [Finset.mem_filter, List.mem_append, not_or] at hq ⊢
    exact ⟨hq.1, hq.2.1⟩
  · have : o ∈ S.filter (· ∉ V) := by simp [ho, hV]
    simp [← he] at this

theorem card_filter_mono (hVW : V <+: W) :
    (S.filter (· ∉ W)).card ≤ (S.filter (· ∉ V)).card := by
  refine Finset.card_le_card fun q hq => ?_
  simp only [Finset.mem_filter] at hq ⊢
  exact ⟨hq.1, fun hV => hq.2 (hVW.subset hV)⟩

theorem exists_lin_shared {k : Option Ty} (L : Labels ω) (hR : R p) (hs : v.IsShared (some p) k)
    (ho : p.owner ∉ V → ∃ o x W, h.lookup p.addr = some o ∧
      Lin h L R o.value (V ++ [p.owner]) x W) : ∃ x W, Lin h L R v V x W := by
  by_cases hV : p.owner ∈ V
  · cases hd : L.defers p.owner with
    | false => exact ⟨_, _, .reference hs hR hV hd⟩
    | true => exact ⟨_, _, .again hs hV hd⟩
  · cases hd : L.defers p.owner with
    | false =>
      obtain ⟨o, x, W, hlook, hl⟩ := ho hV
      exact ⟨_, _, .instance hs hV hd hlook hl⟩
    | true => exact ⟨_, _, .defer hs hV hd⟩

/-- Finitely many owners are met one after another, so the traversal of a well-typed value
ends: each object it follows is met first there. -/
theorem exists_lin {fields : ℕ → Ty} {G : Ptr ω α → Prop}
    (hstep : ∀ p q, G p → Edge h p q → G q)
    (htyped : ∀ p o, G p → h.lookup p.addr = some o → o.HasTy fields h)
    (hS : ∀ p, G p → p.owner ∈ S) (hR : ∀ p, R p) (L : Labels ω) (n : ℕ)
    (v : Val (Ptr ω α)) (V : List (Option ω)) (hG : ∀ p ∈ v.ptrs, G p)
    (hv : Typed fields h v) (hn : (S.filter (· ∉ V)).card ≤ n) :
    ∃ x W, Lin h L R v V x W := by
  induction n using Nat.strongRecOn generalizing v V with
  | ind n ihn =>
    have shared {v : Val (Ptr ω α)} {k : Option Ty} {p : Ptr ω α} {o : Obj (Ptr ω α)}
        {V : List (Option ω)} (hn : (S.filter (· ∉ V)).card ≤ n) (hs : v.IsShared (some p) k)
        (hp : G p) (ho : h.lookup p.addr = some o) : ∃ x W, Lin h L R v V x W := by
      refine exists_lin_shared L (hR p) hs fun hV => ?_
      obtain ⟨x, W, hl⟩ := ihn _ ((card_filter_lt (hS p hp) hV).trans_le hn) o.value
        (V ++ [p.owner]) (fun q hq => hstep p q hp ⟨o, ho, hq⟩) (htyped p o hp ho).typed le_rfl
      exact ⟨o, x, W, ho, hl⟩
    induction v generalizing V with
    | bytes b => exact ⟨_, _, .bytes b V⟩
    | builtin b => exact ⟨_, _, .builtin b V⟩
    | unit => exact ⟨_, _, .unit V⟩
    | nil => exact ⟨_, _, .nil V⟩
    | pair a b iha ihb =>
      simp only [Val.ptrs_pair, List.mem_append] at hG
      obtain ⟨x, W, hx⟩ := iha V (fun p hp => hG p (.inl hp)) hv.pair.1 hn
      obtain ⟨y, U, hy⟩ := ihb W (fun p hp => hG p (.inr hp)) hv.pair.2
        ((card_filter_mono hx.grows).trans hn)
      exact ⟨_, _, .pair hx hy⟩
    | cons a l iha ihl =>
      simp only [Val.ptrs_cons, List.mem_append] at hG
      obtain ⟨x, W, hx⟩ := iha V (fun p hp => hG p (.inl hp)) hv.cons.1 hn
      obtain ⟨y, U, hy⟩ := ihl W (fun p hp => hG p (.inr hp)) hv.cons.2
        ((card_filter_mono hx.grows).trans hn)
      exact ⟨_, _, .cons hx hy⟩
    | list l ih =>
      obtain ⟨x, W, hx⟩ := ih V hG hv.list hn
      exact ⟨_, _, .list hx⟩
    | map l ih =>
      obtain ⟨x, W, hx⟩ := ih V hG hv.map hn
      exact ⟨_, _, .map hx⟩
    | uniqueNull => exact ⟨_, _, .uniqueNull V⟩
    | unique v ih =>
      obtain ⟨x, W, hx⟩ := ih V hG hv.unique hn
      exact ⟨_, _, .unique hx⟩
    | polyNull => exact absurd hv not_typed_polyNull
    | poly c v ih =>
      obtain ⟨x, W, hx⟩ := ih V hG hv.poly hn
      exact ⟨_, _, .poly hx⟩
    | shared t p =>
      cases p with
      | none => exact ⟨_, _, .null V (.data t)⟩
      | some p =>
        obtain ⟨w, ho⟩ := hv.shared
        exact shared hn (.data t) (hG p (by simp)) ho
    | sharedPoly p =>
      cases p with
      | none => exact ⟨_, _, .null V .poly⟩
      | some p =>
        obtain ⟨c, w, ho⟩ := hv.sharedPoly
        exact shared hn .poly (hG p (by simp)) ho

end Existence

end Linear

end Hypercomm.Serialization
