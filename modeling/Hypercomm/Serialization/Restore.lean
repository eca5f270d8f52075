import Hypercomm.Serialization.Instances

/-! # Unpacking restores what was packed

Reading a linear form makes a new object where an owner was met first, and the same
pointer again where it was met before. It fails only when a value is not safe to unpack,
or when two objects share an owner.
-/

namespace Hypercomm.Serialization

variable {ω α : Type*} [DecidableEq α]

section Outcome

variable (S : Setting ω α) (opened unreg : Option ω → Prop) (slot : Slot) (v : Val (Ptr ω α))
variable (W : List (Option ω)) (x rest : List Cell) (u u' : Unpacker)

structure Done : Prop where
  input : u'.input = rest
  offset : u'.offset = u.offset + size x
  grows : Extends u u'
  inv : Inv S W u' opened unreg
  held : Held S.labels W u' v
  safe : v.Safe S.deferrable slot

/-- A value is read with its pointers renamed, or it was not safe. -/
def Outcome (res : Except Fault (UVal × Unpacker)) : Prop :=
  (∃ u', res = .ok (v.rename (S.labels.image u'), u') ∧
    Done S opened unreg slot v W x rest u u') ∨
  ∃ e, res = .error e ∧ (S.Clean → ¬ AllSafe S.heap S.deferrable slot v)

/-- The open objects without an instance are data, and all of them lead to the value. -/
def Inside : Prop :=
  ∀ o, unreg o → ∃ p t, S.mem p ∧ p.owner = o ∧ Pointee S.heap (some t) p ∧
    ¬ IsBytes S.heap p ∧ ∀ r ∈ v.ptrs, Relation.TransGen (Edge S.heap) p r

end Outcome

variable {S : Setting ω α} {fields : ℕ → Ty} {opened unreg : Option ω → Prop}
variable {slot slot' : Slot} {v w a b l : Val (Ptr ω α)} {V W W' : List (Option ω)}
variable {x y rest : List Cell} {u u' u₀ : Unpacker} {p q : Ptr ω α} {c : Cell}
variable {res : Except Fault (UVal × Unpacker)}

theorem AllSafe.sub {d : Bool} {h : Heap ω α} (hw : AllSafe h d slot w) (hs : v.Safe d slot')
    (hp : ∀ p ∈ v.ptrs, p ∈ w.ptrs) : AllSafe h d slot' v :=
  ⟨hs, fun p o hr ho => hw.2 p o (hr.mono fun q hq => .root (hp q hq)) ho⟩

theorem AllSafe.object {d : Bool} {h : Heap ω α} {o : Obj (Ptr ω α)} (hw : AllSafe h d slot w)
    (hp : p ∈ w.ptrs) (ho : h.lookup p.addr = some o) (hs : o.value.Safe d slot') :
    AllSafe h d slot' o.value :=
  ⟨hs, fun q o' hr ho' => hw.2 q o' ((Reach.root hp).object ho hr) ho'⟩

theorem Inside.mono (hi : Inside S unreg w) (hp : ∀ p ∈ v.ptrs, p ∈ w.ptrs) :
    Inside S unreg v := by
  intro o ho
  obtain ⟨p, t, hm, hpo, ht, hb, hr⟩ := hi o ho
  exact ⟨p, t, hm, hpo, ht, hb, fun r hv => hr r (hp r hv)⟩

theorem Inside.object (hi : Inside S unreg v) (hp : p ∈ v.ptrs) {o : Obj (Ptr ω α)}
    (ho : S.heap.lookup p.addr = some o) : Inside S unreg o.value := by
  intro k hk
  obtain ⟨q, t, hm, hq, ht, hb, hr⟩ := hi k hk
  exact ⟨q, t, hm, hq, ht, hb, fun r hv => (hr p hp).tail ⟨o, ho, hv⟩⟩

theorem Inside.open_data (hi : Inside S unreg v) (hm : S.mem p) (hp : p ∈ v.ptrs) {t : Ty}
    (ho : S.heap.lookup p.addr = some (.data t w)) (hb : ¬ IsBytes S.heap p) :
    Inside S (fun o => o = p.owner ∨ unreg o) w := by
  rintro o (rfl | ho')
  · exact ⟨p, t, hm, rfl, ⟨w, ho⟩, hb, fun r hr => .single ⟨_, ho, hr⟩⟩
  · exact hi.object hp ho o ho'

/-- A pointer that was met is registered, as the objects without an instance do not lead to
themselves. -/
theorem Inv.registered_of_inside (hS : S.Graph fields) (hi : Inv S V u opened unreg)
    (hin : Inside S unreg v) (hm : S.mem p) (hp : p ∈ v.ptrs) (hV : p.owner ∈ V) :
    S.labels.Registered u p.owner := by
  refine hi.registered _ hV fun hu => ?_
  obtain ⟨q, t, hq, hqp, ht, hb, hr⟩ := hin _ hu
  rcases hS.merge q p hq hm hqp with ha | ⟨hb', -⟩
  · exact hS.acyclic q p t hq ht (hr p hp) ha
  · exact hb hb'

theorem Outcome.wrap {f : UVal → UVal} (hv : Outcome S opened unreg slot' v W x rest
      (u.skip [c] (x ++ rest)) res) (hf : ∀ g, w.rename g = f (v.rename g))
    (hp : w.ptrs = v.ptrs) (hs : w.Safe S.deferrable slot ↔ v.Safe S.deferrable slot') :
    Outcome S opened unreg slot w W (c :: x) rest u (res.bind fun a => .ok (f a.1, a.2)) := by
  rcases hv with ⟨u', rfl, hd⟩ | ⟨e, rfl, hu⟩
  · refine .inl ⟨u', by simp [hf], hd.input, ?_, ?_, hd.inv, ?_, hs.mpr hd.safe⟩
    · rw [hd.offset]
      simp [Unpacker.skip, Nat.add_assoc]
    · exact (Extends.refl.skip [c] (x ++ rest)).trans hd.grows
    · intro p hpw
      exact hd.held p (hp ▸ hpw)
  · refine .inr ⟨e, rfl, fun hc hw => hu hc ?_⟩
    exact hw.sub (hs.mp hw.1) (by simp [hp])

theorem Outcome.seq {f : UVal → UVal → UVal} {k : UVal → Unpacker → Except Fault (UVal × Unpacker)}
    (ha : Outcome S opened unreg slot a V x (y ++ rest) u res)
    (hb : ∀ u', Done S opened unreg slot a V x (y ++ rest) u u' →
      Outcome S opened unreg slot b W y rest u' (k (a.rename (S.labels.image u')) u'))
    (hf : ∀ g, w.rename g = f (a.rename g) (b.rename g)) (hVW : ∀ o ∈ V, o ∈ W)
    (hp : w.ptrs = a.ptrs ++ b.ptrs)
    (hs : w.Safe S.deferrable slot ↔ a.Safe S.deferrable slot ∧ b.Safe S.deferrable slot) :
    Outcome S opened unreg slot w W (x ++ y) rest u
      (res.bind fun a => (k a.1 a.2).bind fun b => .ok (f a.1 b.1, b.2)) := by
  rcases ha with ⟨u₁, rfl, h₁⟩ | ⟨e, rfl, hu⟩
  · rw [ok_bind]
    rcases hb u₁ h₁ with ⟨u₂, he, h₂⟩ | ⟨e, he, hu⟩
    · rw [he]
      refine .inl ⟨u₂, ?_, h₂.input, ?_, h₁.grows.trans h₂.grows, h₂.inv, ?_,
        hs.mpr ⟨h₁.safe, h₂.safe⟩⟩
      · rw [ok_bind, hf, h₁.held.rename_eq h₂.grows]
      · rw [h₂.offset, h₁.offset, size_append, Nat.add_assoc]
      · intro p hpw
        rcases List.mem_append.mp (hp ▸ hpw) with hpa | hpb
        · exact h₁.held.mono hVW h₂.grows p hpa
        · exact h₂.held p hpb
    · rw [he]
      refine .inr ⟨e, rfl, fun hc hw => hu hc ?_⟩
      exact hw.sub (hs.mp hw.1).2 (by simp +contextual [hp])
  · refine .inr ⟨e, rfl, fun hc hw => hu hc ?_⟩
    exact hw.sub (hs.mp hw.1).1 (by simp +contextual [hp])

section Shared

variable {k : Option Ty} {t : Ty} {f : ℕ → Unpacker → Except Fault (UVal × Unpacker)}

theorem Val.IsShared.pointee {h : Heap ω α} (hs : v.IsShared (some p) k)
    (ht : HasTy fields h v t) : Pointee h k p := by
  cases hs with
  | data s => exact Typed.shared ⟨_, .inl ht⟩
  | poly => exact Typed.sharedPoly ⟨_, .inl ht⟩

theorem Val.IsShared.not_elems {h : Heap ω α} {p : Option (Ptr ω α)} (hs : v.IsShared p k) :
    ¬ Elems fields h v t := by
  cases hs <;> intro he <;> cases he

theorem Val.IsShared.safe (hS : S.Graph fields) (hs : v.IsShared (some p) k) (hm : S.mem p)
    (hk : Pointee S.heap k p) (hd : S.labels.defers p.owner = false) :
    v.Safe S.deferrable slot := by
  cases hs with
  | data s =>
    obtain ⟨hf, -, -⟩ := hS.fits _ p hm hk
    exact fun _ => hf.symm.trans hd
  | poly => trivial

theorem Inv.getInstance (hi : Inv S V u opened unreg) (hm : S.mem p)
    (hr : S.labels.Registered u p.owner) (hd : S.labels.defers p.owner = false)
    (hlock : S.source.isSome ∨ ¬ IsBytes S.heap p) :
    u.getInstance (S.labels.ident p.owner) = some (S.labels.image u p) := by
  have hl := hr.lookup hd
  have hsome : (S.labels.image u p).owner.isSome := by
    rcases hi.shape p _ hm hl with ⟨hb, n, hn⟩ | ⟨-, n, hn⟩
    · rw [hn]
      exact hlock.resolve_right fun h => h hb
    · rw [hn]
      rfl
  simp [Unpacker.getInstance, hl, hsome]

theorem Outcome.reference (hS : S.Graph fields) (hi : Inv S V u opened unreg)
    (hs : v.IsShared (some p) k) (hm : S.mem p) (ht : HasTy fields S.heap v t) (hV : p.owner ∈ V)
    (hr : S.labels.Registered u p.owner) (hd : S.labels.defers p.owner = false)
    (hlock : S.source.isSome ∨ ¬ IsBytes S.heap p)
    (hx : u.input = .byte 3 :: .word (S.labels.ident p.owner) :: rest) :
    Outcome S opened unreg slot v V [.byte 3, .word (S.labels.ident p.owner)] rest u
      (unpack f t slot u) := by
  set cs : List Cell := [.byte 3, .word (S.labels.ident p.owner)] with hcs
  have hrec := Unpacker.record_reference hx
  have hget := (hi.skip cs rest).getInstance hm hr hd hlock
  refine .inl ⟨u.skip cs rest, ?_, rfl, rfl, Extends.refl.skip cs rest, hi.skip cs rest, ?_,
    hs.safe hS hm (hs.pointee ht) hd⟩
  · cases hs with
    | data s =>
      cases ht
      rw [unpack_shared_reference hrec rfl, hget]
      rfl
    | poly =>
      cases ht
      rw [unpack_sharedPoly_reference hrec rfl, hget]
      rfl
  · intro q hq
    rw [hs.ptrs_eq, List.mem_singleton] at hq
    exact hq ▸ ⟨hV, hr⟩

theorem Outcome.deferred (hS : S.Graph fields) (hi : Inv S V u opened unreg)
    (hs : v.IsShared (some p) k) (hm : S.mem p) (ht : HasTy fields S.heap v t)
    (hVW : ∀ q, q ∈ W ↔ q ∈ V ∨ q = p.owner) (hd : S.labels.defers p.owner = true)
    (hx : u.input = .byte 2 :: .word (S.labels.ident p.owner) ::
      .word (S.labels.tag p.owner) :: rest) :
    Outcome S opened unreg slot v W [.byte 2, .word (S.labels.ident p.owner),
      .word (S.labels.tag p.owner)] rest u (unpack f t slot u) := by
  set cs : List Cell := [.byte 2, .word (S.labels.ident p.owner), .word (S.labels.tag p.owner)]
    with hcs
  have hrec := Unpacker.record_deferred hx
  have hfit := hS.fits k p hm (hs.pointee ht)
  cases hs with
  | poly => simp [Labels.Fits, hd] at hfit
  | data s =>
    obtain ⟨hdt, hbytes, -⟩ := hfit
    rw [hd] at hdt
    obtain rfl := hbytes hdt.symm
    cases ht
    have hdef : (u.skip cs rest).deferrable = true := by
      rw [(hi.skip cs rest).deferrable]
      simp only [Ty.defers, Bool.true_eq, Bool.and_eq_true] at hdt
      exact hdt.1
    rw [unpack_shared_deferred hrec rfl, Unpacker.putDeferred, if_pos hdef]
    by_cases hslot : slot.temporary = true
    · refine .inr ⟨.undefined, by simp [hslot], fun _ hsafe => ?_⟩
      simp [hsafe.1 hslot] at hdt
    · refine .inl ⟨{ u.skip cs rest with
          deferred := upsert (S.labels.ident p.owner) (fun _ => S.labels.tag p.owner) u.deferred },
        ?_, rfl, rfl, ?_,
        (hi.skip cs rest).putDeferred hd hVW _, ?_, fun h => absurd h hslot⟩
      · rw [if_neg hslot, ok_bind]
        simp only [Val.rename, Option.map_some, Labels.image, hd, if_true]
        rfl
      · exact ⟨fun _ _ => id, fun _ _ => rfl, Nat.le_add_right _ _, le_rfl⟩
      · intro q hq
        obtain rfl : q = p := by simpa using hq
        exact ⟨(hVW _).mpr (.inr rfl), .inl hd⟩

theorem Setting.Graph.isBytes_iff (hS : S.Graph fields) (hm : S.mem p) (hq : S.mem q)
    (ho : p.owner = q.owner) : IsBytes S.heap p ↔ IsBytes S.heap q := by
  rcases hS.merge p q hm hq ho with ha | ⟨hp, hq⟩
  · rw [IsBytes, IsBytes, ha]
  · exact iff_of_true hp hq

theorem Inv.read_instance (hS : S.Graph fields) (hi : Inv S V u opened unreg)
    (hV : p.owner ∉ V) (hd : S.labels.defers p.owner = false) (cs ds : List Cell) :
    Inv S (V ++ [p.owner]) (u.skip cs ds) (fun o => o = p.owner ∨ opened o)
      (fun o => o = p.owner ∨ unreg o) :=
  (hi.meet hS hV hd).skip cs ds

theorem Outcome.bytes {n : ℕ} {c : List UInt8} (hS : S.Graph fields)
    (hi : Inv S V u opened unreg) (hm : S.mem p) (hV : p.owner ∉ V)
    (hd : S.labels.defers p.owner = false)
    (ho : S.heap.lookup p.addr = some (.data (.bytes n) (.bytes c))) (hc : c.length = n)
    (hx : u.input = .byte 4 :: .word (S.labels.ident p.owner) :: .word (S.labels.tag p.owner) ::
      (c.map .byte ++ rest)) :
    Outcome S opened unreg slot (.shared (.bytes n) (some p)) (V ++ [p.owner])
      (.byte 4 :: .word (S.labels.ident p.owner) :: .word (S.labels.tag p.owner) :: c.map .byte)
      rest u (unpack f (.shared (.bytes n)) slot u) := by
  have hrec := Unpacker.record_instance hx
  set cs : List Cell := [.byte 4, .word (S.labels.ident p.owner), .word (S.labels.tag p.owner)]
  have hbytes := Unpacker.bytes_eq (u := u.skip cs (c.map .byte ++ rest)) rfl
  have hmeet := hi.meet hS hV hd
  have hnone := hmeet.pending p hm (.inl rfl)
  have hb : IsBytes S.heap p := ⟨n, _, ho⟩
  set a : Ptr Owner Place := ⟨u.source, .message (u.offset + size cs)⟩ with ha
  set u₁ : Unpacker := (u.skip cs (c.map .byte ++ rest)).skip (c.map .byte) rest
  have hputs : Puts (S.labels.ident p.owner) a u (u₁.register (S.labels.ident p.owner) a) :=
    ⟨rfl, rfl, (Nat.le_add_right _ _).trans (Nat.le_add_right _ _), le_rfl, rfl, rfl, rfl⟩
  have hfresh : ¬ u.Taken a.addr := by
    show ¬ u.offset + size cs ≤ u.offset
    simp [cs, Cell.size]
  have hreg := hmeet.register hS hm hputs (fun h => hV (hi.unreg_met _ h)) hfresh
    (Nat.le_add_right _ _) fun q hq hqp => .inl
      ⟨(hS.isBytes_iff hm hq hqp.symm).mp hb, _, by rw [ha, hi.source]⟩
  have hlook := (hputs.lookup (S.labels.ident p.owner)).trans (if_pos rfl)
  have himage := image_of_lookup (p := p) hd hlook
  have hr : S.labels.Registered (u₁.register (S.labels.ident p.owner) a) p.owner :=
    .inr (by rw [hlook]; rfl)
  have hclose := hreg.close hS hm ho hr hd (by simp [Held, Obj.value, Val.ptrs, Val.slots])
    trivial
  rw [himage] at hclose
  refine .inl ⟨_, ?_, rfl, ?_, (hputs.extends hnone).enter hfresh _, hclose, ?_,
    (Val.IsShared.data _).safe hS hm ⟨_, ho⟩ hd⟩
  · have hn : u₁.instances.lookup (S.labels.ident p.owner) = none := hnone
    rw [unpack_shared_bytes hrec rfl (hc ▸ hbytes) hn]
    simp only [Val.rename, Option.map_some, image_enter, himage]
    rfl
  · show u.offset + size cs + size (c.map .byte) = _
    simp [cs, Nat.add_assoc]
  · intro q hq
    obtain rfl : q = p := by simpa using hq
    exact ⟨by simp, hr⟩

theorem Outcome.data (hS : S.Graph fields) (hi : Inv S V u opened unreg) (hm : S.mem p)
    (hV : p.owner ∉ V) (hd : S.labels.defers p.owner = false) (hVW : p.owner ∈ W)
    (ho : S.heap.lookup p.addr = some (.data t w)) (hb : ∀ n, t ≠ .bytes n)
    (hx : u.input = .byte 4 :: .word (S.labels.ident p.owner) :: .word (S.labels.tag p.owner) ::
      (x ++ rest))
    (hw : ∀ u', u' = u.skip [.byte 4, .word (S.labels.ident p.owner),
        .word (S.labels.tag p.owner)] (x ++ rest) →
      Outcome S (fun o => o = p.owner ∨ opened o) (fun o => o = p.owner ∨ unreg o) .allocated w W
        x rest u' (unpack f t .allocated u')) :
    Outcome S opened unreg slot (.shared t (some p)) W
      (.byte 4 :: .word (S.labels.ident p.owner) :: .word (S.labels.tag p.owner) :: x)
      rest u (unpack f (.shared t) slot u) := by
  have hrec := Unpacker.record_instance hx
  set cs : List Cell := [.byte 4, .word (S.labels.ident p.owner), .word (S.labels.tag p.owner)]
  have hnb : ¬ IsBytes S.heap p := by
    rintro ⟨n, c, hc⟩
    rw [ho] at hc
    cases hc
    exact hb n rfl
  rcases hw _ rfl with ⟨u₁, he, h₁⟩ | ⟨e, he, hu⟩
  · have hnone := h₁.inv.pending p hm (.inl rfl)
    have hputs : Puts (S.labels.ident p.owner) u₁.allocate.1 u₁
        (u₁.allocate.2.register (S.labels.ident p.owner) u₁.allocate.1) :=
      ⟨rfl, rfl, le_rfl, Nat.le_succ _, rfl, rfl, rfl⟩
    have hfresh : ¬ u₁.Taken u₁.allocate.1.addr := lt_irrefl u₁.allocated
    have hreg := h₁.inv.register hS hm hputs (fun h => hV (hi.unreg_met _ h)) hfresh
      (Nat.lt_succ_self _) fun q hq hqp => .inr
        ⟨fun h => hnb ((hS.isBytes_iff hm hq hqp.symm).mpr h), _, rfl⟩
    have hlook := (hputs.lookup (S.labels.ident p.owner)).trans (if_pos rfl)
    have himage := image_of_lookup (p := p) hd hlook
    have hr : S.labels.Registered (u₁.allocate.2.register (S.labels.ident p.owner)
      u₁.allocate.1) p.owner := .inr (by rw [hlook]; rfl)
    have hgrows := hputs.extends hnone
    have hclose := hreg.close hS hm ho hr hd (h₁.held.mono (fun _ => id) hgrows) h₁.safe
    rw [himage, Obj.rename, h₁.held.rename_eq hgrows] at hclose
    refine .inl ⟨_, ?_, ?_, ?_, ?_, hclose, ?_, (Val.IsShared.data _).safe hS hm ⟨_, ho⟩ hd⟩
    · rw [unpack_shared_ok hrec rfl hb he hnone]
      simp only [Val.rename, Option.map_some, image_enter, himage]
    · exact h₁.input
    · show u₁.offset = _
      rw [h₁.offset]
      simp [cs, Unpacker.skip, Nat.add_assoc]
    · exact ((Extends.refl.skip cs _).trans h₁.grows).trans (hgrows.enter hfresh _)
    · intro q hq
      obtain rfl : q = p := by simpa using hq
      exact ⟨hVW, hr⟩
  · refine .inr ⟨e, unpack_shared_error hrec rfl hb he, fun hc hsafe => hu hc ?_⟩
    exact hsafe.object (by simp) ho (hsafe.2 p _ (.root (by simp)) ho)

/-- A polymorph has its instance before its fields are unpacked. -/
theorem Outcome.polymorph {c : ℕ} (hS : S.Graph fields) (hi : Inv S V u opened unreg)
    (hm : S.mem p) (hV : p.owner ∉ V) (hd : S.labels.defers p.owner = false) (hVW : p.owner ∈ W)
    (ho : S.heap.lookup p.addr = some (.poly c w)) (hc : S.labels.tag p.owner = c)
    (hx : u.input = .byte 4 :: .word (S.labels.ident p.owner) :: .word (S.labels.tag p.owner) ::
      (x ++ rest))
    (hw : ∀ u', Inv S (V ++ [p.owner]) u' (fun o => o = p.owner ∨ opened o) unreg →
      u'.input = x ++ rest → Outcome S (fun o => o = p.owner ∨ opened o) unreg .member w W
        x rest u' (f c u')) :
    Outcome S opened unreg slot (.sharedPoly (some p)) W
      (.byte 4 :: .word (S.labels.ident p.owner) :: .word (S.labels.tag p.owner) :: x)
      rest u (unpack f .sharedPoly slot u) := by
  have hrec := Unpacker.record_instance hx
  set cs : List Cell := [.byte 4, .word (S.labels.ident p.owner), .word (S.labels.tag p.owner)]
  have hnb : ¬ IsBytes S.heap p := by
    rintro ⟨n, c, hc⟩
    rw [ho] at hc
    cases hc
  set u₀ : Unpacker := u.skip cs (x ++ rest) with hu₀
  have hmeet : Inv S (V ++ [p.owner]) u₀ _ _ := (hi.meet hS hV hd).skip cs (x ++ rest)
  have hnone := hmeet.pending p hm (.inl rfl)
  have hputs : Puts (S.labels.ident p.owner) u₀.allocate.1 u₀
      (u₀.allocate.2.register (S.labels.ident p.owner) u₀.allocate.1) :=
    ⟨rfl, rfl, le_rfl, Nat.le_succ _, rfl, rfl, rfl⟩
  have hfresh : ¬ u₀.Taken u₀.allocate.1.addr := lt_irrefl u₀.allocated
  have hreg := hmeet.register hS hm hputs (fun h => hV (hi.unreg_met _ h)) hfresh
    (Nat.lt_succ_self _) fun q hq hqp => .inr
      ⟨fun h => hnb ((hS.isBytes_iff hm hq hqp.symm).mpr h), _, rfl⟩
  have hgrows := hputs.extends hnone
  have hread : unpack f .sharedPoly slot u = _ := unpack_sharedPoly_instance hrec rfl hnone
  have hlook := (hputs.lookup (S.labels.ident p.owner)).trans (if_pos rfl)
  have himage := image_of_lookup (p := p) hd hlook
  have hr : S.labels.Registered (u₀.allocate.2.register (S.labels.ident p.owner)
    u₀.allocate.1) p.owner := .inr (by rw [hlook]; rfl)
  simp only [hc] at hread
  rcases hw _ hreg rfl with ⟨u₁, he, h₁⟩ | ⟨e, he, hu⟩
  · have himage₁ := (hr.image_eq (p := p) h₁.grows).trans himage
    have hr₁ := hr.mono h₁.grows
    have hclose := h₁.inv.close hS hm ho hr₁ hd h₁.held h₁.safe
    rw [himage₁, Obj.rename] at hclose
    refine .inl ⟨_, ?_, ?_, ?_, ?_, hclose, ?_, trivial⟩
    · rw [hread, he, ok_bind]
      simp only [Val.rename, Option.map_some, image_enter, himage₁]
    · exact h₁.input
    · show u₁.offset = _
      rw [h₁.offset]
      show u.offset + size cs + size x = _
      simp [cs, Nat.add_assoc]
    · exact (Extends.refl.skip cs _).trans ((hgrows.trans h₁.grows).enter hfresh _)
    · intro q hq
      obtain rfl : q = p := by simpa using hq
      exact ⟨hVW, hr₁⟩
  · refine .inr ⟨e, by rw [hread, he]; rfl, fun hc hsafe => hu hc ?_⟩
    exact hsafe.object (by simp) ho (hsafe.2 p _ (.root (by simp)) ho)

end Shared

/-- The container accepts all elements, or it is a map and the keys are distinct. -/
def Accepts (accepts : List UVal → UVal → Bool) (seen : List (Val (Ptr ω α)))
    (l : Val (Ptr ω α)) : Prop :=
  accepts = (fun _ _ => true) ∨
    accepts = acceptsEntry ∧ (seen.map Val.key ++ l.keys).Nodup

structure Unpacks (S : Setting ω α) (fields : ℕ → Ty) (opened unreg : Option ω → Prop)
    (v : Val (Ptr ω α)) (W : List (Option ω)) (x rest : List Cell) (u : Unpacker) (m : ℕ) :
    Prop where
  value : ∀ t slot, HasTy fields S.heap v t →
    Outcome S opened unreg slot v W x rest u (unpack (unpackFields fields m) t slot u)
  elements : ∀ t slot accepts seen, Elems fields S.heap v t → Accepts accepts seen v →
    (∀ a ∈ seen, (∀ p ∈ a.ptrs, S.mem p) ∧ ∀ p ∈ a.ptrs, S.labels.Registered u p.owner) →
    Outcome S opened unreg slot v W x rest u
      (unpackElements (unpack (unpackFields fields m) t slot) accepts v.length
        (seen.map (·.rename (S.labels.image u))) u)

theorem Inv.accepts (hS : S.Graph fields) (hc : S.Clean) (hi : Inv S V u opened unreg)
    {seen : List (Val (Ptr ω α))} {accepts : List UVal → UVal → Bool}
    (ha : Accepts accepts seen (.cons a l))
    (hm : ∀ p ∈ a.ptrs, S.mem p) (hr : ∀ p ∈ a.ptrs, S.labels.Registered u p.owner)
    (hseen : ∀ b ∈ seen, (∀ p ∈ b.ptrs, S.mem p) ∧
      ∀ p ∈ b.ptrs, S.labels.Registered u p.owner) :
    accepts (seen.map (·.rename (S.labels.image u))) (a.rename (S.labels.image u)) = true := by
  rcases ha with rfl | ⟨rfl, hn⟩
  · rfl
  · rw [acceptsEntry, decide_eq_true_eq]
    intro hk
    obtain ⟨b', hb', he⟩ := List.mem_map.mp hk
    obtain ⟨b, hb, rfl⟩ := List.mem_map.mp hb'
    have hne : b.key ≠ a.key := by
      intro h
      rw [List.nodup_append] at hn
      exact hn.2.2 _ (List.mem_map_of_mem hb) _ (by simp [Val.keys]) h
    rw [Val.key_rename, Val.key_rename] at he
    apply hne
    have sub {c : Val (Ptr ω α)} {k : Val (Ptr ω α)} (hk : c.key = some k) :
        ∀ p ∈ k.ptrs, p ∈ c.ptrs := by
      cases c with
      | pair k' w =>
        cases hk
        simp +contextual
      | _ => cases hk
    cases hbk : b.key with
    | none => cases hak : a.key with
      | none => rfl
      | some k => simp [hbk, hak] at he
    | some j => cases hak : a.key with
      | none => simp [hbk, hak] at he
      | some k =>
        simp only [hbk, hak, Option.map_some, Option.some.injEq] at he
        rw [Val.eq_of_rename_eq _ he]
        intro p hp q hq hpq
        have hpm := (hseen b hb).1 p (sub hbk p hp)
        have hqm := hm q (sub hak q hq)
        have ho := hi.owner_eq_of_image_eq hS hpm hqm ((hseen b hb).2 p (sub hbk p hp))
          (hr q (sub hak q hq)) (congrArg Ptr.addr hpq)
        have hadr := hc p q hpm hqm ho
        cases p
        cases q
        simp_all

theorem Outcome.leaf (hi : Inv S V u opened unreg) (hp : v.ptrs = [])
    (hs : v.Safe S.deferrable slot)
    (h : res = .ok (v.rename (S.labels.image (u.skip x rest)), u.skip x rest)) :
    Outcome S opened unreg slot v V x rest u res :=
  .inl ⟨_, h, rfl, rfl, Extends.refl.skip x rest, hi.skip x rest, by simp [Held, hp], hs⟩

theorem Unpacks.cons {m : ℕ} (hS : S.Graph fields) (hm : ∀ p ∈ a.ptrs, S.mem p)
    (hVW : ∀ o ∈ V, o ∈ W) (ha : Unpacks S fields opened unreg a V x (y ++ rest) u m)
    (hl : ∀ u', u'.input = y ++ rest → Inv S V u' opened unreg →
      Unpacks S fields opened unreg l W y rest u' m) :
    Unpacks S fields opened unreg (.cons a l) W (x ++ y) rest u m where
  value t slot ht := by cases ht
  elements t slot accepts seen ht hacc hseen := by
    cases ht with
    | cons hat hlt =>
      rw [Val.length, unpackElements_succ]
      refine Outcome.seq (k := fun a u => if accepts _ a then unpackElements
        (unpack (unpackFields fields m) t slot) accepts l.length (_ ++ [a]) u else .error .abort)
        (ha.value t slot hat) (fun u₁ h₁ => ?_) (fun g => rfl) hVW (Val.ptrs_cons _ _) Iff.rfl
      have hseen₁ : ∀ b ∈ seen, (∀ p ∈ b.ptrs, S.mem p) ∧
          ∀ p ∈ b.ptrs, S.labels.Registered u₁ p.owner := fun b hb =>
        ⟨(hseen b hb).1, fun p hp => ((hseen b hb).2 p hp).mono h₁.grows⟩
      have hren : seen.map (·.rename (S.labels.image u)) =
          seen.map (·.rename (S.labels.image u₁)) :=
        List.map_congr_left fun b hb => Val.rename_congr fun p hp =>
          (((hseen b hb).2 p hp).image_eq h₁.grows).symm
      rw [hren]
      by_cases hc : accepts (seen.map (·.rename (S.labels.image u₁)))
          (a.rename (S.labels.image u₁)) = true
      · rw [if_pos hc]
        have hrest := (hl u₁ h₁.input h₁.inv).elements t slot accepts (seen ++ [a]) hlt
        rw [List.map_append] at hrest
        refine hrest ?_ ?_
        · refine hacc.imp_right fun h => ⟨h.1, ?_⟩
          simpa [Val.keys] using h.2
        · intro b hb
          rcases List.mem_append.mp hb with hb | hb
          · exact hseen₁ b hb
          · rw [List.mem_singleton.mp hb]
            exact ⟨hm, fun p hp => (h₁.held p hp).2⟩
      · rw [if_neg hc]
        refine .inr ⟨_, rfl, fun hclean => absurd ?_ hc⟩
        exact h₁.inv.accepts hS hclean hacc hm (fun p hp => (h₁.held p hp).2) hseen₁

theorem Lin.bytes_inv {h : Heap ω α} {L : Labels ω} {R : Ptr ω α → Prop} {b : List UInt8}
    (hl : Lin h L R (.bytes b) V x W) : x = b.map .byte ∧ W = V := by
  cases hl with
  | bytes => exact ⟨rfl, rfl⟩
  | null _ hs | reference hs | again hs | defer hs | «instance» hs => cases hs

/-- Unpacking the linear form of a value. -/
theorem Lin.unpacks {R : Ptr ω α → Prop} {m : ℕ} (hS : S.Graph fields)
    (hlock : ∀ p, S.mem p → R p → S.source.isSome ∨ ¬ IsBytes S.heap p)
    (hl : Lin S.heap S.labels R v V x W) (hi : Inv S V u opened unreg)
    (hx : u.input = x ++ rest) (hlen : x.length ≤ m) (hm : ∀ p ∈ v.ptrs, S.mem p)
    (hin : Inside S unreg v) : Unpacks S fields opened unreg v W x rest u m := by
  induction hl generalizing opened unreg u rest m with
  | bytes b V =>
    refine ⟨fun t slot ht => ?_, fun t slot _ _ ht => by cases ht⟩
    cases ht with
    | bytes hn =>
      refine .leaf hi rfl trivial ?_
      subst hn
      rw [unpack, bind_eq, Unpacker.bytes_eq hx]
      rfl
  | builtin b V =>
    refine ⟨fun t slot ht => ?_, fun t slot _ _ ht => by cases ht⟩
    cases ht
    refine .leaf hi rfl trivial ?_
    rw [unpack, bind_eq, Unpacker.puped_eq hx]
    rfl
  | unit V =>
    refine ⟨fun t slot ht => ?_, fun t slot _ _ ht => by cases ht⟩
    cases ht
    refine .leaf hi rfl trivial ?_
    rw [Unpacker.skip_nil (show u.input = rest from hx)]
    rfl
  | nil V =>
    refine ⟨fun t slot ht => (by cases ht), fun t slot _ _ ht _ _ => ?_⟩
    refine .leaf hi rfl trivial ?_
    rw [Unpacker.skip_nil (show u.input = rest from hx)]
    rfl
  | pair ha hb iha ihb =>
    simp only [Val.ptrs_pair, List.mem_append] at hm
    rw [List.length_append] at hlen
    refine ⟨fun t slot ht => ?_, fun t slot _ _ ht => by cases ht⟩
    cases ht with
    | pair hat hbt =>
      rw [unpack_pair]
      refine Outcome.seq (k := fun _ u => unpack (unpackFields fields m) _ slot u) ?_ ?_
        (fun g => rfl) (fun _ => hb.mem) (Val.ptrs_pair _ _) Iff.rfl
      · refine (iha hi (by rw [hx, List.append_assoc]) (by omega) (fun p hp => hm p (.inl hp))
          (hin.mono (by simp +contextual))).value _ slot hat
      · intro u' hd
        exact (ihb hd.inv hd.input (by omega) (fun p hp => hm p (.inr hp))
          (hin.mono (by simp +contextual))).value _ slot hbt
  | cons ha hb iha ihb =>
    simp only [Val.ptrs_cons, List.mem_append] at hm
    rw [List.length_append] at hlen
    refine Unpacks.cons hS (fun p hp => hm p (.inl hp)) (fun _ => hb.mem) ?_ fun u' hx' hi' => ?_
    · exact iha hi (by rw [hx, List.append_assoc]) (by omega) (fun p hp => hm p (.inl hp))
        (hin.mono (by simp +contextual))
    · exact ihb hi' hx' (by omega) (fun p hp => hm p (.inr hp)) (hin.mono (by simp +contextual))
  | @list l V W x hl ih =>
    refine ⟨fun t slot ht => ?_, fun t slot _ _ ht => by cases ht⟩
    cases ht with
    | list hlt =>
      rw [unpack_list, Unpacker.word_eq hx, ok_bind]
      refine Outcome.wrap (f := Val.list) ?_ (fun g => rfl) rfl Iff.rfl
      exact (ih (hi.skip _ _) rfl (Nat.le_of_succ_le hlen) hm hin).elements _ .element _ []
        hlt (.inl rfl) (by simp)
  | @map l V W x hl ih =>
    refine ⟨fun t slot ht => ?_, fun t slot _ _ ht => by cases ht⟩
    cases ht with
    | map hlt hk =>
      rw [unpack_map, Unpacker.word_eq hx, ok_bind]
      refine Outcome.wrap (f := Val.map) ?_ (fun g => rfl) rfl Iff.rfl
      exact (ih (hi.skip _ _) rfl (Nat.le_of_succ_le hlen) hm hin).elements _ .entry _ []
        hlt (.inr ⟨rfl, hk⟩) (by simp)
  | uniqueNull V =>
    refine ⟨fun t slot ht => ?_, fun t slot _ _ ht => by cases ht⟩
    cases ht
    refine .leaf hi rfl trivial ?_
    rw [unpack_unique, Unpacker.byte_eq hx]
    rfl
  | unique hl ih =>
    refine ⟨fun t slot ht => ?_, fun t slot _ _ ht => by cases ht⟩
    cases ht with
    | unique hvt =>
      rw [unpack_unique, Unpacker.byte_eq hx, ok_bind, if_pos rfl]
      refine Outcome.wrap (f := Val.unique) ?_ (fun g => rfl) rfl Iff.rfl
      exact (ih (hi.skip _ _) rfl (Nat.le_of_succ_le hlen) hm hin).value _ .allocated hvt
  | @poly c v V W x hl ih =>
    obtain ⟨m, rfl⟩ := Nat.exists_eq_add_of_le' (Nat.le_of_add_left_le hlen)
    refine ⟨fun t slot ht => ?_, fun t slot _ _ ht => by cases ht⟩
    cases ht with
    | poly hvt =>
      rw [unpack_uniquePoly, Unpacker.word_eq hx, ok_bind]
      have hv := (ih (m := m) (hi.skip [.word c] (x ++ rest)) rfl (Nat.le_of_succ_le_succ hlen) hm
        hin).value _ .member hvt
      by_cases hraw : slot.raw = true
      · -- the pointer that the storage held before is deleted
        rcases hv with ⟨u', he, -⟩ | ⟨e, he, -⟩
        · refine .inr ⟨.undefined, ?_, fun _ hsafe => by simpa [hraw] using hsafe.1.1⟩
          simp [unpackFields, he, hraw]
        · refine .inr ⟨e, ?_, fun _ hsafe => by simpa [hraw] using hsafe.1.1⟩
          simp [unpackFields, he]
      · simp only [hraw]
        refine Outcome.wrap (f := Val.poly c) hv (fun g => rfl) rfl ?_
        simp [Val.Safe, hraw]
  | null V hs =>
    refine ⟨fun t slot ht => ?_, fun t slot _ _ ht => absurd ht hs.not_elems⟩
    cases hs with
    | data t' =>
      cases ht
      refine .leaf hi (by simp) trivial ?_
      rw [unpack_shared_ignored (Unpacker.record_ignored hx) rfl]
      rfl
    | poly =>
      cases ht
      refine .leaf hi (by simp) trivial ?_
      rw [unpack_sharedPoly_ignored (Unpacker.record_ignored hx) rfl]
      rfl
  | reference hs hr hV hd =>
    refine ⟨fun t slot ht => ?_, fun t slot _ _ ht => absurd ht hs.not_elems⟩
    have hp := hs.mem_ptrs
    exact .reference hS hi hs (hm _ hp) ht hV
      (hi.registered_of_inside hS hin (hm _ hp) hp hV) hd (hlock _ (hm _ hp) hr) hx
  | again hs hV hd =>
    refine ⟨fun t slot ht => ?_, fun t slot _ _ ht => absurd ht hs.not_elems⟩
    refine .deferred hS hi hs (hm _ hs.mem_ptrs) ht (fun q => ?_) hd hx
    exact ⟨.inl, fun h => h.elim id fun h => h ▸ hV⟩
  | defer hs hV hd =>
    refine ⟨fun t slot ht => ?_, fun t slot _ _ ht => absurd ht hs.not_elems⟩
    exact .deferred hS hi hs (hm _ hs.mem_ptrs) ht (fun q => by simp) hd hx
  | @«instance» v k p o V W x hs hV hd ho hl ih =>
    refine ⟨fun t slot ht => ?_, fun t slot _ _ ht => absurd ht hs.not_elems⟩
    have hpv := hs.mem_ptrs
    have hpm := hm p hpv
    have hVW : p.owner ∈ W := hl.mem (by simp)
    have hmo : ∀ q ∈ o.value.ptrs, S.mem q := fun q hq => hS.step p q hpm ⟨o, ho, hq⟩
    have hfit := hS.fits k p hpm (hs.pointee ht)
    have hlen' : x.length + 3 ≤ m := hlen
    cases hs with
    | data s =>
      cases ht with
      | shared hlook =>
        cases ho.symm.trans hlook
        by_cases hb : ∃ n, s = .bytes n
        · obtain ⟨n, rfl⟩ := hb
          cases hS.typed p _ hpm hlook with
          | bytes hn =>
            obtain ⟨rfl, rfl⟩ := hl.bytes_inv
            exact .bytes hS hi hpm hV hd hlook hn hx
        · refine .data hS hi hpm hV hd hVW hlook (fun n hn => hb ⟨n, hn⟩) hx ?_
          rintro u' rfl
          refine (ih (hi.read_instance hS hV hd _ _) rfl (by omega) hmo ?_).value s .allocated
            (hS.typed p _ hpm hlook)
          refine hin.open_data hpm hpv hlook ?_
          rintro ⟨n, c, hc⟩
          cases hlook.symm.trans hc
          exact hb ⟨n, rfl⟩
    | poly =>
      cases ht with
      | @sharedPoly _ c w hlook =>
        cases ho.symm.trans hlook
        have hc : S.labels.tag p.owner = c := by
          have := hfit.2
          simp only [identify, hlook, Option.some.injEq] at this
          exact this.symm
        obtain ⟨m, rfl⟩ := Nat.exists_eq_add_of_le' (Nat.le_of_add_left_le hlen')
        refine .polymorph hS hi hpm hV hd hVW hlook hc hx fun u' hi' hx' => ?_
        refine (ih (m := m + 2) hi' hx' (by omega) hmo ?_).value _ .member (hS.typed p _ hpm hlook)
        exact hin.object hpv hlook

end Hypercomm.Serialization
