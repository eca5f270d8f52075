import Hypercomm.Serialization.Passes
import Hypercomm.Serialization.Places

/-! # What is read mirrors what was written

The cells of a pointer say which pointers it is read like, whatever objects lie behind them. So a
copy is read only if pointers with one owner point to one object.
-/

namespace Hypercomm.Serialization

section Records

variable {ω α : Type*} [DecidableEq ω] {s s' t : Packer ω α} {o q : Option ω} {ty : ℕ}

theorem lookup_getRecord (s : Packer ω α) (o : Option ω) (ty : ℕ) :
    (s.getRecord o ty).2.records.lookup o = some (s.getRecord o ty).1 := by
  cases hr : s.records.lookup o with
  | none =>
    rw [getRecord_none hr]
    simp [List.lookup_append, hr]
  | some r =>
    by_cases hp : r.progenitor = s.self
    · rw [getRecord_own hr hp]
      simp [lookup_setRecord, hr]
    · rw [getRecord_acquired hr hp]
      simp [lookup_setRecord, hr]

theorem lookup_getRecord_ne (s : Packer ω α) (ty : ℕ) (hq : q ≠ o) :
    (s.getRecord o ty).2.records.lookup q = s.records.lookup q := by
  cases hr : s.records.lookup o with
  | none =>
    rw [getRecord_none hr]
    simp [List.lookup_append, List.lookup_cons, beq_eq_false_iff_ne.mpr hq]
  | some r =>
    by_cases hp : r.progenitor = s.self
    · rw [getRecord_own hr hp, lookup_setRecord, if_neg hq]
    · rw [getRecord_acquired hr hp, lookup_setRecord, if_neg hq]

/-- The ids of the owners that were met are kept, and so is which of them are deferred. -/
structure Keeps (s s' : Packer ω α) : Prop where
  self : s'.self = s.self
  record : ∀ o r, s.records.lookup o = some r → r.progenitor = s.self → ∃ r',
    s'.records.lookup o = some r' ∧ r'.progenitor = s.self ∧ r'.id = r.id ∧
      (r'.kind = .deferred ↔ r.kind = .deferred)

theorem Keeps.refl : Keeps s s := ⟨rfl, fun _ r hr hp => ⟨r, hr, hp, rfl, Iff.rfl⟩⟩

theorem Keeps.trans (h : Keeps s s') (h' : Keeps s' t) : Keeps s t where
  self := h'.self.trans h.self
  record o r hr hp := by
    obtain ⟨r₁, hr₁, hp₁, hid₁, hk₁⟩ := h.record o r hr hp
    obtain ⟨r₂, hr₂, hp₂, hid₂, hk₂⟩ := h'.record o r₁ hr₁ (hp₁.trans h.self.symm)
    exact ⟨r₂, hr₂, hp₂.trans h.self, hid₂.trans hid₁, hk₂.trans hk₁⟩

theorem Keeps.copy (s : Packer ω α) (cs : List Cell) : Keeps s (s.copy cs) :=
  ⟨rfl, fun _ r hr hp => ⟨r, hr, hp, rfl, Iff.rfl⟩⟩

theorem keeps_getRecord (s : Packer ω α) (o : Option ω) (ty : ℕ) :
    Keeps s (s.getRecord o ty).2 where
  self := (recorded_getRecord s o ty).self
  record q r hr hp := by
    by_cases hq : q = o
    · subst hq
      refine ⟨_, lookup_getRecord s q ty, (recorded_getRecord s q ty).progenitor, ?_⟩
      rw [getRecord_own hr hp]
      dsimp only
      split_ifs with hk
      · exact ⟨rfl, by simp [hk]⟩
      · exact ⟨rfl, Iff.rfl⟩
    · exact ⟨r, (lookup_getRecord_ne s ty hq).trans hr, hp, rfl, Iff.rfl⟩

theorem met_of_lookup {r : PtrRecord} (hr : s.records.lookup o = some r)
    (hp : r.progenitor = s.self) : s.met o = some r.kind := by
  simp [Packer.met, hr, hp]

variable {follow : α → Packer ω α → Except Fault (Packer ω α)} {T : Ty} {p : Ptr ω α}

theorem keeps_pupPtr (hf : ∀ a s s', follow a s = .ok s' → Keeps s s')
    (hs : pupPtr follow T p ty s = .ok s') : Keeps s s' := by
  have hget := keeps_getRecord s p.owner ty
  have hrec := recorded_getRecord s p.owner ty
  rw [pupPtr_eq] at hs
  split_ifs at hs with hk hd
  · -- the owner was not met, so that there is no record to keep
    obtain rfl := Except.ok.inj hs
    refine ⟨hget.self, fun q r hr hp => ?_⟩
    have hq : q ≠ p.owner := by
      rintro rfl
      cases (hrec.met_eq_none hk).symm.trans (met_of_lookup hr hp)
    obtain ⟨r', hr', hrest⟩ := hget.record q r hr hp
    refine ⟨r', ?_, hrest⟩
    change ((s.getRecord p.owner ty).2.setRecord p.owner _).records.lookup q = _
    rw [lookup_setRecord, if_neg hq]
    exact hr'
  · exact (hget.trans (.copy _ _)).trans (hf _ _ _ hs)
  · exact Except.ok.inj hs ▸ hget.trans (.copy _ _)

theorem keeps_pup [DecidableEq α] {h : Heap ω α} {v : Val (Ptr ω α)}
    (hf : ∀ a s s', follow a s = .ok s' → Keeps s s') (hs : pup h follow v s = .ok s') :
    Keeps s s' :=
  pup_preserves (R := Keeps) (fun _ => .refl) (fun _ _ _ => .trans) .copy
    (fun _ _ _ _ _ _ => keeps_pupPtr hf) hs

theorem keeps_pupObject [DecidableEq α] {h : Heap ω α} (n : ℕ) {a : α}
    (hs : pupObject h n a s = .ok s') : Keeps s s' := by
  induction n generalizing a s s' with
  | zero => cases hs
  | succ n ih =>
    unfold pupObject at hs
    cases ho : h.lookup a with
    | none => simp [ho] at hs
    | some o =>
      rw [ho] at hs
      exact keeps_pup (fun _ _ _ => ih) hs

end Records

section Mirrors

variable {ω α : Type*} [DecidableEq ω] [DecidableEq α] {fields : ℕ → Ty} {h : Heap ω α}
variable {H : Heap Owner Place} {f : Ptr ω α → Ptr Owner Place} {G : Ptr ω α → Prop}
variable {s s' t : Packer ω α} {u u' : Unpacker} {a b v w : Val (Ptr ω α)} {p : Ptr ω α} {T : Ty}
variable {o : Option ω} {k c : ℕ}

/-- The pointers with this owner are unpacked to this one from here on. -/
def Resolves (s : Packer ω α) (u : Unpacker) (o : Option ω) (a : Ptr Owner Place) : Prop :=
  ∃ r, s.records.lookup o = some r ∧ r.progenitor = s.self ∧ Leads u r a

omit [DecidableEq α] in
theorem Resolves.eq {a b : Ptr Owner Place} (ha : Resolves s u o a) (hb : Resolves s u o b) :
    a = b := by
  obtain ⟨r, hr, -, hra⟩ := ha
  obtain ⟨r', hr', -, hrb⟩ := hb
  cases hr.symm.trans hr'
  unfold Leads at hra hrb
  split_ifs at hra hrb
  · rw [hra, hrb]
  · exact Option.some.inj (hra.symm.trans hrb)

omit [DecidableEq α] in
theorem Resolves.mono {a : Ptr Owner Place} (ha : Resolves s u o a) (hs : Keeps s s')
    (hu : ∀ j b, u.instances.lookup j = some b → u'.instances.lookup j = some b) :
    Resolves s' u' o a := by
  obtain ⟨r, hr, hp, ha⟩ := ha
  obtain ⟨r', hr', hp', hid, hk⟩ := hs.record o r hr hp
  refine ⟨r', hr', hp'.trans hs.self.symm, ?_⟩
  unfold Leads at ha ⊢
  rw [hid]
  by_cases hd : r.kind = .deferred
  · rw [if_pos hd] at ha
    rw [if_pos (hk.mpr hd)]
    exact ha
  · rw [if_neg hd] at ha
    rw [if_neg (mt hk.mp hd)]
    exact hu _ _ ha

omit [DecidableEq α] in
theorem Resolves.met {a : Ptr Owner Place} (ha : Resolves s u o a) : (s.met o).isSome := by
  obtain ⟨r, hr, hp, -⟩ := ha
  simp [met_of_lookup hr hp]

def Agrees (H : Heap Owner Place) (u : Unpacker) : Prop :=
  ∀ a o, u.heap.lookup a = some o → H.lookup a = some o

theorem Agrees.of_proceeds (hH : Agrees H u') (hu : u.Bounded) (hp : Proceeds u u') :
    Agrees H u :=
  fun a o ho => hH a o (hp.heap_lookup hu ho)

/-- The pointers of a value, and those behind them that were met in a pass, are unpacked as one
function says. -/
structure Mirrored (h : Heap ω α) (f : Ptr ω α → Ptr Owner Place) (G : Ptr ω α → Prop)
    (s s' : Packer ω α) (u : Unpacker) (v : Val (Ptr ω α)) : Prop where
  ptrs : ∀ q ∈ v.ptrs, Resolves s' u q.owner (f q)
  behind : ∀ o, s.met o = none → (s'.met o).isSome → ∃ p x, G p ∧ p.owner = o ∧
    h.lookup p.addr = some x ∧ Resolves s' u o (f p) ∧
    ∀ q ∈ x.value.ptrs, Resolves s' u q.owner (f q)

theorem Mirrored.leaf (hv : v.ptrs = []) (hs : ∀ o, s'.met o = s.met o) :
    Mirrored h f G s s' u v where
  ptrs := by simp [hv]
  behind o hn hm := by
    rw [hs, hn] at hm
    cases hm

theorem Mirrored.trans (ha : Mirrored h f G s t u a) (hb : Mirrored h f G t s' u' b)
    (hv : v.ptrs = a.ptrs ++ b.ptrs) (hs : Keeps t s')
    (hu : ∀ j b, u.instances.lookup j = some b → u'.instances.lookup j = some b) :
    Mirrored h f G s s' u' v where
  ptrs q hq := by
    rcases List.mem_append.mp (hv ▸ hq) with hq | hq
    · exact (ha.ptrs q hq).mono hs hu
    · exact hb.ptrs q hq
  behind o hn hm := by
    cases ht : t.met o with
    | none => exact hb.behind o ht hm
    | some k =>
      obtain ⟨p, x, hp, ho, hx, hr, hxs⟩ := ha.behind o hn (by simp [ht])
      exact ⟨p, x, hp, ho, hx, hr.mono hs hu, fun q hq => (hxs q hq).mono hs hu⟩

theorem Mirrored.same (hm : Mirrored h f G s s' u v) (hs : t.met = s.met) (hv : w.ptrs = v.ptrs) :
    Mirrored h f G t s' u w where
  ptrs q hq := hm.ptrs q (hv ▸ hq)
  behind o hn := hm.behind o (hs ▸ hn)

/-- What a pass writes for a value is read up to its end, and mirrors it, if a copy is read. -/
def Mirrors (fields : ℕ → Ty) (h : Heap ω α) (H : Heap Owner Place)
    (f : Ptr ω α → Ptr Owner Place) (G : Ptr ω α → Prop)
    (act : Packer ω α → Except Fault (Packer ω α)) (t : Ty) (v : Val (Ptr ω α)) : Prop :=
  ∀ s s', act s = .ok s' → ∃ x, s'.written = s.written ++ x ∧
    ∀ m slot rest u v' u', u.Bounded → u.input = x ++ rest →
      unpack (unpackFields fields m) t slot u = .ok (v', u') → Agrees H u' → v' = v.rename f →
      u'.input = rest ∧ Mirrored h f G s s' u' v

def MirrorsElements (fields : ℕ → Ty) (h : Heap ω α) (H : Heap Owner Place)
    (f : Ptr ω α → Ptr Owner Place) (G : Ptr ω α → Prop)
    (act : Packer ω α → Except Fault (Packer ω α)) (t : Ty) (v : Val (Ptr ω α)) : Prop :=
  ∀ s s', act s = .ok s' → ∃ x, s'.written = s.written ++ x ∧
    ∀ m slot accepts seen rest u v' u', u.Bounded → u.input = x ++ rest →
      unpackElements (unpack (unpackFields fields m) t slot) accepts v.length seen u =
        .ok (v', u') → Agrees H u' → v' = v.rename f →
      u'.input = rest ∧ Mirrored h f G s s' u' v

theorem Mirrored.defer {r : PtrRecord} {w : Val (Ptr ω α)} (hp : G p)
    (hlook : h.lookup p.addr = some (.data T w)) (hw : w.ptrs = [])
    (hv : v.ptrs = [p]) (hrec : Recorded s t p.owner r)
    (ha : f p = ⟨some (.buffer r.id), .buffer r.id⟩) :
    Mirrored h f G s (t.defer T p r) u v := by
  have hres : Resolves (t.defer T p r) u p.owner (f p) := by
    refine ⟨{ r with ty := T.width, kind := .deferred }, ?_, hrec.progenitor.trans hrec.self.symm,
      (if_pos rfl).mpr ha⟩
    change (t.setRecord p.owner _).records.lookup p.owner = _
    obtain ⟨r', hr'⟩ := Option.isSome_iff_exists.mp hrec.lookup
    rw [lookup_setRecord, if_pos rfl, hr']
    rfl
  constructor
  · intro q hq
    rw [hv, List.mem_singleton] at hq
    exact hq ▸ hres
  · intro o hn hm
    rw [hrec.met_defer] at hm
    split_ifs at hm with ho
    · refine ⟨p, _, hp, ho.symm, hlook, ho ▸ hres, fun q hq => ?_⟩
      rw [Obj.value, hw] at hq
      cases hq
    · rw [hn] at hm
      cases hm

theorem Mirrored.met {ty : ℕ} {cs : List Cell} (hv : v.ptrs = [p])
    (hk : (s.getRecord p.owner ty).1.kind ≠ .instance)
    (ha : Leads u (s.getRecord p.owner ty).1 (f p)) :
    Mirrored h f G s ((s.getRecord p.owner ty).2.copy cs) u v := by
  have hrec := recorded_getRecord s p.owner ty
  constructor
  · intro q hq
    rw [hv, List.mem_singleton] at hq
    subst hq
    exact ⟨_, lookup_getRecord s q.owner ty, hrec.progenitor.trans hrec.self.symm, ha⟩
  · intro o hn hm
    change ((s.getRecord p.owner ty).2.met o).isSome at hm
    rw [hrec.met] at hm
    split_ifs at hm with ho
    · -- an owner without a record gets an instance
      have hnone : s.met p.owner = none := ho ▸ hn
      exact absurd (hrec.kind.trans (congrArg Kind.next hnone)) hk
    · rw [hn] at hm
      cases hm

theorem Mirrored.made {ty : ℕ} {cs : List Cell} {x : Obj (Ptr ω α)} {y : Obj (Ptr Owner Place)}
    (hp : G p) (hlook : h.lookup p.addr = some x) (hv : v.ptrs = [p])
    (hk : (s.getRecord p.owner ty).1.kind = .instance)
    (hm : Mirrored h f G ((s.getRecord p.owner ty).2.copy cs) s' u x.value)
    (hs : Keeps ((s.getRecord p.owner ty).2.copy cs) s')
    (hmade : Made (s.getRecord p.owner ty).1.id (f p) y u u') : Mirrored h f G s s' u' v := by
  have hrec := recorded_getRecord s p.owner ty
  have hres : Resolves s' u' p.owner (f p) := by
    have hstart : Resolves ((s.getRecord p.owner ty).2.copy cs) u' p.owner (f p) := by
      refine ⟨_, lookup_getRecord s p.owner ty, hrec.progenitor.trans hrec.self.symm, ?_⟩
      rw [Leads, if_neg (by rw [hk]; exact Kind.noConfusion)]
      exact hmade.registered
    exact hstart.mono hs fun _ _ hj => hj
  constructor
  · intro q hq
    rw [hv, List.mem_singleton] at hq
    exact hq ▸ hres
  · intro o hn hso
    by_cases ho : o = p.owner
    · exact ⟨p, x, hp, ho.symm, hlook, ho ▸ hres, fun q hq =>
        (hm.ptrs q hq).mono .refl hmade.instances⟩
    · obtain ⟨q, z, hq, hqo, hz, hr, hzs⟩ := hm.behind o (by
        change (s.getRecord p.owner ty).2.met o = none
        rw [hrec.met, if_neg ho, hn]) hso
      exact ⟨q, z, hq, hqo, hz, hr.mono .refl hmade.instances, fun q hq =>
        (hzs q hq).mono .refl hmade.instances⟩

variable {follow : α → Packer ω α → Except Fault (Packer ω α)}

theorem mirrors_shared (hp : G p) (hlook : h.lookup p.addr = some (.data T w))
    (hw : T.defers true = true → w.ptrs = [])
    (hcopy : H.lookup (f p).addr = (h.lookup p.addr).map (·.rename f))
    (hkeeps : ∀ a s s', follow a s = .ok s' → Keeps s s')
    (hfollow : Mirrors fields h H f G (follow p.addr) T w) :
    Mirrors fields h H f G (pupPtr follow T p 0) (.shared T) (.shared T (some p)) := by
  intro s s' hok
  have hrec := recorded_getRecord s p.owner 0
  rw [pupPtr_eq] at hok
  split_ifs at hok with hk hd
  · -- the object is deferred
    obtain rfl := Except.ok.inj hok
    set r := (s.getRecord p.owner 0).1 with hr
    have hT : T.defers true = true := by
      cases hdef : s.deferrable with
      | true => exact hdef ▸ hd
      | false => cases T <;> simp [Ty.defers, hdef] at hd
    refine ⟨PtrRecord.cells { r with ty := T.width, kind := .deferred }, ?_, ?_⟩
    · rw [← hrec.written]
      rfl
    rintro m slot rest u v' u' hb hu hread hH rfl
    obtain ⟨hrest, hlead⟩ := unpack_shared_met (by exact Kind.noConfusion) hu hread
    exact ⟨hrest, .defer hp hlook (hw hT) (by simp) hrec ((if_pos rfl).mp hlead)⟩
  · -- the object is written
    obtain ⟨x, hx, hmirror⟩ := hfollow _ _ hok
    set r := (s.getRecord p.owner 0).1 with hr
    have hcells : r.cells = [.byte 4, .word r.id, .word r.ty] := by
      unfold PtrRecord.cells
      rw [hk]
    refine ⟨r.cells ++ x, by rw [hx, copy_written, hrec.written, List.append_assoc], ?_⟩
    rintro m slot rest u v' u' hb hu hread hH rfl
    rw [hcells] at hu
    obtain ⟨w', u₁, u₂, a, hw', hin, hb₁, hv, hmade⟩ :=
      unpack_shared_made unpackFields_proceeds hb hu hread
    obtain rfl : f p = a := by simpa [Val.rename] using hv
    have hcontent : w' = w.rename f := by
      have hobj := hH _ _ hmade.object
      rw [hcopy, hlook] at hobj
      simpa [Obj.rename] using hobj.symm
    obtain ⟨hrest, hm⟩ := hmirror m .allocated rest u₁ w' u₂ hb₁ hin hw'
      (fun b y hy => hH b y (hmade.heap b y hy)) hcontent
    exact ⟨hmade.input.trans hrest, .made hp hlook (by simp) hk hm (hkeeps _ _ _ hok) hmade⟩
  · -- the object was met
    obtain rfl := Except.ok.inj hok
    refine ⟨(s.getRecord p.owner 0).1.cells, by rw [copy_written, hrec.written], ?_⟩
    rintro m slot rest u v' u' hb hu hread hH rfl
    obtain ⟨hrest, hlead⟩ := unpack_shared_met hk hu hread
    exact ⟨hrest, .met (by simp) hk hlead⟩

theorem mirrors_sharedPoly (hp : G p) (hlook : h.lookup p.addr = some (.poly c w))
    (hcopy : H.lookup (f p).addr = (h.lookup p.addr).map (·.rename f))
    (hkeeps : ∀ a s s', follow a s = .ok s' → Keeps s s')
    (hfollow : Mirrors fields h H f G (follow p.addr) (fields c) w) :
    Mirrors fields h H f G (pupPtr follow .unit p c) .sharedPoly (.sharedPoly (some p)) := by
  intro s s' hok
  have hrec := recorded_getRecord s p.owner c
  rw [pupPtr_eq] at hok
  split_ifs at hok with hk hd
  · cases hd
  · obtain ⟨x, hx, hmirror⟩ := hfollow _ _ hok
    set r := (s.getRecord p.owner c).1 with hr
    have hcells : r.cells = [.byte 4, .word r.id, .word r.ty] := by
      unfold PtrRecord.cells
      rw [hk]
    refine ⟨r.cells ++ x, by rw [hx, copy_written, hrec.written, List.append_assoc], ?_⟩
    rintro m slot rest u v' u' hb hu hread hH rfl
    rw [hcells] at hu
    obtain ⟨w', u₁, u₂, a, hw', hin, hb₁, hv, hmade⟩ :=
      unpack_sharedPoly_made unpackFields_proceeds hb hu hread
    obtain rfl : f p = a := by simpa [Val.rename] using hv
    -- the class in the record is that of the object
    obtain ⟨hclass, hcontent⟩ : r.ty = c ∧ w' = w.rename f := by
      have hobj := hH _ _ hmade.object
      rw [hcopy, hlook] at hobj
      simpa [Obj.rename, eq_comm] using hobj
    rw [hclass] at hw'
    cases m with
    | zero => cases hw'
    | succ m =>
      obtain ⟨hrest, hm⟩ := hmirror m .member rest u₁ w' u₂ hb₁ hin hw'
        (fun b y hy => hH b y (hmade.heap b y hy)) hcontent
      exact ⟨hmade.input.trans hrest, .made hp hlook (by simp) hk hm (hkeeps _ _ _ hok) hmade⟩
  · obtain rfl := Except.ok.inj hok
    refine ⟨(s.getRecord p.owner c).1.cells, by rw [copy_written, hrec.written], ?_⟩
    rintro m slot rest u v' u' hb hu hread hH rfl
    obtain ⟨hrest, hlead⟩ := unpack_sharedPoly_met hk hu hread
    exact ⟨hrest, .met (by simp) hk hlead⟩

theorem mirrors_bytes (bs : List UInt8) (follow : α → Packer ω α → Except Fault (Packer ω α)) :
    Mirrors fields h H f G (pup h follow (.bytes bs)) (.bytes bs.length) (.bytes bs) := by
  intro s s' hok
  obtain rfl := Except.ok.inj hok
  refine ⟨bs.map .byte, rfl, fun m slot rest u v' u' _ hu hread _ _ => ?_⟩
  simp only [unpack, bind_eq, Unpacker.bytes_eq hu, ok_bind] at hread
  obtain ⟨-, rfl⟩ := by simpa using hread
  exact ⟨rfl, .leaf rfl fun _ => rfl⟩

theorem mirrors_builtin (bs : List UInt8) (follow : α → Packer ω α → Except Fault (Packer ω α)) :
    Mirrors fields h H f G (pup h follow (.builtin bs)) .builtin (.builtin bs) := by
  intro s s' hok
  obtain rfl := Except.ok.inj hok
  refine ⟨[.puped bs], rfl, fun m slot rest u v' u' _ hu hread _ _ => ?_⟩
  simp only [unpack, bind_eq, Unpacker.puped_eq hu, ok_bind] at hread
  obtain ⟨-, rfl⟩ := by simpa using hread
  exact ⟨rfl, .leaf rfl fun _ => rfl⟩

theorem mirrors_unit (follow : α → Packer ω α → Except Fault (Packer ω α)) :
    Mirrors fields h H f G (pup h follow .unit) .unit .unit := by
  intro s s' hok
  obtain rfl := Except.ok.inj hok
  refine ⟨[], by simp, fun m slot rest u v' u' _ hu hread _ _ => ?_⟩
  obtain ⟨-, rfl⟩ := by simpa [unpack] using hread
  exact ⟨hu, .leaf rfl fun _ => rfl⟩

theorem Mirrors.pair {S : Ty} (hkeeps : ∀ a s s', follow a s = .ok s' → Keeps s s')
    (ha : Mirrors fields h H f G (pup h follow a) S a)
    (hb : Mirrors fields h H f G (pup h follow b) T b) :
    Mirrors fields h H f G (pup h follow (.pair a b)) (.pair S T) (.pair a b) := by
  intro s s' hok
  obtain ⟨t, hoka, hokb⟩ := bind_eq_ok.mp hok
  obtain ⟨x, hx, hxs⟩ := ha _ _ hoka
  obtain ⟨y, hy, hys⟩ := hb _ _ hokb
  refine ⟨x ++ y, by rw [hy, hx, List.append_assoc], ?_⟩
  intro m slot rest u v' u' hu hin hread hH hv
  rw [List.append_assoc] at hin
  simp only [unpack_pair, bind_eq_ok] at hread
  obtain ⟨⟨a', u₁⟩, hreada, ⟨b', u₂⟩, hreadb, hread⟩ := hread
  obtain ⟨rfl, rfl⟩ := by simpa using hread
  obtain ⟨ha', hb'⟩ := by simpa [Val.rename] using hv
  have hp₁ := unpack_proceeds unpackFields_proceeds hreada
  have hp₂ := unpack_proceeds unpackFields_proceeds hreadb
  have hu₁ := hp₁.bounded hu
  obtain ⟨hin₁, hm₁⟩ := hxs m slot _ u a' u₁ hu hin hreada (hH.of_proceeds hu₁ hp₂) ha'
  obtain ⟨hin₂, hm₂⟩ := hys m slot rest u₁ b' u₂ hu₁ hin₁ hreadb hH hb'
  exact ⟨hin₂, hm₁.trans hm₂ (Val.ptrs_pair a b) (keeps_pup hkeeps hokb) hp₂.instances⟩

theorem mirrorsElements_nil (t : Ty) (follow : α → Packer ω α → Except Fault (Packer ω α)) :
    MirrorsElements fields h H f G (pup h follow .nil) t .nil := by
  intro s s' hok
  obtain rfl := Except.ok.inj hok
  refine ⟨[], by simp, fun m slot accepts seen rest u v' u' _ hu hread _ _ => ?_⟩
  obtain ⟨-, rfl⟩ := by simpa [unpackElements, Val.length] using hread
  exact ⟨hu, .leaf rfl fun _ => rfl⟩

theorem MirrorsElements.cons (hkeeps : ∀ a s s', follow a s = .ok s' → Keeps s s')
    (ha : Mirrors fields h H f G (pup h follow a) T a)
    (hb : MirrorsElements fields h H f G (pup h follow b) T b) :
    MirrorsElements fields h H f G (pup h follow (.cons a b)) T (.cons a b) := by
  intro s s' hok
  obtain ⟨t, hoka, hokb⟩ := bind_eq_ok.mp hok
  obtain ⟨x, hx, hxs⟩ := ha _ _ hoka
  obtain ⟨y, hy, hys⟩ := hb _ _ hokb
  refine ⟨x ++ y, by rw [hy, hx, List.append_assoc],
    fun m slot accepts seen rest u v' u' hu hin hread hH hv => ?_⟩
  rw [List.append_assoc] at hin
  rw [Val.length, unpackElements_succ, bind_eq_ok] at hread
  obtain ⟨⟨a', u₁⟩, hreada, hread⟩ := hread
  rw [bind_eq_ok] at hread
  obtain ⟨⟨b', u₂⟩, hreadb, hread⟩ := hread
  split_ifs at hreadb
  obtain ⟨rfl, rfl⟩ := by simpa using hread
  obtain ⟨ha', hb'⟩ := by simpa [Val.rename] using hv
  have hp₁ := unpack_proceeds unpackFields_proceeds hreada
  have hp₂ := proceeds_elements (fun _ _ _ => unpack_proceeds unpackFields_proceeds) hreadb
  have hu₁ := hp₁.bounded hu
  obtain ⟨hin₁, hm₁⟩ := hxs m slot _ u a' u₁ hu hin hreada (hH.of_proceeds hu₁ hp₂) ha'
  obtain ⟨hin₂, hm₂⟩ := hys m slot accepts _ rest u₁ b' u₂ hu₁ hin₁ hreadb hH hb'
  exact ⟨hin₂, hm₁.trans hm₂ (Val.ptrs_cons a b) (keeps_pup hkeeps hokb) hp₂.instances⟩

theorem MirrorsElements.list (hb : MirrorsElements fields h H f G (pup h follow b) T b) :
    Mirrors fields h H f G (pup h follow (.list b)) (.list T) (.list b) := by
  intro s s' hok
  obtain ⟨x, hx, hxs⟩ := hb (s.copy [.word b.length]) s' hok
  refine ⟨.word b.length :: x, by simp [hx], fun m slot rest u v' u' hu hin hread hH hv => ?_⟩
  have hword := Unpacker.word_eq hin
  simp only [unpack_list, hword, ok_bind, bind_eq_ok] at hread
  obtain ⟨⟨l, u₂⟩, hl, hread⟩ := hread
  obtain ⟨rfl, rfl⟩ := by simpa using hread
  have hl' : l = b.rename f := by simpa [Val.rename] using hv
  obtain ⟨hin', hm⟩ := hxs m _ _ _ rest _ l u₂ ((proceeds_word hword).bounded hu) rfl hl hH hl'
  exact ⟨hin', hm.same rfl rfl⟩

theorem MirrorsElements.map {S : Ty}
    (hb : MirrorsElements fields h H f G (pup h follow b) (.pair S T) b) :
    Mirrors fields h H f G (pup h follow (.map b)) (.map S T) (.map b) := by
  intro s s' hok
  obtain ⟨x, hx, hxs⟩ := hb (s.copy [.word b.length]) s' hok
  refine ⟨.word b.length :: x, by simp [hx], fun m slot rest u v' u' hu hin hread hH hv => ?_⟩
  have hword := Unpacker.word_eq hin
  simp only [unpack_map, hword, ok_bind, bind_eq_ok] at hread
  obtain ⟨⟨l, u₂⟩, hl, hread⟩ := hread
  obtain ⟨rfl, rfl⟩ := by simpa using hread
  have hl' : l = b.rename f := by simpa [Val.rename] using hv
  obtain ⟨hin', hm⟩ := hxs m _ _ _ rest _ l u₂ ((proceeds_word hword).bounded hu) rfl hl hH hl'
  exact ⟨hin', hm.same rfl rfl⟩

theorem mirrors_uniqueNull (t : Ty) (follow : α → Packer ω α → Except Fault (Packer ω α)) :
    Mirrors fields h H f G (pup h follow .uniqueNull) (.unique t) .uniqueNull := by
  intro s s' hok
  obtain rfl := Except.ok.inj hok
  refine ⟨[.byte 1], rfl, fun m slot rest u v' u' _ hu hread _ _ => ?_⟩
  simp only [unpack_unique, Unpacker.byte_eq hu, ok_bind] at hread
  obtain ⟨-, rfl⟩ := by simpa using hread
  exact ⟨rfl, .leaf rfl fun _ => rfl⟩

theorem Mirrors.unique (hv : Mirrors fields h H f G (pup h follow v) T v) :
    Mirrors fields h H f G (pup h follow (.unique v)) (.unique T) (.unique v) := by
  intro s s' hok
  obtain ⟨x, hx, hxs⟩ := hv (s.copy [.byte 0]) s' hok
  refine ⟨.byte 0 :: x, by simp [hx], fun m slot rest u v' u' hu hin hread hH he => ?_⟩
  have hbyte := Unpacker.byte_eq hin
  simp only [unpack_unique, hbyte, ok_bind, if_true, bind_eq_ok] at hread
  obtain ⟨⟨w, u₂⟩, hw, hread⟩ := hread
  obtain ⟨rfl, rfl⟩ := by simpa using hread
  have hw' : w = v.rename f := by simpa [Val.rename] using he
  obtain ⟨hin', hm⟩ := hxs m _ rest _ w u₂ ((proceeds_byte hbyte).1.bounded hu) rfl hw hH hw'
  exact ⟨hin', hm.same rfl rfl⟩

theorem Mirrors.poly (hv : Mirrors fields h H f G (pup h follow v) (fields c) v) :
    Mirrors fields h H f G (pup h follow (.poly c v)) .uniquePoly (.poly c v) := by
  intro s s' hok
  obtain ⟨x, hx, hxs⟩ := hv (s.copy [.word c]) s' hok
  refine ⟨.word c :: x, by simp [hx], fun m slot rest u v' u' hu hin hread hH he => ?_⟩
  have hword := Unpacker.word_eq hin
  simp only [unpack_uniquePoly, hword, ok_bind, bind_eq_ok] at hread
  obtain ⟨⟨w, u₂⟩, hw, hread⟩ := hread
  split_ifs at hread
  obtain ⟨rfl, rfl⟩ := by simpa using hread
  have hw' : w = v.rename f := by simpa [Val.rename] using he
  cases m with
  | zero => cases hw
  | succ m =>
    obtain ⟨hin', hm⟩ := hxs m .member rest _ w u₂ ((proceeds_word hword).bounded hu) rfl hw hH hw'
    exact ⟨hin', hm.same rfl rfl⟩

theorem mirrors_shared_null (t : Ty) (follow : α → Packer ω α → Except Fault (Packer ω α)) :
    Mirrors fields h H f G (pup h follow (.shared t none)) (.shared t) (.shared t none) := by
  intro s s' hok
  obtain rfl := Except.ok.inj hok
  refine ⟨[.byte 1], rfl, fun m slot rest u v' u' _ hu hread _ _ => ?_⟩
  rw [unpack_shared_ignored (Unpacker.record_ignored hu) rfl] at hread
  obtain ⟨-, rfl⟩ := by simpa using hread
  exact ⟨rfl, .leaf (by simp) fun _ => rfl⟩

theorem mirrors_sharedPoly_null (follow : α → Packer ω α → Except Fault (Packer ω α)) :
    Mirrors fields h H f G (pup h follow (.sharedPoly none)) .sharedPoly (.sharedPoly none) := by
  intro s s' hok
  obtain rfl := Except.ok.inj hok
  refine ⟨[.byte 1], rfl, fun m slot rest u v' u' _ hu hread _ _ => ?_⟩
  rw [unpack_sharedPoly_ignored (Unpacker.record_ignored hu) rfl] at hread
  obtain ⟨-, rfl⟩ := by simpa using hread
  exact ⟨rfl, .leaf (by simp) fun _ => rfl⟩

def MirrorsBehind (fields : ℕ → Ty) (h : Heap ω α) (H : Heap Owner Place)
    (f : Ptr ω α → Ptr Owner Place) (G : Ptr ω α → Prop)
    (follow : α → Packer ω α → Except Fault (Packer ω α)) (p : Ptr ω α) : Prop :=
  (∀ T w, h.lookup p.addr = some (.data T w) → Mirrors fields h H f G (follow p.addr) T w) ∧
    ∀ c w, h.lookup p.addr = some (.poly c w) →
      Mirrors fields h H f G (follow p.addr) (fields c) w

theorem mirrors_pup (htyped : ∀ p o, G p → h.lookup p.addr = some o → o.HasTy fields h)
    (hcopy : ∀ p, G p → H.lookup (f p).addr = (h.lookup p.addr).map (·.rename f))
    (hkeeps : ∀ a s s', follow a s = .ok s' → Keeps s s')
    (hf : ∀ p, G p → MirrorsBehind fields h H f G follow p) (hG : ∀ p ∈ v.ptrs, G p) :
    (∀ t, HasTy fields h v t → Mirrors fields h H f G (pup h follow v) t v) ∧
      ∀ t, Elems fields h v t → MirrorsElements fields h H f G (pup h follow v) t v := by
  induction v with
  | bytes bs =>
    refine ⟨fun t ht => ?_, fun t ht => by cases ht⟩
    cases ht with
    | bytes hlen => exact hlen ▸ mirrors_bytes bs follow
  | builtin bs =>
    refine ⟨fun t ht => ?_, fun t ht => by cases ht⟩
    cases ht
    exact mirrors_builtin bs follow
  | unit =>
    refine ⟨fun t ht => ?_, fun t ht => by cases ht⟩
    cases ht
    exact mirrors_unit follow
  | nil => exact ⟨fun t ht => (by cases ht), fun t _ => mirrorsElements_nil t follow⟩
  | pair a b iha ihb =>
    simp only [Val.ptrs_pair, List.mem_append] at hG
    refine ⟨fun t ht => ?_, fun t ht => by cases ht⟩
    cases ht with
    | pair ha hb =>
      exact .pair hkeeps ((iha fun p hp => hG p (.inl hp)).1 _ ha)
        ((ihb fun p hp => hG p (.inr hp)).1 _ hb)
  | cons a b iha ihb =>
    simp only [Val.ptrs_cons, List.mem_append] at hG
    refine ⟨fun t ht => (by cases ht), fun t ht => ?_⟩
    cases ht with
    | cons ha hb =>
      exact .cons hkeeps ((iha fun p hp => hG p (.inl hp)).1 _ ha)
        ((ihb fun p hp => hG p (.inr hp)).2 _ hb)
  | list l ih =>
    refine ⟨fun t ht => ?_, fun t ht => by cases ht⟩
    cases ht with
    | list hl => exact ((ih hG).2 _ hl).list
  | map l ih =>
    refine ⟨fun t ht => ?_, fun t ht => by cases ht⟩
    cases ht with
    | map hl => exact ((ih hG).2 _ hl).map
  | uniqueNull =>
    refine ⟨fun t ht => ?_, fun t ht => by cases ht⟩
    cases ht
    exact mirrors_uniqueNull _ follow
  | unique w ih =>
    refine ⟨fun t ht => ?_, fun t ht => by cases ht⟩
    cases ht with
    | unique hw => exact ((ih hG).1 _ hw).unique
  | polyNull => exact ⟨fun t ht => (by cases ht), fun t ht => (by cases ht)⟩
  | poly c w ih =>
    refine ⟨fun t ht => ?_, fun t ht => by cases ht⟩
    cases ht with
    | poly hw => exact ((ih hG).1 _ hw).poly
  | shared T p =>
    refine ⟨fun t ht => ?_, fun t ht => by cases ht⟩
    cases p with
    | none =>
      cases ht
      exact mirrors_shared_null T follow
    | some p =>
      cases ht with
      | @shared _ _ w hlook =>
        have hp : G p := hG p (by simp)
        refine mirrors_shared hp hlook (fun hd => ?_) (hcopy p hp) hkeeps ((hf p hp).1 T w hlook)
        have hw : HasTy fields h w T := htyped p _ hp hlook
        cases T with
        | bytes n =>
          cases hw
          rfl
        | _ => simp [Ty.defers] at hd
  | sharedPoly p =>
    refine ⟨fun t ht => ?_, fun t ht => by cases ht⟩
    cases p with
    | none =>
      cases ht
      exact mirrors_sharedPoly_null follow
    | some p =>
      cases ht with
      | @sharedPoly _ c w hlook =>
        have hp : G p := hG p (by simp)
        have hid : identify h p.addr = some c := by simp [identify, hlook]
        have hpup : pup h follow (.sharedPoly (some p)) = pupPtr follow .unit p c :=
          funext (pup_sharedPoly hid)
        rw [hpup]
        exact mirrors_sharedPoly hp hlook (hcopy p hp) hkeeps ((hf p hp).2 c w hlook)

theorem mirrors_pupObject (hstep : ∀ p q, G p → Edge h p q → G q)
    (htyped : ∀ p o, G p → h.lookup p.addr = some o → o.HasTy fields h)
    (hcopy : ∀ p, G p → H.lookup (f p).addr = (h.lookup p.addr).map (·.rename f)) (n : ℕ) :
    ∀ p, G p → MirrorsBehind fields h H f G (pupObject h n) p := by
  induction n with
  | zero => exact fun p _ => ⟨fun T w _ s s' hok => (by cases hok),
      fun c w _ s s' hok => (by cases hok)⟩
  | succ n ih =>
    intro p hp
    have hpup {x : Obj (Ptr ω α)} (hx : h.lookup p.addr = some x) :
        pupObject h (n + 1) p.addr = pup h (pupObject h n) x.value := by
      funext s
      rw [pupObject, hx]
    have hmirror {x : Obj (Ptr ω α)} (hx : h.lookup p.addr = some x) :=
      mirrors_pup htyped hcopy (fun _ _ _ => keeps_pupObject n) ih
        (fun q hq => hstep p q hp ⟨x, hx, hq⟩) (v := x.value)
    constructor
    · intro T w hlook
      rw [hpup hlook]
      exact (hmirror hlook).1 T (htyped p _ hp hlook)
    · intro c w hlook
      rw [hpup hlook]
      exact (hmirror hlook).1 (fields c) (htyped p _ hp hlook)

/-- Pointers with one owner point to one object, if what was packed is read as a copy. -/
theorem Mirrored.separate (hm : Mirrored h f (Reach h v) s s' u v) (hs : ∀ o, s.met o = none)
    (haddr : ∀ p q, Reach h v p → Reach h v q → ((f p).addr = (f q).addr ↔ p.addr = q.addr)) :
    Separate h v := by
  have reached : ∀ q, Reach h v q → Resolves s' u q.owner (f q) := by
    intro q hq
    induction hq with
    | root hq => exact hm.ptrs _ hq
    | @step p q hp he ih =>
      obtain ⟨o, ho, hqo⟩ := he
      obtain ⟨p₀, x, hp₀, howner, hx, hr, hxs⟩ := hm.behind p.owner (hs _) ih.met
      have hsame : p.addr = p₀.addr := (haddr p p₀ hp hp₀).mp (congrArg Ptr.addr (ih.eq hr))
      rw [← hsame, ho] at hx
      cases hx
      exact hxs q hqo
  intro p q hp hq ho
  refine (haddr p q hp hq).mp (congrArg Ptr.addr ?_)
  have hpr := reached p hp
  rw [ho] at hpr
  exact hpr.eq (reached q hq)

theorem Valid.separate_of_unpack {t : Ty} {n m : ℕ} {slot : Slot} {rest : List Cell} {v' : UVal}
    (hv : Valid fields h v t) (hs : ∀ o, s.met o = none) (hw : s.written = [])
    (hpup : pup h (pupObject h n) v s = .ok s') (hb : u.Bounded)
    (hu : u.input = s'.written ++ rest)
    (hread : unpack (unpackFields fields m) t slot u = .ok (v', u')) (hH : Agrees H u')
    (hc : CopyOf h v H v' f) : Separate h v := by
  have hbehind := mirrors_pupObject (fun _ _ hq he => hq.step he) hv.objects hc.object n
  obtain ⟨x, hx, hmirror⟩ := (mirrors_pup hv.objects hc.object (fun _ _ _ => keeps_pupObject n)
    hbehind fun q hq => .root hq).1 t hv.hasTy _ _ hpup
  rw [hw, List.nil_append] at hx
  obtain ⟨-, hm⟩ := hmirror m slot rest u v' u' hb (hx ▸ hu) hread hH hc.value
  exact hm.separate hs hc.addr_eq_iff

end Mirrors

end Hypercomm.Serialization
