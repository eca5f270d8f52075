import Hypercomm.Serialization.Packing

/-! # Reading cells

What an unpacker does with the cells in front of it, one equation for each type.
-/

namespace Hypercomm.Serialization

@[simp] theorem ok_bind {ε A B : Type*} (a : A) (f : A → Except ε B) :
    (Except.ok a).bind f = f a := rfl

@[simp] theorem error_bind {ε A B : Type*} (e : ε) (f : A → Except ε B) :
    (Except.error e).bind f = .error e := rfl

theorem bind_eq {ε A B : Type} (a : Except ε A) (f : A → Except ε B) : (a >>= f) = a.bind f := rfl

theorem bind_eq_ok {ε A B : Type*} {a : Except ε A} {f : A → Except ε B} {b : B} :
    a.bind f = .ok b ↔ ∃ c, a = .ok c ∧ f c = .ok b := by
  cases a with
  | error e => simp
  | ok c => simp

section Reading

variable {u : Unpacker} {cs rest : List Cell}

namespace Unpacker

def skip (u : Unpacker) (cs rest : List Cell) : Unpacker :=
  { u with input := rest, offset := u.offset + Serialization.size cs }

def register (u : Unpacker) (k : ℕ) (p : Ptr Owner Place) : Unpacker :=
  { u with instances := (k, p) :: u.instances }

theorem skip_skip (u : Unpacker) (cs ds r₁ r₂ : List Cell) :
    (u.skip cs r₁).skip ds r₂ = u.skip (cs ++ ds) r₂ := by
  simp [skip, Nat.add_assoc]

theorem skip_nil (h : u.input = rest) : u.skip [] rest = u := by
  subst h
  rfl

theorem byte_eq {b : UInt8} (h : u.input = .byte b :: rest) :
    u.byte = .ok (b, u.skip [.byte b] rest) := by
  simp [byte, h, skip, Cell.size]

theorem word_eq {n : ℕ} (h : u.input = .word n :: rest) :
    u.word = .ok (n, u.skip [.word n] rest) := by
  simp [word, h, skip, Cell.size]

theorem puped_eq {b : List UInt8} (h : u.input = .puped b :: rest) :
    u.puped = .ok (b, u.skip [.puped b] rest) := by
  simp [puped, h, skip, Cell.size]

theorem bytes_eq {b : List UInt8} (h : u.input = b.map .byte ++ rest) :
    u.bytes b.length = .ok (b, u.skip (b.map .byte) rest) := by
  induction b generalizing u with
  | nil => simp only [List.map_nil, List.nil_append] at h; subst h; rfl
  | cons c b ih =>
    rw [List.map_cons, List.cons_append] at h
    have hr := ih (u := u.skip [.byte c] (b.map .byte ++ rest)) rfl
    simp [bytes, byte_eq h, bind_eq, hr, skip_skip]

theorem record_ignored (h : u.input = .byte 1 :: rest) :
    u.record = .ok (⟨.ignored, 0, 0, 0⟩, u.skip [.byte 1] rest) := by
  simp [record, byte_eq h, bind_eq]

theorem record_reference {id : ℕ} (h : u.input = .byte 3 :: .word id :: rest) :
    u.record = .ok (⟨.reference, id, 0, 0⟩, u.skip [.byte 3, .word id] rest) := by
  have hw := word_eq (u := u.skip [.byte 3] (.word id :: rest)) rfl
  simp [record, byte_eq h, bind_eq, hw, skip_skip]

theorem record_deferred {id ty : ℕ} (h : u.input = .byte 2 :: .word id :: .word ty :: rest) :
    u.record = .ok (⟨.deferred, id, ty, 0⟩, u.skip [.byte 2, .word id, .word ty] rest) := by
  have hw := word_eq (u := u.skip [.byte 2] (.word id :: .word ty :: rest)) rfl
  have ht := word_eq (u := u.skip [.byte 2, .word id] (.word ty :: rest)) rfl
  simp [record, byte_eq h, bind_eq, hw, ht, skip_skip]

theorem record_instance {id ty : ℕ} (h : u.input = .byte 4 :: .word id :: .word ty :: rest) :
    u.record = .ok (⟨.instance, id, ty, 0⟩, u.skip [.byte 4, .word id, .word ty] rest) := by
  have hw := word_eq (u := u.skip [.byte 4] (.word id :: .word ty :: rest)) rfl
  have ht := word_eq (u := u.skip [.byte 4, .word id] (.word ty :: rest)) rfl
  simp [record, byte_eq h, bind_eq, hw, ht, skip_skip]

end Unpacker

end Reading

section

-- the equations of `unpack` are made once, before the proofs that rewrite with them
attribute [local simp] unpack

end

section Equations

variable (f : ℕ → Unpacker → Except Fault (UVal × Unpacker)) (s t : Ty) (slot : Slot) (u : Unpacker)

theorem unpack_pair : unpack f (.pair s t) slot u = (unpack f s slot u).bind fun a =>
    (unpack f t slot a.2).bind fun b => .ok (.pair a.1 b.1, b.2) := rfl

theorem unpack_list : unpack f (.list t) slot u = u.word.bind fun n =>
    (unpackElements (unpack f t .element) (fun _ _ => true) n.1 [] n.2).bind fun l =>
      .ok (.list l.1, l.2) := rfl

theorem unpack_map : unpack f (.map s t) slot u = u.word.bind fun n =>
    (unpackElements (unpack f (.pair s t) .entry) acceptsEntry n.1 [] n.2).bind fun l =>
      .ok (.map l.1, l.2) := rfl

theorem unpack_unique : unpack f (.unique t) slot u = u.byte.bind fun b =>
    if b.1 = 0 then (unpack f t .allocated b.2).bind fun v => .ok (.unique v.1, v.2)
    else .ok (.uniqueNull, b.2) := rfl

theorem unpack_uniquePoly : unpack f .uniquePoly slot u = u.word.bind fun c =>
    (f c.1 c.2).bind fun v =>
      if slot.raw then .error .undefined else .ok (.poly c.1 v.1, v.2) := rfl

theorem unpackElements_succ (read : Unpacker → Except Fault (UVal × Unpacker))
    (accepts : List UVal → UVal → Bool) (n : ℕ) (seen : List UVal) :
    unpackElements read accepts (n + 1) seen u = (read u).bind fun a =>
      (if accepts seen a.1 then unpackElements read accepts n (seen ++ [a.1]) a.2
        else .error .abort).bind fun l => .ok (.cons a.1 l.1, l.2) := by
  rw [unpackElements, bind_eq]
  cases read u with
  | error e => rfl
  | ok a =>
    simp only [ok_bind]
    split_ifs <;> rfl

variable {f t slot u} {u' u'' : Unpacker} {r : PtrRecord}

theorem unpack_shared_ignored (h : u.record = .ok (r, u')) (hr : r.kind = .ignored) :
    unpack f (.shared t) slot u = .ok (.shared t none, u') := by
  simp [unpack, bind_eq, h, hr]

theorem unpack_shared_reference (h : u.record = .ok (r, u')) (hr : r.kind = .reference) :
    unpack f (.shared t) slot u = .ok (.shared t (u'.getInstance r.id), u') := by
  simp [unpack, bind_eq, h, hr]

theorem unpack_shared_deferred {n : ℕ} (h : u.record = .ok (r, u')) (hr : r.kind = .deferred) :
    unpack f (.shared (.bytes n)) slot u = (u'.putDeferred slot r).bind fun p =>
      .ok (.shared (.bytes n) (some p.1), p.2) := by
  simp [unpack, bind_eq, h, hr]

theorem unpack_shared_bytes {n : ℕ} {b : List UInt8} (h : u.record = .ok (r, u'))
    (hr : r.kind = .instance) (hb : u'.bytes n = .ok (b, u''))
    (hn : u''.instances.lookup r.id = none) :
    unpack f (.shared (.bytes n)) slot u =
      .ok (.shared (.bytes n) (some ⟨u'.source, .message u'.offset⟩),
        (u''.register r.id ⟨u'.source, .message u'.offset⟩).enter (.message u'.offset)
          (.data (.bytes n) (.bytes b))) := by
  simp [unpack, bind_eq, h, hr, hb, Unpacker.putInstance, Unpacker.enter, Unpacker.register, hn]

theorem unpack_shared_data (h : u.record = .ok (r, u')) (hr : r.kind = .instance)
    (ht : ∀ n, t ≠ .bytes n) :
    unpack f (.shared t) slot u = (unpack f t .allocated u').bind fun v =>
      ((v.2.allocate.2.enter v.2.allocate.1.addr (.data t v.1)).putInstance r.id
        v.2.allocate.1).bind fun u => .ok (.shared t (some v.2.allocate.1), u) := by
  cases t with
  | bytes n => exact absurd rfl (ht n)
  | _ => simp [unpack, bind_eq, h, hr]

theorem unpack_shared_ok {v : UVal} (h : u.record = .ok (r, u')) (hr : r.kind = .instance)
    (ht : ∀ n, t ≠ .bytes n) (hv : unpack f t .allocated u' = .ok (v, u''))
    (hn : u''.instances.lookup r.id = none) :
    unpack f (.shared t) slot u = .ok (.shared t (some u''.allocate.1),
      (u''.allocate.2.register r.id u''.allocate.1).enter u''.allocate.1.addr (.data t v)) := by
  rw [unpack_shared_data h hr ht, hv]
  simp [Unpacker.putInstance, Unpacker.enter, Unpacker.register, Unpacker.allocate, hn]

theorem unpack_shared_error {e : Fault} (h : u.record = .ok (r, u')) (hr : r.kind = .instance)
    (ht : ∀ n, t ≠ .bytes n) (hv : unpack f t .allocated u' = .error e) :
    unpack f (.shared t) slot u = .error e := by
  rw [unpack_shared_data h hr ht, hv]
  rfl

theorem unpack_sharedPoly_ignored (h : u.record = .ok (r, u')) (hr : r.kind = .ignored) :
    unpack f .sharedPoly slot u = .ok (.sharedPoly none, u') := by
  simp [unpack, bind_eq, h, hr]

theorem unpack_sharedPoly_reference (h : u.record = .ok (r, u')) (hr : r.kind = .reference) :
    unpack f .sharedPoly slot u = .ok (.sharedPoly (u'.getInstance r.id), u') := by
  simp [unpack, bind_eq, h, hr]

theorem unpack_sharedPoly_instance (h : u.record = .ok (r, u')) (hr : r.kind = .instance)
    (hn : u'.instances.lookup r.id = none) :
    unpack f .sharedPoly slot u =
      (f r.ty (u'.allocate.2.register r.id u'.allocate.1)).bind fun v =>
        .ok (.sharedPoly (some u'.allocate.1),
          v.2.enter u'.allocate.1.addr (.poly r.ty v.1)) := by
  simp [unpack, bind_eq, h, hr, Unpacker.putInstance, Unpacker.register, Unpacker.allocate, hn]

end Equations

section Fuel

variable {f g : ℕ → Unpacker → Except Fault (UVal × Unpacker)} {t : Ty} {slot : Slot}
variable {u : Unpacker} {r : UVal × Unpacker}

theorem unpackElements_mono {read read' : Unpacker → Except Fault (UVal × Unpacker)}
    {accepts : List UVal → UVal → Bool} (hread : ∀ u r, read u = .ok r → read' u = .ok r) {n : ℕ}
    {seen : List UVal} (h : unpackElements read accepts n seen u = .ok r) :
    unpackElements read' accepts n seen u = .ok r := by
  induction n generalizing seen u r with
  | zero => exact h
  | succ n ih =>
    rw [unpackElements_succ, bind_eq_ok] at h ⊢
    obtain ⟨a, ha, h⟩ := h
    refine ⟨a, hread u a ha, ?_⟩
    rw [bind_eq_ok] at h ⊢
    obtain ⟨l, hl, h⟩ := h
    refine ⟨l, ?_, h⟩
    split_ifs at hl ⊢
    exact ih hl

theorem unpack_mono (hfg : ∀ c u r, f c u = .ok r → g c u = .ok r)
    (h : unpack f t slot u = .ok r) : unpack g t slot u = .ok r := by
  induction t generalizing slot u r with
  | bytes n => exact h
  | builtin => exact h
  | unit => exact h
  | pair s t ihs iht =>
    simp only [unpack_pair, bind_eq_ok] at h ⊢
    obtain ⟨a, ha, b, hb, h⟩ := h
    exact ⟨a, ihs ha, b, iht hb, h⟩
  | list t ih =>
    simp only [unpack_list, bind_eq_ok] at h ⊢
    obtain ⟨n, hn, l, hl, h⟩ := h
    exact ⟨n, hn, l, unpackElements_mono (fun _ _ => ih) hl, h⟩
  | map k v ihk ihv =>
    simp only [unpack_map, bind_eq_ok] at h ⊢
    obtain ⟨n, hn, l, hl, h⟩ := h
    refine ⟨n, hn, l, unpackElements_mono (fun u r hr => ?_) hl, h⟩
    simp only [unpack_pair, bind_eq_ok] at hr ⊢
    obtain ⟨a, ha, b, hb, hr⟩ := hr
    exact ⟨a, ihk ha, b, ihv hb, hr⟩
  | unique t ih =>
    rw [unpack_unique, bind_eq_ok] at h ⊢
    obtain ⟨b, hb, h⟩ := h
    refine ⟨b, hb, ?_⟩
    split_ifs at h ⊢ with hz
    · rw [bind_eq_ok] at h ⊢
      obtain ⟨v, hv, h⟩ := h
      exact ⟨v, ih hv, h⟩
    · exact h
  | uniquePoly =>
    simp only [unpack_uniquePoly, bind_eq_ok] at h ⊢
    obtain ⟨c, hc, v, hv, h⟩ := h
    exact ⟨c, hc, v, hfg _ _ _ hv, h⟩
  | shared t ih =>
    by_cases ht : ∃ n, t = .bytes n
    · obtain ⟨n, rfl⟩ := ht
      exact h
    · have hnb : ∀ n, t ≠ .bytes n := fun n hn => ht ⟨n, hn⟩
      cases hr : u.record with
      | error e =>
        simp only [unpack, hr] at h
        cases h
      | ok p =>
        obtain ⟨k, u'⟩ := p
        cases hk : k.kind with
        | ignored =>
          rw [unpack_shared_ignored hr hk] at h ⊢
          exact h
        | reference =>
          rw [unpack_shared_reference hr hk] at h ⊢
          exact h
        | deferred =>
          cases t with
          | bytes n => exact absurd rfl (hnb n)
          | _ => simp [unpack, bind_eq, hr, hk] at h
        | «instance» =>
          simp only [unpack_shared_data hr hk hnb, bind_eq_ok] at h ⊢
          obtain ⟨v, hv, h⟩ := h
          exact ⟨v, ih hv, h⟩
  | sharedPoly =>
    cases hr : u.record with
    | error e =>
      simp only [unpack, hr] at h
      cases h
    | ok p =>
      obtain ⟨k, u'⟩ := p
      cases hk : k.kind with
      | ignored =>
        rw [unpack_sharedPoly_ignored hr hk] at h ⊢
        exact h
      | reference =>
        rw [unpack_sharedPoly_reference hr hk] at h ⊢
        exact h
      | deferred => simp [unpack, bind_eq, hr, hk] at h
      | «instance» =>
        simp only [unpack, bind_eq, hr, ok_bind, hk, bind_eq_ok] at h ⊢
        obtain ⟨u₁, hu, v, hv, h⟩ := h
        exact ⟨u₁, hu, v, hfg _ _ _ hv, h⟩

theorem unpackFields_mono {fields : ℕ → Ty} {n m c : ℕ} (hnm : n ≤ m)
    (h : unpackFields fields n c u = .ok r) : unpackFields fields m c u = .ok r := by
  induction n generalizing m c u r with
  | zero => cases h
  | succ n ih =>
    obtain ⟨m, rfl⟩ := Nat.exists_eq_add_of_lt hnm
    exact unpack_mono (fun c u r hr => ih (by omega) hr) h

theorem unpackMessage_mono {fields : ℕ → Ty} {n m : ℕ} {msg : List Cell} (hnm : n ≤ m)
    (h : unpackMessage fields n t msg = .ok r) : unpackMessage fields m t msg = .ok r :=
  unpack_mono (fun _ _ _ hr => unpackFields_mono hnm hr) h

end Fuel

end Hypercomm.Serialization
