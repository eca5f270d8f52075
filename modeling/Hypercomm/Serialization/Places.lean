import Hypercomm.Serialization.Instances

/-! # Where objects are unpacked to

Whatever the cells are, an unpacker makes each object at a place where nothing lay before, and
gives an id one instance. So what was unpacked stays as it is.
-/

namespace Hypercomm.Serialization

section Places

variable {u u' u'' : Unpacker} {a : Place} {r : PtrRecord} {k n : ℕ}

def Unpacker.Bounded (u : Unpacker) : Prop := ∀ a o, u.heap.lookup a = some o → u.Taken a

theorem bounded_nil (h : u.heap = []) : u.Bounded := by
  intro a o ho
  rw [h] at ho
  cases ho

/-- Objects are unpacked to places where nothing lies yet. -/
structure Proceeds (u u' : Unpacker) : Prop extends Extends u u' where
  bounded : u.Bounded → u'.Bounded

theorem Proceeds.trans (h : Proceeds u u') (h' : Proceeds u' u'') : Proceeds u u'' where
  toExtends := h.toExtends.trans h'.toExtends
  bounded hu := h'.bounded (h.bounded hu)

theorem Proceeds.heap_lookup (h : Proceeds u u') (hu : u.Bounded) {o : Obj (Ptr Owner Place)}
    (ho : u.heap.lookup a = some o) : u'.heap.lookup a = some o :=
  (h.heap a (hu a o ho)).trans ho

theorem Extends.proceeds (h : Extends u u') (hheap : u'.heap = u.heap) : Proceeds u u' where
  toExtends := h
  bounded hu a o ho := h.taken (hu a o (hheap ▸ ho))

theorem Proceeds.refl : Proceeds u u := Extends.refl.proceeds rfl

theorem Proceeds.enter (h : Proceeds u u') (ha : ¬ u.Taken a) (ha' : u'.Taken a)
    (o : Obj (Ptr Owner Place)) : Proceeds u (u'.enter a o) where
  toExtends := h.toExtends.enter ha o
  bounded hu b x hx := by
    rw [lookup_enter] at hx
    split_ifs at hx with hb
    · exact hb ▸ ha'
    · exact h.bounded hu b x hx

theorem proceeds_allocate (u : Unpacker) : Proceeds u u.allocate.2 :=
  Extends.proceeds ⟨fun _ _ => id, fun _ _ => rfl, le_rfl, Nat.le_succ _⟩ rfl

theorem proceeds_byte {b : UInt8} (h : u.byte = .ok (b, u')) :
    Proceeds u u' ∧ u.offset < u'.offset := by
  unfold Unpacker.byte at h
  split at h
  · obtain ⟨-, rfl⟩ := by simpa using h
    exact ⟨Extends.proceeds ⟨fun _ _ => id, fun _ _ => rfl, Nat.le_succ _, le_rfl⟩ rfl,
      Nat.lt_succ_self _⟩
  · cases h

theorem proceeds_word (h : u.word = .ok (n, u')) : Proceeds u u' := by
  unfold Unpacker.word at h
  split at h
  · obtain ⟨-, rfl⟩ := by simpa using h
    exact Extends.proceeds ⟨fun _ _ => id, fun _ _ => rfl, Nat.le_add_right _ _, le_rfl⟩ rfl
  · cases h

theorem proceeds_puped {b : List UInt8} (h : u.puped = .ok (b, u')) : Proceeds u u' := by
  unfold Unpacker.puped at h
  split at h
  · obtain ⟨-, rfl⟩ := by simpa using h
    exact Extends.proceeds ⟨fun _ _ => id, fun _ _ => rfl, Nat.le_add_right _ _, le_rfl⟩ rfl
  · cases h

theorem proceeds_bytes {b : List UInt8} (h : u.bytes n = .ok (b, u')) : Proceeds u u' := by
  induction n generalizing u b with
  | zero =>
    obtain ⟨-, rfl⟩ := by simpa [Unpacker.bytes] using h
    exact .refl
  | succ n ih =>
    unfold Unpacker.bytes at h
    rw [bind_eq, bind_eq_ok] at h
    obtain ⟨⟨c, u₁⟩, hc, h⟩ := h
    dsimp only at h
    rw [bind_eq, bind_eq_ok] at h
    obtain ⟨⟨cs, u₂⟩, hcs, h⟩ := h
    obtain ⟨-, rfl⟩ := by simpa using h
    exact (proceeds_byte hc).1.trans (ih hcs)

theorem proceeds_record (h : u.record = .ok (r, u')) : Proceeds u u' ∧ u.offset < u'.offset := by
  unfold Unpacker.record at h
  rw [bind_eq, bind_eq_ok] at h
  obtain ⟨⟨k, u₁⟩, hk, h⟩ := h
  obtain ⟨h₁, hlt⟩ := proceeds_byte hk
  suffices hu : Proceeds u₁ u' from ⟨h₁.trans hu, hlt.trans_le hu.offset⟩
  dsimp only at h
  split_ifs at h
  · obtain ⟨-, rfl⟩ := by simpa using h
    exact .refl
  · rw [bind_eq, bind_eq_ok] at h
    obtain ⟨⟨id, u₂⟩, hid, h⟩ := h
    dsimp only at h
    rw [bind_eq, bind_eq_ok] at h
    obtain ⟨⟨ty, u₃⟩, hty, h⟩ := h
    obtain ⟨-, rfl⟩ := by simpa using h
    exact (proceeds_word hid).trans (proceeds_word hty)
  · rw [bind_eq, bind_eq_ok] at h
    obtain ⟨⟨id, u₂⟩, hid, h⟩ := h
    obtain ⟨-, rfl⟩ := by simpa using h
    exact proceeds_word hid
  · rw [bind_eq, bind_eq_ok] at h
    obtain ⟨⟨id, u₂⟩, hid, h⟩ := h
    dsimp only at h
    rw [bind_eq, bind_eq_ok] at h
    obtain ⟨⟨ty, u₃⟩, hty, h⟩ := h
    obtain ⟨-, rfl⟩ := by simpa using h
    exact (proceeds_word hid).trans (proceeds_word hty)

theorem putInstance_eq_ok {p : Ptr Owner Place} : u.putInstance k p = .ok u' ↔
    u.instances.lookup k = none ∧ u' = u.register k p := by
  unfold Unpacker.putInstance Unpacker.register
  cases u.instances.lookup k with
  | none => simp [eq_comm]
  | some q => simp

theorem proceeds_register {p : Ptr Owner Place} (hk : u.instances.lookup k = none) :
    Proceeds u (u.register k p) := by
  have hputs : Puts k p u (u.register k p) := ⟨rfl, rfl, le_rfl, le_rfl, rfl, rfl, rfl⟩
  exact (hputs.extends hk).proceeds rfl

theorem proceeds_elements {read : Unpacker → Except Fault (UVal × Unpacker)}
    {accepts : List UVal → UVal → Bool}
    (hread : ∀ u v u', read u = .ok (v, u') → Proceeds u u') {seen : List UVal} {v : UVal}
    (h : unpackElements read accepts n seen u = .ok (v, u')) : Proceeds u u' := by
  induction n generalizing seen u v with
  | zero =>
    obtain ⟨-, rfl⟩ := by simpa [unpackElements] using h
    exact .refl
  | succ n ih =>
    rw [unpackElements_succ, bind_eq_ok] at h
    obtain ⟨⟨a, u₁⟩, ha, h⟩ := h
    rw [bind_eq_ok] at h
    obtain ⟨⟨l, u₂⟩, hl, h⟩ := h
    split_ifs at hl
    obtain ⟨-, rfl⟩ := by simpa using h
    exact (hread u a u₁ ha).trans (ih hl)

variable {f : ℕ → Unpacker → Except Fault (UVal × Unpacker)} {t : Ty} {slot : Slot} {v : UVal}

theorem unpack_proceeds (hf : ∀ c u v u', f c u = .ok (v, u') → Proceeds u u')
    (hok : unpack f t slot u = .ok (v, u')) : Proceeds u u' := by
  induction t generalizing slot u v u' with
  | bytes n =>
    simp only [unpack, bind_eq, bind_eq_ok] at hok
    obtain ⟨⟨b, u₁⟩, hb, hok⟩ := hok
    obtain ⟨-, rfl⟩ := by simpa using hok
    exact proceeds_bytes hb
  | builtin =>
    simp only [unpack, bind_eq, bind_eq_ok] at hok
    obtain ⟨⟨b, u₁⟩, hb, hok⟩ := hok
    obtain ⟨-, rfl⟩ := by simpa using hok
    exact proceeds_puped hb
  | unit =>
    obtain ⟨-, rfl⟩ := by simpa [unpack] using hok
    exact .refl
  | pair s t ihs iht =>
    simp only [unpack_pair, bind_eq_ok] at hok
    obtain ⟨⟨a, u₁⟩, ha, ⟨b, u₂⟩, hb, hok⟩ := hok
    obtain ⟨-, rfl⟩ := by simpa using hok
    exact (ihs ha).trans (iht hb)
  | list t ih =>
    simp only [unpack_list, bind_eq_ok] at hok
    obtain ⟨⟨n, u₁⟩, hn, ⟨l, u₂⟩, hl, hok⟩ := hok
    obtain ⟨-, rfl⟩ := by simpa using hok
    exact (proceeds_word hn).trans (proceeds_elements (fun _ _ _ h => ih h) hl)
  | map k e ihk ihe =>
    simp only [unpack_map, bind_eq_ok] at hok
    obtain ⟨⟨n, u₁⟩, hn, ⟨l, u₂⟩, hl, hok⟩ := hok
    obtain ⟨-, rfl⟩ := by simpa using hok
    refine (proceeds_word hn).trans (proceeds_elements (fun u v u' h => ?_) hl)
    simp only [unpack_pair, bind_eq_ok] at h
    obtain ⟨⟨a, u₁⟩, ha, ⟨b, u₂⟩, hb, h⟩ := h
    obtain ⟨-, rfl⟩ := by simpa using h
    exact (ihk ha).trans (ihe hb)
  | unique t ih =>
    rw [unpack_unique, bind_eq_ok] at hok
    obtain ⟨⟨b, u₁⟩, hb, hok⟩ := hok
    split_ifs at hok
    · rw [bind_eq_ok] at hok
      obtain ⟨⟨e, u₂⟩, he, hok⟩ := hok
      obtain ⟨-, rfl⟩ := by simpa using hok
      exact (proceeds_byte hb).1.trans (ih he)
    · obtain ⟨-, rfl⟩ := by simpa using hok
      exact (proceeds_byte hb).1
  | uniquePoly =>
    simp only [unpack_uniquePoly, bind_eq_ok] at hok
    obtain ⟨⟨c, u₁⟩, hc, ⟨e, u₂⟩, he, hok⟩ := hok
    split_ifs at hok
    obtain ⟨-, rfl⟩ := by simpa using hok
    exact (proceeds_word hc).trans (hf c u₁ e u₂ he)
  | shared t ih =>
    cases hr : u.record with
    | error e =>
      simp only [unpack, hr] at hok
      cases hok
    | ok p =>
      obtain ⟨r, u₁⟩ := p
      obtain ⟨hread, hlt⟩ := proceeds_record hr
      cases hk : r.kind with
      | ignored =>
        rw [unpack_shared_ignored hr hk] at hok
        obtain ⟨-, rfl⟩ := by simpa using hok
        exact hread
      | reference =>
        rw [unpack_shared_reference hr hk] at hok
        obtain ⟨-, rfl⟩ := by simpa using hok
        exact hread
      | deferred =>
        cases t with
        | bytes n =>
          rw [unpack_shared_deferred hr hk, bind_eq_ok] at hok
          obtain ⟨⟨q, u₂⟩, hq, hok⟩ := hok
          obtain ⟨-, rfl⟩ := by simpa using hok
          unfold Unpacker.putDeferred at hq
          split_ifs at hq
          obtain ⟨-, rfl⟩ := by simpa using hq
          exact hread.trans (Extends.proceeds ⟨fun _ _ => id, fun _ _ => rfl, le_rfl, le_rfl⟩ rfl)
        | _ => simp [unpack, bind_eq, hr, hk] at hok
      | «instance» =>
        by_cases ht : ∃ n, t = .bytes n
        · obtain ⟨n, rfl⟩ := ht
          simp only [unpack, bind_eq, hr, ok_bind, hk, bind_eq_ok] at hok
          obtain ⟨⟨b, u₂⟩, hb, u₃, hput, hok⟩ := hok
          obtain ⟨-, rfl⟩ := by simpa using hok
          obtain ⟨hnone, rfl⟩ := putInstance_eq_ok.mp hput
          have hbytes := proceeds_bytes hb
          have hfree : ¬ u.Taken (.message u₁.offset) := Nat.not_le_of_lt hlt
          exact ((hread.trans hbytes).enter hfree hbytes.offset _).trans (proceeds_register hnone)
        · rw [unpack_shared_data hr hk fun n hn => ht ⟨n, hn⟩, bind_eq_ok] at hok
          obtain ⟨⟨e, u₂⟩, he, hok⟩ := hok
          rw [bind_eq_ok] at hok
          obtain ⟨u₃, hput, hok⟩ := hok
          obtain ⟨-, rfl⟩ := by simpa using hok
          obtain ⟨hnone, rfl⟩ := putInstance_eq_ok.mp hput
          have hmade : Proceeds u₂ (u₂.allocate.2.enter u₂.allocate.1.addr (.data t e)) :=
            (proceeds_allocate u₂).enter (Nat.lt_irrefl _) (Nat.lt_succ_self _) _
          exact ((hread.trans (ih he)).trans hmade).trans (proceeds_register hnone)
  | sharedPoly =>
    cases hr : u.record with
    | error e =>
      simp only [unpack, hr] at hok
      cases hok
    | ok p =>
      obtain ⟨r, u₁⟩ := p
      have hread := (proceeds_record hr).1
      cases hk : r.kind with
      | ignored =>
        rw [unpack_sharedPoly_ignored hr hk] at hok
        obtain ⟨-, rfl⟩ := by simpa using hok
        exact hread
      | reference =>
        rw [unpack_sharedPoly_reference hr hk] at hok
        obtain ⟨-, rfl⟩ := by simpa using hok
        exact hread
      | deferred => simp [unpack, bind_eq, hr, hk] at hok
      | «instance» =>
        simp only [unpack, bind_eq, hr, ok_bind, hk, bind_eq_ok] at hok
        obtain ⟨u₂, hput, ⟨e, u₃⟩, he, hok⟩ := hok
        obtain ⟨-, rfl⟩ := by simpa using hok
        obtain ⟨hnone, rfl⟩ := putInstance_eq_ok.mp hput
        have hfields := hf r.ty _ e u₃ he
        have hall : Proceeds u₁ u₃ :=
          ((proceeds_allocate u₁).trans (proceeds_register hnone)).trans hfields
        exact hread.trans (hall.enter (Nat.lt_irrefl _)
          (hfields.taken (Nat.lt_succ_self _)) _)

theorem unpackFields_proceeds {fields : ℕ → Ty} {fuel : ℕ} :
    ∀ c u v u', unpackFields fields fuel c u = .ok (v, u') → Proceeds u u' := by
  induction fuel with
  | zero =>
    intro c u v u' hok
    cases hok
  | succ fuel ih =>
    intro c u v u' hok
    exact unpack_proceeds ih hok

end Places

section Instances

variable {f : ℕ → Unpacker → Except Fault (UVal × Unpacker)} {t : Ty} {slot : Slot} {v : UVal}
variable {u u' : Unpacker} {a : Ptr Owner Place} {id ty : ℕ} {rest : List Cell}

/-- An object was made, and a pointer to it that is the instance of an id. -/
structure Made (k : ℕ) (a : Ptr Owner Place) (o : Obj (Ptr Owner Place)) (u u' : Unpacker) :
    Prop where
  input : u'.input = u.input
  registered : u'.instances.lookup k = some a
  instances : ∀ j b, u.instances.lookup j = some b → u'.instances.lookup j = some b
  object : u'.heap.lookup a.addr = some o
  heap : ∀ b x, u.heap.lookup b = some x → u'.heap.lookup b = some x

theorem Unpacker.Bounded.lookup_eq_none (hb : u.Bounded) {a : Place} (ha : ¬ u.Taken a) :
    u.heap.lookup a = none :=
  Option.eq_none_iff_forall_ne_some.mpr fun o ho => ha (hb a o ho)

theorem lookup_enter_of_none {a b : Place} {o x : Obj (Ptr Owner Place)}
    (ha : u.heap.lookup a = none) (hx : u.heap.lookup b = some x) :
    (u.enter a o).heap.lookup b = some x := by
  rw [lookup_enter, if_neg]
  · exact hx
  · rintro rfl
    cases ha.symm.trans hx

theorem made_register {o : Obj (Ptr Owner Place)} (hinput : u'.input = u.input)
    (hinst : u'.instances = u.instances) (hheap : u'.heap = u.heap)
    (ha : u.heap.lookup a.addr = none) (hk : u'.instances.lookup id = none) :
    Made id a o u ((u'.enter a.addr o).register id a) := by
  have hputs : Puts id a (u'.enter a.addr o) ((u'.enter a.addr o).register id a) :=
    ⟨rfl, rfl, le_rfl, le_rfl, rfl, rfl, rfl⟩
  refine ⟨hinput, (hputs.lookup id).trans (if_pos rfl), fun j b hj => ?_, ?_, fun b x hx => ?_⟩
  · exact (hputs.extends hk).instances j b (hinst ▸ hj)
  · exact (lookup_enter _ _ _ _).trans (if_pos rfl)
  · exact lookup_enter_of_none (hheap ▸ ha) (hheap ▸ hx)

theorem unpack_shared_made (hf : ∀ c u v u', f c u = .ok (v, u') → Proceeds u u')
    (hb : u.Bounded) (hu : u.input = .byte 4 :: .word id :: .word ty :: rest)
    (hok : unpack f (.shared t) slot u = .ok (v, u')) : ∃ w u₁ u₂ a,
      unpack f t .allocated u₁ = .ok (w, u₂) ∧ u₁.input = rest ∧ u₁.Bounded ∧
        v = .shared t (some a) ∧ Made id a (.data t w) u₂ u' := by
  have hr := Unpacker.record_instance hu
  obtain ⟨hread, hlt⟩ := proceeds_record hr
  by_cases ht : ∃ n, t = .bytes n
  · obtain ⟨n, rfl⟩ := ht
    simp only [unpack, bind_eq, hr, ok_bind, bind_eq_ok] at hok
    obtain ⟨⟨b, u₂⟩, hbytes, u₃, hput, hok⟩ := hok
    obtain ⟨rfl, rfl⟩ := by simpa using hok
    obtain ⟨hnone, rfl⟩ := putInstance_eq_ok.mp hput
    have hfree : ¬ u.Taken (.message (u.skip [.byte 4, .word id, .word ty] rest).offset) :=
      Nat.not_le_of_lt hlt
    refine ⟨.bytes b, _, u₂, _, by simp only [unpack, bind_eq, hbytes, ok_bind], rfl,
      hread.bounded hb, rfl, made_register rfl rfl rfl ?_ hnone⟩
    exact ((proceeds_bytes hbytes).heap _ (Nat.le_refl _)).trans (hb.lookup_eq_none hfree)
  · rw [unpack_shared_data hr rfl fun n hn => ht ⟨n, hn⟩, bind_eq_ok] at hok
    obtain ⟨⟨w, u₂⟩, hw, hok⟩ := hok
    rw [bind_eq_ok] at hok
    obtain ⟨u₃, hput, hok⟩ := hok
    obtain ⟨rfl, rfl⟩ := by simpa using hok
    obtain ⟨hnone, rfl⟩ := putInstance_eq_ok.mp hput
    have hb₂ : u₂.Bounded := (unpack_proceeds hf hw).bounded (hread.bounded hb)
    exact ⟨w, _, u₂, _, hw, rfl, hread.bounded hb, rfl,
      made_register rfl rfl rfl (hb₂.lookup_eq_none (Nat.lt_irrefl _)) hnone⟩

theorem unpack_sharedPoly_made (hf : ∀ c u v u', f c u = .ok (v, u') → Proceeds u u')
    (hb : u.Bounded) (hu : u.input = .byte 4 :: .word id :: .word ty :: rest)
    (hok : unpack f .sharedPoly slot u = .ok (v, u')) : ∃ w u₁ u₂ a,
      f ty u₁ = .ok (w, u₂) ∧ u₁.input = rest ∧ u₁.Bounded ∧
        v = .sharedPoly (some a) ∧ Made id a (.poly ty w) u₂ u' := by
  have hr := Unpacker.record_instance hu
  have hb₁ := (proceeds_record hr).1.bounded hb
  set u₀ : Unpacker := u.skip [.byte 4, .word id, .word ty] rest
  simp only [unpack, bind_eq, hr, ok_bind, bind_eq_ok] at hok
  obtain ⟨u₁, hput, ⟨w, u₂⟩, hw, hok⟩ := hok
  obtain ⟨rfl, rfl⟩ := by simpa using hok
  obtain ⟨hnone, rfl⟩ := putInstance_eq_ok.mp hput
  have hstart : Proceeds u₀ (u₀.allocate.2.register id u₀.allocate.1) :=
    (proceeds_allocate u₀).trans (proceeds_register hnone)
  have hfields := hf ty _ w u₂ hw
  have hfree : u₂.heap.lookup u₀.allocate.1.addr = none :=
    (hfields.heap _ (Nat.lt_succ_self _)).trans (hb₁.lookup_eq_none (Nat.lt_irrefl _))
  have hputs : Puts id u₀.allocate.1 u₀.allocate.2 (u₀.allocate.2.register id u₀.allocate.1) :=
    ⟨rfl, rfl, le_rfl, le_rfl, rfl, rfl, rfl⟩
  refine ⟨w, _, u₂, u₀.allocate.1, hw, rfl, hstart.bounded hb₁, rfl, rfl, ?_, fun _ _ h => h, ?_,
    fun b x hx => lookup_enter_of_none hfree hx⟩
  · exact hfields.instances _ _ ((hputs.lookup id).trans (if_pos rfl))
  · exact (lookup_enter _ _ _ _).trans (if_pos rfl)

/-- A record that is no instance says where its pointer leads. -/
def Leads (u : Unpacker) (r : PtrRecord) (a : Ptr Owner Place) : Prop :=
  if r.kind = .deferred then a = ⟨some (.buffer r.id), .buffer r.id⟩
  else u.instances.lookup r.id = some a

theorem lookup_of_getInstance (h : u.getInstance id = some a) : u.instances.lookup id = some a :=
  (Option.filter_eq_some_iff.mp h).1

theorem unpack_shared_met {r : PtrRecord} (hk : r.kind ≠ .instance) (hu : u.input = r.cells ++ rest)
    (hok : unpack f (.shared t) slot u = .ok (.shared t (some a), u')) :
    u'.input = rest ∧ Leads u' r a := by
  unfold PtrRecord.cells at hu
  cases hr : r.kind with
  | ignored =>
    rw [hr] at hu
    rw [unpack_shared_ignored (Unpacker.record_ignored hu) rfl] at hok
    simp at hok
  | reference =>
    rw [hr] at hu
    rw [unpack_shared_reference (Unpacker.record_reference hu) rfl] at hok
    obtain ⟨hget, rfl⟩ := by simpa using hok
    refine ⟨rfl, ?_⟩
    rw [Leads, if_neg (by rw [hr]; exact Kind.noConfusion)]
    exact lookup_of_getInstance hget
  | deferred =>
    rw [hr] at hu
    have hrec := Unpacker.record_deferred hu
    cases t with
    | bytes n =>
      rw [unpack_shared_deferred hrec rfl, bind_eq_ok] at hok
      obtain ⟨⟨q, u₂⟩, hq, hok⟩ := hok
      obtain ⟨rfl, rfl⟩ := by simpa using hok
      unfold Unpacker.putDeferred at hq
      split_ifs at hq
      obtain ⟨rfl, rfl⟩ := by simpa using hq
      exact ⟨rfl, by rw [Leads, if_pos hr]⟩
    | _ => simp [unpack, bind_eq, hrec] at hok
  | «instance» => exact absurd hr hk

theorem unpack_sharedPoly_met {r : PtrRecord} (hk : r.kind ≠ .instance)
    (hu : u.input = r.cells ++ rest)
    (hok : unpack f .sharedPoly slot u = .ok (.sharedPoly (some a), u')) :
    u'.input = rest ∧ Leads u' r a := by
  unfold PtrRecord.cells at hu
  cases hr : r.kind with
  | ignored =>
    rw [hr] at hu
    rw [unpack_sharedPoly_ignored (Unpacker.record_ignored hu) rfl] at hok
    simp at hok
  | reference =>
    rw [hr] at hu
    rw [unpack_sharedPoly_reference (Unpacker.record_reference hu) rfl] at hok
    obtain ⟨hget, rfl⟩ := by simpa using hok
    refine ⟨rfl, ?_⟩
    rw [Leads, if_neg (by rw [hr]; exact Kind.noConfusion)]
    exact lookup_of_getInstance hget
  | deferred =>
    rw [hr] at hu
    simp [unpack, bind_eq, Unpacker.record_deferred hu] at hok
  | «instance» => exact absurd hr hk

end Instances

end Hypercomm.Serialization
