import Hypercomm.Serialization.Deferral
import Mathlib.Algebra.GroupWithZero.Nat

/-! # The weight of a message

Cells are weighed by their kind. A pass writes no more than the value weighs, with one object for
each owner that it meets. An unpacker reads at least what its result weighs, with all the objects
that it made. So a message is too light for a copy of a value with more objects than owners.
-/

namespace Hypercomm.Serialization

/-- What the cells of each kind weigh. The byte of a null pointer is the lightest, and that of an
instance weighs at least as much as that of a reference or of a deferred object. -/
structure Weight where
  byte : UInt8 → ℕ
  word : ℕ
  puped : List UInt8 → ℕ
  null_le : ∀ b, byte 1 ≤ byte b
  deferred_eq : byte 2 = byte 3
  reference_le : byte 3 ≤ byte 4

namespace Weight

variable (w : Weight)

def cell : Cell → ℕ
  | .byte b => w.byte b
  | .word _ => w.word
  | .puped b => w.puped b

def cells : List Cell → ℕ
  | [] => 0
  | c :: cs => w.cell c + cells cs

/-- The weight of a value, whose pointers are references. -/
def value {P : Type*} : Val P → ℕ
  | .bytes b => (b.map w.byte).sum
  | .builtin b => w.puped b
  | .unit | .nil | .polyNull => 0
  | .pair a b | .cons a b => value a + value b
  | .list l | .map l => w.word + value l
  | .uniqueNull => w.byte 1
  | .unique v => w.byte 0 + value v
  | .poly _ v => w.word + value v
  | .shared _ none | .sharedPoly none => w.byte 1
  | .shared _ (some _) | .sharedPoly (some _) => w.byte 3 + w.word

/-- What an instance weighs more than a reference, without the object. -/
def made : ℕ := w.byte 4 - w.byte 3 + w.word

def object {P : Type*} (d : Bool) (o : Obj P) : ℕ :=
  if o.defers d then w.word else w.made + w.value o.value

def objectAt {ω α : Type*} [DecidableEq α] (h : Heap ω α) (d : Bool) (a : α) : ℕ :=
  match h.lookup a with
  | none => 0
  | some o => w.object d o

def heap {ω α : Type*} (h : Heap ω α) : ℕ := (h.map fun e => w.object false e.2).sum

def sizes : Weight where
  byte _ := 1
  word := 8
  puped b := b.length
  null_le _ := le_rfl
  deferred_eq := rfl
  reference_le := le_rfl

def bytes : Weight where
  byte _ := 1
  word := 0
  puped _ := 0
  null_le _ := le_rfl
  deferred_eq := rfl
  reference_le := le_rfl

def instances : Weight where
  byte b := if b = 4 then 1 else 0
  word := 0
  puped _ := 0
  null_le _ := Nat.zero_le _
  deferred_eq := rfl
  reference_le := Nat.zero_le _

@[simp] theorem cells_nil : w.cells [] = 0 := rfl

@[simp] theorem cells_cons (c : Cell) (cs : List Cell) :
    w.cells (c :: cs) = w.cell c + w.cells cs := rfl

@[simp] theorem cells_append (cs ds : List Cell) :
    w.cells (cs ++ ds) = w.cells cs + w.cells ds := by
  induction cs with
  | nil => simp
  | cons c cs ih => simp [ih, Nat.add_assoc]

@[simp] theorem cells_map_byte (b : List UInt8) :
    w.cells (b.map .byte) = (b.map w.byte).sum := by
  induction b with
  | nil => simp
  | cons c b ih =>
    rw [List.map_cons, cells_cons, ih, List.map_cons, List.sum_cons]
    rfl

theorem made_add : w.byte 3 + w.word + w.made = w.byte 4 + w.word + w.word := by
  have hle := w.reference_le
  unfold made
  omega

theorem word_le_made : w.word ≤ w.made := Nat.le_add_left _ _

theorem sizes_cells (cs : List Cell) : sizes.cells cs = size cs := by
  induction cs with
  | nil => rfl
  | cons c cs ih =>
    rw [cells_cons, size_cons, ih]
    cases c <;> rfl

@[simp] theorem value_rename {P Q : Type*} (f : P → Q) (v : Val P) :
    w.value (v.rename f) = w.value v := by
  induction v with
  | pair a b iha ihb | cons a b iha ihb => simp only [Val.rename, value, iha, ihb]
  | list l ih | map l ih | unique l ih | poly _ l ih => simp only [Val.rename, value, ih]
  | shared t p | sharedPoly p => cases p <;> rfl
  | _ => rfl

theorem defers_rename {P Q : Type*} (f : P → Q) (d : Bool) (o : Obj P) :
    (o.rename f).defers d = o.defers d := by
  cases o <;> rfl

theorem object_rename {P Q : Type*} (f : P → Q) (d : Bool) (o : Obj P) :
    w.object d (o.rename f) = w.object d o := by
  simp [object, defers_rename]

theorem objectAt_eq {ω α : Type*} [DecidableEq α] {h : Heap ω α} {d : Bool} {a : α}
    {o : Obj (Ptr ω α)} (ho : h.lookup a = some o) : w.objectAt h d a = w.object d o := by
  unfold objectAt
  rw [ho]

theorem defers_false {P : Type*} (o : Obj P) : o.defers false = false := by
  cases o with
  | data t v => cases t <;> rfl
  | poly c v => rfl

end Weight

section Unpacking

variable {w : Weight} {u u' u'' : Unpacker} {k k' : ℕ}

/-- What was read weighs as much as this and the objects that were made. -/
def Consumes (w : Weight) (u : Unpacker) (k : ℕ) (u' : Unpacker) : Prop :=
  ∃ E, u'.heap = E ++ u.heap ∧ w.cells u'.input + k + w.heap E ≤ w.cells u.input

theorem Consumes.refl : Consumes w u 0 u := ⟨[], rfl, le_rfl⟩

theorem Consumes.mono (h : Consumes w u k u') (hk : k' ≤ k) : Consumes w u k' u' := by
  obtain ⟨E, hE, hle⟩ := h
  exact ⟨E, hE, by omega⟩

theorem Consumes.trans (h : Consumes w u k u') (h' : Consumes w u' k' u'') :
    Consumes w u (k + k') u'' := by
  obtain ⟨E, hE, hle⟩ := h
  obtain ⟨F, hF, hle'⟩ := h'
  refine ⟨F ++ E, by rw [hF, hE, List.append_assoc], ?_⟩
  have happ : w.heap (F ++ E) = w.heap F + w.heap E := by simp [Weight.heap]
  omega

theorem Consumes.enter {a : Place} {o : Obj (Ptr Owner Place)}
    (h : Consumes w u (k + w.object false o) u') (hheap : u''.heap = (a, o) :: u'.heap)
    (hinput : u''.input = u'.input) : Consumes w u k u'' := by
  obtain ⟨E, hE, hle⟩ := h
  refine ⟨(a, o) :: E, by rw [hheap, hE, List.cons_append], ?_⟩
  have hcons : w.heap ((a, o) :: E) = w.object false o + w.heap E := by simp [Weight.heap]
  rw [hinput]
  omega

theorem Consumes.of_eq (h : Consumes w u' k u'') (hheap : u'.heap = u.heap)
    (hinput : u'.input = u.input) : Consumes w u k u'' := by
  obtain ⟨E, hE, hle⟩ := h
  exact ⟨E, by rw [hE, hheap], by rw [← hinput]; exact hle⟩

theorem consumes_byte {b : UInt8} (h : u.byte = .ok (b, u')) : Consumes w u (w.byte b) u' := by
  unfold Unpacker.byte at h
  split at h
  · next c rest hin =>
    obtain ⟨rfl, rfl⟩ := by simpa using h
    refine ⟨[], rfl, ?_⟩
    rw [hin]
    simp [Weight.heap, Weight.cell, Nat.add_comm]
  · cases h

theorem consumes_word {n : ℕ} (h : u.word = .ok (n, u')) : Consumes w u w.word u' := by
  unfold Unpacker.word at h
  split at h
  · next c rest hin =>
    obtain ⟨rfl, rfl⟩ := by simpa using h
    refine ⟨[], rfl, ?_⟩
    rw [hin]
    simp [Weight.heap, Weight.cell, Nat.add_comm]
  · cases h

theorem consumes_puped {b : List UInt8} (h : u.puped = .ok (b, u')) :
    Consumes w u (w.puped b) u' := by
  unfold Unpacker.puped at h
  split at h
  · next c rest hin =>
    obtain ⟨rfl, rfl⟩ := by simpa using h
    refine ⟨[], rfl, ?_⟩
    rw [hin]
    simp [Weight.heap, Weight.cell, Nat.add_comm]
  · cases h

theorem consumes_bytes {n : ℕ} {b : List UInt8} (h : u.bytes n = .ok (b, u')) :
    Consumes w u (b.map w.byte).sum u' := by
  induction n generalizing u b with
  | zero =>
    obtain ⟨rfl, rfl⟩ := by simpa [Unpacker.bytes] using h
    exact Consumes.refl.mono (by simp)
  | succ n ih =>
    unfold Unpacker.bytes at h
    rw [bind_eq, bind_eq_ok] at h
    obtain ⟨⟨c, u₁⟩, hc, h⟩ := h
    dsimp only at h
    rw [bind_eq, bind_eq_ok] at h
    obtain ⟨⟨cs, u₂⟩, hcs, h⟩ := h
    obtain ⟨rfl, rfl⟩ := by simpa using h
    exact (consumes_byte hc).trans (ih hcs)

def Weight.record (w : Weight) : Kind → ℕ
  | .ignored => w.byte 1
  | .reference => w.byte 3 + w.word
  | .deferred => w.byte 2 + w.word + w.word
  | .instance => w.byte 4 + w.word + w.word

theorem consumes_record {r : PtrRecord} (h : u.record = .ok (r, u')) :
    Consumes w u (w.record r.kind) u' := by
  unfold Unpacker.record at h
  rw [bind_eq, bind_eq_ok] at h
  obtain ⟨⟨k, u₁⟩, hk, h⟩ := h
  have h₁ : Consumes w u (w.byte k) u₁ := consumes_byte hk
  dsimp only at h
  split_ifs at h with hkind hkind hkind hkind <;> subst hkind
  · obtain ⟨rfl, rfl⟩ := by simpa using h
    exact h₁
  · rw [bind_eq, bind_eq_ok] at h
    obtain ⟨⟨id, u₂⟩, hid, h⟩ := h
    dsimp only at h
    rw [bind_eq, bind_eq_ok] at h
    obtain ⟨⟨ty, u₃⟩, hty, h⟩ := h
    obtain ⟨rfl, rfl⟩ := by simpa using h
    exact (h₁.trans (consumes_word hid)).trans (consumes_word hty)
  · rw [bind_eq, bind_eq_ok] at h
    obtain ⟨⟨id, u₂⟩, hid, h⟩ := h
    obtain ⟨rfl, rfl⟩ := by simpa using h
    exact h₁.trans (consumes_word hid)
  · rw [bind_eq, bind_eq_ok] at h
    obtain ⟨⟨id, u₂⟩, hid, h⟩ := h
    dsimp only at h
    rw [bind_eq, bind_eq_ok] at h
    obtain ⟨⟨ty, u₃⟩, hty, h⟩ := h
    obtain ⟨rfl, rfl⟩ := by simpa using h
    exact (h₁.trans (consumes_word hid)).trans (consumes_word hty)

theorem consumes_putInstance {n : ℕ} {p : Ptr Owner Place} (h : u.putInstance n p = .ok u') :
    u'.heap = u.heap ∧ u'.input = u.input := by
  unfold Unpacker.putInstance at h
  split at h
  · obtain rfl := by simpa using h
    exact ⟨rfl, rfl⟩
  · cases h

theorem consumes_elements {read : Unpacker → Except Fault (UVal × Unpacker)}
    {accepts : List UVal → UVal → Bool}
    (hread : ∀ u v u', read u = .ok (v, u') → Consumes w u (w.value v) u') {n : ℕ}
    {seen : List UVal} {v : UVal} (h : unpackElements read accepts n seen u = .ok (v, u')) :
    Consumes w u (w.value v) u' := by
  induction n generalizing seen u v with
  | zero =>
    obtain ⟨rfl, rfl⟩ := by simpa [unpackElements] using h
    exact .refl
  | succ n ih =>
    rw [unpackElements_succ, bind_eq_ok] at h
    obtain ⟨⟨a, u₁⟩, ha, h⟩ := h
    rw [bind_eq_ok] at h
    obtain ⟨⟨l, u₂⟩, hl, h⟩ := h
    split_ifs at hl
    obtain ⟨rfl, rfl⟩ := by simpa using h
    exact (hread u a u₁ ha).trans (ih hl)

section Values

variable {f : ℕ → Unpacker → Except Fault (UVal × Unpacker)} {t : Ty} {slot : Slot} {v : UVal}

theorem value_le_reference {P : Type*} (t : Ty) (p : Option P) :
    w.value (.shared t p) ≤ w.record .reference := by
  cases p with
  | none => exact (w.null_le 3).trans (Nat.le_add_right _ _)
  | some p => exact le_rfl

theorem value_sharedPoly_le_reference {P : Type*} (p : Option P) :
    w.value (.sharedPoly p) ≤ w.record .reference := by
  cases p with
  | none => exact (w.null_le 3).trans (Nat.le_add_right _ _)
  | some p => exact le_rfl

theorem Weight.record_instance (w : Weight) :
    w.record .instance = w.byte 3 + w.word + w.made := w.made_add.symm

theorem Weight.record_deferred (w : Weight) :
    w.record .deferred = w.byte 3 + w.word + w.word := by
  rw [← w.deferred_eq]
  rfl

/-- Whatever is read, it weighs as much as the value and the objects behind it. -/
theorem unpack_consumes
    (hf : ∀ c u v u', f c u = .ok (v, u') → Consumes w u (w.value v) u')
    (hok : unpack f t slot u = .ok (v, u')) : Consumes w u (w.value v) u' := by
  induction t generalizing slot u v u' with
  | bytes n =>
    simp only [unpack, bind_eq, bind_eq_ok] at hok
    obtain ⟨⟨b, u₁⟩, hb, hok⟩ := hok
    obtain ⟨rfl, rfl⟩ := by simpa using hok
    exact consumes_bytes hb
  | builtin =>
    simp only [unpack, bind_eq, bind_eq_ok] at hok
    obtain ⟨⟨b, u₁⟩, hb, hok⟩ := hok
    obtain ⟨rfl, rfl⟩ := by simpa using hok
    exact consumes_puped hb
  | unit =>
    obtain ⟨rfl, rfl⟩ := by simpa [unpack] using hok
    exact .refl
  | pair s t ihs iht =>
    simp only [unpack_pair, bind_eq_ok] at hok
    obtain ⟨⟨a, u₁⟩, ha, ⟨b, u₂⟩, hb, hok⟩ := hok
    obtain ⟨rfl, rfl⟩ := by simpa using hok
    exact (ihs ha).trans (iht hb)
  | list t ih =>
    simp only [unpack_list, bind_eq_ok] at hok
    obtain ⟨⟨n, u₁⟩, hn, ⟨l, u₂⟩, hl, hok⟩ := hok
    obtain ⟨rfl, rfl⟩ := by simpa using hok
    exact (consumes_word hn).trans (consumes_elements (fun _ _ _ h => ih h) hl)
  | map k e ihk ihe =>
    simp only [unpack_map, bind_eq_ok] at hok
    obtain ⟨⟨n, u₁⟩, hn, ⟨l, u₂⟩, hl, hok⟩ := hok
    obtain ⟨rfl, rfl⟩ := by simpa using hok
    refine (consumes_word hn).trans (consumes_elements (fun u v u' h => ?_) hl)
    simp only [unpack_pair, bind_eq_ok] at h
    obtain ⟨⟨a, u₁⟩, ha, ⟨b, u₂⟩, hb, h⟩ := h
    obtain ⟨rfl, rfl⟩ := by simpa using h
    exact (ihk ha).trans (ihe hb)
  | unique t ih =>
    rw [unpack_unique, bind_eq_ok] at hok
    obtain ⟨⟨b, u₁⟩, hb, hok⟩ := hok
    split_ifs at hok with hzero
    · rw [bind_eq_ok] at hok
      obtain ⟨⟨e, u₂⟩, he, hok⟩ := hok
      obtain ⟨rfl, rfl⟩ := by simpa using hok
      subst hzero
      exact (consumes_byte hb).trans (ih he)
    · obtain ⟨rfl, rfl⟩ := by simpa using hok
      exact (consumes_byte hb).mono (w.null_le b)
  | uniquePoly =>
    simp only [unpack_uniquePoly, bind_eq_ok] at hok
    obtain ⟨⟨c, u₁⟩, hc, ⟨e, u₂⟩, he, hok⟩ := hok
    split_ifs at hok
    obtain ⟨rfl, rfl⟩ := by simpa using hok
    exact (consumes_word hc).trans (hf c u₁ e u₂ he)
  | shared t ih =>
    cases hr : u.record with
    | error e =>
      simp only [unpack, hr] at hok
      cases hok
    | ok p =>
      obtain ⟨r, u₁⟩ := p
      have hread : Consumes w u (w.record r.kind) u₁ := consumes_record hr
      cases hk : r.kind with
      | ignored =>
        rw [unpack_shared_ignored hr hk] at hok
        obtain ⟨rfl, rfl⟩ := by simpa using hok
        rw [hk] at hread
        exact hread
      | reference =>
        rw [unpack_shared_reference hr hk] at hok
        obtain ⟨rfl, rfl⟩ := by simpa using hok
        rw [hk] at hread
        exact hread.mono (value_le_reference t _)
      | deferred =>
        cases t with
        | bytes n =>
          rw [unpack_shared_deferred hr hk, bind_eq_ok] at hok
          obtain ⟨⟨q, u₂⟩, hq, hok⟩ := hok
          obtain ⟨rfl, rfl⟩ := by simpa using hok
          unfold Unpacker.putDeferred at hq
          split_ifs at hq
          obtain ⟨rfl, rfl⟩ := by simpa using hq
          rw [hk, w.record_deferred] at hread
          exact hread.mono (Nat.le_add_right _ _)
        | _ => simp [unpack, bind_eq, hr, hk] at hok
      | «instance» =>
        rw [hk, w.record_instance] at hread
        by_cases ht : ∃ n, t = .bytes n
        · obtain ⟨n, rfl⟩ := ht
          simp only [unpack, bind_eq, hr, ok_bind, hk, bind_eq_ok] at hok
          obtain ⟨⟨b, u₂⟩, hb, u₃, hput, hok⟩ := hok
          obtain ⟨rfl, rfl⟩ := by simpa using hok
          obtain ⟨hheap, hinput⟩ := consumes_putInstance hput
          apply ((hread.trans (consumes_bytes hb)).mono _).enter hheap hinput
          simp only [Weight.value, Weight.object, Weight.defers_false]
          simp [Obj.value, Weight.value, Nat.add_assoc]
        · have hnb : ∀ n, t ≠ .bytes n := fun n hn => ht ⟨n, hn⟩
          rw [unpack_shared_data hr hk hnb, bind_eq_ok] at hok
          obtain ⟨⟨e, u₂⟩, he, hok⟩ := hok
          rw [bind_eq_ok] at hok
          obtain ⟨u₃, hput, hok⟩ := hok
          obtain ⟨rfl, rfl⟩ := by simpa using hok
          obtain ⟨hheap, hinput⟩ := consumes_putInstance hput
          apply ((hread.trans (ih he)).mono _).enter hheap hinput
          simp only [Weight.value, Weight.object, Weight.defers_false]
          simp [Obj.value, Nat.add_assoc]
  | sharedPoly =>
    cases hr : u.record with
    | error e =>
      simp only [unpack, hr] at hok
      cases hok
    | ok p =>
      obtain ⟨r, u₁⟩ := p
      have hread : Consumes w u (w.record r.kind) u₁ := consumes_record hr
      cases hk : r.kind with
      | ignored =>
        rw [unpack_sharedPoly_ignored hr hk] at hok
        obtain ⟨rfl, rfl⟩ := by simpa using hok
        rw [hk] at hread
        exact hread
      | reference =>
        rw [unpack_sharedPoly_reference hr hk] at hok
        obtain ⟨rfl, rfl⟩ := by simpa using hok
        rw [hk] at hread
        exact hread.mono (value_sharedPoly_le_reference _)
      | deferred => simp [unpack, bind_eq, hr, hk] at hok
      | «instance» =>
        rw [hk, w.record_instance] at hread
        simp only [unpack, bind_eq, hr, ok_bind, hk, bind_eq_ok] at hok
        obtain ⟨u₂, hput, ⟨e, u₃⟩, he, hok⟩ := hok
        obtain ⟨rfl, rfl⟩ := by simpa using hok
        obtain ⟨hheap, hinput⟩ := consumes_putInstance hput
        have hfields : Consumes w u₁ (w.value e) u₃ :=
          (hf r.ty u₂ e u₃ he).of_eq hheap hinput
        have hobj : Consumes w u (w.value (Val.sharedPoly (some u₁.allocate.1)) +
            w.object false (.poly r.ty e)) u₃ := by
          apply (hread.trans hfields).mono
          simp only [Weight.value, Weight.object, Weight.defers_false]
          simp [Obj.value, Nat.add_assoc]
        exact hobj.enter rfl rfl

theorem unpackFields_consumes {fields : ℕ → Ty} {fuel : ℕ} :
    ∀ c u v u', unpackFields fields fuel c u = .ok (v, u') → Consumes w u (w.value v) u' := by
  induction fuel with
  | zero =>
    intro c u v u' hok
    cases hok
  | succ fuel ih =>
    intro c u v u' hok
    exact unpack_consumes ih hok

end Values

end Unpacking

section Copies

variable {ω α : Type*} [DecidableEq α] {w : Weight} {h : Heap ω α} {v : Val (Ptr ω α)}

theorem word_le_objectAt {fields : ℕ → Ty} {t : Ty} {q : Ptr ω α} (hv : Valid fields h v t)
    (hq : Reach h v q) :
    w.word ≤ w.objectAt h false q.addr := by
  obtain ⟨k, hk⟩ := hv.reach hq
  obtain ⟨o, ho⟩ := Option.isSome_iff_exists.mp hk.isSome
  rw [w.objectAt_eq ho, Weight.object, Weight.defers_false]
  exact w.word_le_made.trans (Nat.le_add_right _ _)

theorem sum_objectAt_le {H : Heap Owner Place} {A : List Place} (hA : A.Nodup) :
    (A.map (w.objectAt H false)).sum ≤ w.heap H := by
  induction H generalizing A with
  | nil =>
    have hzero : A.map (w.objectAt ([] : Heap Owner Place) false) = A.map fun _ => 0 := rfl
    simp [hzero]
  | cons e H ih =>
    obtain ⟨b, o⟩ := e
    have hrest {B : List Place} (hb : b ∉ B) :
        B.map (w.objectAt ((b, o) :: H) false) = B.map (w.objectAt H false) := by
      refine List.map_congr_left fun a ha => ?_
      unfold Weight.objectAt
      have hab : (a == b) = false := beq_eq_false_iff_ne.mpr fun hab => hb (hab ▸ ha)
      rw [List.lookup_cons, hab]
    have hcons : w.heap ((b, o) :: H) = w.object false o + w.heap H := by simp [Weight.heap]
    rw [hcons]
    by_cases hb : b ∈ A
    · have hself : w.objectAt ((b, o) :: H) false b = w.object false o :=
        w.objectAt_eq (List.lookup_cons_self ..)
      have hsum := ((List.perm_cons_erase hb).map (w.objectAt ((b, o) :: H) false)).sum_eq
      rw [hsum, List.map_cons, List.sum_cons, hself, hrest hA.not_mem_erase]
      exact Nat.add_le_add_left (ih (hA.erase b)) _
    · rw [hrest hb]
      exact (ih hA).trans (Nat.le_add_left _ _)

/-- What was read for a copy weighs as much as the original, with any objects that it leads to,
each taken once. -/
theorem CopyOf.weight_le {f : Ptr ω α → Ptr Owner Place} {u u' : Unpacker} {v' : UVal}
    (hc : CopyOf h v u'.heap v' f) (hu : u.heap = []) (hk : Consumes w u (w.value v') u')
    {l : List (Ptr ω α)} (hl : ∀ q ∈ l, Reach h v q) (hd : (l.map Ptr.addr).Nodup) :
    w.value v + (l.map fun q => w.objectAt h false q.addr).sum + w.cells u'.input ≤
      w.cells u.input := by
  obtain ⟨E, hE, hle⟩ := hk
  rw [hu, List.append_nil] at hE
  have hnd : (l.map fun q => (f q).addr).Nodup := by
    refine hd.of_map.map_on fun q hq r hr he => ?_
    have haddr := (hc.addr_eq_iff q r (hl q hq) (hl r hr)).mp he
    exact List.inj_on_of_nodup_map hd hq hr haddr
  have hsum : (l.map fun q => w.objectAt h false q.addr).sum =
      ((l.map fun q => (f q).addr).map (w.objectAt E false)).sum := by
    rw [List.map_map]
    congr 1
    refine List.map_congr_left fun q hq => ?_
    have hobj := hc.object q (hl q hq)
    rw [hE] at hobj
    simp only [Function.comp_apply, Weight.objectAt, hobj]
    cases h.lookup q.addr with
    | none => rfl
    | some o => exact (w.object_rename f false o).symm
  have hheap : (l.map fun q => w.objectAt h false q.addr).sum ≤ w.heap E :=
    hsum ▸ sum_objectAt_le hnd
  have hvalue : w.value v' = w.value v := by rw [hc.value, w.value_rename]
  omega

end Copies

section Packing

variable {ω α : Type*} [DecidableEq ω] [DecidableEq α] {w : Weight} {h : Heap ω α}
variable {G : Ptr ω α → Prop} {s t u s' : Packer ω α} {ps qs : List (Ptr ω α)} {k k' : ℕ}
variable {p : Ptr ω α} {o : Obj (Ptr ω α)} {T : Ty} {ty : ℕ}
variable {follow : α → Packer ω α → Except Fault (Packer ω α)}

theorem weigh_record (r : PtrRecord) : w.cells r.cells = w.record r.kind := by
  unfold PtrRecord.cells
  cases r.kind <;> simp [Weight.record, Weight.cell, Nat.add_assoc]

def Counted (w : Weight) (s s' : Packer ω α) : Prop :=
  w.word = 0 ∨ (∀ q, s.met q ≠ some .deferred) ∧ s'.deferred = []

/-- What a pass adds, with the pointers through which it met objects. -/
structure Adds (w : Weight) (h : Heap ω α) (G : Ptr ω α → Prop) (k : ℕ) (s s' : Packer ω α)
    (ps : List (Ptr ω α)) : Prop extends Grows s s' where
  mem : ∀ p ∈ ps, G p ∧ s.met p.owner = none ∧ (s'.met p.owner).isSome
  nodup : (ps.map Ptr.owner).Nodup
  written : w.cells s'.written ≤
    w.cells s.written + k + (ps.map fun p => w.objectAt h s.deferrable p.addr).sum
  small : (∀ p ∈ ps, ¬ Large h p) → s'.deferred = s.deferred
  plain : (∀ q, s.met q ≠ some .deferred) → s'.deferred = [] → ∀ q, s'.met q ≠ some .deferred

theorem Adds.copy (s : Packer ω α) {cs : List Cell} (hk : w.cells cs ≤ k) :
    Adds w h G k s (s.copy cs) [] where
  toGrows := .copy s cs
  mem := List.forall_mem_nil _
  nodup := List.nodup_nil
  written := by
    rw [copy_written, w.cells_append]
    simpa using hk
  small _ := rfl
  plain hs _ := hs

theorem Adds.refl (s : Packer ω α) : Adds w h G 0 s s [] where
  toGrows := ⟨rfl, rfl, id, fun _ => id, id, List.prefix_rfl⟩
  mem := List.forall_mem_nil _
  nodup := List.nodup_nil
  written := le_rfl
  small _ := rfl
  plain hs _ := hs

theorem Adds.trans (hs : Adds w h G k s t ps) (ht : Adds w h G k' t u qs) :
    Adds w h G (k + k') s u (ps ++ qs) where
  toGrows := hs.toGrows.trans ht.toGrows
  mem p hp := by
    rcases List.mem_append.mp hp with hp | hp
    · obtain ⟨hG, hnone, hsome⟩ := hs.mem p hp
      exact ⟨hG, hnone, ht.met _ hsome⟩
    · obtain ⟨hG, hnone, hsome⟩ := ht.mem p hp
      refine ⟨hG, Option.not_isSome_iff_eq_none.mp fun hm => ?_, hsome⟩
      simpa [hnone] using hs.met _ hm
  nodup := by
    rw [List.map_append]
    refine hs.nodup.append ht.nodup fun o hop hoq => ?_
    obtain ⟨p, hp, rfl⟩ := List.mem_map.mp hop
    obtain ⟨q, hq, he⟩ := List.mem_map.mp hoq
    have hsome := (hs.mem p hp).2.2
    rw [← he, (ht.mem q hq).2.1] at hsome
    cases hsome
  written := by
    have hle := hs.written
    have hle' := ht.written
    rw [hs.deferrable] at hle'
    rw [List.map_append, List.sum_append]
    omega
  small hl := by
    rw [ht.small fun p hp => hl p (List.mem_append_right _ hp),
      hs.small fun p hp => hl p (List.mem_append_left _ hp)]
  plain hm hd := ht.plain (hs.plain hm (ht.deferred hd)) hd

theorem Adds.cons {c : Cell} (hs : Adds w h G k (s.copy [c]) s' ps) :
    Adds w h G (w.cell c + k) s s' ps := by
  have hc : Adds w h G (w.cell c) s (s.copy [c]) [] := .copy s le_rfl
  exact hc.trans hs

theorem Counted.trans (hc : Counted w s u) (hs : Adds w h G k s t ps) (hg : Grows t u) :
    Counted w t u := by
  rcases hc with hw | ⟨hm, hd⟩
  · exact .inl hw
  · exact .inr ⟨hs.plain hm (hg.deferred hd), hd⟩

omit [DecidableEq α] in
theorem Counted.of_grows (hc : Counted w s u) (hg : Grows t u) : Counted w s t :=
  hc.imp_right fun ⟨hm, hd⟩ => ⟨hm, hg.deferred hd⟩

theorem adds_pupPtr (hp : G p) (ho : h.lookup p.addr = some o) (hT : ∀ d, T.defers d = o.defers d)
    (hlarge : o.defers true = true → Large h p)
    (hf : ∀ s s', Counted w s s' → follow p.addr s = .ok s' →
      ∃ ps, Adds w h G (w.value o.value) s s' ps)
    (hc : Counted w s s') (hs : pupPtr follow T p ty s = .ok s') :
    ∃ ps, Adds w h G (w.byte 3 + w.word) s s' ps := by
  obtain ⟨r, s₁, hr, he⟩ := exists_pupPtr_eq follow T p ty s
  rw [he] at hs
  have hnone (hk : r.kind = .instance) : s.met p.owner = none := hr.met_eq_none hk
  split_ifs at hs with hk hd
  · -- the object is deferred
    obtain rfl := Except.ok.inj hs
    have hdo : o.defers s.deferrable = true := (hT _).symm.trans hd
    refine ⟨[p], hr.grows_defer T, ?_, List.nodup_singleton _, ?_, fun hsmall => ?_,
      fun _ hnil => ?_⟩
    · intro q hq
      obtain rfl := List.mem_singleton.mp hq
      exact ⟨hp, hnone hk, by simp [hr.met_defer]⟩
    · have hdeferred := w.record_deferred
      have hwritten : (s₁.defer T p r).written =
          s.written ++ [.byte 2, .word r.id, .word T.width] := by
        rw [← hr.written]
        rfl
      rw [hwritten, w.cells_append, List.map_singleton, List.sum_singleton, w.objectAt_eq ho]
      simp only [Weight.object, hdo, if_true, Weight.cells_cons, Weight.cell, Weight.cells_nil,
        Weight.record] at hdeferred ⊢
      omega
    · cases hds : s.deferrable with
      | false => simp [hds, Weight.defers_false] at hdo
      | true => exact absurd (hlarge (hds ▸ hdo)) (hsmall p (List.mem_singleton_self p))
    · exact absurd hnil (upsert_ne_nil _ _ _)
  · -- the object is written
    have hdo : o.defers s.deferrable = false := by
      rw [← hT]
      exact Bool.eq_false_iff.mpr hd
    have hc₁ : Counted w (s₁.copy r.cells) s' := by
      refine hc.imp_right fun hm => ⟨fun q => ?_, hm.2⟩
      change s₁.met q ≠ _
      rw [hr.met, hk]
      split_ifs
      · simp
      · exact hm.1 q
    obtain ⟨ps, hadds⟩ := hf _ _ hc₁ hs
    refine ⟨p :: ps, (hr.grows.trans (.copy _ _)).trans hadds.toGrows, ?_, ?_, ?_, ?_, ?_⟩
    · have hself : (s₁.met p.owner).isSome := by simp [hr.met]
      rintro q hq
      rcases List.mem_cons.mp hq with rfl | hq
      · exact ⟨hp, hnone hk, hadds.met _ hself⟩
      · obtain ⟨hG, hn, hsome⟩ := hadds.mem q hq
        refine ⟨hG, ?_, hsome⟩
        have hn : s₁.met q.owner = none := hn
        rw [hr.met] at hn
        split_ifs at hn
        exact hn
    · rw [List.map_cons, List.nodup_cons]
      refine ⟨fun hmem => ?_, hadds.nodup⟩
      obtain ⟨q, hq, hqp⟩ := List.mem_map.mp hmem
      have hn : s₁.met q.owner = none := (hadds.mem q hq).2.1
      simp [hr.met, hqp] at hn
    · have hle := hadds.written
      have hdef : (s₁.copy r.cells).deferrable = s.deferrable := hr.deferrable
      rw [copy_written, w.cells_append, hr.written, weigh_record, hk, hdef] at hle
      rw [List.map_cons, List.sum_cons, w.objectAt_eq ho]
      rw [w.record_instance] at hle
      simp only [Weight.object, hdo, Bool.false_eq_true, if_false]
      omega
    · intro hsmall
      rw [hadds.small fun q hq => hsmall q (List.mem_cons_of_mem _ hq)]
      exact hr.deferred
    · intro hm hnil
      refine hadds.plain (fun q => ?_) hnil
      change s₁.met q ≠ _
      rw [hr.met, hk]
      split_ifs
      · simp
      · exact hm q
  · -- the object was met
    obtain rfl := Except.ok.inj hs
    have hkind (hm : ∀ q, s.met q ≠ some .deferred) : r.kind ≠ .deferred := by
      rw [hr.kind]
      have hne := hm p.owner
      cases hq : s.met p.owner with
      | none => simp [Kind.next]
      | some k => cases k <;> simp_all [Kind.next]
    have hnull := w.null_le 3
    have hrec : w.record r.kind ≤ w.byte 3 + w.word := by
      rcases hc with hw | ⟨hm, -⟩
      · cases hr : r.kind <;> simp_all [Weight.record, w.deferred_eq]
      · have hne := hkind hm
        cases hr : r.kind <;> simp_all [Weight.record]
        omega
    refine ⟨[], hr.grows.trans (.copy _ _), List.forall_mem_nil _, List.nodup_nil, ?_,
      fun _ => hr.deferred, fun hm _ q => ?_⟩
    · rw [copy_written, w.cells_append, hr.written, weigh_record]
      simpa using hrec
    · change s₁.met q ≠ _
      rw [hr.met]
      split_ifs
      · exact fun he => hkind hm (Option.some.inj he)
      · exact hm q

omit [DecidableEq ω] in
theorem Pointee.large {T : Ty} (hp : Pointee h (some T) p) (hd : T.defers true = true) :
    Large h p := by
  cases T with
  | bytes n => exact ⟨n, hp, by simpa [Ty.defers] using hd⟩
  | _ => simp [Ty.defers] at hd

theorem adds_pup {fields : ℕ → Ty} {v : Val (Ptr ω α)}
    (hg : ∀ a s s', follow a s = .ok s' → Grows s s')
    (hf : ∀ p o, G p → h.lookup p.addr = some o → ∀ s s', Counted w s s' →
      follow p.addr s = .ok s' → ∃ ps, Adds w h G (w.value o.value) s s' ps)
    (hG : ∀ p ∈ v.ptrs, G p) (ht : Typed fields h v) (hc : Counted w s s')
    (hs : pup h follow v s = .ok s') : ∃ ps, Adds w h G (w.value v) s s' ps := by
  induction v generalizing s s' with
  | bytes b => exact ⟨[], Except.ok.inj hs ▸ .copy s (w.cells_map_byte b).le⟩
  | builtin b => exact ⟨[], Except.ok.inj hs ▸ .copy s le_rfl⟩
  | uniqueNull => exact ⟨[], Except.ok.inj hs ▸ .copy s le_rfl⟩
  | unit | nil => exact ⟨[], Except.ok.inj hs ▸ .refl s⟩
  | pair a b iha ihb =>
    simp only [Val.ptrs_pair, List.mem_append] at hG
    obtain ⟨t, ha, hb⟩ := bind_eq_ok.mp hs
    have hgrow : Grows t s' := .pup hg hb
    obtain ⟨ps, hps⟩ := iha (fun p hp => hG p (.inl hp)) ht.pair.1 (hc.of_grows hgrow) ha
    obtain ⟨qs, hqs⟩ := ihb (fun p hp => hG p (.inr hp)) ht.pair.2 (hc.trans hps hgrow) hb
    exact ⟨ps ++ qs, hps.trans hqs⟩
  | cons a b iha ihb =>
    simp only [Val.ptrs_cons, List.mem_append] at hG
    obtain ⟨t, ha, hb⟩ := bind_eq_ok.mp hs
    have hgrow : Grows t s' := .pup hg hb
    obtain ⟨ps, hps⟩ := iha (fun p hp => hG p (.inl hp)) ht.cons.1 (hc.of_grows hgrow) ha
    obtain ⟨qs, hqs⟩ := ihb (fun p hp => hG p (.inr hp)) ht.cons.2 (hc.trans hps hgrow) hb
    exact ⟨ps ++ qs, hps.trans hqs⟩
  | list l ih =>
    obtain ⟨ps, hps⟩ := ih (s := s.copy [.word l.length]) hG ht.list hc hs
    exact ⟨ps, hps.cons⟩
  | map l ih =>
    obtain ⟨ps, hps⟩ := ih (s := s.copy [.word l.length]) hG ht.map hc hs
    exact ⟨ps, hps.cons⟩
  | unique l ih =>
    obtain ⟨ps, hps⟩ := ih (s := s.copy [.byte 0]) hG ht.unique hc hs
    exact ⟨ps, hps.cons⟩
  | poly c l ih =>
    obtain ⟨ps, hps⟩ := ih (s := s.copy [.word c]) hG ht.poly hc hs
    exact ⟨ps, hps.cons⟩
  | polyNull => cases hs
  | shared T p =>
    cases p with
    | none => exact ⟨[], Except.ok.inj hs ▸ .copy s le_rfl⟩
    | some p =>
      obtain ⟨e, he⟩ := ht.shared
      have hp : G p := hG p (by simp)
      exact adds_pupPtr hp he (fun _ => rfl) (Pointee.large ⟨e, he⟩) (hf p _ hp he) hc hs
  | sharedPoly p =>
    cases p with
    | none => exact ⟨[], Except.ok.inj hs ▸ .copy s le_rfl⟩
    | some p =>
      obtain ⟨c, e, he⟩ := ht.sharedPoly
      have hp : G p := hG p (by simp)
      have hid : identify h p.addr = some c := by simp [identify, he]
      rw [pup_sharedPoly hid] at hs
      exact adds_pupPtr hp he (fun _ => rfl) (fun hd => by cases hd) (hf p _ hp he) hc hs

theorem adds_pupObject {fields : ℕ → Ty} (hstep : ∀ p q, G p → Edge h p q → G q)
    (htyped : ∀ p o, G p → h.lookup p.addr = some o → o.HasTy fields h) (n : ℕ) :
    ∀ p o, G p → h.lookup p.addr = some o → ∀ s s', Counted w s s' →
      pupObject h n p.addr s = .ok s' → ∃ ps, Adds w h G (w.value o.value) s s' ps := by
  induction n with
  | zero =>
    intro p o _ _ s s' _ hs
    cases hs
  | succ n ih =>
    intro p o hp ho s s' hc hs
    unfold pupObject at hs
    rw [ho] at hs
    exact adds_pup (fun _ _ _ => grows_pupObject n) ih (fun q hq => hstep p q hp ⟨o, ho, hq⟩)
      (htyped p o hp ho).typed hc hs

section Owners

variable {fields : ℕ → Ty} {v : Val (Ptr ω α)} {t : Ty}

omit [DecidableEq ω] in
theorem Valid.nodup_addr (hv : Valid fields h v t) (hps : ∀ p ∈ ps, Reach h v p)
    (hnd : (ps.map Ptr.owner).Nodup) : (ps.map Ptr.addr).Nodup :=
  hnd.of_map.map_on fun p hp q hq he =>
    List.inj_on_of_nodup_map hnd hp hq (hv.owner_eq p q (hps p hp) (hps q hq) he)

omit [DecidableEq ω] in
/-- Pointers with one owner point to one object, if all objects are pointed to by pointers with
different owners. -/
theorem Valid.separate_of_met (hv : Valid fields h v t) (hps : ∀ p ∈ ps, Reach h v p)
    (hnd : (ps.map Ptr.owner).Nodup) (hall : ∀ q, Reach h v q → q.addr ∈ ps.map Ptr.addr) :
    Separate h v := by
  have met {q : Ptr ω α} (hq : Reach h v q) : ∃ p ∈ ps, p.addr = q.addr ∧ p.owner = q.owner := by
    obtain ⟨p, hp, ha⟩ := List.mem_map.mp (hall q hq)
    exact ⟨p, hp, ha, hv.owner_eq p q (hps p hp) hq ha⟩
  intro p q hp hq ho
  obtain ⟨p', hp', hpa, hpo⟩ := met hp
  obtain ⟨q', hq', hqa, hqo⟩ := met hq
  have heq : p' = q' := List.inj_on_of_nodup_map hnd hp' hq' (by rw [hpo, hqo, ho])
  rw [← hpa, ← hqa, heq]

end Owners

end Packing

end Hypercomm.Serialization
