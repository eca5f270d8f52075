import Hypercomm.Serialization.Value

/-! # The serdes

A value is packed in two passes, one that finds its size and one that writes it. A
shared pointer is written as an instance where it is met first and as a reference
from then on, told apart by its owner. Unpacking aliases trivially copyable objects
into the message and allocates every other object.
-/

namespace Hypercomm.Serialization

def kZeroCopySize : ℕ := 256 * 1024

inductive Fault
  /-- a failed assertion, or an abort -/
  | abort
  /-- C++ does not say what happens -/
  | undefined
  | outOfFuel
  deriving DecidableEq, Repr

/-- The kinds of records, less the invalid one. -/
inductive Kind
  | ignored
  | deferred
  | reference
  | «instance»
  deriving DecidableEq, Repr

/-- A record, and the serdes that changed it last. -/
structure PtrRecord where
  kind : Kind
  id : ℕ := 0
  /-- the class of a polymorph, or the size of a deferred object -/
  ty : ℕ := 0
  progenitor : ℕ := 0
  deriving DecidableEq, Repr

def PtrRecord.cells (r : PtrRecord) : List Cell :=
  match r.kind with
  | .ignored => [.byte 1]
  | .deferred => [.byte 2, .word r.id, .word r.ty]
  | .reference => [.byte 3, .word r.id]
  | .instance => [.byte 4, .word r.id, .word r.ty]

def upsert {β : Type*} (k : ℕ) (f : Option β → β) : List (ℕ × β) → List (ℕ × β)
  | [] => [(k, f none)]
  | (j, y) :: l =>
      if k < j then (k, f none) :: (j, y) :: l
      else if k = j then (j, f (some y)) :: l
      else (j, y) :: upsert k f l

theorem mem_upsert {β : Type*} {j k : ℕ} {f : Option β → β} {l : List (ℕ × β)} :
    j ∈ (upsert k f l).map Prod.fst ↔ j = k ∨ j ∈ l.map Prod.fst := by
  induction l with
  | nil => simp [upsert]
  | cons e l ih =>
    rw [upsert]
    split_ifs with hlt heq
    · simp
    · simp [heq]
    · simp only [List.map_cons, List.mem_cons, ih]
      exact or_left_comm

theorem pairwise_upsert {β : Type*} {k : ℕ} {f : Option β → β} {l : List (ℕ × β)}
    (hl : (l.map Prod.fst).Pairwise (· < ·)) :
    ((upsert k f l).map Prod.fst).Pairwise (· < ·) := by
  induction l with
  | nil => simp [upsert]
  | cons e l ih =>
    obtain ⟨hle, hl⟩ := List.pairwise_cons.mp hl
    rw [upsert]
    split_ifs with hlt heq
    · refine List.pairwise_cons.mpr ⟨fun j hj => ?_, List.pairwise_cons.mpr ⟨hle, hl⟩⟩
      rcases List.mem_cons.mp hj with rfl | hj
      · exact hlt
      · exact Nat.lt_trans hlt (hle j hj)
    · exact List.pairwise_cons.mpr ⟨hle, hl⟩
    · refine List.pairwise_cons.mpr ⟨fun j hj => ?_, ih hl⟩
      rcases mem_upsert.mp hj with rfl | hj
      · exact Nat.lt_of_le_of_ne (Nat.le_of_not_lt hlt) (Ne.symm heq)
      · exact hle j hj

section Pack

variable {ω α : Type*} [DecidableEq ω] [DecidableEq α]

/-- A sizer or a packer. A sizer drops what it writes and keeps its size. -/
structure Packer (ω α : Type*) where
  self : ℕ
  deferrable : Bool := false
  records : List (Option ω × PtrRecord) := []
  deferred : List (ℕ × ℕ × Ptr ω α) := []
  written : List Cell := []

namespace Packer

def copy (s : Packer ω α) (cs : List Cell) : Packer ω α := { s with written := s.written ++ cs }

def setRecord (s : Packer ω α) (o : Option ω) (r : PtrRecord) : Packer ω α :=
  { s with records := s.records.map fun q => if q.1 = o then (o, r) else q }

/-- The record of an owner, made at its first occurrence. -/
def getRecord (s : Packer ω α) (o : Option ω) (ty : ℕ) : PtrRecord × Packer ω α :=
  match s.records.lookup o with
  | none =>
      let r : PtrRecord := ⟨.instance, s.records.length + 1, ty, s.self⟩
      (r, { s with records := s.records ++ [(o, r)] })
  | some r =>
      let r := if s.self = r.progenitor then
          if r.kind = .instance then { r with kind := .reference } else r
        else { r with kind := .instance, progenitor := s.self }
      (r, s.setRecord o r)

/-- Defer an object. Of several pointers to it the first is kept. -/
def putDeferred (s : Packer ω α) (r : PtrRecord) (p : Ptr ω α) : Packer ω α :=
  { s with deferred := upsert r.id (fun d => (r.ty, (d.map Prod.snd).getD p)) s.deferred }

/-- Move the records of a sizer into a packer without any. -/
def acquire (s sizer : Packer ω α) : Packer ω α := { s with records := s.records ++ sizer.records }

end Packer

variable (h : Heap ω α)

def identify (a : α) : Option ℕ :=
  match h.lookup a with
  | some (.poly c _) => some c
  | _ => none

variable (follow : α → Packer ω α → Except Fault (Packer ω α))

/-- A trivially copyable object may be deferred instead of being written. -/
def packInstance (t : Ty) (p : Ptr ω α) (r : PtrRecord) (s : Packer ω α) :
    Except Fault (Packer ω α) :=
  match t with
  | .bytes n =>
      if s.deferrable ∧ kZeroCopySize ≤ n then
        let r := { r with ty := n, kind := .deferred }
        .ok (((s.setRecord p.owner r).copy r.cells).putDeferred r p)
      else follow p.addr (s.copy r.cells)
  | _ => follow p.addr (s.copy r.cells)

/-- Size or pack a value, following its pointers with the function given. -/
def pup : Val (Ptr ω α) → Packer ω α → Except Fault (Packer ω α)
  | .bytes b, s => .ok (s.copy (b.map .byte))
  | .builtin b, s => .ok (s.copy [.puped b])
  | .unit, s | .nil, s => .ok s
  | .pair a b, s | .cons a b, s => (pup a s).bind (pup b)
  | .list l, s | .map l, s => pup l (s.copy [.word l.length])
  | .uniqueNull, s => .ok (s.copy [.byte 1])
  | .unique v, s => pup v (s.copy [.byte 0])
  | .polyNull, _ => .error .abort
  | .poly c v, s => pup v (s.copy [.word c])
  | .shared _ none, s | .sharedPoly none, s => .ok (s.copy (PtrRecord.cells ⟨.ignored, 0, 0, 0⟩))
  | .shared t (some p), s =>
      let (r, s) := s.getRecord p.owner 0
      if r.kind = .instance then packInstance follow t p r s else .ok (s.copy r.cells)
  | .sharedPoly (some p), s =>
      match identify h p.addr with
      | some c =>
          let (r, s) := s.getRecord p.owner c
          if r.kind = .instance then follow p.addr (s.copy r.cells) else .ok (s.copy r.cells)
      | none => .error .undefined

/-- Size or pack the object at an address, with fuel for the depth of the pointers. -/
def pupObject : ℕ → α → Packer ω α → Except Fault (Packer ω α)
  | 0, _, _ => .error .outOfFuel
  | n + 1, a, s =>
      match h.lookup a with
      | some o => pup h (pupObject n) o.value s
      | none => .error .undefined

/-- Find the size of a value, and pack it into a message of that size. -/
def pack (fuel : ℕ) (v : Val (Ptr ω α)) : Except Fault (List Cell) :=
  (pup h (pupObject h fuel) v { self := 0 }).bind fun sizer =>
  (pup h (pupObject h fuel) v (Packer.acquire { self := 1 } sizer)).bind fun packer =>
  if size sizer.written = size packer.written then .ok packer.written else .error .abort

end Pack

section Unpack

/-- Where an unpacked object lies. -/
inductive Place
  | message (offset : ℕ)
  | object (n : ℕ)
  /-- a buffer that was deferred under this id -/
  | buffer (id : ℕ)
  deriving DecidableEq, Repr

/-- What keeps an unpacked object alive. -/
inductive Owner
  | message
  | object (n : ℕ)
  | buffer (id : ℕ)
  deriving DecidableEq, Repr

/-- The storage that a value is unpacked into: raw when no constructor ran there, and
temporary when the value moves on from there. -/
structure Slot where
  raw : Bool
  temporary : Bool
  deriving DecidableEq, Repr

namespace Slot

/-- an argument, or a member of a constructed object -/
def member : Slot := ⟨false, false⟩

/-- memory that was just allocated -/
def allocated : Slot := ⟨true, false⟩

/-- the temporary for an element of a vector, list or deque -/
def element : Slot := ⟨true, true⟩

/-- the temporary for an entry of a map -/
def entry : Slot := ⟨false, true⟩

end Slot

structure Unpacker where
  input : List Cell
  offset : ℕ := 0
  source : Option Owner
  deferrable : Bool := false
  /-- weak pointers to the instances by their ids -/
  instances : List (ℕ × Ptr Owner Place) := []
  /-- the ids of deferred objects, with their sizes -/
  deferred : List (ℕ × ℕ) := []
  heap : Heap Owner Place := []
  allocated : ℕ := 0

abbrev UVal := Val (Ptr Owner Place)

namespace Unpacker

def byte (u : Unpacker) : Except Fault (UInt8 × Unpacker) :=
  match u.input with
  | .byte b :: rest => .ok (b, { u with input := rest, offset := u.offset + 1 })
  | _ => .error .undefined

def word (u : Unpacker) : Except Fault (ℕ × Unpacker) :=
  match u.input with
  | .word n :: rest => .ok (n, { u with input := rest, offset := u.offset + 8 })
  | _ => .error .undefined

def puped (u : Unpacker) : Except Fault (List UInt8 × Unpacker) :=
  match u.input with
  | .puped b :: rest => .ok (b, { u with input := rest, offset := u.offset + b.length })
  | _ => .error .undefined

def bytes : ℕ → Unpacker → Except Fault (List UInt8 × Unpacker)
  | 0, u => .ok ([], u)
  | n + 1, u => do
      let (b, u) ← u.byte
      let (bs, u) ← bytes n u
      .ok (b :: bs, u)

def record (u : Unpacker) : Except Fault (PtrRecord × Unpacker) := do
  let (k, u) ← u.byte
  if k = 1 then .ok (⟨.ignored, 0, 0, 0⟩, u)
  else if k = 2 then
    let (id, u) ← u.word
    let (ty, u) ← u.word
    .ok (⟨.deferred, id, ty, 0⟩, u)
  else if k = 3 then
    let (id, u) ← u.word
    .ok (⟨.reference, id, 0, 0⟩, u)
  else if k = 4 then
    let (id, u) ← u.word
    let (ty, u) ← u.word
    .ok (⟨.instance, id, ty, 0⟩, u)
  else .error .abort

/-- A weak pointer without an owner cannot be locked. -/
def getInstance (u : Unpacker) (id : ℕ) : Option (Ptr Owner Place) :=
  (u.instances.lookup id).filter (·.owner.isSome)

def putInstance (u : Unpacker) (id : ℕ) (p : Ptr Owner Place) : Except Fault Unpacker :=
  match u.instances.lookup id with
  | none => .ok { u with instances := (id, p) :: u.instances }
  | some _ => .error .abort

/-- The location of a pointer to a deferred object is kept, to be patched later. A
temporary is gone by then. -/
def putDeferred (u : Unpacker) (slot : Slot) (r : PtrRecord) :
    Except Fault (Ptr Owner Place × Unpacker) :=
  if u.deferrable then
    if slot.temporary then .error .undefined
    else .ok (⟨some (.buffer r.id), .buffer r.id⟩,
      { u with deferred := upsert r.id (fun _ => r.ty) u.deferred })
  else .error .abort

def enter (u : Unpacker) (a : Place) (o : Obj (Ptr Owner Place)) : Unpacker :=
  { u with heap := (a, o) :: u.heap }

def allocate (u : Unpacker) : Ptr Owner Place × Unpacker :=
  (⟨some (.object u.allocated), .object u.allocated⟩, { u with allocated := u.allocated + 1 })

end Unpacker

/-- Unpack the elements of a container one after another, and append those that the
container accepts. -/
def unpackElements (read : Unpacker → Except Fault (UVal × Unpacker))
    (accepts : List UVal → UVal → Bool) :
    ℕ → List UVal → Unpacker → Except Fault (UVal × Unpacker)
  | 0, _, u => .ok (.nil, u)
  | n + 1, seen, u => do
      let (a, u) ← read u
      if accepts seen a then
        let (l, u) ← unpackElements read accepts n (seen ++ [a]) u
        .ok (.cons a l, u)
      else .error .abort

/-- A map does not take a key twice. -/
def acceptsEntry (seen : List UVal) (a : UVal) : Bool := decide (a.key ∉ seen.map Val.key)

/-- Unpack a value of a type, reading the fields of a polymorph with the function given. -/
def unpack (fields : ℕ → Unpacker → Except Fault (UVal × Unpacker)) :
    Ty → Slot → Unpacker → Except Fault (UVal × Unpacker)
  | .bytes n, _, u => do
      let (b, u) ← u.bytes n
      .ok (.bytes b, u)
  | .builtin, _, u => do
      let (b, u) ← u.puped
      .ok (.builtin b, u)
  | .unit, _, u => .ok (.unit, u)
  | .pair s t, slot, u => do
      let (a, u) ← unpack fields s slot u
      let (b, u) ← unpack fields t slot u
      .ok (.pair a b, u)
  | .list t, _, u => do
      let (n, u) ← u.word
      let (l, u) ← unpackElements (unpack fields t .element) (fun _ _ => true) n [] u
      .ok (.list l, u)
  | .map k v, _, u => do
      let (n, u) ← u.word
      let entry u := do
        let (a, u) ← unpack fields k .entry u
        let (b, u) ← unpack fields v .entry u
        .ok (.pair a b, u)
      let (l, u) ← unpackElements entry acceptsEntry n [] u
      .ok (.map l, u)
  | .unique t, _, u => do
      let (isNull, u) ← u.byte
      if isNull = 0 then
        let (v, u) ← unpack fields t .allocated u
        .ok (.unique v, u)
      else .ok (.uniqueNull, u)
  | .uniquePoly, slot, u => do
      let (c, u) ← u.word
      let (v, u) ← fields c u
      -- the pointer is reset, which deletes whatever it held before
      if slot.raw then .error .undefined else .ok (.poly c v, u)
  | .shared t, slot, u => do
      let (r, u) ← u.record
      match r.kind, t with
      | .ignored, _ => .ok (.shared t none, u)
      | .reference, _ => .ok (.shared t (u.getInstance r.id), u)
      | .deferred, .bytes n => do
          let (p, u) ← u.putDeferred slot r
          .ok (.shared (.bytes n) (some p), u)
      | .deferred, _ => .error .abort
      | .instance, .bytes n => do
          let p : Ptr Owner Place := ⟨u.source, .message u.offset⟩
          let (b, u) ← u.bytes n
          let u ← (u.enter p.addr (.data (.bytes n) (.bytes b))).putInstance r.id p
          .ok (.shared (.bytes n) (some p), u)
      | .instance, _ => do
          let (v, u) ← unpack fields t .allocated u
          let (p, u) := u.allocate
          let u ← (u.enter p.addr (.data t v)).putInstance r.id p
          .ok (.shared t (some p), u)
  | .sharedPoly, _, u => do
      let (r, u) ← u.record
      match r.kind with
      | .ignored => .ok (.sharedPoly none, u)
      | .reference => .ok (.sharedPoly (u.getInstance r.id), u)
      | .deferred => .error .abort
      | .instance => do
          let (p, u) := u.allocate
          let u ← u.putInstance r.id p
          let (v, u) ← fields r.ty u
          .ok (.sharedPoly (some p), u.enter p.addr (.poly r.ty v))

variable (fields : ℕ → Ty)

/-- Unpack the fields of a polymorph of a class, with fuel for the depth of polymorphs. -/
def unpackFields : ℕ → ℕ → Unpacker → Except Fault (UVal × Unpacker)
  | 0, _, _ => .error .outOfFuel
  | n + 1, c, u => unpack (unpackFields n) (fields c) .member u

def unpackMessage (fuel : ℕ) (t : Ty) (msg : List Cell) : Except Fault (UVal × Unpacker) :=
  unpack (unpackFields fields fuel) t .member { input := msg, source := some .message }

end Unpack

end Hypercomm.Serialization
