import Hypercomm.Transition.Run

/-! # Task messages and their payloads

A task message holds packed values after its own fields, and a pointer to them. The pointer is
relative to the message while that is packed. The payload made from a message takes its length
from the total size of the message, in which the envelope is counted as well.
-/

namespace Hypercomm.Tasking

open Transition

/-- The sizes that the runtime gives to the parts of a message. -/
structure MessageLayout where
  sizeofEnvelope : ℕ
  sizeofMessage : ℕ
  alignBytes : ℕ
  sizeofEnvelope_pos : 0 < sizeofEnvelope
  alignBytes_pos : 0 < alignBytes

namespace MessageLayout

variable (L : MessageLayout)

def alignDefault (x : ℕ) : ℕ := (x + L.alignBytes - 1) / L.alignBytes * L.alignBytes

def start : ℕ := L.alignDefault L.sizeofMessage

variable {L}

theorem le_alignDefault (x : ℕ) : x ≤ L.alignDefault x := by
  have hpos := L.alignBytes_pos
  have hdiv := Nat.div_add_mod (x + L.alignBytes - 1) L.alignBytes
  have hmod := Nat.mod_lt (x + L.alignBytes - 1) hpos
  unfold alignDefault
  rw [Nat.mul_comm]
  omega

end MessageLayout

/-- A message in memory, with the bytes of its allocation. -/
structure TaskMessage where
  address : ℕ
  data : ℕ
  allocation : List UInt8

namespace TaskMessage

variable (L : MessageLayout)

/-- Allocate a message for a number of packed bytes, whatever the memory holds. -/
def alloc (size address : ℕ) (garbage : ℕ → UInt8) : TaskMessage :=
  let start := L.start
  let totalSize := start + size
  ⟨address, address + start, (List.range (L.alignDefault totalSize)).map garbage⟩

def pack (msg : TaskMessage) : TaskMessage := { msg with data := msg.data - msg.address }

def unpack (msg : TaskMessage) : TaskMessage := { msg with data := msg.address + msg.data }

def moveTo (msg : TaskMessage) (address : ℕ) : TaskMessage := { msg with address }

def getTotalsize (msg : TaskMessage) : ℕ := L.sizeofEnvelope + msg.allocation.length

/-- Write bytes through the data pointer of the message. -/
def write (msg : TaskMessage) (packed : List UInt8) : TaskMessage :=
  let offset := msg.data - msg.address
  { msg with allocation := msg.allocation.take offset ++ packed ++
      msg.allocation.drop (offset + packed.length) }

end TaskMessage

def pack (L : MessageLayout) (packed : List UInt8) (address : ℕ) (garbage : ℕ → UInt8) :
    TaskMessage :=
  let size := packed.length
  (TaskMessage.alloc L size address garbage).write packed

structure TaskPayload where
  src : TaskMessage
  len : ℕ
  data : ℕ

namespace TaskPayload

def ofMessage (L : MessageLayout) (msg : TaskMessage) : TaskPayload :=
  ⟨msg, msg.getTotalsize L - L.sizeofMessage, msg.data⟩

/-- What a payload writes of itself: its packed message, the length and the offset of the data. -/
structure Packed where
  src : TaskMessage
  len : ℕ
  offset : ℕ

def pupOut (p : TaskPayload) : Packed := ⟨p.src.pack, p.len, p.data - p.src.address⟩

def pupIn (p : Packed) (address : ℕ) : TaskPayload :=
  let msg := (p.src.moveTo address).unpack
  ⟨msg, p.len, msg.address + p.offset⟩

end TaskPayload

/-- A message in flight, or the payload that a task got from one. -/
inductive Carrier where
  | message (msg : TaskMessage)
  | payload (p : TaskPayload)

inductive Transport where
  | send (address : ℕ)
  | build
  | pup (address : ℕ)
  | release

namespace Carrier

def step (L : MessageLayout) : Carrier → Transport → Option Carrier
  | .message msg, .send address => some (.message (msg.pack.moveTo address).unpack)
  | .message msg, .build => some (.payload (.ofMessage L msg))
  | .payload p, .pup address => some (.payload (.pupIn p.pupOut address))
  | .payload p, .release => some (.message p.src)
  | _, _ => none

end Carrier

variable {L : MessageLayout} {packed : List UInt8} {msg : TaskMessage} {p : TaskPayload}
variable {c c' : Carrier} {a : Transport} {as : List Transport} {address : ℕ}

structure TaskPayload.Points (p : TaskPayload) (packed : List UInt8) : Prop where
  le : p.src.address ≤ p.data
  bytes : packed <+: p.src.allocation.drop (p.data - p.src.address)

/-- The data of a payload is the packed bytes and padding, within the allocation. -/
structure TaskPayload.Denotes (L : MessageLayout) (p : TaskPayload) (packed : List UInt8) : Prop
    extends p.Points packed where
  inside : p.data + p.len ≤ p.src.address + p.src.allocation.length
  packed_le : packed.length ≤ p.len
  padding : p.len < packed.length + L.alignBytes

/-- The pointer of a message is to its packed bytes, which come after its own fields. -/
structure TaskMessage.Holds (L : MessageLayout) (msg : TaskMessage) (packed : List UInt8) :
    Prop where
  data : msg.data = msg.address + L.start
  bytes : packed <+: msg.allocation.drop L.start
  length : msg.allocation.length = L.alignDefault (L.start + packed.length)

theorem holds_pack (garbage : ℕ → UInt8) : (pack L packed address garbage).Holds L packed := by
  have hle := MessageLayout.le_alignDefault (L := L) (L.start + packed.length)
  have hoffset : address + L.start - address = L.start := Nat.add_sub_cancel_left ..
  constructor
  case data => rfl
  case bytes =>
    unfold pack TaskMessage.alloc TaskMessage.write
    simp only [hoffset]
    rw [List.append_assoc, List.drop_append_of_le_length (by simp; omega),
      List.drop_eq_nil_of_le (List.length_take_le ..), List.nil_append]
    exact List.prefix_append ..
  case length =>
    simp only [pack, TaskMessage.alloc, TaskMessage.write, hoffset, List.length_append,
      List.length_take, List.length_drop, List.length_map, List.length_range]
    omega

theorem TaskMessage.Holds.send (h : msg.Holds L packed) :
    (msg.pack.moveTo address).unpack.Holds L packed where
  data := by simp [TaskMessage.pack, moveTo, unpack, h.data]
  bytes := h.bytes
  length := h.length

theorem TaskMessage.Holds.sizeof_le (h : msg.Holds L packed) :
    L.sizeofMessage ≤ msg.getTotalsize L := by
  have hstart := MessageLayout.le_alignDefault (L := L) L.sizeofMessage
  have hle := MessageLayout.le_alignDefault (L := L) (L.start + packed.length)
  unfold getTotalsize
  rw [h.length]
  unfold MessageLayout.start at hle ⊢
  omega

def Carrier.Holds (L : MessageLayout) (packed : List UInt8) : Carrier → Prop
  | .message msg => msg.Holds L packed
  | .payload p => p.src.Holds L packed ∧ p.data = p.src.address + L.start ∧
      p.len + L.sizeofMessage = p.src.getTotalsize L

theorem Carrier.Holds.step (h : c.Holds L packed) (hs : c.step L a = some c') :
    c'.Holds L packed := by
  cases c with
  | message msg =>
    cases a with
    | send address => obtain rfl := Option.some.inj hs; exact TaskMessage.Holds.send h
    | build =>
      obtain rfl := Option.some.inj hs
      exact ⟨h, h.data, Nat.sub_add_cancel h.sizeof_le⟩
    | pup => cases hs
    | release => cases hs
  | payload p =>
    obtain ⟨hsrc, hdata, hlen⟩ := h
    cases a with
    | send => cases hs
    | build => cases hs
    | pup address =>
      obtain rfl := Option.some.inj hs
      refine ⟨TaskMessage.Holds.send hsrc, ?_, hlen⟩
      simp [TaskPayload.pupIn, TaskPayload.pupOut, TaskMessage.unpack, TaskMessage.moveTo, hdata]
    | release => obtain rfl := Option.some.inj hs; exact hsrc

theorem Carrier.Holds.run (h : c.Holds L packed) (hr : Run (ofFun (Carrier.step L)) c as c') :
    c'.Holds L packed := by
  induction hr with
  | nil => exact h
  | snoc _ hs ih => exact ih.step hs

/-- A payload points to the packed bytes wherever its message went, and its length reaches past
the end of the message, by the envelope and the padding of the fields. -/
theorem payload_overruns (L : MessageLayout) (packed : List UInt8) (address : ℕ)
    (garbage : ℕ → UInt8) (as : List Transport) (p : TaskPayload)
    (hr : Run (ofFun (Carrier.step L)) (.message (pack L packed address garbage)) as
      (.payload p)) :
    p.Points packed ∧ p.data + p.len + L.sizeofMessage =
      p.src.address + p.src.allocation.length + L.sizeofEnvelope + L.start ∧
    ¬ p.Denotes L packed := by
  obtain ⟨hsrc, hdata, hlen⟩ := Carrier.Holds.run (c := .message _) (holds_pack garbage) hr
  have hstart : L.sizeofMessage ≤ L.start := MessageLayout.le_alignDefault L.sizeofMessage
  have hend : p.data + p.len + L.sizeofMessage =
      p.src.address + p.src.allocation.length + L.sizeofEnvelope + L.start := by
    unfold TaskMessage.getTotalsize at hlen
    omega
  refine ⟨⟨by omega, ?_⟩, hend, fun hd => ?_⟩
  · rw [hdata, Nat.add_sub_cancel_left]
    exact hsrc.bytes
  · have hinside := hd.inside
    have hpos := L.sizeofEnvelope_pos
    omega

/-- One byte behind two words of fields, in a message that was sent on as part of a payload. -/
theorem payload_overruns_one : ∃ (L : MessageLayout) (p : TaskPayload), p.src.address = 128 ∧
    p.Points [7] ∧ ¬ p.Denotes L [7] := by
  let L : MessageLayout := ⟨8, 16, 8, by decide, by decide⟩
  let c : Carrier := .message (pack L [7] 64 fun _ => 0)
  let p : TaskPayload := .ofMessage L (pack L [7] 64 fun _ => 0)
  let p' : TaskPayload := .pupIn p.pupOut 128
  have hbuild : Run (ofFun (Carrier.step L)) c [.build] (.payload p) := Run.single rfl
  have hpup : ofFun (Carrier.step L) (.payload p) (.pup 128) (.payload p') := rfl
  have h := payload_overruns L [7] 64 (fun _ => 0) _ p' (hbuild.snoc hpup)
  exact ⟨L, p', rfl, h.1, h.2.2⟩

/-- The payload of one byte is not within its message. -/
theorem not_payload_denotes : ¬ ∀ (L : MessageLayout) (packed : List UInt8) (address : ℕ)
    (garbage : ℕ → UInt8) (as : List Transport) (p : TaskPayload),
    Run (ofFun (Carrier.step L)) (.message (pack L packed address garbage)) as (.payload p) →
    p.Denotes L packed := by
  intro h
  let L : MessageLayout := ⟨8, 16, 8, by decide, by decide⟩
  have hd := h L [7] 64 (fun _ => 0) [.build] _ (Run.single rfl)
  have hinside := hd.inside
  revert hinside
  decide

end Hypercomm.Tasking
