import Hypercomm.Serialization.Plain

/-! # The port in a message

A message keeps its destination in its header, and room for it between the header and the payload.
When the message leaves, the port is written to this room, where the first byte tells whether there
is one.
-/

namespace Hypercomm.Messaging

open Serialization

/-- The least room that a message has for its port. -/
def kMinPortSize : ℕ := 48

/-- The kind of the record of a null pointer. -/
def kIgnored : UInt8 := 1

/-- A message, with the memory behind its header. -/
structure Message (ω α : Type*) where
  epIdx : ℕ
  dst : Option (Ptr ω α)
  /-- the address of the payload, or its offset in a packed message -/
  payload : ℕ
  memory : List Cell

inductive Abort
  | serdes (e : Fault)
  /-- `HYPERCOMM_PORT_SIZE` has to be at least this -/
  | portSize (n : ℕ)
  /-- entry port size changed -/
  | sizeChanged
  deriving DecidableEq, Repr

section Memory

variable {cs memory : List Cell} {n : ℕ}

/-- The bytes of a cell, in the order of a little-endian machine. -/
def cellBytes : Cell → List UInt8
  | .byte b => [b]
  | .word n => (List.range 8).map fun i => UInt8.ofNat (n / 256 ^ i)
  | .puped b => b

def bytesOf (cs : List Cell) : List UInt8 := cs.flatMap cellBytes

def write (memory cs : List Cell) : List Cell :=
  cs ++ ((bytesOf memory).drop (size cs)).map .byte

@[simp] theorem length_bytesOf (cs : List Cell) : (bytesOf cs).length = size cs := by
  induction cs with
  | nil => rfl
  | cons c cs ih =>
    have hc : (cellBytes c).length = c.size := by cases c <;> rfl
    rw [size_cons, ← ih, ← hc]
    exact List.length_append

@[simp] theorem bytesOf_map_byte (bs : List UInt8) : bytesOf (bs.map .byte) = bs := by
  unfold bytesOf
  rw [List.flatMap_map]
  exact List.flatMap_singleton' bs

theorem bytesOf_write (memory cs : List Cell) :
    bytesOf (write memory cs) = bytesOf cs ++ (bytesOf memory).drop (size cs) := by
  unfold write
  rw [bytesOf, List.flatMap_append]
  exact congrArg _ (bytesOf_map_byte _)

theorem drop_write (hn : size cs ≤ n) :
    (bytesOf (write memory cs)).drop n = (bytesOf memory).drop n := by
  rw [bytesOf_write, List.drop_append, length_bytesOf, List.drop_drop,
    List.drop_eq_nil_of_le ((length_bytesOf cs).trans_le hn), List.nil_append]
  congr 1
  omega

end Memory

section Messages

variable {ω α : Type*} [DecidableEq ω] [DecidableEq α]

/-- The bytes of a port, or of the mark that there is none. -/
def realSize (h : Heap ω α) (fuel : ℕ) : Option (Ptr ω α) → Except Abort ℕ
  | none => .ok 1
  | some p => ((pup h (pupObject h fuel) (.sharedPoly (some p)) makeSerdes).map
      fun s => size s.written).mapError .serdes

/-- A message at an address, in memory that holds anything. -/
def makeMessage (h : Heap ω α) (fuel hdrSize addr demux : ℕ) (registered : Bool)
    (stale : ℕ → UInt8) (userSize : ℕ) (dst : Option (Ptr ω α)) :
    Except Abort (Message ω α) :=
  (realSize h fuel dst).bind fun realSize =>
    let portSize := if realSize < kMinPortSize then kMinPortSize else realSize
    .ok {
      epIdx := if registered then demux else 0
      dst := dst
      payload := addr + hdrSize + portSize
      memory := ((List.range (portSize + userSize)).map stale).map .byte }

structure Endpoint (ω α : Type*) where
  idx : ℕ
  port : Option (Ptr ω α)

/-- The endpoint takes the port out of the message. -/
def Endpoint.ofMessage (msg : Message ω α) : Endpoint ω α × Message ω α :=
  (⟨msg.epIdx, msg.dst⟩, { msg with dst := none })

def Endpoint.exportTo (ep : Endpoint ω α) (msg : Message ω α) : Message ω α :=
  { msg with epIdx := ep.idx, dst := ep.port }

inductive Targeted (made : Message ω α) : Message ω α → Prop
  | made : Targeted made made
  | ofMessage {msg : Message ω α} : Targeted made msg → Targeted made (Endpoint.ofMessage msg).2
  | exportTo {msg : Message ω α} (ep : Endpoint ω α) : Targeted made msg →
      Targeted made (ep.exportTo msg)

/-- Pack a message at an address in place. -/
def pack (h : Heap ω α) (fuel hdrSize addr : ℕ) (msg : Message ω α) :
    Except Abort (Message ω α) :=
  let payload := msg.payload - addr
  let availSize := payload - hdrSize
  (realSize h fuel msg.dst).bind fun realSize =>
    if realSize ≤ availSize then
      match msg.dst with
      | some p =>
        ((pup h (pupObject h fuel) (.sharedPoly (some p)) makeSerdes).mapError .serdes).bind
          fun s => .ok { msg with payload := payload, memory := write msg.memory s.written }
      | none =>
        .ok { msg with payload := payload, memory := write msg.memory [.byte kIgnored] }
    else .error (.portSize realSize)

structure Unpacked where
  message : Message Owner Place
  heap : Heap Owner Place
  consumed : ℕ

def unpack (fields : ℕ → Ty) (fuel hdrSize addr : ℕ) (raw : Message ω α) :
    Except Abort Unpacked :=
  let expectedSize := raw.payload - hdrSize
  let payload := raw.payload + addr
  match (bytesOf raw.memory).head? with
  | none => .error (.serdes .undefined)
  | some kind =>
    if kind = kIgnored then .ok ⟨⟨raw.epIdx, none, payload, raw.memory⟩, [], 0⟩
    else
      ((Serialization.unpack (unpackFields fields fuel) .sharedPoly .member
        (makeUnpacker raw.memory)).mapError .serdes).bind fun r =>
          if r.2.offset ≤ expectedSize then
            match r.1 with
            | .sharedPoly dst =>
              .ok ⟨⟨raw.epIdx, dst, payload, raw.memory⟩, r.2.heap, r.2.offset⟩
            | _ => .error (.serdes .abort)
          else .error .sizeChanged

def Message.room (msg : Message ω α) (hdrSize addr : ℕ) : ℕ := msg.payload - addr - hdrSize

def Message.contents (msg : Message ω α) (hdrSize addr : ℕ) : List UInt8 :=
  (bytesOf msg.memory).drop (msg.room hdrSize addr)

/-- The port of a message fits into its room. -/
def Fits (h : Heap ω α) (hdrSize addr : ℕ) (msg : Message ω α) : Prop :=
  ∃ N, ∀ n ≥ N, ∃ k, realSize h n msg.dst = .ok k ∧ k ≤ msg.room hdrSize addr

structure Arrives (h : Heap ω α) (hdrSize addr addr' : ℕ) (msg : Message ω α) (r : Unpacked) :
    Prop where
  dst : ∃ f, CopyOf h (.sharedPoly msg.dst) r.heap (.sharedPoly r.message.dst) f
  payload : r.message.payload - addr' = msg.payload - addr
  contents : r.message.contents hdrSize addr' = msg.contents hdrSize addr
  consumed : r.consumed ≤ msg.room hdrSize addr

/-- With enough fuel, a message aborts if its port does not fit. Otherwise the payload stays, and
it is unpacked at any address. -/
def RoundTrips (fields : ℕ → Ty) (h : Heap ω α) (hdrSize addr : ℕ) (msg : Message ω α) : Prop :=
  ∃ N, ∀ n ≥ N, ∃ k, realSize h n msg.dst = .ok k ∧
    (msg.room hdrSize addr < k ∧ pack h n hdrSize addr msg = .error (.portSize k) ∨
      k ≤ msg.room hdrSize addr ∧ ∃ packed, pack h n hdrSize addr msg = .ok packed ∧
        packed.contents hdrSize 0 = msg.contents hdrSize addr ∧
        ∀ addr', ∃ r, unpack fields n hdrSize addr' packed = .ok r ∧
          Arrives h hdrSize addr addr' msg r)

variable {fields : ℕ → Ty} {h : Heap ω α} {n hdrSize addr addr' demux userSize k : ℕ} {b : Bool}
variable {stale : ℕ → UInt8} {dst : Option (Ptr ω α)} {made msg : Message ω α}
variable {p : Ptr ω α} {s : Packer ω α} {cs x : List Cell} {r : Unpacked}

omit [DecidableEq ω] [DecidableEq α] in
theorem Targeted.same (ht : Targeted made msg) :
    msg.payload = made.payload ∧ msg.memory = made.memory := by
  induction ht with
  | made => exact ⟨rfl, rfl⟩
  | ofMessage _ ih | exportTo _ _ ih => exact ih

theorem room_of_makeMessage
    (hmake : makeMessage h n hdrSize addr demux b stale userSize dst = .ok made)
    (ht : Targeted made msg) : kMinPortSize ≤ msg.room hdrSize addr := by
  obtain ⟨k, -, hk⟩ := bind_eq_ok.mp hmake
  have hroom : (if k < kMinPortSize then kMinPortSize else k) = made.room hdrSize addr := by
    rw [← Except.ok.inj hk]
    simp only [Message.room]
    omega
  rw [Message.room, ht.same.1, ← Message.room, ← hroom]
  split_ifs with hlt
  · exact le_rfl
  · exact Nat.le_of_not_lt hlt

theorem realSize_some (hs : pup h (pupObject h n) (.sharedPoly (some p)) makeSerdes = .ok s) :
    realSize h n (some p) = .ok (size s.written) := by
  simp only [realSize, hs]
  rfl

def Message.written (msg : Message ω α) (addr : ℕ) (cs : List Cell) : Message ω α :=
  { msg with payload := msg.payload - addr, memory := write msg.memory cs }

theorem pack_some (hdrSize addr : ℕ) (hp : msg.dst = some p)
    (hs : pup h (pupObject h n) (.sharedPoly (some p)) makeSerdes = .ok s) :
    pack h n hdrSize addr msg =
      if size s.written ≤ msg.room hdrSize addr then .ok (msg.written addr s.written)
      else .error (.portSize (size s.written)) := by
  obtain ⟨epIdx, dst, payload, memory⟩ := msg
  obtain rfl : dst = some p := hp
  simp only [pack, realSize_some hs, ok_bind, hs]
  rfl

theorem pack_none (hp : msg.dst = none) (hroom : 1 ≤ msg.room hdrSize addr) :
    pack h n hdrSize addr msg = .ok (msg.written addr [.byte kIgnored]) := by
  obtain ⟨epIdx, dst, payload, memory⟩ := msg
  obtain rfl : dst = none := hp
  exact if_pos hroom

omit [DecidableEq ω] [DecidableEq α] in
theorem contents_packed (hcs : size cs ≤ msg.room hdrSize addr) :
    (msg.written addr cs).contents hdrSize 0 = msg.contents hdrSize addr := drop_write hcs

omit [DecidableEq ω] [DecidableEq α] in
theorem contents_moved (hdrSize addr' : ℕ) (raw : Message ω α) (d : Option (Ptr Owner Place)) :
    let moved : Message Owner Place := ⟨raw.epIdx, d, raw.payload + addr', raw.memory⟩
    moved.payload - addr' = raw.payload ∧
      moved.contents hdrSize addr' = raw.contents hdrSize 0 := by
  refine ⟨Nat.add_sub_cancel .., ?_⟩
  simp only [Message.contents, Message.room, Nat.add_sub_cancel, Nat.sub_zero]

omit [DecidableEq ω] [DecidableEq α] in
theorem unpack_none (fields : ℕ → Ty) (n hdrSize addr' : ℕ) (msg : Message ω α) :
    unpack fields n hdrSize addr' (msg.written addr [.byte kIgnored]) =
      .ok ⟨⟨msg.epIdx, none, msg.payload - addr + addr', write msg.memory [.byte kIgnored]⟩, [],
        0⟩ := rfl

omit [DecidableEq ω] [DecidableEq α] in
theorem unpack_some (hx : x.head? = some (.byte 4)) :
    unpack fields n hdrSize addr' (msg.written addr x) =
      ((Serialization.unpack (unpackFields fields n) .sharedPoly .member
        (makeUnpacker (write msg.memory x))).mapError .serdes).bind fun r =>
          if r.2.offset ≤ msg.room hdrSize addr then
            match r.1 with
            | .sharedPoly dst =>
              .ok ⟨⟨msg.epIdx, dst, msg.payload - addr + addr', write msg.memory x⟩, r.2.heap,
                r.2.offset⟩
            | _ => .error (.serdes .abort)
          else .error .sizeChanged := by
  obtain ⟨xs, rfl⟩ : ∃ xs, x = .byte 4 :: xs := ⟨x.tail, (List.cons_head?_tail hx).symm⟩
  rfl

theorem mapError_eq_ok {ε ε' A : Type*} {e : Except ε A} {f : ε → ε'} {a : A} :
    e.mapError f = .ok a ↔ e = .ok a := by
  cases e <;> simp [Except.mapError]

omit [DecidableEq ω] [DecidableEq α] in
theorem exists_unpack_of_ok (hx : x.head? = some (.byte 4))
    (hu : unpack fields n hdrSize addr' (msg.written addr x) = .ok r) : ∃ d u,
      Serialization.unpack (unpackFields fields n) .sharedPoly .member
        (makeUnpacker (write msg.memory x)) = .ok (.sharedPoly d, u) ∧
      r.heap = u.heap ∧ r.message.dst = d := by
  rw [unpack_some hx, bind_eq_ok] at hu
  obtain ⟨⟨v', u⟩, hu, hr⟩ := hu
  rw [mapError_eq_ok] at hu
  split_ifs at hr
  split at hr
  · next d hd =>
    dsimp only at hd
    subst hd
    rw [← Except.ok.inj hr]
    exact ⟨d, u, hu, rfl, rfl⟩
  · cases hr

/-- With enough fuel, a port is written with this size, and starts with the kind of an instance. -/
def PortWritten (h : Heap ω α) (p : Ptr ω α) (N k : ℕ) : Prop :=
  ∀ n ≥ N, ∃ s, pup h (pupObject h n) (.sharedPoly (some p)) makeSerdes = .ok s ∧
    s.written.head? = some (.byte 4) ∧ size s.written = k

theorem exists_port (hv : Valid fields h (.sharedPoly (some p)) .sharedPoly) :
    ∃ N k, PortWritten h p N k := by
  set v : Val (Ptr ω α) := .sharedPoly (some p) with hval
  have hstep : ∀ q r, Reach h v q → Edge h q r → Reach h v r := fun _ _ hq he => hq.step he
  have hS : ∀ q, Reach h v q → q.owner ∈ (ownersIn h v).toFinset :=
    fun q hq => List.mem_toFinset.mpr hq.owner_mem
  have hrun : ∀ n ≥ (ownersIn h v).toFinset.card, ∃ s,
      pup h (pupObject h n) v makeSerdes = .ok s := by
    intro n hn
    apply Serialization.exists_pup hS (fun _ _ _ => grows_pupObject n) _ (fun q hq => .root hq)
      ⟨_, .inl hv.hasTy⟩ ((Finset.card_filter_le _ _).trans hn)
    apply exists_pupObject hS hstep
    intro q hq
    obtain ⟨o, ho⟩ := Option.isSome_iff_exists.mp (hv.reach hq).choose_spec.isSome
    exact ⟨o, ho, (hv.objects q o hq ho).typed⟩
  obtain ⟨s₀, hs₀⟩ := hrun _ le_rfl
  refine ⟨(ownersIn h v).toFinset.card, size s₀.written, fun n hn => ?_⟩
  obtain ⟨s, hs, ha⟩ := follows_pup (E := ∅) (P := False) (k := 0) (fun _ _ => id)
    (fun _ _ _ => grows_pupObject _) (follows_pupObject (fun _ _ => id) hstep hn)
    (fun q hq => Reach.root hq) makeSerdes makeSerdes s₀ ⟨.inl rfl, fun _ _ => rfl, rfl⟩ hs₀
    False.elim
  refine ⟨s, hs, ?_, ha.written.symm⟩
  -- the port is the first to be written
  obtain ⟨c, w, hlook⟩ : ∃ c w, h.lookup p.addr = some (.poly c w) :=
    Typed.sharedPoly ⟨_, .inl hv.hasTy⟩
  rw [hval, pup_sharedPoly (by simp [identify, hlook] : identify h p.addr = some c)] at hs
  set s₁ : Packer ω α := { makeSerdes with
    records := [(p.owner, ⟨.instance, 1, c, 0⟩)]
    written := [.byte 4, .word 1, .word c] }
  change pupObject h n p.addr s₁ = .ok s at hs
  obtain ⟨x, hx⟩ := (grows_pupObject n hs).wrote
  rw [← hx]
  rfl

omit [DecidableEq ω] in
theorem not_reach_null (q : Ptr ω α) : ¬ Reach h (.sharedPoly none) q := by
  intro hq
  induction hq with
  | root hq => cases hq
  | step _ _ ih => exact ih

omit [DecidableEq ω] in
theorem allSafe_null : AllSafe h false .member (.sharedPoly none) :=
  ⟨trivial, fun q _ hq => absurd hq (not_reach_null q)⟩

omit [DecidableEq ω] in
theorem separate_null : Separate h (.sharedPoly none) :=
  fun q _ hq => absurd hq (not_reach_null q)

theorem unrepeated_null : Unrepeated h (.sharedPoly none) := by
  intro l hl _ p _
  obtain rfl : l = [] := List.eq_nil_iff_forall_not_mem.mpr fun q hq => not_reach_null q (hl q hq)
  exact Nat.zero_le 1

theorem roundTrips_none (fields : ℕ → Ty) (h : Heap ω α) (hp : msg.dst = none)
    (hroom : 1 ≤ msg.room hdrSize addr) :
    RoundTrips fields h hdrSize addr msg := by
  refine ⟨0, fun n _ => ⟨1, by rw [hp]; rfl, .inr ⟨hroom, _, pack_none hp hroom, ?_, ?_⟩⟩⟩
  · exact contents_packed hroom
  · intro addr'
    have hmoved := contents_moved hdrSize addr' (msg.written addr [.byte kIgnored]) none
    refine ⟨_, unpack_none fields n hdrSize addr' msg, ⟨fun _ => ⟨none, .object 0⟩, ?_⟩, hmoved.1,
      ?_, Nat.zero_le _⟩
    · rw [hp]
      exact ⟨rfl, fun q _ hq => absurd hq (not_reach_null q),
        fun q hq => absurd hq (not_reach_null q)⟩
    · exact hmoved.2.trans (contents_packed hroom)

theorem roundTrips_some {N : ℕ} (hp : msg.dst = some p)
    (hi : Interpups fields h (.sharedPoly (some p)) .sharedPoly)
    (hport : PortWritten h p N k) (hfit : k ≤ msg.room hdrSize addr) :
    RoundTrips fields h hdrSize addr msg := by
  obtain ⟨M, hM⟩ := hi
  refine ⟨max N M, fun n hn => ?_⟩
  obtain ⟨s, hs, hx, rfl⟩ := hport n (le_trans (le_max_left _ _) hn)
  have hpack := pack_some hdrSize addr hp hs
  rw [if_pos hfit] at hpack
  refine ⟨_, by rw [hp, realSize_some hs], .inr ⟨hfit, _, hpack, contents_packed hfit, ?_⟩⟩
  intro addr'
  obtain ⟨sizer, toMem, v', u, f, hsizer, htoMem, hu, hsize, hoffset, -, hc⟩ :=
    hM n (le_trans (le_max_right _ _) hn) (((bytesOf msg.memory).drop (size s.written)).map .byte)
  cases hs.symm.trans hsizer
  cases hs.symm.trans htoMem
  have hle : u.offset ≤ msg.room hdrSize addr := hoffset.trans_le hfit
  have hmoved := contents_moved hdrSize addr' (msg.written addr s.written) (some (f p))
  refine ⟨⟨⟨msg.epIdx, some (f p), msg.payload - addr + addr', write msg.memory s.written⟩, u.heap,
    u.offset⟩, ?_, ⟨f, ?_⟩, hmoved.1, hmoved.2.trans (contents_packed hfit), hle⟩
  · rw [unpack_some hx, write, hu, hc.value]
    exact if_pos hle
  · rw [hp]
    have hvalue : v' = .sharedPoly (some (f p)) := hc.value
    exact hvalue ▸ hc

/-- Only a port that survives the bridge is unpacked. -/
theorem RoundTrips.port {N : ℕ} (hr : RoundTrips fields h hdrSize addr msg) (hp : msg.dst = some p)
    (hv : Valid fields h (.sharedPoly (some p)) .sharedPoly) (hport : PortWritten h p N k)
    (hfit : k ≤ msg.room hdrSize addr) : Separate h (.sharedPoly (some p)) ∧
      AllSafe h false .member (.sharedPoly (some p)) ∧ Unrepeated h (.sharedPoly (some p)) := by
  obtain ⟨M, hM⟩ := hr
  have arrived : ∀ n ≥ max N M, ∃ s d u f,
      pup h (pupObject h n) (.sharedPoly (some p)) makeSerdes = .ok s ∧
      Serialization.unpack (unpackFields fields n) .sharedPoly .member
        (makeUnpacker (write msg.memory s.written)) = .ok (.sharedPoly d, u) ∧
      CopyOf h (.sharedPoly (some p)) u.heap (.sharedPoly d) f := by
    intro n hn
    obtain ⟨s, hpup, hx, rfl⟩ := hport n (le_trans (le_max_left _ _) hn)
    obtain ⟨k, hk, hrest⟩ := hM n (le_trans (le_max_right _ _) hn)
    rw [hp, realSize_some hpup, Except.ok.injEq] at hk
    have hpack := pack_some hdrSize addr hp hpup
    rw [if_pos hfit] at hpack
    rcases hrest with ⟨hlt, -⟩ | ⟨-, packed, hpacked, -, harrives⟩
    · omega
    · cases hpack.symm.trans hpacked
      obtain ⟨r, hu, ha⟩ := harrives 0
      obtain ⟨d, u, hu, hheap, hd⟩ := exists_unpack_of_ok hx hu
      obtain ⟨f, hc⟩ := ha.dst
      rw [hp, hheap, hd] at hc
      exact ⟨s, d, u, f, hpup, hu, hc⟩
  obtain ⟨s, d, u, f, hpup, hu, hc⟩ := arrived _ le_rfl
  have hs : Separate h (.sharedPoly (some p)) :=
    hv.separate_of_unpack (fun _ => rfl) rfl hpup (bounded_nil rfl) rfl hu (fun _ _ => id) hc
  have hone : Unrepeated h (.sharedPoly (some p)) := hc.unrepeated_of_unpack hu
  obtain ⟨K, hK⟩ := hv.allSafe_of_unpack hs hone
  obtain ⟨s, d, u, f, hpup, hu, -⟩ := arrived (max (max N M) K) (le_max_left _ _)
  exact ⟨hs, hK _ (le_max_right _ _) s _ _ hpup hu, hone⟩

/-- A message is packed and unpacked, or aborts because its port does not fit, unless a port that
fits holds what does not survive the bridge. -/
theorem message_roundTrips_iff
    (hmake : makeMessage h n hdrSize addr demux b stale userSize dst = .ok made)
    (ht : Targeted made msg) (hv : Valid fields h (.sharedPoly msg.dst) .sharedPoly) :
    RoundTrips fields h hdrSize addr msg ↔ (Fits h hdrSize addr msg →
      Separate h (.sharedPoly msg.dst) ∧ AllSafe h false .member (.sharedPoly msg.dst) ∧
        Unrepeated h (.sharedPoly msg.dst)) := by
  have hroom := room_of_makeMessage hmake ht
  cases hp : msg.dst with
  | none =>
    have hall := roundTrips_none fields h hp (le_trans (by decide) hroom)
    exact iff_of_true hall fun _ => ⟨separate_null, allSafe_null, unrepeated_null⟩
  | some p =>
    rw [hp] at hv
    obtain ⟨N, k, hport⟩ := exists_port hv
    by_cases hfit : k ≤ msg.room hdrSize addr
    · have hfits : Fits h hdrSize addr msg := by
        refine ⟨N, fun n hn => ?_⟩
        obtain ⟨s, hpup, -, rfl⟩ := hport n hn
        exact ⟨_, by rw [hp, realSize_some hpup], hfit⟩
      constructor
      · exact fun hr _ => hr.port hp hv hport hfit
      · intro hsafe
        obtain ⟨hs, hsafe, hone⟩ := hsafe hfits
        exact roundTrips_some hp (hv.interpups hs hsafe hone) hport hfit
    · refine iff_of_true ⟨N, fun n hn => ?_⟩ fun hfits => ?_
      · obtain ⟨s, hpup, -, rfl⟩ := hport n hn
        have hpack := pack_some hdrSize addr hp hpup
        rw [if_neg hfit] at hpack
        exact ⟨_, by rw [hp, realSize_some hpup], .inl ⟨Nat.lt_of_not_le hfit, hpack⟩⟩
      · obtain ⟨M, hM⟩ := hfits
        obtain ⟨s, hpup, -, rfl⟩ := hport _ (le_max_left N M)
        obtain ⟨k, hk, hle⟩ := hM _ (le_max_right N M)
        rw [hp, realSize_some hpup, Except.ok.injEq] at hk
        exact absurd (hk ▸ hle) hfit

/-- Ports with two pointers to bytes. Those of the port at 1 point to one byte. -/
def ports : Heap ℕ ℕ :=
  [(0, .poly 0 (.pair (.shared (.bytes 1) (some (own 3))) (.shared (.bytes 1) (some (own 4))))),
    (1, .poly 0 (.pair (.shared (.bytes 1) (some (own 3))) (.shared (.bytes 1) (some (own 3))))),
    (2, .poly 0 (.pair (.shared (.bytes 1) (some (own 4))) (.shared (.bytes 1) (some (own 3))))),
    (3, .data (.bytes 1) (.bytes [7])),
    (4, .data (.bytes 1) (.bytes [8]))]

def portFields (_ : ℕ) : Ty := .pair (.shared (.bytes 1)) (.shared (.bytes 1))

theorem ports_cases {a : ℕ} {o : Obj (Ptr ℕ ℕ)} (ho : ports.lookup a = some o) :
    (a ≤ 2 ∧ ∀ q ∈ o.value.ptrs, q = own 3 ∨ q = own 4) ∨ 3 ≤ a ∧ o.value.ptrs = [] := by
  obtain ⟨l₁, l₂, hl, -⟩ := List.lookup_eq_some_iff.mp ho
  have hmem : (a, o) ∈ ports := hl ▸ List.mem_append_right _ List.mem_cons_self
  simp only [ports, List.mem_cons, Prod.mk.injEq, List.not_mem_nil, or_false] at hmem
  rcases hmem with ⟨rfl, rfl⟩ | ⟨rfl, rfl⟩ | ⟨rfl, rfl⟩ | ⟨rfl, rfl⟩ | ⟨rfl, rfl⟩ <;>
    simp [Obj.value, Val.ptrs, Val.slots]

theorem edge_ports {q r : Ptr ℕ ℕ} (he : Edge ports q r) :
    q.addr ≤ 2 ∧ (r = own 3 ∨ r = own 4) := by
  obtain ⟨o, ho, hr⟩ := he
  rcases ports_cases ho with ⟨ha, hptrs⟩ | ⟨-, hptrs⟩
  · exact ⟨ha, hptrs r hr⟩
  · rw [hptrs] at hr
    cases hr

theorem reach_port {a : ℕ} {q : Ptr ℕ ℕ} (hq : Reach ports (.sharedPoly (some (own a))) q) :
    q = own a ∨ q = own 3 ∨ q = own 4 := by
  cases hq with
  | root hq => exact .inl (by simpa using hq)
  | step _ he => exact .inr (edge_ports he).2

theorem valid_port {a : ℕ} {v : Val (Ptr ℕ ℕ)} (ho : ports.lookup a = some (.poly 0 v)) :
    Valid portFields ports (.sharedPoly (some (own a))) .sharedPoly ∧
      Separate ports (.sharedPoly (some (own a))) := by
  have hown : ∀ q, Reach ports (.sharedPoly (some (own a))) q → q = own q.addr := by
    intro q hq
    rcases reach_port hq with rfl | rfl | rfl <;> rfl
  refine ⟨⟨.sharedPoly ho, fun q o _ hq => ?_, fun q r hq hr ha => ?_, fun q r s _ hs hqr => ?_⟩,
    fun q r hq hr he => ?_⟩
  · obtain ⟨l₁, l₂, hl, -⟩ := List.lookup_eq_some_iff.mp hq
    have hmem : (q.addr, o) ∈ ports := hl ▸ List.mem_append_right _ List.mem_cons_self
    simp only [ports, List.mem_cons, Prod.mk.injEq, List.not_mem_nil, or_false] at hmem
    rcases hmem with ⟨-, rfl⟩ | ⟨-, rfl⟩ | ⟨-, rfl⟩ | ⟨-, rfl⟩ | ⟨-, rfl⟩
    · exact .pair (.shared rfl) (.shared rfl)
    · exact .pair (.shared rfl) (.shared rfl)
    · exact .pair (.shared rfl) (.shared rfl)
    · exact .bytes rfl
    · exact .bytes rfl
  · rw [hown q hq, hown r hr, ha]
  · obtain ⟨u, he, -⟩ := Relation.TransGen.head'_iff.mp hqr
    obtain ⟨w, hw⟩ := hs
    have hle := (edge_ports he).1
    obtain hq | hq | hq : q.addr = 0 ∨ q.addr = 1 ∨ q.addr = 2 := by omega
    all_goals
      rw [hq] at hw
      cases hw
  · rw [hown q hq, hown r hr] at he
    exact Option.some.inj he

theorem flatMap_ptrsAt {a : ℕ} {l : List (Ptr ℕ ℕ)}
    (hl : ∀ q ∈ l, Reach ports (.sharedPoly (some (own a))) q) (hnd : (l.map Ptr.addr).Nodup) :
    (l.flatMap fun q => ptrsAt ports q.addr) = [] ∨
      (l.flatMap fun q => ptrsAt ports q.addr) = ptrsAt ports a := by
  have leaf {q : Ptr ℕ ℕ} (hq : Reach ports (.sharedPoly (some (own a))) q) (ha : q.addr ≠ a) :
      ptrsAt ports q.addr = [] := by
    rcases reach_port hq with rfl | rfl | rfl
    · exact absurd rfl ha
    · rfl
    · rfl
  have leaves {l : List (Ptr ℕ ℕ)} (hl : ∀ q ∈ l, Reach ports (.sharedPoly (some (own a))) q)
      (ha : a ∉ l.map Ptr.addr) : (l.flatMap fun q => ptrsAt ports q.addr) = [] :=
    List.flatMap_eq_nil_iff.mpr fun q hq =>
      leaf (hl q hq) fun he => ha (he ▸ List.mem_map_of_mem hq)
  by_cases ha : a ∈ l.map Ptr.addr
  · obtain ⟨q, hq, rfl⟩ := List.mem_map.mp ha
    obtain ⟨l₁, l₂, rfl⟩ := List.append_of_mem hq
    rw [List.map_append, List.map_cons, List.nodup_append, List.nodup_cons] at hnd
    rw [List.flatMap_append, List.flatMap_cons,
      leaves (fun r hr => hl r (by simp [hr])) fun hr => hnd.2.2 _ hr _ (by simp) rfl,
      leaves (fun r hr => hl r (by simp [hr])) hnd.2.1.1]
    exact .inr (by simp)
  · exact .inl (leaves hl ha)

/-- A message with a payload of two bytes is made with one port and given another. -/
theorem retargeted_roundTrips :
    ∃ made, makeMessage ports 2 16 100 1 true UInt8.ofNat 2 (some (own 0)) = .ok made ∧
      RoundTrips portFields ports 16 100
        (Endpoint.exportTo ⟨3, some (own 2)⟩ (Endpoint.ofMessage made).2) := by
  obtain ⟨hv, hs⟩ := valid_port (a := 2) rfl
  obtain ⟨made, hmade⟩ : ∃ made,
      makeMessage ports 2 16 100 1 true UInt8.ofNat 2 (some (own 0)) = .ok made := ⟨_, rfl⟩
  refine ⟨made, hmade, (message_roundTrips_iff hmade
    (.exportTo ⟨3, some (own 2)⟩ (.ofMessage .made)) hv).mpr fun _ => ⟨hs, ⟨trivial, ?_⟩, ?_⟩⟩
  · intro q o hq ho
    rcases reach_port hq with rfl | rfl | rfl <;> cases ho
    · exact ⟨Val.safe_shared_member _ _, Val.safe_shared_member _ _⟩
    · trivial
    · trivial
  · intro l hl hnd q _
    change List.count q ([own 2] ++ l.flatMap fun q => ptrsAt ports q.addr) ≤ 1
    apply List.nodup_iff_count_le_one.mp
    rcases flatMap_ptrsAt hl hnd with hnil | hport
    · rw [hnil]
      decide
    · rw [hport]
      decide

/-- A message is made with a port that fits, but its second pointer to a byte is lost. -/
theorem port_not_roundTrips : ∃ made,
    makeMessage ports 2 16 100 1 false (fun _ => 0) 0 (some (own 1)) = .ok made ∧
    Valid portFields ports (.sharedPoly made.dst) .sharedPoly ∧
    Separate ports (.sharedPoly made.dst) ∧ ¬ RoundTrips portFields ports 16 100 made := by
  obtain ⟨hv, hs⟩ := valid_port (a := 1) rfl
  refine ⟨_, rfl, hv, hs, fun hr => ?_⟩
  have hport : PortWritten ports (own 1) 2 44 := by
    intro n hn
    obtain ⟨m, rfl⟩ := Nat.exists_eq_add_of_le' hn
    exact ⟨_, rfl, rfl, rfl⟩
  have hone := (hr.port rfl hv hport (by decide)).2.2 [own 1]
    (fun q hq => List.mem_singleton.mp hq ▸ .root (by simp)) (List.nodup_singleton _) (own 3)
    ⟨1, _, rfl⟩
  exact absurd hone (by decide)

end Messages

end Hypercomm.Messaging
