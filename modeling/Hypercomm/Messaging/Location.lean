import Hypercomm.Messaging.NullValue
import Hypercomm.Serialization.Plain

/-! # Where a consumer is

A value that is delivered on its own PE is cast to the type of its consumer. On another PE it
arrives in a message, from which a value of this type is read. A reduction result is a message
in a message, which only the second route looks into.
-/

namespace Hypercomm.Location

open Serialization
open NullValue (Endpoint)

/-- The attributes of a message, by the bits of its reference number. -/
inductive Attribs
  | kNull
  | kRedn
  | kZeroCopy

def Attribs.mask : Attribs → ℕ
  | .kNull => 1
  | .kRedn => 2
  | .kZeroCopy => 4

inductive ValueType
  | data (t : Ty)
  | poly (c : ℕ)
  | contribution
  /-- a type without a `PUP` routine -/
  | unpupable (k : ℕ)
  deriving DecidableEq

/-- A contribution has a message, a combiner and a callback. -/
def contributionTy : Ty := .pair .builtin (.pair .sharedPoly .sharedPoly)

namespace ValueType

def isPupable : ValueType → Bool
  | .unpupable _ => false
  | _ => true

def flags (T : ValueType) : ℕ := if T = .contribution then Attribs.kRedn.mask else 0

/-- What a value of the type is read as, and into which memory. -/
def layout (fields : ℕ → Ty) : ValueType → Option (Ty × Slot)
  | .data t => some (t, .allocated)
  | .poly c => some (fields c, .member)
  | .contribution => some (contributionTy, .allocated)
  | .unpupable _ => none

inductive IsObj {P : Type*} : ValueType → Obj P → Prop
  | data (t : Ty) (v : Val P) : IsObj (.data t) (.data t v)
  | poly (c : ℕ) (v : Val P) : IsObj (.poly c) (.poly c v)
  | contribution (v : Val P) : IsObj .contribution (.data contributionTy v)

end ValueType

/-- A local value. It is owned by `src` once it is packed. -/
structure TypedValue (P ω α : Type*) where
  type : ValueType
  source : Endpoint P
  storage : Storage ω α
  src : ω

structure CkMessage (P B : Type*) where
  ref : ℕ
  dst : Option P
  epIdx : ℕ
  payload : Message B

def CkMessage.has {P B : Type*} (msg : CkMessage P B) (a : Attribs) : Bool :=
  (msg.ref &&& a.mask) != 0

inductive Content (P ω α B : Type*)
  | message (msg : CkMessage P B)
  | value (val : Option (TypedValue P ω α))

structure Deliverable (P ω α B : Type*) where
  content : Content P ω α B
  ep : Endpoint P

/-- What a consumer gets: the value itself, or one that was read from a message. -/
inductive Typed (P ω α : Type*)
  | cast (val : TypedValue P ω α)
  | read (source : Endpoint P) (v : UVal) (h : Heap Owner Place)

section Definitions

variable {P ω α B : Type*} [DecidableEq ω] [DecidableEq α] (K : Ncpy ω α B) (fields : ℕ → Ty)
variable (h : Heap ω α)

/-- The endpoint takes over the port of the message. -/
def Deliverable.ofMessage (msg : CkMessage P B) : Deliverable P ω α B :=
  ⟨.message { msg with dst := none }, ⟨msg.dst, msg.epIdx⟩⟩

omit [DecidableEq ω] [DecidableEq α] in
/-- Read a value from a message, with fuel for messages in messages. A message in a message is a
built-in type, which may be null. -/
def fromMessage (decode : List UInt8 → Option (CkMessage P B)) (fuel : ℕ) (T : ValueType) :
    ℕ → Option (CkMessage P B) → Except Fault (Option (UVal × Heap Owner Place))
  | _, none => .ok none
  | 0, some _ => .error .outOfFuel
  | n + 1, some msg =>
      if msg.has .kNull then .ok none
      else if T ≠ .contribution ∧ msg.has .kRedn then
        (readPayload K fields fuel .builtin .member msg.payload).bind fun (v, _) =>
          match v with
          | .builtin b => fromMessage decode fuel T n (decode b)
          | _ => .error .undefined
      else
        match T.layout fields with
        | none => .error .abort
        | some (t, slot) =>
            (readPayload K fields fuel t slot msg.payload).map fun (v, u) => some (v, u.heap)

omit [DecidableEq ω] [DecidableEq α] in
/-- A cast to the wrong type aborts when errors are checked for. -/
def value2typed (checking : Bool) (T : ValueType) (val : TypedValue P ω α) :
    Except Fault (TypedValue P ω α) :=
  if val.type = T then .ok val else if checking then .error .abort else .error .undefined

omit [DecidableEq ω] [DecidableEq α] in
def dev2typed (checking : Bool) (decode : List UInt8 → Option (CkMessage P B)) (fuel : ℕ)
    (T : ValueType) (dev : Deliverable P ω α B) : Except Fault (Option (Typed P ω α)) :=
  match dev.content with
  | .message msg => (fromMessage K fields decode fuel T fuel (some msg)).map fun typed =>
      typed.map fun (v, h) => .read dev.ep v h
  | .value none => .ok none
  | .value (some val) =>
      (value2typed checking T { val with source := dev.ep }).map fun val => some (.cast val)

def makeNullMessage (dst : Option P) (epIdx : ℕ) : CkMessage P B :=
  ⟨Attribs.kNull.mask, dst, epIdx, ⟨0, false, [], []⟩⟩

def repackToPort (fuel : ℕ) (dst : Option P) (epIdx : ℕ) :
    Option (TypedValue P ω α) → Except Fault (CkMessage P B)
  | none => .ok (makeNullMessage dst epIdx)
  | some val =>
      if val.type.isPupable then
        (packDeferrable K h fuel val.src val.storage).map fun msg =>
          ⟨val.type.flags ||| if msg.zeroCopy then Attribs.kZeroCopy.mask else 0, dst, epIdx, msg⟩
      else .error .abort

def toMessage (demux fuel : ℕ) (dev : Deliverable P ω α B) : Except Fault (CkMessage P B) :=
  match dev.content with
  | .message msg => .ok { msg with dst := dev.ep.port, epIdx := dev.ep.idx }
  | .value val => (repackToPort K h fuel dev.ep.port dev.ep.idx val).bind fun msg =>
      if dev.ep.idx = demux ∧ dev.ep.port.isNone then .error .abort else .ok msg

omit [DecidableEq ω] in
def Same : Option (Typed P ω α) → Option (Typed P ω α) → Prop
  | none, none => True
  | some (.cast val), some (.read source v h') => val.source = source ∧
      ∃ o f, h.lookup val.storage.get = some o ∧ CopyOf h o.value h' v f
  | _, _ => False

/-- With enough fuel, a consumer gets the same from a deliverable and from its message. -/
def Transparent (checking : Bool) (decode : List UInt8 → Option (CkMessage P B)) (demux : ℕ)
    (T : ValueType) (dev : Deliverable P ω α B) : Prop :=
  ∃ N, ∀ n ≥ N, ∃ x msg y, dev2typed K fields checking decode n T dev = .ok x ∧
    toMessage K h demux n dev = .ok msg ∧
    dev2typed K fields checking decode n T (Deliverable.ofMessage msg : Deliverable P ω α B) =
      .ok y ∧ Same h x y

omit [DecidableEq ω] in
def TypedValue.Sound (val : TypedValue P ω α) : Prop :=
  val.type.isPupable = true →
    ∃ o, val.type.IsObj o ∧ Packable fields h val.src val.storage o

omit [DecidableEq ω] in
def TypedValue.Portable (val : TypedValue P ω α) : Prop :=
  ∃ o, h.lookup val.storage.get = some o ∧ Serialization.Portable h val.storage o

end Definitions

section Result

variable {P ω α B : Type*} [DecidableEq ω] [DecidableEq α] {K : Ncpy ω α B} {fields : ℕ → Ty}
variable {h : Heap ω α} {checking : Bool} {decode : List UInt8 → Option (CkMessage P B)}
variable {demux n : ℕ} {T : ValueType} {val : TypedValue P ω α} {ep : Endpoint P}
variable {msg : CkMessage P B} {m : Message B} {o : Obj (Ptr ω α)} {x : Option (Typed P ω α)}

theorem ValueType.IsObj.layout_eq {Q : Type*} {o : Obj Q} (ho : T.IsObj o) :
    T.layout fields = some (o.contentTy fields, o.slot) := by
  cases ho <;> rfl

theorem ValueType.flags_or (T : ValueType) (zeroCopy : Bool) :
    ((T.flags ||| if zeroCopy then Attribs.kZeroCopy.mask else 0) &&& Attribs.kNull.mask) = 0 ∧
      (T ≠ .contribution →
        ((T.flags ||| if zeroCopy then Attribs.kZeroCopy.mask else 0) &&& Attribs.kRedn.mask) =
          0) := by
  unfold flags
  by_cases hT : T = .contribution
  · rw [if_pos hT]
    constructor
    · cases zeroCopy <;> rfl
    · intro hne
      exact absurd hT hne
  · rw [if_neg hT]
    constructor
    · cases zeroCopy <;> rfl
    · intro _
      cases zeroCopy <;> rfl

omit [DecidableEq ω] [DecidableEq α] in
theorem fromMessage_packed (ho : T.IsObj o) {dst : Option P} {epIdx : ℕ} (k : ℕ) :
    fromMessage K fields decode n T (k + 1)
        (some ⟨T.flags ||| if m.zeroCopy then Attribs.kZeroCopy.mask else 0, dst, epIdx, m⟩) =
      (readPayload K fields n (o.contentTy fields) o.slot m).map fun (v, u) =>
        some (v, u.heap) := by
  obtain ⟨hnull, hredn⟩ := T.flags_or m.zeroCopy
  unfold fromMessage CkMessage.has
  dsimp only
  rw [hnull, if_neg (by simp), if_neg, ho.layout_eq]
  rintro ⟨hT, hr⟩
  rw [hredn hT] at hr
  simp at hr

omit [DecidableEq ω] [DecidableEq α] in
theorem dev2typed_value (hx : dev2typed K fields checking decode n T
      (⟨.value (some val), ep⟩ : Deliverable P ω α B) = .ok x) :
    val.type = T ∧ x = some (.cast { val with source := ep }) := by
  unfold dev2typed value2typed at hx
  dsimp only at hx
  split_ifs at hx with hT
  · exact ⟨hT, (Except.ok.inj hx).symm⟩
  · cases hx
  · cases hx

theorem toMessage_value (hm : toMessage K h demux n
      (⟨.value (some val), ep⟩ : Deliverable P ω α B) = .ok msg) :
    val.type.isPupable = true ∧ (ep.idx = demux → ep.port.isSome) ∧ ∃ m,
      packDeferrable K h n val.src val.storage = .ok m ∧
      msg = ⟨val.type.flags ||| if m.zeroCopy then Attribs.kZeroCopy.mask else 0, ep.port, ep.idx,
        m⟩ := by
  unfold toMessage at hm
  dsimp only at hm
  rw [bind_eq_ok] at hm
  obtain ⟨msg', hmsg, hm⟩ := hm
  unfold repackToPort at hmsg
  dsimp only at hmsg hm
  split_ifs at hmsg hm with hpup hep
  obtain rfl := Except.ok.inj hm
  cases hpack : packDeferrable K h n val.src val.storage with
  | error e =>
    rw [hpack] at hmsg
    cases hmsg
  | ok m =>
    rw [hpack] at hmsg
    refine ⟨hpup, fun hidx => ?_, m, rfl, (Except.ok.inj hmsg).symm⟩
    by_contra hport
    exact hep ⟨hidx, by simpa using hport⟩

theorem transparent_null : Transparent K fields h checking decode demux T
    (⟨.value none, ep⟩ : Deliverable P ω α B) ↔ (ep.idx = demux → ep.port.isSome) := by
  constructor
  · rintro ⟨N, hN⟩ hidx
    obtain ⟨x, msg, y, -, hm, -⟩ := hN N le_rfl
    by_contra hport
    have hnone : ep.port.isNone := by simpa using hport
    simp [toMessage, repackToPort, hidx, hnone] at hm
  · intro hep
    refine ⟨1, fun n hn => ⟨none, makeNullMessage ep.port ep.idx, none, rfl, ?_, ?_, trivial⟩⟩
    · refine if_neg ?_
      rintro ⟨hidx, hport⟩
      have hsome := hep hidx
      cases hp : ep.port <;> simp_all
    · obtain ⟨k, rfl⟩ := Nat.exists_eq_add_of_le' hn
      simp [dev2typed, Deliverable.ofMessage, makeNullMessage, fromMessage, CkMessage.has,
        Attribs.mask, Except.map]

/-- A consumer gets the same value wherever it is if and only if the value is of the type of the
consumer, which has a `PUP` routine, and can be read from its message. -/
theorem transparent_value (hK : K.Opaque) (hval : val.Sound fields h) :
    Transparent K fields h checking decode demux T
        (⟨.value (some val), ep⟩ : Deliverable P ω α B) ↔
      (ep.idx = demux → ep.port.isSome) ∧ val.type = T ∧ T.isPupable = true ∧
        val.Portable h := by
  constructor
  · rintro ⟨N, hN⟩
    obtain ⟨x, msg, y, hx, hm, -⟩ := hN N le_rfl
    obtain ⟨rfl, -⟩ := dev2typed_value hx
    obtain ⟨hpup, hep, -⟩ := toMessage_value hm
    obtain ⟨o, ho, hP⟩ := hval hpup
    refine ⟨hep, rfl, hpup, o, hP.lookup, (carries_iff hK hP).mp ⟨N, fun n hn => ?_⟩⟩
    obtain ⟨x, msg, y, hx, hm, hy, hsame⟩ := hN n hn
    obtain ⟨-, rfl⟩ := dev2typed_value hx
    obtain ⟨-, -, m, hpack, rfl⟩ := toMessage_value hm
    cases n with
    | zero => cases hy
    | succ k =>
      unfold dev2typed Deliverable.ofMessage at hy
      dsimp only at hy
      rw [fromMessage_packed ho] at hy
      cases hr : readPayload K fields (k + 1) (o.contentTy fields) o.slot m with
      | error e =>
        rw [hr] at hy
        cases hy
      | ok r =>
        obtain ⟨v', u'⟩ := r
        rw [hr] at hy
        obtain rfl := Except.ok.inj hy
        obtain ⟨-, o', f, ho', hc⟩ := hsame
        cases hP.lookup.symm.trans ho'
        exact ⟨m, v', u', f, hpack, hr, hc⟩
  · rintro ⟨hep, rfl, hpup, o', ho', hport⟩
    obtain ⟨o, ho, hP⟩ := hval hpup
    cases hP.lookup.symm.trans ho'
    obtain ⟨N, hN⟩ := (carries_iff hK hP).mpr hport
    refine ⟨N + 1, fun n hn => ?_⟩
    obtain ⟨k, rfl⟩ := Nat.exists_eq_add_of_le' (Nat.le_of_add_left_le hn)
    obtain ⟨m, v', u', f, hpack, hread, hc⟩ := hN (k + 1) (Nat.le_of_succ_le hn)
    refine ⟨some (.cast { val with source := ep }),
      ⟨val.type.flags ||| if m.zeroCopy then Attribs.kZeroCopy.mask else 0, ep.port, ep.idx, m⟩,
      some (.read ep v' u'.heap), ?_, ?_, ?_, rfl, o', f, ho', hc⟩
    · simp [dev2typed, value2typed]
      rfl
    · unfold toMessage repackToPort
      dsimp only
      rw [if_pos hpup, hpack]
      refine if_neg ?_
      rintro ⟨hidx, hnone⟩
      have hsome := hep hidx
      cases hp : ep.port <;> simp_all
    · unfold dev2typed Deliverable.ofMessage
      dsimp only
      rw [fromMessage_packed ho, hread]
      rfl

/-- Whether a consumer is local or remote does not matter if and only if the endpoint is valid, and
the deliverable is null or has a value of the type of the consumer that can be read from its
message. A reduction result is only of the type of a contribution. -/
theorem transparent_iff {dev : Deliverable P ω α B} {val : Option (TypedValue P ω α)}
    (hK : K.Opaque) (hdev : dev.content = .value val) (hval : ∀ v ∈ val, v.Sound fields h) :
    Transparent K fields h checking decode demux T dev ↔
      (dev.ep.idx = demux → dev.ep.port.isSome) ∧
        ∀ v ∈ val, v.type = T ∧ T.isPupable = true ∧ v.Portable h := by
  obtain ⟨content, ep⟩ := dev
  obtain rfl : content = .value val := hdev
  cases val with
  | none =>
    rw [transparent_null]
    simp
  | some v =>
    rw [transparent_value hK (hval v rfl)]
    simp

theorem addresses_opaque : addresses.Opaque := by
  intro bs b hb
  simp [addresses] at hb

theorem packable_leaf {t : Ty} {v : Val (Ptr ℕ ℕ)} {types : ℕ → Ty}
    (hv : HasTy types [(0, .data t v)] v t) (hptrs : v.ptrs = []) :
    Packable types [(0, .data t v)] 0 (.inline 0) (.data t v) := by
  have hedge : ∀ p q, ¬ Edge [(0, Obj.data t v)] p q := by
    rintro p q ⟨o, ho, hq⟩
    rw [List.lookup_cons] at ho
    split at ho
    · cases ho
      rw [Obj.value, hptrs] at hq
      cases hq
    · cases ho
  have hreach : ∀ q, Reach [(0, Obj.data t v)] ((Obj.data t v).pointer ⟨some 0, 0⟩) q →
      q = ⟨some 0, 0⟩ := by
    intro q hq
    cases hq with
    | root hq => simpa using hq
    | step _ he => exact absurd he (hedge _ _)
  have htrans : ∀ p q, ¬ Relation.TransGen (Edge [(0, Obj.data t v)]) p q := by
    intro p q hpq
    obtain ⟨q', he, -⟩ := Relation.TransGen.head'_iff.mp hpq
    exact hedge _ _ he
  constructor
  case lookup => rfl
  case valid =>
    constructor
    · exact .shared rfl
    · intro q o hq ho
      cases hreach q hq
      cases ho
      exact hv
    · intro p q hp hq _
      rw [hreach p hp, hreach q hq]
    · exact fun p q _ _ _ hpq => absurd hpq (htrans p q)
  case fresh => exact fun a _ q hq => absurd hq (htrans _ q)

theorem portable_leaf {t : Ty} {v : Val (Ptr ℕ ℕ)} (hptrs : v.ptrs = [])
    (hd : t.defers true = false) (hsafe : v.Safe false .allocated) :
    Serialization.Portable [(0, .data t v)] (.inline 0) (.data t v) := by
  have hreach : ∀ q, ¬ Reach [(0, Obj.data t v)] v q := by
    intro q hq
    induction hq with
    | root hq =>
      rw [hptrs] at hq
      cases hq
    | step _ _ ih => exact ih
  constructor
  · exact fun p q hp => absurd hp (hreach p)
  · exact fun _ data _ q hq => absurd hq (hreach q)
  · exact fun q hq => absurd hq (hreach q)
  · exact hd
  · exact ⟨hsafe, fun p o hp => absurd hp (hreach p)⟩

def byteValue : TypedValue ℕ ℕ ℕ := ⟨.data (.bytes 1), ⟨none, 1⟩, .inline 0, 0⟩

theorem byte_transparent : Transparent addresses (fun _ => .unit)
    [(0, .data (.bytes 1) (.bytes [7]))] true (fun _ => none) 2 (.data (.bytes 1))
    (⟨.value (some byteValue), ⟨none, 1⟩⟩ : Deliverable ℕ ℕ ℕ (Ptr ℕ ℕ)) := by
  have hval : ∀ v ∈ some byteValue, v.Sound (fun _ => .unit)
      [(0, .data (.bytes 1) (.bytes [7]))] := by
    intro v hv _
    cases hv
    exact ⟨_, .data _ _, packable_leaf (.bytes rfl) rfl⟩
  apply (transparent_iff addresses_opaque rfl hval).mpr
  constructor
  · intro hidx
    cases hidx
  · intro v hv
    cases hv
    exact ⟨rfl, rfl, _, rfl, portable_leaf rfl rfl trivial⟩

def resultHeap : Heap ℕ ℕ :=
  [(0, .data contributionTy (.pair (.builtin [7]) (.pair (.sharedPoly none) (.sharedPoly none))))]

def resultValue : TypedValue ℕ ℕ ℕ := ⟨.contribution, ⟨none, 1⟩, .inline 0, 0⟩

/-- A message in a message, by the bytes of its payload. -/
def bytesMessage (b : List UInt8) : Option (CkMessage ℕ (Ptr ℕ ℕ)) :=
  some ⟨0, none, 0, ⟨b.length, false, [], b.map .byte⟩⟩

/-- A local consumer of bytes aborts when it gets the result of a reduction, and a remote one gets
the byte. -/
theorem result_not_transparent :
    let dev : Deliverable ℕ ℕ ℕ (Ptr ℕ ℕ) := ⟨.value (some resultValue), ⟨none, 1⟩⟩
    resultValue.Sound (fun _ => .unit) resultHeap ∧ resultValue.Portable resultHeap ∧
      dev2typed addresses (fun _ => .unit) true bytesMessage 2 (.data (.bytes 1)) dev =
        .error .abort ∧
      (∃ msg, toMessage addresses resultHeap 2 2 dev = .ok msg ∧
        dev2typed addresses (fun _ => .unit) true bytesMessage 2 (.data (.bytes 1))
          (Deliverable.ofMessage msg : Deliverable ℕ ℕ ℕ (Ptr ℕ ℕ)) =
            .ok (some (.read ⟨none, 1⟩ (.bytes [7]) []))) ∧
      ¬ Transparent addresses (fun _ => .unit) resultHeap true bytesMessage 2 (.data (.bytes 1))
        dev := by
  intro dev
  refine ⟨fun _ => ⟨_, .contribution _, packable_leaf ?_ rfl⟩, ⟨_, rfl, portable_leaf rfl rfl ?_⟩,
    rfl, ⟨⟨2, none, 1, ⟨3, false, [], [.puped [7], .byte 1, .byte 1]⟩⟩, rfl, rfl⟩, ?_⟩
  · exact .pair (.builtin _) (.pair .sharedPolyNull .sharedPolyNull)
  · exact ⟨trivial, trivial, trivial⟩
  · rintro ⟨N, hN⟩
    obtain ⟨x, msg, y, hx, -⟩ := hN N le_rfl
    cases (dev2typed_value hx).1

end Result

end Hypercomm.Location
