import Mathlib.Order.Basic

/-! # Null values

An invalidation is a deliverable whose value is a null pointer. Most of the routes that hand
a value on read its source from it, so the null ones only travel where the endpoint is given
next to the pointer and the value is not pushed onto the queue of its own PE.
-/

namespace Hypercomm.NullValue

inductive Fault
  | nullDereference
  | assertion
  | overflow
  deriving DecidableEq

structure Endpoint (P : Type*) where
  port : Option P := none
  idx : ℕ
  deriving DecidableEq

structure Value (P T : Type*) where
  source : Endpoint P
  content : T

/-- The payload of a null message is absent. -/
structure Message (P T : Type*) where
  dst : Option P
  epIdx : ℕ
  payload : Option T

inductive Storage (P T : Type*)
  | message (msg : Message P T)
  | value (val : Option (Value P T))

structure Deliverable (P T : Type*) where
  storage : Storage P T
  ep : Endpoint P

inductive Destination (P I B : Type*)
  | callback (cb : B)
  | component (com : I) (port : ℕ)
  | endpoint (ep : Endpoint P)
  deriving DecidableEq

inductive Place (P I B : Type*)
  | callback (cb : B)
  | component (com : I) (port : ℕ)
  | handler (idx : ℕ)
  | queue (port : P)
  | contribution
  deriving DecidableEq

structure Arrival (P I B T : Type*) where
  place : Place P I B
  content : Option T
  deriving DecidableEq

namespace Deliverable

variable {P T : Type*}

def ofMessage (msg : Message P T) : Deliverable P T :=
  ⟨.message { msg with dst := none }, ⟨msg.dst, msg.epIdx⟩⟩

/-- The endpoint is moved out of the source of the value. -/
def ofPointer : Option (Value P T) → Except Fault (Deliverable P T)
  | none => .error .nullDereference
  | some val => .ok ⟨.value (some { val with source := ⟨none, val.source.idx⟩ }), val.source⟩

def ofUnique (ptr : Option (Value P T)) : Except Fault (Deliverable P T) := ofPointer ptr

def ofUniqueWith (ptr : Option (Value P T)) (ep : Endpoint P) : Deliverable P T :=
  ⟨.value ptr, ep⟩

def updateEndpoint (dev : Deliverable P T) (ep : Endpoint P) : Deliverable P T :=
  { dev with ep := ep }

def toMessage (demux : ℕ) (dev : Deliverable P T) : Except Fault (Message P T) :=
  match dev.storage with
  | .message msg => .ok { msg with dst := dev.ep.port, epIdx := dev.ep.idx }
  | .value val =>
      if dev.ep.idx = demux ∧ dev.ep.port.isNone then .error .assertion
      else .ok ⟨dev.ep.port, dev.ep.idx, val.map Value.content⟩

/-- What a consumer makes of a deliverable. -/
def dev2typed (dev : Deliverable P T) : Option T :=
  match dev.storage with
  | .message msg => msg.payload
  | .value val => val.map Value.content

@[simp]
theorem dev2typed_updateEndpoint (dev : Deliverable P T) (ep : Endpoint P) :
    (dev.updateEndpoint ep).dev2typed = dev.dev2typed := rfl

end Deliverable

structure Locality (P I B : Type*) where
  demux : ℕ
  entryPorts : P → Option (Destination P I B)
  components : I → Bool

namespace Locality

variable {P I B T : Type*} (s : Locality P I B)

open Deliverable

def valid (ep : Endpoint P) : Bool := ep.idx != 0 && (ep.idx != s.demux || ep.port.isSome)

/-- The fuel bounds how many ports are chained. Nothing arrives if the component is gone. -/
def passthru : ℕ → Destination P I B → Deliverable P T → Except Fault (List (Arrival P I B T))
  | _, .callback cb, dev => .ok [⟨.callback cb, dev.dev2typed⟩]
  | _, .component com port, dev =>
      .ok (if s.components com then [⟨.component com port, dev.dev2typed⟩] else [])
  | 0, .endpoint _, _ => .error .overflow
  | n + 1, .endpoint ep, dev =>
      let dev := dev.updateEndpoint ep
      if !s.valid ep then .error .assertion
      else if ep.idx = s.demux then
        match ep.port with
        | none => .error .assertion
        | some port =>
            match s.entryPorts port with
            | none => .ok [⟨.queue port, dev.dev2typed⟩]
            | some dst => (passthru n dst dev).bind fun received =>
                if received.isEmpty then .error .assertion else .ok received
      else .ok [⟨.handler ep.idx, dev.dev2typed⟩]

def receive (n : ℕ) (dev : Deliverable P T) : Except Fault (List (Arrival P I B T)) :=
  s.passthru n (.endpoint dev.ep) dev

/-- The element has its own PE handle the payload, or it is sent as a message. -/
def deliverNow (n : ℕ) (here : Bool) (dev : Deliverable P T) :
    Except Fault (List (Arrival P I B T)) :=
  if here then s.receive n dev
  else (dev.toMessage s.demux).bind fun msg => s.receive n (ofMessage msg)

/-- A value goes through the queue of the PE by itself, with its endpoint as source. -/
def push (dev : Deliverable P T) : Except Fault (Deliverable P T) :=
  match dev.storage with
  | .value none => .error .nullDereference
  | .value (some val) => ofPointer (some { val with source := dev.ep })
  | .message _ => .ok dev

/-- The element may have left its PE once the queue is processed. -/
def deliver (n : ℕ) (here : Bool) (dev : Deliverable P T) (immediate still : Bool) :
    Except Fault (List (Arrival P I B T)) :=
  if here && !immediate then (push dev).bind (s.deliverNow n still)
  else s.deliverNow n here dev

def relayTyped (n : ℕ) (dst : Destination P I B) (value : Option (Value P T)) :
    Except Fault (List (Arrival P I B T)) :=
  (ofUnique value).bind (s.passthru n dst)

def implodeTyped (T : Type*) (n : ℕ) (dst : Destination P I B) :
    Except Fault (List (Arrival P I B T)) :=
  s.relayTyped n dst none

def implode (T : Type*) (n : ℕ) (dst : Destination P I B) :
    Except Fault (List (Arrival P I B T)) :=
  (ofPointer none).bind (s.passthru n dst)

end Locality

def nullCombiner {P T : Type*} : List (Deliverable P T) → Except Fault (Deliverable P T)
  | [] => Deliverable.ofUnique none
  | dev :: _ => .ok dev

/-- The ways in which a null value is handed on. -/
inductive HandOff (P I B : Type*)
  | implodeTyped (dst : Destination P I B)
  | implode (dst : Destination P I B)
  | combine
  | sendAsync (ep : Endpoint P) (here still : Bool)
  | deliver (ep : Endpoint P) (here immediate still : Bool)
  | delete (port : P)

namespace HandOff

variable {P I B : Type*} (T : Type*) (s : Locality P I B)

open Deliverable

def run (n : ℕ) : HandOff P I B → Except Fault (List (Arrival P I B T))
  | implodeTyped dst => s.implodeTyped T n dst
  | implode dst => s.implode T n dst
  -- a reducer packs what its combiner returns into a contribution
  | combine => (nullCombiner ([] : List (Deliverable P T))).bind fun dev =>
      (dev.toMessage s.demux).bind fun msg => .ok [⟨.contribution, msg.payload⟩]
  | sendAsync ep here still => (ofUnique none).bind fun dev =>
      s.deliver n here (dev.updateEndpoint ep) false still
  | deliver ep here immediate still =>
      s.deliver n here (ofUniqueWith none ep) immediate still
  | delete port => s.receive n (ofUniqueWith none ⟨some port, s.demux⟩)

def remote : HandOff P I B → HandOff P I B
  | sendAsync ep _ still => sendAsync ep false still
  | deliver ep _ immediate still => deliver ep false immediate still
  | h => h

end HandOff

inductive Settles {P I B : Type*} (s : Locality P I B) :
    Destination P I B → Place P I B → Prop
  | callback (cb : B) : Settles s (.callback cb) (.callback cb)
  | component {com : I} (port : ℕ) : s.components com = true →
      Settles s (.component com port) (.component com port)
  | handler {ep : Endpoint P} : ep.idx ≠ 0 → ep.idx ≠ s.demux →
      Settles s (.endpoint ep) (.handler ep.idx)
  | queue {port : P} : s.demux ≠ 0 → s.entryPorts port = none →
      Settles s (.endpoint ⟨some port, s.demux⟩) (.queue port)
  | port {port : P} {dst : Destination P I B} {place : Place P I B} : s.demux ≠ 0 →
      s.entryPorts port = some dst → Settles s dst place →
      Settles s (.endpoint ⟨some port, s.demux⟩) place

section Travel

variable {P I B T : Type*} {s : Locality P I B} {dst : Destination P I B} {place : Place P I B}
variable {dev : Deliverable P T} {here immediate still : Bool}

open Deliverable

namespace HandOff

def Destined (s : Locality P I B) : HandOff P I B → Place P I B → Prop
  | implodeTyped dst, place => Settles s dst place
  | implode dst, place => Settles s dst place
  | combine, place => place = .contribution
  | sendAsync ep _ _, place => Settles s (.endpoint ep) place
  | deliver ep _ _ _, place => Settles s (.endpoint ep) place
  | delete port, place => Settles s (.endpoint ⟨some port, s.demux⟩) place

/-- Exactly one null arrives where it should, wherever the destination is. -/
def Travels (T : Type*) (s : Locality P I B) (h : HandOff P I B) : Prop :=
  ∃ place, h.Destined s place ∧ ∃ n, ∀ m ≥ n,
    h.run T s m = .ok [⟨place, none⟩] ∧ h.remote.run T s m = .ok [⟨place, none⟩]

/-- The pointer of the value is not read on the way. -/
def Guarded (s : Locality P I B) : HandOff P I B → Prop
  | deliver ep here immediate _ => (here = true → immediate = true) ∧
      ∃ place, Settles s (.endpoint ep) place
  | delete port => ∃ place, Settles s (.endpoint ⟨some port, s.demux⟩) place
  | _ => False

end HandOff

theorem valid_port {port : P} (h : s.demux ≠ 0) : s.valid ⟨some port, s.demux⟩ = true := by
  simp [Locality.valid, h]

theorem valid_handler {ep : Endpoint P} (h : ep.idx ≠ 0) (hd : ep.idx ≠ s.demux) :
    s.valid ep = true := by
  simp [Locality.valid, h, hd]

/-- A deliverable is passed on until it comes to rest. -/
theorem Settles.passthru (h : Settles s dst place) : ∃ n, ∀ m ≥ n, ∀ dev : Deliverable P T,
    s.passthru m dst dev = .ok [⟨place, dev.dev2typed⟩] := by
  induction h with
  | callback cb => exact ⟨0, fun m _ dev => by cases m <;> rfl⟩
  | component port hc => exact ⟨0, fun m _ dev => by cases m <;> simp [Locality.passthru, hc]⟩
  | handler h hd =>
    refine ⟨1, fun m hm dev => ?_⟩
    obtain ⟨m, rfl⟩ := Nat.exists_eq_add_of_le' hm
    simp [Locality.passthru, valid_handler h hd, hd]
  | queue h hp =>
    refine ⟨1, fun m hm dev => ?_⟩
    obtain ⟨m, rfl⟩ := Nat.exists_eq_add_of_le' hm
    simp [Locality.passthru, valid_port h, hp]
  | port h hp _ ih =>
    obtain ⟨n, hn⟩ := ih
    refine ⟨n + 1, fun m hm dev => ?_⟩
    obtain ⟨m, rfl⟩ := Nat.exists_eq_add_of_le' hm
    have hrest := hn (m + n) (Nat.le_add_left n m)
    simp [Locality.passthru, valid_port h, hp, hrest, Except.bind]

theorem receive_of_settles (dev : Deliverable P T)
    (h : Settles s (.endpoint dev.ep) place) :
    ∃ n, ∀ m ≥ n, s.receive m dev = .ok [⟨place, dev.dev2typed⟩] := by
  obtain ⟨n, hn⟩ := h.passthru (T := T)
  exact ⟨n, fun m hm => hn m hm dev⟩

theorem Settles.port_ne_none {ep : Endpoint P} (h : Settles s (.endpoint ep) place) :
    ¬ (ep.idx = s.demux ∧ ep.port.isNone) := by
  cases h with
  | handler h hd => exact fun h' => hd h'.1
  | queue h hp => simp
  | port h hp h' => simp

theorem ofMessage_toMessage (h : Settles s (.endpoint dev.ep) place) : ∃ msg,
    dev.toMessage s.demux = .ok msg ∧ (ofMessage msg).ep = dev.ep ∧
      (ofMessage msg).dev2typed = dev.dev2typed := by
  obtain ⟨storage, ep⟩ := dev
  cases storage with
  | message msg => exact ⟨_, rfl, rfl, rfl⟩
  | value val => exact ⟨_, if_neg h.port_ne_none, rfl, rfl⟩

theorem deliverNow_of_settles (h : Settles s (.endpoint dev.ep) place) (here : Bool) :
    ∃ n, ∀ m ≥ n, s.deliverNow m here dev = .ok [⟨place, dev.dev2typed⟩] := by
  unfold Locality.deliverNow
  cases here with
  | true => exact receive_of_settles _ h
  | false =>
    obtain ⟨msg, hmsg, hep, hc⟩ := ofMessage_toMessage h
    rw [← hep] at h
    obtain ⟨n, hn⟩ := receive_of_settles _ h
    refine ⟨n, fun m hm => ?_⟩
    rw [hmsg, ← hc]
    exact hn m hm

theorem push_of_ne_null (h : dev.storage ≠ .value none) : ∃ dev', Locality.push dev = .ok dev' ∧
    dev'.ep = dev.ep ∧ dev'.dev2typed = dev.dev2typed := by
  obtain ⟨storage, ep⟩ := dev
  cases storage with
  | message msg => exact ⟨_, rfl, rfl, rfl⟩
  | value val =>
    cases val with
    | none => exact absurd rfl h
    | some val => exact ⟨_, rfl, rfl, rfl⟩

theorem deliver_of_settles (dev : Deliverable P T)
    (h : Settles s (.endpoint dev.ep) place)
    (hnull : here = true → immediate = false → dev.storage ≠ .value none) (still : Bool) :
    ∃ n, ∀ m ≥ n, s.deliver m here dev immediate still = .ok [⟨place, dev.dev2typed⟩] := by
  unfold Locality.deliver
  split_ifs with hpush
  · simp only [Bool.and_eq_true, Bool.not_eq_true'] at hpush
    obtain ⟨dev', hdev, hep, hc⟩ := push_of_ne_null (hnull hpush.1 hpush.2)
    rw [← hep] at h
    obtain ⟨n, hn⟩ := deliverNow_of_settles h still
    refine ⟨n, fun m hm => ?_⟩
    rw [hdev, ← hc]
    exact hn m hm
  · exact deliverNow_of_settles h here

namespace HandOff

variable {h : HandOff P I B}

theorem Guarded.remote (hg : h.Guarded s) : h.remote.Guarded s := by
  cases h with
  | deliver ep here immediate still => exact ⟨by simp, hg.2⟩
  | delete port => exact hg
  | _ => exact hg.elim

theorem Destined.remote (h : HandOff P I B) : h.remote.Destined s place ↔ h.Destined s place := by
  cases h <;> rfl

theorem run_of_guarded (T : Type*) (hg : h.Guarded s) (hd : h.Destined s place) :
    ∃ n, ∀ m ≥ n, h.run T s m = .ok [⟨place, none⟩] := by
  cases h with
  | deliver ep here immediate still =>
    refine deliver_of_settles (ofUniqueWith none ep) hd ?_ still
    intro hh hi
    rw [hg.1 hh] at hi
    cases hi
  | delete port => exact receive_of_settles (ofUniqueWith none ⟨some port, s.demux⟩) hd
  | _ => exact hg.elim

/-- A null travels safely if and only if no route reads its source. -/
theorem travels_iff (T : Type*) (s : Locality P I B) (h : HandOff P I B) :
    h.Travels T s ↔ h.Guarded s := by
  constructor
  · rintro ⟨place, hd, n, hn⟩
    have hrun := (hn n (Nat.le_refl n)).1
    cases h with
    | deliver ep here immediate still =>
      refine ⟨fun hh => ?_, place, hd⟩
      cases immediate with
      | true => rfl
      | false =>
        subst hh
        cases hrun
    | delete port => exact ⟨place, hd⟩
    | _ => cases hrun
  · intro hg
    have hplace : ∃ place, h.Destined s place := by
      cases h with
      | deliver ep here immediate still => exact hg.2
      | delete port => exact hg
      | _ => exact hg.elim
    obtain ⟨place, hd⟩ := hplace
    obtain ⟨n, hn⟩ := run_of_guarded T hg hd
    obtain ⟨n', hn'⟩ := run_of_guarded T hg.remote ((Destined.remote h).mpr hd)
    refine ⟨place, hd, max n n', fun m hm => ⟨hn m ?_, hn' m ?_⟩⟩
    · exact Nat.le_trans (Nat.le_max_left n n') hm
    · exact Nat.le_trans (Nat.le_max_right n n') hm

/-- A null for a component on the same PE is read before it is pushed. -/
theorem not_travels : ¬ ∀ (s : Locality ℕ ℕ ℕ) (h : HandOff ℕ ℕ ℕ),
    (∃ place, h.Destined s place) → h.Travels ℕ s := by
  intro hall
  let s : Locality ℕ ℕ ℕ := ⟨1, fun _ => some (.component 0 0), fun _ => true⟩
  have hs : Settles s (.endpoint ⟨some 0, 1⟩) (.component 0 0) :=
    .port (by decide) (rfl : s.entryPorts 0 = _) (.component 0 rfl)
  obtain ⟨_, -, n, hn⟩ := hall s (.deliver ⟨some 0, 1⟩ true false true) ⟨_, hs⟩
  cases (hn n (Nat.le_refl n)).1

end HandOff

end Travel

end Hypercomm.NullValue
