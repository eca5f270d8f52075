import Hypercomm.Components.Multistate
import Hypercomm.Core.Locality
import Hypercomm.Messaging.NullValue

/-! # Refused hand-offs

A connector wraps a value into a deliverable, whose endpoint is moved out of the source of
the value, and passes it to a destination. If the destination refuses, the value is taken
out of the deliverable again. The endpoint is not moved back.
-/

namespace Hypercomm.Connector

open NullValue (Endpoint Fault Message Value)

/-- A value some of whose buffers are received on their own. -/
structure ZeroCopyValue (P T : Type*) where
  ep : Endpoint P
  ready : Bool
  content : T

/-- What a deliverable holds. It is null once it was released. -/
inductive Storage (P T : Type*)
  | invalid
  | message (msg : Option (Message P T))
  | value (val : Option (Value P T))
  | deferred (zc : Option (ZeroCopyValue P T))

structure Deliverable (P T : Type*) where
  storage : Storage P T
  ep : Endpoint P

variable {P T : Type*}

/-- What a move leaves of an endpoint. -/
def moved (ep : Endpoint P) : Endpoint P := { ep with port := none }

def isValid (demux : ℕ) (ep : Endpoint P) : Bool :=
  ep.idx != 0 && (ep.idx != demux || ep.port.isSome)

namespace Deliverable

def ofValue : Option (Value P T) → Except Fault (Deliverable P T)
  | none => .error .nullDereference
  | some val => .ok ⟨.value (some { val with source := moved val.source }), val.source⟩

def invalidated (dev : Deliverable P T) : Deliverable P T := ⟨.invalid, moved dev.ep⟩

def isValid (dev : Deliverable P T) : Bool :=
  match dev.storage with
  | .deferred zc => zc.any (·.ready)
  | .message msg => msg.isSome
  | .value _ => true
  | .invalid => false

/-- The value that a deliverable holds. It is asserted to be one. -/
def releaseValue (dev : Deliverable P T) : Except Fault (Option (Value P T)) :=
  match dev.storage with
  | .value val => .ok val
  | _ => .error .assertion

/-- `dev2typed`, with what it leaves of the deliverable. The source of the value is moved out
of the endpoint, except for deferred values. -/
def convert (dev : Deliverable P T) : Except Fault (Option (Value P T) × Deliverable P T) :=
  match dev.storage with
  | .deferred (some zc) =>
      if zc.ready then .ok (some ⟨⟨none, 0⟩, zc.content⟩, { dev with storage := .deferred none })
      else .error .assertion
  | .message (some ⟨_, _, none⟩) => .ok (none, { dev with storage := .message none })
  | .message (some ⟨_, _, some content⟩) =>
      .ok (some ⟨dev.ep, content⟩, ⟨.message none, moved dev.ep⟩)
  | .value none => .ok (none, dev)
  | .value (some val) =>
      .ok (some { val with source := dev.ep }, ⟨.value none, moved dev.ep⟩)
  | _ => .error .assertion

end Deliverable

/-- A component with its inputs, and whether its outbox is empty. -/
inductive Component (P T S : Type*)
  | default (n : ℕ) (drained : Bool) (com : Components.Acceptor (n + 1) (Value P T))
  | multistate (n : ℕ) (drained : Bool) (com : Components.Multistate (n + 1) (Value P T) S)

namespace Component

variable {P T S : Type*}

def collectible : Component P T S → Bool
  | default _ drained com => com.activated && !com.active && drained
  | multistate _ drained com => com.activated && !com.active && drained

/-- Whether the deliverable is accepted is the last entry of the result. A multistate component
seeks the state first, and drops an invalidation. -/
def accept (port : ℕ) (dev : Deliverable P T) :
    Component P T S → Except Fault (Component P T S × Deliverable P T × Bool)
  | default n drained com =>
      if h : port < n + 1 then dev.convert.bind fun o =>
        match com.accept ⟨port, h⟩ o.1 with
        | none => .error .assertion
        | some com => .ok (default n drained com, o.2, true)
      else .error .assertion
  | multistate n drained com =>
      match com.server.findState (port / (n + 1)) with
      | none => .ok (multistate n drained com, dev, false)
      | some _ => dev.convert.bind fun o =>
          match o.1 with
          | none => .ok (multistate n drained com, o.2, true)
          | some val => match com.accept port val with
            | none => .error .assertion
            | some com => .ok (multistate n drained com, o.2, true)

def refuses (port : ℕ) : Component P T S → Bool
  | default .. => false
  | multistate n _ com => (com.server.findState (port / (n + 1))).isNone

end Component

/-- What callbacks and handlers get is logged. -/
structure Locality (P B T S : Type*) where
  demux : ℕ
  components : ComponentId → Option (Component P T S)
  entryPorts : P → Option (NullValue.Destination P ComponentId B)
  portQueue : P → List (Deliverable P T) := fun _ => []
  sent : List (B × Deliverable P T) := []
  handled : List (Deliverable P T) := []

namespace Locality

variable {P B T S : Type*}

def put (s : Locality P B T S) (id : ComponentId) (com : Option (Component P T S)) :
    Locality P B T S :=
  { s with components := Function.update s.components id com }

def tryCollect (s : Locality P B T S) (id : ComponentId) : Locality P B T S :=
  if (s.components id).any Component.collectible then s.put id none else s

/-- A component that is missing refuses. -/
def passthruComponent (s : Locality P B T S) (id : ComponentId) (port : ℕ) (dev : Deliverable P T) :
    Except Fault (Locality P B T S × Deliverable P T × Bool) :=
  match s.components id with
  | none => .ok (s, dev, false)
  | some com => (com.accept port dev).map fun o =>
      let s := s.put id (some o.1)
      (if o.2.2 then s.tryCollect id else s, o.2)

variable [DecidableEq P]

def enqueue (s : Locality P B T S) (port : P) (dev : Deliverable P T) : Locality P B T S :=
  { s with portQueue := Function.update s.portQueue port (s.portQueue port ++ [dev]) }

def invoke (s : Locality P B T S) (dev : Deliverable P T) : Locality P B T S :=
  { s with handled := s.handled ++ [dev] }

/-- The fuel bounds how many ports are chained. -/
def passthru (s : Locality P B T S) : ℕ → NullValue.Destination P ComponentId B → Deliverable P T →
    Except Fault (Locality P B T S × Deliverable P T × Bool)
  | _, .callback cb, dev => .ok ({ s with sent := s.sent ++ [(cb, dev)] }, dev.invalidated, true)
  | _, .component com port, dev => s.passthruComponent com port dev
  | 0, .endpoint _, _ => .error .overflow
  | n + 1, .endpoint ep, dev =>
      let dev := { dev with ep := ep }
      if !(isValid s.demux ep && dev.isValid) then .error .assertion
      else if ep.idx = s.demux then
        match ep.port with
        | none => .error .assertion
        | some port =>
            match s.entryPorts port with
            | none => .ok (s.enqueue port dev, dev.invalidated, true)
            | some dst => (s.passthru n dst dev).bind fun o =>
                if o.2.2 then .ok o else .error .assertion
      else .ok (s.invoke dev, dev.invalidated, true)

def relay (s : Locality P B T S) (n : ℕ) (dst : NullValue.Destination P ComponentId B)
    (value : Option (Value P T)) : Except Fault (Locality P B T S × Option (Value P T) × Bool) :=
  (Deliverable.ofValue value).bind fun dev => (s.passthru n dst dev).bind fun o =>
    if o.2.2 then .ok (o.1, none, true)
    else o.2.1.releaseValue.map fun val => (o.1, val, false)

def relayDeliverable (s : Locality P B T S) (n : ℕ) (dst : NullValue.Destination P ComponentId B)
    (dev : Deliverable P T) : Except Fault (Locality P B T S × Deliverable P T × Bool) :=
  s.passthru n dst dev

/-- A value that is not consumed is received at its source. -/
def tryReturn (s : Locality P B T S) (n : ℕ) (value : Option (Value P T)) :
    Except Fault (Locality P B T S) :=
  match value with
  | none => .ok s
  | some val => (Deliverable.ofValue (some val)).bind fun dev =>
      (s.passthru n (.endpoint dev.ep) dev).map Prod.fst

def refuses (s : Locality P B T S) : NullValue.Destination P ComponentId B → Bool
  | .component com port => (s.components com).all (Component.refuses port)
  | _ => false

/-- What is refused stays as it is, now and when it is handed on or returned later. -/
structure Intact (s : Locality P B T S) (dst : NullValue.Destination P ComponentId B)
    (val : Value P T) : Prop where
  passthru : ∀ n dev t dev', s.passthru n dst dev = .ok (t, dev', false) → dev' = dev
  relayDeliverable : ∀ n dev t dev',
    s.relayDeliverable n dst dev = .ok (t, dev', false) → dev' = dev
  relay : ∀ n t val', s.relay n dst (some val) = .ok (t, val', false) → val' = some val
  later : ∀ n t val', s.relay n dst (some val) = .ok (t, val', false) →
    ∀ (k : ℕ) (dst' : NullValue.Destination P ComponentId B) (u : Locality P B T S),
      u.relay k dst' val' = u.relay k dst' (some val) ∧
        u.tryReturn k val' = u.tryReturn k (some val)

end Locality

section Refusal

variable {P B T S : Type*} {s t : Locality P B T S} {dst : NullValue.Destination P ComponentId B}
variable {com com' : Component P T S} {dev dev' : Deliverable P T} {val : Value P T}
variable {val' : Option (Value P T)} {n port : ℕ} {id : ComponentId} {status : Bool}

theorem bind_eq_ok {ε α β : Type*} {x : Except ε α} {f : α → Except ε β} {b : β}
    (h : x.bind f = .ok b) : ∃ a, x = .ok a ∧ f a = .ok b := by
  cases x with
  | error e => cases h
  | ok a => exact ⟨a, rfl, h⟩

theorem map_eq_ok {ε α β : Type*} {x : Except ε α} {f : α → β} {b : β}
    (h : x.map f = .ok b) : ∃ a, x = .ok a ∧ f a = b := by
  cases x with
  | error e => cases h
  | ok a => exact ⟨a, rfl, Except.ok.inj h⟩

theorem Component.accept_cases (h : com.accept port dev = .ok (com', dev', status)) :
    com.refuses port = false ∧ status = true ∨
      com.refuses port = true ∧ com' = com ∧ dev' = dev ∧ status = false := by
  cases com with
  | default n drained c =>
    left
    dsimp only [Component.accept] at h
    split_ifs at h
    obtain ⟨o, -, h⟩ := bind_eq_ok h
    split at h <;> cases h
    exact ⟨rfl, rfl⟩
  | multistate n drained c =>
    dsimp only [Component.accept] at h
    rcases hst : c.server.findState (port / (n + 1)) with _ | st
    · rw [hst] at h
      cases h
      right
      exact ⟨by simp [Component.refuses, hst], rfl, rfl, rfl⟩
    · rw [hst] at h
      left
      obtain ⟨o, -, h⟩ := bind_eq_ok h
      refine ⟨by simp [Component.refuses, hst], ?_⟩
      split at h
      · cases h
        rfl
      · split at h <;> cases h
        rfl

theorem Component.accept_of_refuses (h : com.refuses port = true) :
    com.accept port dev = .ok (com, dev, false) := by
  cases com with
  | default n drained c => cases h
  | multistate n drained c => simp [Component.accept, Option.isNone_iff_eq_none.mp h]

namespace Locality

theorem passthruComponent_cases (h : s.passthruComponent id port dev = .ok (t, dev', status)) :
    s.refuses (.component id port) = false ∧ status = true ∨
      s.refuses (.component id port) = true ∧ t = s ∧ dev' = dev ∧ status = false := by
  unfold passthruComponent at h
  rcases hc : s.components id with _ | com
  · rw [hc] at h
    cases h
    right
    exact ⟨by simp [refuses, hc], rfl, rfl, rfl⟩
  · rw [hc] at h
    obtain ⟨⟨com', dev'', accepted⟩, ha, h⟩ := map_eq_ok h
    obtain ⟨rfl, ⟨⟩⟩ := Prod.mk.inj h
    have hrefuses : s.refuses (.component id port) = com.refuses port := by
      simp [refuses, hc]
    rw [hrefuses]
    rcases Component.accept_cases ha with ⟨hr, rfl⟩ | ⟨hr, rfl, rfl, rfl⟩
    · exact .inl ⟨hr, rfl⟩
    · refine .inr ⟨hr, ?_, rfl, rfl⟩
      simp [put, ← hc]

variable [DecidableEq P]

/-- What is refused is refused by a component, and nothing has changed. -/
theorem passthru_cases (h : s.passthru n dst dev = .ok (t, dev', status)) :
    s.refuses dst = false ∧ status = true ∨
      s.refuses dst = true ∧ t = s ∧ dev' = dev ∧ status = false := by
  cases dst with
  | callback cb =>
    simp only [passthru] at h
    cases h
    exact .inl ⟨rfl, rfl⟩
  | component com port =>
    simp only [passthru] at h
    exact passthruComponent_cases h
  | endpoint ep =>
    refine .inl ⟨rfl, ?_⟩
    cases n with
    | zero => cases h
    | succ n =>
      simp only [passthru] at h
      split_ifs at h
      · split at h
        · cases h
        · split at h
          · cases h
            rfl
          · obtain ⟨o, -, h⟩ := bind_eq_ok h
            split_ifs at h with ho
            cases h
            exact ho
      · cases h
        rfl

theorem passthru_of_refuses (h : s.refuses dst = true) (n : ℕ) (dev : Deliverable P T) :
    s.passthru n dst dev = .ok (s, dev, false) := by
  cases dst with
  | callback cb => cases h
  | endpoint ep => cases h
  | component id port =>
    simp only [passthru, passthruComponent]
    rcases hc : s.components id with _ | com
    · rfl
    · have hr : com.refuses port = true := by simpa [refuses, hc] using h
      simp [Component.accept_of_refuses hr, Except.map, put, ← hc]

theorem relay_cases (h : s.relay n dst (some val) = .ok (t, val', false)) :
    s.refuses dst = true ∧ val' = some { val with source := moved val.source } := by
  obtain ⟨dev, ⟨⟩, h⟩ := bind_eq_ok h
  obtain ⟨⟨u, dev, status⟩, hp, h⟩ := bind_eq_ok h
  rcases passthru_cases hp with ⟨-, rfl⟩ | ⟨hr, rfl, rfl, rfl⟩
  · cases h
  · cases h
    exact ⟨hr, rfl⟩

theorem relay_of_refuses (h : s.refuses dst = true) (n : ℕ) (val : Value P T) :
    s.relay n dst (some val) =
      .ok (s, some { val with source := moved val.source }, false) := by
  simp [relay, Deliverable.ofValue, Except.bind, passthru_of_refuses h, Deliverable.releaseValue,
    Except.map]

omit [DecidableEq P] in
theorem moved_source_eq_iff :
    { val with source := moved val.source } = val ↔ val.source.port = none := by
  obtain ⟨⟨port, idx⟩, content⟩ := val
  simp [moved, eq_comm]

/-- A refusal leaves each deliverable as it was, and a value if its source has no port. -/
theorem intact_iff (s : Locality P B T S) (dst : NullValue.Destination P ComponentId B)
    (val : Value P T) :
    s.Intact dst val ↔ s.refuses dst = false ∨ val.source.port = none := by
  have hdev : ∀ n dev t dev', s.passthru n dst dev = .ok (t, dev', false) → dev' = dev := by
    intro n dev t dev' h
    rcases passthru_cases h with ⟨-, ⟨⟩⟩ | ⟨-, -, hdev, -⟩
    exact hdev
  constructor
  · intro h
    rcases hr : s.refuses dst
    · exact .inl rfl
    · right
      have hval := h.relay 0 s _ (relay_of_refuses hr 0 val)
      exact moved_source_eq_iff.mp (Option.some.inj hval)
  · intro h
    have hval : ∀ n t val', s.relay n dst (some val) = .ok (t, val', false) →
        val' = some val := by
      intro n t val' hrelay
      obtain ⟨hr, rfl⟩ := relay_cases hrelay
      rcases h with h | h
      · rw [h] at hr
        cases hr
      · rw [moved_source_eq_iff.mpr h]
    refine ⟨hdev, hdev, hval, fun n t val' hrelay k dst' u => ?_⟩
    rw [hval n t val' hrelay]
    exact ⟨rfl, rfl⟩

/-- A value that came in through a port is refused by a component that is gone. It cannot be
returned any more. -/
theorem not_intact_componentGone :
    let s : Locality ℕ Unit ℕ Unit := ⟨5, fun _ => none, fun _ => none, fun _ => [], [], []⟩
    let val : Value ℕ ℕ := ⟨⟨some 3, 5⟩, 7⟩
    ¬ s.Intact (.component 1 0) val ∧
      s.relay 0 (.component 1 0) (some val) = .ok (s, some ⟨⟨none, 5⟩, 7⟩, false) ∧
      s.tryReturn 1 (some val) = .ok (s.enqueue 3 ⟨.value (some ⟨⟨none, 5⟩, 7⟩), ⟨some 3, 5⟩⟩) ∧
      s.tryReturn 1 (some ⟨⟨none, 5⟩, 7⟩) = .error .assertion := by
  refine ⟨fun h => ?_, rfl, rfl, rfl⟩
  cases h.relay 0 _ _ rfl

end Locality

end Refusal

end Hypercomm.Connector
