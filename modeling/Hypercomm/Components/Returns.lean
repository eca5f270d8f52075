import Mathlib.Data.List.ReduceOption
import Hypercomm.Components.Ports

/-! # The return of unconsumed inputs

A component that is removed hands its buffered inputs back to the endpoints that they
came from, while its ports are still open. A value is received at once, and what it is
received by is not part of the site, up to the mailboxes, which pass it to a request.
-/

namespace Hypercomm.Components

variable {π κ η V : Type*}

/-- A buffered input, with the endpoint that it came from when that was recorded. -/
structure Input (π η V : Type*) where
  value : V
  source : Option (Endpoint π η)
  message : Bool := false

/-- What takes a value: the queue of a closed port, the destination of an open one, the
handler of an action, or the network, which brings a message back to its endpoint. -/
inductive Receiver (π κ η : Type*) where
  | portQueue (port : π)
  | direct (dst : Destination κ)
  | handler (h : η)
  | network (ep : Endpoint π η)

inductive Fault where
  | invalidDelivery
  | localDeliveryFailed
  | unableToFind
  /-- the component accepts a value that it returns -/
  | reaccepted
  /-- the endpoints of open ports lead in a circle -/
  | unending

structure Site (π κ η V : Type*) where
  locality : GenericLocality π κ η (List (Option (Input π η V)))
  mailboxes : ComponentId → Option (Mailbox V κ) := fun _ => none
  portQueue : π → List V := fun _ => []
  /-- the values that were handed over, the oldest in front -/
  handed : List (V × Receiver π κ η) := []

def Destination.names (self : ComponentId) : Destination κ → Bool
  | .callback _ => false
  | .component com _ => com = self

def Mailbox.pairedWith (accepts : ComponentId → Bool) (values : List V) (m : Mailbox V κ) :
    List (V × Request V κ) :=
  (values.foldl (fun m value => m.action accepts value) m).delivered.drop m.delivered.length

namespace Site

def accepts (s : Site π κ η V) (com : ComponentId) : Bool := (s.locality.components com).isSome

def hand (s : Site π κ η V) (value : V) (r : Receiver π κ η) : Site π κ η V :=
  { s with handed := s.handed ++ [(value, r)] }

/-- The component `self` is being removed, and is to accept nothing. -/
def accept (self : ComponentId) (s : Site π κ η V) (value : V) (com : ComponentId) (port : ℕ) :
    Except Fault (Site π κ η V) :=
  if com = self then .error .reaccepted
  else match s.mailboxes com with
    | none => .ok (s.hand value (.direct (.component com port)))
    | some m =>
        if (m.pairedWith s.accepts [value]).any fun p => p.2.dst.names self then
          .error .reaccepted
        else .ok ({ s with
          mailboxes := Function.update s.mailboxes com (some (m.action s.accepts value)) }.hand
            value (.direct (.component com port)))

/-- It is asserted that a local delivery does not fail. -/
def passthru (self : ComponentId) (s : Site π κ η V) (value : V) :
    Destination κ → Except Fault (Site π κ η V)
  | .callback cb => .ok (s.hand value (.direct (.callback cb)))
  | .component com port =>
      if s.accepts com then s.accept self value com port else .error .localDeliveryFailed

section Receive

variable [DecidableEq π]

def queue (s : Site π κ η V) (value : V) (port : π) : Site π κ η V :=
  { s with portQueue := Function.update s.portQueue port (s.portQueue port ++ [value]) }.hand
    value (.portQueue port)

def receive (self : ComponentId) (s : Site π κ η V) (value : V) :
    ℕ → Endpoint π η → Except Fault (Site π κ η V)
  | _, .handler h => .ok (s.hand value (.handler h))
  | fuel, .port p => match s.locality.entryPorts p, fuel with
      | none, _ => .ok (s.queue value p)
      | some (.direct dst), _ => s.passthru self value dst
      | some (.endpoint _), 0 => .error .unending
      | some (.endpoint ep), fuel + 1 => receive self s value fuel ep

/-- A message is sent back, and a value is received. -/
def tryReturn (self : ComponentId) (fuel : ℕ) (s : Site π κ η V) (val : Input π η V) :
    Except Fault (Site π κ η V) :=
  match val.source with
  | none => .error .invalidDelivery
  | some ep =>
      if val.message then .ok (s.hand val.value (.network ep))
      else s.receive self val.value fuel ep

def emptyBuffer (self : ComponentId) (fuel : ℕ) (s : Site π κ η V)
    (set : List (Option (Input π η V))) : Except Fault (Site π κ η V) :=
  set.foldlM (fun s val => match val with
    | none => .ok s
    | some val => s.tryReturn self fuel val) s

def emptyBuffers (self : ComponentId) (fuel : ℕ) (s : Site π κ η V)
    (incoming : List (List (Option (Input π η V)))) : Except Fault (Site π κ η V) :=
  incoming.foldlM (emptyBuffer self fuel) s

def offline (s : Site π κ η V) (id : ComponentId)
    (com : Component π (List (Option (Input π η V)))) : Site π κ η V :=
  { s with locality := s.locality.put id (some { com with active := false }) }

def erased (s : Site π κ η V) (id : ComponentId) : Site π κ η V :=
  { s with locality := ({ s.locality with
      invalidations := s.locality.invalidations.erase id }).put id none }

/-- `component::deactivate`. The values are returned before the listeners close the ports. -/
def deactivate (keepAlive : π → Bool) (fuel : ℕ) (s : Site π κ η V) (id : ComponentId)
    (com : Component π (List (Option (Input π η V)))) : Except Fault (Site π κ η V) :=
  ((s.offline id com).emptyBuffers id fuel com.incoming).map fun s => { s with
    locality := (s.locality.put id
      (some { com with active := false, incoming := [] })).notifyListeners keepAlive id }

/-- The completion of a component, up to its collection. -/
def complete (keepAlive : π → Bool) (fuel : ℕ) (s : Site π κ η V) (id : ComponentId) :
    Except Fault (Site π κ η V) :=
  match s.locality.components id with
  | none => .error .unableToFind
  | some com => (s.deactivate keepAlive fuel id com).map fun s =>
      { s with locality := s.locality.endCall (.deactivate id) }

def invalidateComponent (keepAlive : π → Bool) (fuel : ℕ) (s : Site π κ η V) (id : ComponentId) :
    Except Fault (Site π κ η V) :=
  match s.locality.components id with
  | none => .ok s
  | some com => (s.deactivate keepAlive fuel id com).map fun s =>
      { s with locality := s.locality.endCall (.invalidateComponent id com.active) }

/-- A component that was invalidated before is destroyed, and returns what it has accepted
since. -/
def activateComponent (fuel : ℕ) (s : Site π κ η V) (id : ComponentId) :
    Except Fault (Site π κ η V) :=
  match s.locality.components id with
  | none => .error .unableToFind
  | some com =>
      if id ∈ s.locality.invalidations then (s.erased id).emptyBuffers id fuel com.incoming
      else .ok { s with
        locality := s.locality.put id (some { com with active := true, activated := true }) }

end Receive

inductive Leads (s : Site π κ η V) : Endpoint π η → Receiver π κ η → Prop
  | handler (h : η) : Leads s (.handler h) (.handler h)
  | closed {port : π} : s.locality.entryPorts port = none → Leads s (.port port) (.portQueue port)
  | direct {port : π} {dst : Destination κ} : s.locality.entryPorts port = some (.direct dst) →
      Leads s (.port port) (.direct dst)
  | endpoint {port : π} {ep : Endpoint π η} {r : Receiver π κ η} :
      s.locality.entryPorts port = some (.endpoint ep) → Leads s ep r → Leads s (.port port) r

inductive Reaches (s : Site π κ η V) : Input π η V → Receiver π κ η → Prop
  | network {val : Input π η V} {ep : Endpoint π η} : val.source = some ep → val.message →
      Reaches s val (.network ep)
  | leads {val : Input π η V} {ep : Endpoint π η} {r : Receiver π κ η} :
      val.source = some ep → ¬ val.message → s.Leads ep r → Reaches s val r

def Takes (s : Site π κ η V) (self : ComponentId) : Receiver π κ η → Prop
  | .direct (.component com _) => com ≠ self ∧ s.accepts com
  | _ => True

def valuesTo (com : ComponentId) (handed : List (V × Receiver π κ η)) : List V :=
  handed.filterMap fun p => match p.2 with
    | .direct (.component com' _) => if com' = com then some p.1 else none
    | _ => none

/-- No mailbox hands one of the values to the component that returns them. -/
def Spares (s : Site π κ η V) (self : ComponentId) (handed : List (V × Receiver π κ η)) : Prop :=
  ∀ com m, s.mailboxes com = some m → ∀ p ∈ m.pairedWith s.accepts (valuesTo com handed),
    ¬ p.2.dst.names self

/-- Each input leads to what can take it, and is not handed on to the component. -/
def Returnable (s : Site π κ η V) (self : ComponentId) (inputs : List (Input π η V)) : Prop :=
  ∃ rs, List.Forall₂ s.Reaches inputs rs ∧ (∀ r ∈ rs, s.Takes self r) ∧
    s.Spares self ((inputs.map Input.value).zip rs)

def storedFor [DecidableEq π] (port : π) (handed : List (V × Receiver π κ η)) : List V :=
  handed.filterMap fun p => match p.2 with
    | .portQueue port' => if port' = port then some p.1 else none
    | _ => none

/-- Each input was handed over once, to what its source leads to. -/
def Returned [DecidableEq π] (s s' : Site π κ η V) (inputs : List (Input π η V)) : Prop :=
  ∃ rs, List.Forall₂ s.Reaches inputs rs ∧
    s'.handed = s.handed ++ (inputs.map Input.value).zip rs ∧
    ∀ port, s'.portQueue port =
      s.portQueue port ++ storedFor port ((inputs.map Input.value).zip rs)

section Receivers

variable {s s' : Site π κ η V} {self : ComponentId} {ep : Endpoint π η} {r r' : Receiver π κ η}
variable {val : Input π η V} {value : V}

theorem Leads.unique (h : s.Leads ep r) (h' : s.Leads ep r') : r = r' := by
  induction h with
  | handler h =>
    cases h'
    rfl
  | closed he => cases h' <;> simp_all
  | direct he => cases h' <;> simp_all
  | endpoint he _ ih =>
    cases h' with
    | closed he' => simp_all
    | direct he' => simp_all
    | endpoint he' hl =>
      apply ih
      simp_all

theorem Reaches.unique (h : s.Reaches val r) (h' : s.Reaches val r') : r = r' := by
  cases h with
  | network hs hm =>
    cases h' with
    | network hs' _ => simp_all
    | leads _ hm' => exact absurd hm hm'
  | leads hs hm hl =>
    cases h' with
    | network _ hm' => exact absurd hm' hm
    | leads hs' _ hl' =>
      obtain rfl := Option.some.inj (hs.symm.trans hs')
      exact hl.unique hl'

theorem Leads.congr (h : s'.locality.entryPorts = s.locality.entryPorts) (hl : s.Leads ep r) :
    s'.Leads ep r := by
  induction hl with
  | handler h => exact .handler h
  | closed he => exact .closed (by rwa [h])
  | direct he => exact .direct (by rwa [h])
  | endpoint he _ ih => exact .endpoint (by rwa [h]) ih

theorem Reaches.congr (h : s'.locality.entryPorts = s.locality.entryPorts)
    (hr : s.Reaches val r) : s'.Reaches val r := by
  cases hr with
  | network hs hm => exact .network hs hm
  | leads hs hm hl => exact .leads hs hm (hl.congr h)

end Receivers

def deliver [DecidableEq π] (self : ComponentId) (s : Site π κ η V) (p : V × Receiver π κ η) :
    Except Fault (Site π κ η V) :=
  match p.2 with
  | .portQueue port => .ok (s.queue p.1 port)
  | .direct dst => s.passthru self p.1 dst
  | .handler h => .ok (s.hand p.1 (.handler h))
  | .network ep => .ok (s.hand p.1 (.network ep))

def inputs (incoming : List (List (Option (Input π η V)))) : List (Input π η V) :=
  incoming.flatten.reduceOption

section Delivery

variable [DecidableEq π] {s s' : Site π κ η V} {self : ComponentId} {fuel : ℕ}
variable {ep : Endpoint π η} {r : Receiver π κ η} {val : Input π η V} {value : V}
variable {p : V × Receiver π κ η} {ps : List (V × Receiver π κ η)}

theorem receive_of_leads (self : ComponentId) (value : V) (h : s.Leads ep r) :
    ∃ n, ∀ fuel ≥ n, s.receive self value fuel ep = s.deliver self (value, r) := by
  induction h with
  | handler h => exact ⟨0, fun fuel _ => by simp [receive, deliver]⟩
  | closed he => exact ⟨0, fun fuel _ => by unfold receive; simp [he, deliver]⟩
  | direct he => exact ⟨0, fun fuel _ => by unfold receive; simp [he, deliver]⟩
  | endpoint he _ ih =>
    obtain ⟨n, hn⟩ := ih
    refine ⟨n + 1, fun fuel hf => ?_⟩
    cases fuel with
    | zero => omega
    | succ fuel =>
      unfold receive
      simp only [he]
      exact hn fuel (by omega)

theorem leads_of_receive (h : s.receive self value fuel ep = .ok s') :
    ∃ r, s.Leads ep r ∧ s.deliver self (value, r) = .ok s' := by
  induction fuel generalizing ep with
  | zero =>
    unfold receive at h
    cases ep with
    | handler h' => exact ⟨_, .handler h', h⟩
    | port port =>
      dsimp only at h
      split at h
      · rename_i he
        exact ⟨_, .closed he, h⟩
      · rename_i he
        exact ⟨_, .direct he, h⟩
      · cases h
      · cases ‹0 = _ + 1›
  | succ fuel ih =>
    unfold receive at h
    cases ep with
    | handler h' => exact ⟨_, .handler h', h⟩
    | port port =>
      dsimp only at h
      split at h
      · rename_i he
        exact ⟨_, .closed he, h⟩
      · rename_i he
        exact ⟨_, .direct he, h⟩
      · cases h
      · rename_i ep' fuel' he hf
        obtain rfl : fuel = fuel' := Nat.succ.inj hf
        obtain ⟨r, hl, hd⟩ := ih h
        exact ⟨r, .endpoint he hl, hd⟩

theorem tryReturn_of_reaches (self : ComponentId) (h : s.Reaches val r) :
    ∃ n, ∀ fuel ≥ n, s.tryReturn self fuel val = s.deliver self (val.value, r) := by
  unfold tryReturn
  cases h with
  | network hs hm => exact ⟨0, fun fuel _ => by simp [hs, hm, deliver]⟩
  | leads hs hm hl =>
    obtain ⟨n, hn⟩ := receive_of_leads self val.value hl
    refine ⟨n, fun fuel hf => ?_⟩
    rw [← hn fuel hf]
    simp [hs, hm]

theorem reaches_of_tryReturn (h : s.tryReturn self fuel val = .ok s') :
    ∃ r, s.Reaches val r ∧ s.deliver self (val.value, r) = .ok s' := by
  unfold tryReturn at h
  split at h
  · cases h
  · rename_i ep hs
    split at h
    · rename_i hm
      exact ⟨_, .network hs hm, h⟩
    · rename_i hm
      obtain ⟨r, hl, hd⟩ := leads_of_receive h
      exact ⟨r, .leads hs hm hl, hd⟩

@[simp] theorem storedFor_nil (port : π) :
    storedFor port ([] : List (V × Receiver π κ η)) = [] := rfl

theorem storedFor_cons (port : π) (p : V × Receiver π κ η) (ps : List (V × Receiver π κ η)) :
    storedFor port (p :: ps) = storedFor port [p] ++ storedFor port ps := by
  unfold storedFor
  rw [← List.singleton_append, List.filterMap_append]

omit [DecidableEq π] in
theorem valuesTo_cons (com : ComponentId) (p : V × Receiver π κ η)
    (ps : List (V × Receiver π κ η)) :
    valuesTo com (p :: ps) = valuesTo com [p] ++ valuesTo com ps := by
  unfold valuesTo
  rw [← List.singleton_append, List.filterMap_append]

/-- What a delivery changes. -/
structure Delivered (s s' : Site π κ η V) (ps : List (V × Receiver π κ η)) : Prop where
  locality : s'.locality = s.locality
  handed : s'.handed = s.handed ++ ps
  portQueue : ∀ port, s'.portQueue port = s.portQueue port ++ storedFor port ps
  mailboxes : ∀ com, s'.mailboxes com = (s.mailboxes com).map
    ((valuesTo com ps).foldl fun m value => m.action s.accepts value)

theorem Delivered.nil : Delivered s s [] := by
  constructor <;> simp [valuesTo]

theorem Delivered.cons {t : Site π κ η V} (h : Delivered s s' [p]) (h' : Delivered s' t ps) :
    Delivered s t (p :: ps) where
  locality := h'.locality.trans h.locality
  handed := by simp [h'.handed, h.handed]
  portQueue port := by
    rw [h'.portQueue, h.portQueue, storedFor_cons port p ps, List.append_assoc]
  mailboxes com := by
    have hacc : s'.accepts = s.accepts := by
      unfold accepts
      rw [h.locality]
    rw [h'.mailboxes, h.mailboxes, hacc, valuesTo_cons com p ps]
    cases s.mailboxes com <;> simp

theorem delivered_of_accept {com : ComponentId} {port : ℕ}
    (h : s.accept self value com port = .ok s') :
    Delivered s s' [(value, .direct (.component com port))] := by
  unfold accept at h
  split at h
  · cases h
  · split at h
    · rename_i hm
      obtain rfl := Except.ok.inj h
      refine ⟨rfl, rfl, fun _ => by simp [hand, storedFor], fun com' => ?_⟩
      by_cases hc : com = com'
      · subst hc
        simp [hand, hm]
      · simp [hand, valuesTo, hc]
    · rename_i m hm
      split at h
      · cases h
      · obtain rfl := Except.ok.inj h
        refine ⟨rfl, rfl, fun _ => by simp [hand, storedFor], fun com' => ?_⟩
        by_cases hc : com = com'
        · subst hc
          simp [hand, hm, valuesTo]
        · simp [hand, valuesTo, hc, Ne.symm hc]

theorem delivered_of_ok (h : s.deliver self p = .ok s') : Delivered s s' [p] := by
  obtain ⟨value, r⟩ := p
  cases r with
  | portQueue port =>
    obtain rfl := Except.ok.inj h
    refine ⟨rfl, rfl, fun port' => ?_, fun com => by simp [queue, hand, valuesTo]⟩
    by_cases hp : port = port'
    · subst hp
      simp [queue, hand, storedFor]
    · simp [queue, hand, storedFor, hp, Ne.symm hp]
  | handler h' =>
    obtain rfl := Except.ok.inj h
    constructor <;> simp [hand, storedFor, valuesTo]
  | network ep =>
    obtain rfl := Except.ok.inj h
    constructor <;> simp [hand, storedFor, valuesTo]
  | direct dst =>
    have h : s.passthru self value dst = .ok s' := h
    unfold passthru at h
    split at h
    · obtain rfl := Except.ok.inj h
      constructor <;> simp [hand, storedFor, valuesTo]
    · split at h
      · exact delivered_of_accept h
      · cases h

theorem delivered_prefix_action (accepts : ComponentId → Bool) (value : V) (m : Mailbox V κ) :
    m.delivered <+: (m.action accepts value).delivered := by
  induction hn : m.requests.length using Nat.strong_induction_on generalizing m with
  | _ n ih =>
    cases hf : m.findMatching value with
    | none =>
      rw [Mailbox.action_of_none hf]
    | some i =>
      rw [Mailbox.action_of_some hf]
      split
      · exact List.prefix_append ..
      · apply ih _ _ { m with requests := m.requests.eraseIdx i } rfl
        have := i.isLt
        rw [List.length_eraseIdx_of_lt i.isLt]
        omega

theorem delivered_prefix_foldl (accepts : ComponentId → Bool) (values : List V)
    (m : Mailbox V κ) :
    m.delivered <+: (values.foldl (fun m value => m.action accepts value) m).delivered := by
  induction values generalizing m with
  | nil => exact List.prefix_rfl
  | cons value values ih =>
    rw [List.foldl_cons]
    exact (delivered_prefix_action accepts value m).trans (ih _)

theorem pairedWith_append (accepts : ComponentId → Bool) (vs ws : List V) (m : Mailbox V κ) :
    m.pairedWith accepts (vs ++ ws) = m.pairedWith accepts vs ++
      (vs.foldl (fun m value => m.action accepts value) m).pairedWith accepts ws := by
  unfold Mailbox.pairedWith
  rw [List.foldl_append]
  set m₁ := vs.foldl (fun m value => m.action accepts value) m
  obtain ⟨l₁, h₁⟩ := delivered_prefix_foldl accepts vs m
  obtain ⟨l₂, h₂⟩ := delivered_prefix_foldl accepts ws m₁
  have h₁ : m.delivered ++ l₁ = m₁.delivered := h₁
  rw [← h₂, ← h₁]
  simp

@[simp] theorem pairedWith_nil (accepts : ComponentId → Bool) (m : Mailbox V κ) :
    m.pairedWith accepts [] = [] := by
  simp [Mailbox.pairedWith]

omit [DecidableEq π] in
theorem spares_component {com : ComponentId} {port : ℕ} :
    s.Spares self [(value, .direct (.component com port))] ↔
      ∀ m, s.mailboxes com = some m → ∀ q ∈ m.pairedWith s.accepts [value],
        ¬ q.2.dst.names self := by
  constructor
  · intro h m hm
    have := h com m hm
    simpa [valuesTo] using this
  · intro h com' m hm
    by_cases hc : com = com'
    · subst hc
      simpa [valuesTo] using h m hm
    · simp [valuesTo, hc]

/-- A delivery fails when its receiver does not take the value, or a mailbox hands it on. -/
theorem deliver_iff :
    (∃ s', s.deliver self p = .ok s') ↔ s.Takes self p.2 ∧ s.Spares self [p] := by
  obtain ⟨value, r⟩ := p
  cases r with
  | portQueue port => simp [deliver, Takes, Spares, valuesTo, Mailbox.pairedWith]
  | handler h' => simp [deliver, Takes, Spares, valuesTo, Mailbox.pairedWith]
  | network ep => simp [deliver, Takes, Spares, valuesTo, Mailbox.pairedWith]
  | direct dst =>
    cases dst with
    | callback cb => simp [deliver, passthru, Takes, Spares, valuesTo, Mailbox.pairedWith]
    | component com port =>
      rw [spares_component]
      change (∃ s', s.passthru self value (.component com port) = .ok s') ↔ _
      unfold passthru accept Takes
      by_cases ha : s.accepts com
      · by_cases hc : com = self
        · subst hc
          simp [ha]
        · cases hm : s.mailboxes com with
          | none => simp [ha, hc, hm]
          | some m =>
            simp only [ha, hc, hm, if_true, if_false]
            split
            · rename_i hany
              simpa [hc] using hany
            · rename_i hany
              simpa [hc] using hany
      · simp [ha]

omit [DecidableEq π] in
theorem spares_head (h : s.Spares self (p :: ps)) : s.Spares self [p] := by
  intro com m hm q hq
  apply h com m hm q
  rw [valuesTo_cons com p ps, pairedWith_append]
  exact List.mem_append_left _ hq

theorem spares_cons (h : Delivered s s' [p]) :
    s.Spares self (p :: ps) ↔ s.Spares self [p] ∧ s'.Spares self ps := by
  have hacc : s'.accepts = s.accepts := by
    unfold accepts
    rw [h.locality]
  constructor
  · intro hs
    apply And.intro (spares_head hs)
    intro com m hm q hq
    rw [h.mailboxes] at hm
    obtain ⟨m₀, hm₀, rfl⟩ := Option.map_eq_some_iff.mp hm
    apply hs com m₀ hm₀ q
    rw [valuesTo_cons com p ps, pairedWith_append]
    rw [hacc] at hq
    exact List.mem_append_right _ hq
  · rintro ⟨hp, hps⟩ com m hm q hq
    rw [valuesTo_cons com p ps, pairedWith_append] at hq
    rcases List.mem_append.mp hq with hq | hq
    · exact hp com m hm q hq
    · have hm' := (h.mailboxes com).trans (congrArg _ hm)
      apply hps com _ hm' q
      rw [hacc]
      exact hq

omit [DecidableEq π] in
theorem takes_congr (h : s'.locality = s.locality) : s'.Takes self r ↔ s.Takes self r := by
  unfold Takes accepts
  rw [h]

/-- Every value is delivered exactly when its receiver takes it and no mailbox hands it on. -/
theorem exists_deliver_iff :
    (∃ s', ps.foldlM (deliver self) s = .ok s') ↔
      (∀ p ∈ ps, s.Takes self p.2) ∧ s.Spares self ps := by
  induction ps generalizing s with
  | nil =>
    simp [Spares, valuesTo, pure, Except.pure]
  | cons p ps ih =>
    rw [List.foldlM_cons]
    cases hd : s.deliver self p with
    | error fault =>
      have hno : ¬ (s.Takes self p.2 ∧ s.Spares self [p]) := by
        rw [← deliver_iff, hd]
        rintro ⟨s', hs⟩
        cases hs
      constructor
      · rintro ⟨s', hs⟩
        cases hs
      · rintro ⟨ht, hs⟩
        exact absurd ⟨ht p List.mem_cons_self, spares_head hs⟩ hno
    | ok s₁ =>
      have hdel := delivered_of_ok hd
      have hp := deliver_iff.mp ⟨s₁, hd⟩
      have hps := ih (s := s₁)
      rw [spares_cons hdel]
      simp only [takes_congr hdel.locality] at hps
      simp only [List.forall_mem_cons, hp, true_and]
      exact hps

theorem delivered_of_foldlM (h : ps.foldlM (deliver self) s = .ok s') : Delivered s s' ps := by
  induction ps generalizing s with
  | nil =>
    obtain rfl := Except.ok.inj h
    exact .nil
  | cons p ps ih =>
    rw [List.foldlM_cons] at h
    cases hd : s.deliver self p with
    | error fault =>
      rw [hd] at h
      cases h
    | ok s₁ =>
      rw [hd] at h
      exact (delivered_of_ok hd).cons (ih h)

theorem foldlM_of_forall₂ (self : ComponentId) {vals : List (Input π η V)}
    {rs : List (Receiver π κ η)} (h : List.Forall₂ s.Reaches vals rs) :
    ∃ n, ∀ fuel ≥ n, vals.foldlM (tryReturn self fuel) s =
      ((vals.map Input.value).zip rs).foldlM (deliver self) s := by
  induction vals generalizing s rs with
  | nil =>
    cases h
    exact ⟨0, fun _ _ => rfl⟩
  | cons val vals ih =>
    cases h with
    | cons hr hrs =>
      rename_i r rs
      obtain ⟨n, hn⟩ := tryReturn_of_reaches self hr
      cases hd : s.deliver self (val.value, r) with
      | error fault =>
        refine ⟨n, fun fuel hf => ?_⟩
        rw [List.foldlM_cons, hn fuel hf, List.map_cons, List.zip_cons_cons, List.foldlM_cons, hd]
        rfl
      | ok s₁ =>
        have hl := (delivered_of_ok hd).locality
        obtain ⟨m, hm⟩ := ih (s := s₁) (hrs.imp fun _ _ hr => hr.congr (congrArg _ hl))
        refine ⟨max n m, fun fuel hf => ?_⟩
        rw [List.foldlM_cons, hn fuel (le_trans (le_max_left ..) hf), List.map_cons,
          List.zip_cons_cons, List.foldlM_cons, hd]
        exact hm fuel (le_trans (le_max_right ..) hf)

theorem forall₂_of_foldlM {vals : List (Input π η V)}
    (h : vals.foldlM (tryReturn self fuel) s = .ok s') :
    ∃ rs, List.Forall₂ s.Reaches vals rs ∧
      ((vals.map Input.value).zip rs).foldlM (deliver self) s = .ok s' := by
  induction vals generalizing s with
  | nil => exact ⟨[], .nil, h⟩
  | cons val vals ih =>
    rw [List.foldlM_cons] at h
    cases hd : s.tryReturn self fuel val with
    | error fault =>
      rw [hd] at h
      cases h
    | ok s₁ =>
      rw [hd] at h
      obtain ⟨r, hr, hdr⟩ := reaches_of_tryReturn hd
      obtain ⟨rs, hrs, hds⟩ := ih h
      refine ⟨r :: rs, .cons hr (hrs.imp fun val r hr => ?_), ?_⟩
      · exact hr.congr (congrArg _ (delivered_of_ok hdr).locality.symm)
      · rw [List.map_cons, List.zip_cons_cons, List.foldlM_cons, hdr]
        exact hds

theorem emptyBuffer_eq (set : List (Option (Input π η V))) :
    s.emptyBuffer self fuel set = set.reduceOption.foldlM (tryReturn self fuel) s := by
  unfold emptyBuffer
  induction set generalizing s with
  | nil => rfl
  | cons val set ih =>
    cases val with
    | none =>
      rw [List.reduceOption_cons_of_none, ← ih]
      rfl
    | some val =>
      rw [List.reduceOption_cons_of_some, List.foldlM_cons, List.foldlM_cons]
      congr 1
      funext s
      exact ih

theorem emptyBuffers_eq (incoming : List (List (Option (Input π η V)))) :
    s.emptyBuffers self fuel incoming = (inputs incoming).foldlM (tryReturn self fuel) s := by
  unfold emptyBuffers inputs
  induction incoming generalizing s with
  | nil => rfl
  | cons set incoming ih =>
    rw [List.flatten_cons, List.reduceOption_append, List.foldlM_append, List.foldlM_cons,
      emptyBuffer_eq]
    congr 1
    funext s
    exact ih

/-- The buffered inputs are each handed over once exactly when they can be returned. -/
theorem returned_iff {incoming : List (List (Option (Input π η V)))} :
    (∃ fuel s', s.emptyBuffers self fuel incoming = .ok s' ∧ s.Returned s' (inputs incoming)) ↔
      s.Returnable self (inputs incoming) := by
  simp only [emptyBuffers_eq]
  constructor
  · rintro ⟨fuel, s', h, -⟩
    obtain ⟨rs, hrs, hd⟩ := forall₂_of_foldlM h
    obtain ⟨ht, hs⟩ := exists_deliver_iff.mp ⟨s', hd⟩
    refine ⟨rs, hrs, fun r hr => ?_, hs⟩
    have hlen : rs.length ≤ ((inputs incoming).map Input.value).length := by
      rw [List.length_map, hrs.length_eq]
    rw [← List.map_snd_zip hlen] at hr
    obtain ⟨p, hp, rfl⟩ := List.mem_map.mp hr
    exact ht p hp
  · rintro ⟨rs, hrs, ht, hs⟩
    obtain ⟨n, hn⟩ := foldlM_of_forall₂ self hrs
    have hall : ∀ p ∈ ((inputs incoming).map Input.value).zip rs, s.Takes self p.2 :=
      fun p hp => ht _ (List.of_mem_zip hp).2
    obtain ⟨s', hd⟩ := exists_deliver_iff.mpr ⟨hall, hs⟩
    have hdel := delivered_of_foldlM hd
    exact ⟨n, s', (hn n le_rfl).trans hd, rs, hrs, hdel.handed, hdel.portQueue⟩

theorem Returned.congr {t t' : Site π κ η V} {vals : List (Input π η V)} (h : t.Returned t' vals)
    (he : s.locality.entryPorts = t.locality.entryPorts) (hh : s.handed = t.handed)
    (hq : s.portQueue = t.portQueue) (hh' : s'.handed = t'.handed)
    (hq' : s'.portQueue = t'.portQueue) : s.Returned s' vals := by
  obtain ⟨rs, hrs, hhanded, hqueue⟩ := h
  refine ⟨rs, hrs.imp fun _ _ hr => hr.congr he, ?_, ?_⟩
  · rw [hh', hh, hhanded]
  · rw [hq', hq]
    exact hqueue

omit [DecidableEq π] in
theorem returnable_offline {com : Component π (List (Option (Input π η V)))}
    {vals : List (Input π η V)} (hc : s.locality.components self = some com) :
    (s.offline self com).Returnable self vals ↔ s.Returnable self vals := by
  have hacc : (s.offline self com).accepts = s.accepts := by
    funext x
    by_cases hx : x = self
    · subst hx
      simp [accepts, offline, GenericLocality.put, hc]
    · simp [accepts, offline, GenericLocality.put, hx]
  have ht : ∀ r, (s.offline self com).Takes self r ↔ s.Takes self r := by
    intro r
    unfold Takes
    rw [hacc]
  have hr : (s.offline self com).Reaches = s.Reaches := by
    ext val r
    have he : s.locality.entryPorts = (s.offline self com).locality.entryPorts := rfl
    constructor
    · exact Reaches.congr he
    · exact Reaches.congr he.symm
  unfold Returnable Spares
  simp only [hacc, ht, hr]
  exact Iff.rfl

theorem exists_map_iff {f : ℕ → Except Fault (Site π κ η V)} {g : Site π κ η V → Site π κ η V}
    {vals : List (Input π η V)}
    (hg : ∀ t, (g t).handed = t.handed ∧ (g t).portQueue = t.portQueue) :
    (∃ fuel s', (f fuel).map g = .ok s' ∧ s.Returned s' vals) ↔
      ∃ fuel s', f fuel = .ok s' ∧ s.Returned s' vals := by
  constructor
  · rintro ⟨fuel, s', h, hret⟩
    cases hf : f fuel with
    | error fault =>
      rw [hf] at h
      cases h
    | ok t =>
      rw [hf] at h
      obtain rfl := Except.ok.inj h
      exact ⟨fuel, t, hf, hret.congr rfl rfl rfl (hg t).1.symm (hg t).2.symm⟩
  · rintro ⟨fuel, t, h, hret⟩
    refine ⟨fuel, g t, by rw [h]; rfl, ?_⟩
    exact hret.congr rfl rfl rfl (hg t).1 (hg t).2

theorem deactivate_ok_iff (keepAlive : π → Bool)
    {com : Component π (List (Option (Input π η V)))}
    (hc : s.locality.components self = some com) :
    (∃ fuel s', s.deactivate keepAlive fuel self com = .ok s' ∧
      s.Returned s' (inputs com.incoming)) ↔ s.Returnable self (inputs com.incoming) := by
  rw [← returnable_offline hc, ← returned_iff]
  unfold deactivate
  rw [exists_map_iff]
  · constructor
    · rintro ⟨fuel, s', h, hret⟩
      exact ⟨fuel, s', h, hret.congr rfl rfl rfl rfl rfl⟩
    · rintro ⟨fuel, s', h, hret⟩
      exact ⟨fuel, s', h, hret.congr rfl rfl rfl rfl rfl⟩
  · intro t
    exact ⟨rfl, rfl⟩

end Delivery

section TwoInputs

/-- Component 1 has the first of two values, from port 0, which leads to component `dst`.
Component 2 is a mailbox. -/
def twoInputs (dst : ComponentId) : Site ℕ Unit Unit ℕ where
  locality := {
    entryPorts := fun port => if port = 0 then some (.direct (.component dst 0)) else none
    alive := fun port => port = 0
    components := fun id =>
      if id = 1 then some {
        active := true
        activated := true
        incoming := [[some { value := 5, source := some (.port 0) }, none]]
        listeners := [0] }
      else if id = 2 then some { active := true, activated := true }
      else none }
  mailboxes := fun id => if id = 2 then some {} else none

end TwoInputs

end Site

end Hypercomm.Components
