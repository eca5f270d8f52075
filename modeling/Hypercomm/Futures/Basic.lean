import Mathlib.Data.Multiset.AddSub
import Mathlib.Logic.Function.Basic
import Hypercomm.Transition.Run

/-! # Futures

A value that is set on a future is sent to the port of the future at its source. A
locality that requests the future opens the port, and has the source open it too when
that is another locality, to forward the value.
-/

namespace Hypercomm.Futures

open Transition

variable {ι V κ : Type*}

structure Future (ι : Type*) where
  source : ι
  id : ℕ
  deriving DecidableEq

/-- What a value is passed to: the callback of `wait_any` for a future, a callback that
forwards to a locality, or another callback. -/
inductive Callback (ι κ : Type*) where
  | waitAny (fut : Future ι)
  | forward (elt : ι)
  | other (k : κ)

/-- A message for the port of a future at a locality: a value, or the request to open the port
with a callback that forwards. -/
inductive Message (ι V : Type*) where
  | value (elt : ι) (v : V)
  | opener (elt fwd : ι)

/-- The localities, by the ports of the futures, and the messages in flight. -/
structure State (ι V κ : Type*) where
  entryPorts : ι → Future ι → Option (Callback ι κ) := fun _ _ => none
  portQueue : ι → Future ι → List V := fun _ _ => []
  network : Future ι → Multiset (Message ι V) := fun _ => 0
  /-- the result of the callback that `wait_any` waits for -/
  target : Option (Future ι × V) := none
  /-- the values that other callbacks took -/
  obtained : List (κ × V) := []
  /-- the values that were set -/
  values : Future ι → Option V := fun _ => none

namespace State

def ready (s : State ι V κ) (me : ι) (f : Future ι) : Bool := !(s.portQueue me f).isEmpty

section Calls

variable [DecidableEq ι]

def post (s : State ι V κ) (f : Future ι) (m : Message ι V) : State ι V κ :=
  { s with network := Function.update s.network f (m ::ₘ s.network f) }

def set (s : State ι V κ) (f : Future ι) (v : V) : State ι V κ :=
  { s with values := Function.update s.values f (some v) }.post f (.value f.source v)

def send (s : State ι V κ) (port : Future ι) (cb : Callback ι κ) (v : V) : State ι V κ :=
  match cb with
  | .waitAny fut => match s.target with
      | some _ => s.post fut (.value fut.source v)
      | none => { s with target := some (fut, v) }
  | .forward elt => s.post port (.value elt v)
  | .other k => { s with obtained := s.obtained ++ [(k, v)] }

def setEntry (s : State ι V κ) (elt : ι) (port : Future ι) (cb : Callback ι κ) : State ι V κ :=
  { s with entryPorts :=
      Function.update s.entryPorts elt (Function.update (s.entryPorts elt) port (some cb)) }

def setQueue (s : State ι V κ) (elt : ι) (port : Future ι) (vs : List V) : State ι V κ :=
  { s with portQueue :=
      Function.update s.portQueue elt (Function.update (s.portQueue elt) port vs) }

def receive (s : State ι V κ) (elt : ι) (port : Future ι) (v : V) : State ι V κ :=
  match s.entryPorts elt port with
  | none => s.setQueue elt port (s.portQueue elt port ++ [v])
  | some cb => s.send port cb v

/-- Opening a port hands the queued values to its callback. It is fatal to open it twice. -/
def openPort (s : State ι V κ) (elt : ι) (port : Future ι) (cb : Callback ι κ) :
    Option (State ι V κ) :=
  match s.entryPorts elt port with
  | some _ => none
  | none => some ((s.portQueue elt port).foldl (fun s v => s.send port cb v)
      ((s.setEntry elt port cb).setQueue elt port []))

def requestFuture (s : State ι V κ) (me : ι) (f : Future ι) (cb : Callback ι κ) :
    Option (State ι V κ) :=
  (s.openPort me f cb).map fun s =>
    if f.source = me then s else s.post f (.opener f.source me)

/-- The requests of `wait_any`, up to the first future that is ready. -/
def waitAny (me : ι) : List (Future ι) → State ι V κ → Option (State ι V κ)
  | [], s => some s
  | f :: fs, s => (s.requestFuture me f (.waitAny f)).bind fun s' =>
      if s.ready me f then some s' else waitAny me fs s'

def handle (s : State ι V κ) (f : Future ι) : Message ι V → Option (State ι V κ)
  | .value elt v => some (s.receive elt f v)
  | .opener elt fwd => s.openPort elt f (.forward fwd)

end Calls

inductive Event (ι V : Type*) where
  | set (f : Future ι) (v : V)
  | deliver (f : Future ι) (m : Message ι V)

/-- A future is set once. The messages arrive in any order. -/
inductive Step [DecidableEq ι] (s : State ι V κ) : Event ι V → State ι V κ → Prop
  | set {f : Future ι} {v : V} : s.values f = none → Step s (.set f v) (s.set f v)
  | deliver {f : Future ι} {m : Message ι V} {n : Multiset (Message ι V)} {t : State ι V κ} :
      s.network f = m ::ₘ n →
      handle { s with network := Function.update s.network f n } f m = some t →
      Step s (.deliver f m) t

section Frame

variable [DecidableEq ι] {s t : State ι V κ} {f g : Future ι} {elt e me : ι} {m : Message ι V}
variable {v : V} {vs : List V} {cb : Callback ι κ}

@[simp] theorem post_network_self : (s.post f m).network f = m ::ₘ s.network f := by
  simp [post]

@[simp] theorem post_network_of_ne (h : g ≠ f) : (s.post f m).network g = s.network g := by
  simp [post, h]

theorem setEntry_entryPorts : (s.setEntry elt f cb).entryPorts e g =
    if e = elt ∧ g = f then some cb else s.entryPorts e g := by
  unfold setEntry
  by_cases he : e = elt
  · subst he
    by_cases hg : g = f <;> simp [hg]
  · simp [he]

theorem setQueue_portQueue : (s.setQueue elt f vs).portQueue e g =
    if e = elt ∧ g = f then vs else s.portQueue e g := by
  unfold setQueue
  by_cases he : e = elt
  · subst he
    by_cases hg : g = f <;> simp [hg]
  · simp [he]

structure Same (s t : State ι V κ) (g : Future ι) : Prop where
  entryPorts : ∀ e, t.entryPorts e g = s.entryPorts e g
  portQueue : ∀ e, t.portQueue e g = s.portQueue e g
  network : t.network g = s.network g
  values : t.values g = s.values g

omit [DecidableEq ι] in
theorem Same.refl (s : State ι V κ) (g : Future ι) : Same s s g := by
  constructor <;> simp

omit [DecidableEq ι] in
theorem Same.trans {u : State ι V κ} (h : Same s t g) (h' : Same t u g) : Same s u g where
  entryPorts e := (h'.entryPorts e).trans (h.entryPorts e)
  portQueue e := (h'.portQueue e).trans (h.portQueue e)
  network := h'.network.trans h.network
  values := h'.values.trans h.values

theorem same_post (h : g ≠ f) : Same s (s.post f m) g := by
  constructor <;> simp [post, h]

theorem same_setEntry (h : g ≠ f) : Same s (s.setEntry elt f cb) g where
  entryPorts e := by simp [setEntry_entryPorts, h]
  portQueue e := rfl
  network := rfl
  values := rfl

theorem same_setQueue (h : g ≠ f) : Same s (s.setQueue elt f vs) g where
  entryPorts e := rfl
  portQueue e := by simp [setQueue_portQueue, h]
  network := rfl
  values := rfl

def Matches (cb : Callback ι κ) (f : Future ι) : Prop := ∀ fut, cb = .waitAny fut → fut = f

theorem same_send (h : g ≠ f) (hcb : Matches cb f) : Same s (s.send f cb v) g := by
  cases cb with
  | waitAny fut =>
    obtain rfl := hcb fut rfl
    unfold send
    dsimp only
    split
    · exact same_post h
    · constructor <;> simp
  | forward elt => exact same_post h
  | other k => constructor <;> simp [send]

theorem same_foldl_send (h : g ≠ f) (hcb : Matches cb f) :
    Same s (vs.foldl (fun s v => s.send f cb v) s) g := by
  induction vs generalizing s with
  | nil => exact .refl s g
  | cons v vs ih => exact (same_send h hcb).trans ih

theorem openPort_of_closed (h : s.entryPorts elt f = none) (cb : Callback ι κ) :
    s.openPort elt f cb = some ((s.portQueue elt f).foldl (fun s v => s.send f cb v)
      ((s.setEntry elt f cb).setQueue elt f [])) := by
  unfold openPort
  rw [h]

theorem same_openPort (h : g ≠ f) (hcb : Matches cb f) (ho : s.openPort elt f cb = some t) :
    Same s t g := by
  unfold openPort at ho
  split at ho
  · cases ho
  · obtain rfl := Option.some.inj ho
    exact ((same_setEntry h).trans (same_setQueue h)).trans (same_foldl_send h hcb)

@[simp] theorem send_entryPorts : (s.send f cb v).entryPorts = s.entryPorts := by
  cases cb with
  | waitAny fut =>
    unfold send
    dsimp only
    split <;> rfl
  | forward elt => rfl
  | other k => rfl

@[simp] theorem send_values : (s.send f cb v).values = s.values := by
  cases cb with
  | waitAny fut =>
    unfold send
    dsimp only
    split <;> rfl
  | forward elt => rfl
  | other k => rfl

@[simp] theorem foldl_send_values :
    (vs.foldl (fun s v => s.send f cb v) s).values = s.values := by
  induction vs generalizing s with
  | nil => rfl
  | cons v vs ih => rw [List.foldl_cons, ih, send_values]

@[simp] theorem foldl_send_entryPorts :
    (vs.foldl (fun s v => s.send f cb v) s).entryPorts = s.entryPorts := by
  induction vs generalizing s with
  | nil => rfl
  | cons v vs ih => rw [List.foldl_cons, ih, send_entryPorts]

def Targets (f : Future ι) (s t : State ι V κ) : Prop :=
  t.target = s.target ∨ s.target = none ∧ ∃ w, t.target = some (f, w)

omit [DecidableEq ι] in
theorem Targets.trans {u : State ι V κ} (h : Targets f s t) (h' : Targets f t u) :
    Targets f s u := by
  rcases h with h | ⟨hs, w, ht⟩
  · rcases h' with h' | ⟨ht, hu⟩
    · exact .inl (h'.trans h)
    · exact .inr ⟨h ▸ ht, hu⟩
  · rcases h' with h' | ⟨ht', -⟩
    · exact .inr ⟨hs, w, h'.trans ht⟩
    · rw [ht] at ht'
      cases ht'

theorem target_send (hcb : Matches cb f) : Targets f s (s.send f cb v) := by
  cases cb with
  | waitAny fut =>
    obtain rfl := hcb fut rfl
    unfold send
    dsimp only
    split
    · exact .inl rfl
    · exact .inr ⟨‹_›, v, rfl⟩
  | forward elt => exact .inl rfl
  | other k => exact .inl rfl

theorem target_foldl_send (hcb : Matches cb f) :
    Targets f s (vs.foldl (fun s v => s.send f cb v) s) := by
  induction vs generalizing s with
  | nil => exact .inl rfl
  | cons v vs ih => exact (target_send hcb).trans ih

theorem target_openPort (hcb : Matches cb f) (ho : s.openPort elt f cb = some t) :
    Targets f s t := by
  unfold openPort at ho
  split at ho
  · cases ho
  · obtain rfl := Option.some.inj ho
    exact target_foldl_send (s := (s.setEntry elt f cb).setQueue elt f []) hcb

def Matching (s : State ι V κ) : Prop := ∀ e f cb, s.entryPorts e f = some cb → Matches cb f

theorem matching_openPort (hs : s.Matching) (hcb : Matches cb f)
    (ho : s.openPort elt f cb = some t) : t.Matching := by
  unfold openPort at ho
  split at ho
  · cases ho
  · obtain rfl := Option.some.inj ho
    intro e g cb' he
    rw [foldl_send_entryPorts] at he
    have he : (s.setEntry elt f cb).entryPorts e g = some cb' := he
    rw [setEntry_entryPorts] at he
    split at he
    · rename_i hg
      obtain rfl := Option.some.inj he
      rw [hg.2]
      exact hcb
    · exact hs e g cb' he

@[simp] theorem receive_entryPorts : (s.receive elt f v).entryPorts = s.entryPorts := by
  unfold receive
  split
  · rfl
  · exact send_entryPorts

theorem same_receive (hs : s.Matching) (h : g ≠ f) : Same s (s.receive elt f v) g := by
  unfold receive
  split
  · exact same_setQueue h
  · exact same_send h (hs _ _ _ ‹_›)

omit [DecidableEq ι] in
theorem matches_forward : Matches (.forward elt : Callback ι κ) f := by
  intro fut hf
  cases hf

theorem same_handle (hs : s.Matching) (h : g ≠ f) (ht : s.handle f m = some t) : Same s t g := by
  cases m with
  | value elt v =>
    obtain rfl := Option.some.inj ht
    exact same_receive hs h
  | opener elt fwd => exact same_openPort h matches_forward ht

theorem matching_handle (hs : s.Matching) (ht : s.handle f m = some t) : t.Matching := by
  cases m with
  | value elt v =>
    obtain rfl := Option.some.inj ht
    intro e g cb he
    rw [receive_entryPorts] at he
    exact hs e g cb he
  | opener elt fwd => exact matching_openPort hs matches_forward ht

theorem target_handle (hs : s.Matching) (ht : s.handle f m = some t) : Targets f s t := by
  cases m with
  | value elt v =>
    obtain rfl := Option.some.inj ht
    unfold receive
    split
    · exact .inl rfl
    · exact target_send (hs _ _ _ ‹_›)
  | opener elt fwd => exact target_openPort matches_forward ht

def Callers (s : State ι V κ) (done : List (Future ι)) : Prop :=
  ∀ e f fut, s.entryPorts e f = some (.waitAny fut) → f ∈ done

theorem callers_openPort {done : List (Future ι)} (hs : s.Callers done)
    (hcb : (∃ fut, cb = .waitAny fut) → f ∈ done) (ho : s.openPort elt f cb = some t) :
    t.Callers done := by
  unfold openPort at ho
  split at ho
  · cases ho
  · obtain rfl := Option.some.inj ho
    intro e g fut he
    rw [foldl_send_entryPorts] at he
    have he : (s.setEntry elt f cb).entryPorts e g = some (.waitAny fut) := he
    rw [setEntry_entryPorts] at he
    split at he
    · rename_i hg
      rw [hg.2]
      exact hcb ⟨fut, Option.some.inj he⟩
    · exact hs e g fut he

theorem target_foldl_forward {fwd : ι} :
    (vs.foldl (fun s v => s.send f (.forward fwd) v) s).target = s.target := by
  induction vs generalizing s with
  | nil => rfl
  | cons v vs ih => exact ih

theorem target_handle_callers {done : List (Future ι)} (hs : s.Callers done)
    (ht : s.handle f m = some t) : t.Callers done ∧ (t.target = s.target ∨ f ∈ done) := by
  cases m with
  | value elt v =>
    obtain rfl := Option.some.inj ht
    constructor
    · intro e g fut he
      rw [receive_entryPorts] at he
      exact hs e g fut he
    · unfold receive
      split
      · exact .inl rfl
      · rename_i cb hcb
        cases cb with
        | waitAny fut => exact .inr (hs _ _ _ hcb)
        | forward e => exact .inl rfl
        | other k => exact .inl rfl
  | opener elt fwd =>
    constructor
    · apply callers_openPort hs _ ht
      rintro ⟨fut, hf⟩
      cases hf
    · have ho : s.openPort elt f (.forward fwd) = some t := ht
      unfold openPort at ho
      split at ho
      · cases ho
      · obtain rfl := Option.some.inj ho
        exact .inl target_foldl_forward

def Event.future : Event ι V → Future ι
  | .set f _ => f
  | .deliver f _ => f

theorem same_step {e : Event ι V} (hs : s.Matching) (h : g ≠ e.future) (ht : Step s e t) :
    Same s t g := by
  cases ht with
  | @set f v hv =>
    have h : g ≠ f := h
    constructor <;> simp [State.set, post, h]
  | @deliver f m n _ hn ht =>
    have h : g ≠ f := h
    have hsame : Same s { s with network := Function.update s.network f n } g := by
      constructor <;> simp [h]
    exact hsame.trans (same_handle hs h ht)

theorem matching_step {e : Event ι V} (hs : s.Matching) (ht : Step s e t) : t.Matching := by
  cases ht with
  | set hv => exact hs
  | @deliver f m n _ hn ht =>
    have hs : ({ s with network := Function.update s.network f n } : State ι V κ).Matching := hs
    exact matching_handle hs ht

/-- A step sets the result of `wait_any` to a value of its future, when there is none yet. -/
theorem target_step {e : Event ι V} (hs : s.Matching) (ht : Step s e t) :
    Targets e.future s t := by
  cases ht with
  | set hv => exact .inl rfl
  | @deliver f m n _ hn ht =>
    have hs : ({ s with network := Function.update s.network f n } : State ι V κ).Matching := hs
    have htarget : Targets f { s with network := Function.update s.network f n } t :=
      target_handle hs ht
    exact htarget

theorem callers_step {done : List (Future ι)} {e : Event ι V} (hs : s.Callers done)
    (ht : Step s e t) : t.Callers done ∧ (t.target = s.target ∨ e.future ∈ done) := by
  cases ht with
  | set hv => exact ⟨hs, .inl rfl⟩
  | @deliver f m n _ hn ht =>
    have hall : t.Callers done ∧ (t.target = s.target ∨ f ∈ done) :=
      target_handle_callers (s := { s with network := Function.update s.network f n }) hs ht
    exact hall

end Frame

end State

end Hypercomm.Futures
