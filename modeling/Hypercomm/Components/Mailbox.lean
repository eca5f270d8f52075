import Mathlib.Data.Fin.Rev
import Hypercomm.Components.Pairing
import Hypercomm.Core.Locality

/-! # Mailboxes

A mailbox keeps the values that no request matches, and the requests that no value
matches. Requests are pushed at the front and searched from the back, values are
pushed at the back and searched from the front.
-/

namespace Hypercomm.Components

open Transition

variable {T κ : Type*}

/-- Where a request sends its value. -/
inductive Destination (κ : Type*) where
  | callback (cb : κ)
  | component (com : ComponentId) (port : ℕ)

/-- A request for a value that meets its predicate. Null stands for any value. -/
structure Request (T κ : Type*) where
  pred : Option (T → Bool)
  dst : Destination κ

def Request.matches (req : Request T κ) (t : T) : Bool := req.pred.all fun pred => pred t

/-- `passthru_context_`: only a component that has vanished does not accept. -/
def passthru (accepts : ComponentId → Bool) : Destination κ → Bool
  | .callback _ => true
  | .component com _ => accepts com

structure Mailbox (T κ : Type*) where
  requests : List (Request T κ) := []
  buffer : List T := []
  qdCreated : ℕ := 0
  qdProcessed : ℕ := 0
  /-- the values that were handed to the destination of a request -/
  delivered : List (T × Request T κ) := []

namespace Mailbox

def findInBuffer (m : Mailbox T κ) (pred : Option (T → Bool)) : Option (Fin m.buffer.length) :=
  m.buffer.findFinIdx? fun value => pred.all fun pred => pred value

/-- The search runs backwards, over the reversed list. -/
def findMatching (m : Mailbox T κ) (value : T) : Option (Fin m.requests.length) :=
  (m.requests.reverse.findFinIdx? fun req => req.matches value).map fun i =>
    (i.cast List.length_reverse).rev

def takeBuffered (m : Mailbox T κ) (i : Fin m.buffer.length) (req : Request T κ) :
    Mailbox T κ :=
  { m with
    buffer := m.buffer.eraseIdx i
    qdProcessed := m.qdProcessed + 1
    delivered := m.delivered ++ [(m.buffer.get i, req)] }

def putRequest (m : Mailbox T κ) (pred : Option (T → Bool)) (cb : κ) : Mailbox T κ :=
  match m.findInBuffer pred with
  | none => { m with requests := ⟨pred, .callback cb⟩ :: m.requests }
  | some i => m.takeBuffered i ⟨pred, .callback cb⟩

/-- It is asserted that the component accepts a buffered value. -/
def putRequestTo (m : Mailbox T κ) (accepts : ComponentId → Bool) (pred : Option (T → Bool))
    (com : ComponentId) (port : ℕ) : Option (Mailbox T κ) :=
  match m.findInBuffer pred with
  | none => some { m with requests := ⟨pred, .component com port⟩ :: m.requests }
  | some i =>
      if passthru accepts (.component com port : Destination κ) then
        some (m.takeBuffered i ⟨pred, .component com port⟩)
      else none

/-- `mailbox::action`. A value that fails to be delivered is accepted once more. -/
def action (accepts : ComponentId → Bool) (value : T) (m : Mailbox T κ) : Mailbox T κ :=
  match m.findMatching value with
  | none => { m with
      buffer := m.buffer ++ [value]
      qdCreated := m.qdCreated + 1 }
  | some i =>
      let req := m.requests.get i
      let m := { m with requests := m.requests.eraseIdx i }
      if passthru accepts req.dst then { m with delivered := m.delivered ++ [(value, req)] }
      else action accepts value m
termination_by m.requests.length
decreasing_by
  have := i.isLt
  simp only [List.length_eraseIdx_of_lt i.isLt]
  omega

/-- The events at an active mailbox, with the components that accept at the time. -/
inductive Event (T κ : Type*) where
  | arrive (value : T) (accepts : ComponentId → Bool)
  | putRequest (pred : Option (T → Bool)) (cb : κ)
  | putRequestTo (pred : Option (T → Bool)) (com : ComponentId) (port : ℕ)
      (accepts : ComponentId → Bool)

def Event.Valid : Event T κ → Prop
  | .putRequestTo _ com _ accepts => accepts com
  | _ => True

def step (m : Mailbox T κ) : Event T κ → Option (Mailbox T κ)
  | .arrive value accepts => some (m.action accepts value)
  | .putRequest pred cb => some (m.putRequest pred cb)
  | .putRequestTo pred com port accepts => m.putRequestTo accepts pred com port

def Step (m : Mailbox T κ) (e : Event T κ) (m' : Mailbox T κ) : Prop :=
  e.Valid ∧ m.step e = some m'

section Search

variable {m : Mailbox T κ} {value : T} {pred : Option (T → Bool)}

theorem findFinIdx?_cases {α : Type*} (p : α → Bool) (l : List α) :
    (l.findFinIdx? p = none ∧ ∀ a ∈ l, ¬ p a) ∨
      ∃ i older newer, l.findFinIdx? p = some i ∧ l = older ++ l.get i :: newer ∧
        older.length = i ∧ p (l.get i) ∧ ∀ a ∈ older, ¬ p a := by
  cases hf : l.findFinIdx? p with
  | none =>
    apply Or.inl
    simpa using hf
  | some i =>
    apply Or.inr
    obtain ⟨hi, hlt⟩ := List.findFinIdx?_eq_some_iff.mp hf
    refine ⟨i, l.take i, l.drop (i + 1), rfl, ?_, ?_, hi, ?_⟩
    · rw [List.get_eq_getElem, List.cons_getElem_drop_succ, List.take_append_drop]
    · simp
    · intro a ha
      obtain ⟨j, hj, rfl⟩ := List.mem_take_iff_getElem.mp ha
      have hji : j < (i : ℕ) := (lt_min_iff.mp hj).1
      exact hlt ⟨j, hji.trans i.isLt⟩ hji

theorem eraseIdx_append_cons {α : Type*} (l l' : List α) (a : α) :
    (l ++ a :: l').eraseIdx l.length = l ++ l' := by
  simp [List.eraseIdx_append_of_length_le]

theorem findMatching_cases (m : Mailbox T κ) (value : T) :
    (m.findMatching value = none ∧ ∀ q ∈ m.requests.reverse, ¬ q.matches value) ∨
      ∃ i older newer, m.findMatching value = some i ∧
        m.requests.reverse = older ++ m.requests.get i :: newer ∧
        (m.requests.eraseIdx i).reverse = older ++ newer ∧
        (m.requests.get i).matches value ∧ ∀ q ∈ older, ¬ q.matches value := by
  unfold findMatching
  rcases findFinIdx?_cases (fun req : Request T κ => req.matches value) m.requests.reverse with
    ⟨hf, hall⟩ | ⟨j, older, newer, hf, hl, hlen, hj, hold⟩
  · exact .inl ⟨by simp [hf], hall⟩
  · set i : Fin m.requests.length := (j.cast List.length_reverse).rev with hi
    have hget : m.requests.reverse.get j = m.requests.get i := by
      simp only [List.get_eq_getElem, List.getElem_reverse, hi, Fin.val_rev, Fin.val_cast]
      congr 1
      omega
    rw [hget] at hl hj
    have hreq : m.requests = newer.reverse ++ m.requests.get i :: older.reverse := by
      have := congrArg List.reverse hl
      simpa using this
    have hlast : (i : ℕ) = newer.reverse.length := by
      have := congrArg List.length hl
      simp only [List.length_reverse, List.length_append, List.length_cons] at this
      simp only [hi, Fin.val_rev, Fin.val_cast, List.length_reverse]
      omega
    refine .inr ⟨i, older, newer, by simp [hf, hi], hl, ?_, hj, hold⟩
    have herase : m.requests.eraseIdx i = newer.reverse ++ older.reverse := by
      rw [hlast]
      conv_lhs => rw [hreq]
      exact eraseIdx_append_cons ..
    simp [herase]

theorem findInBuffer_cases (m : Mailbox T κ) (pred : Option (T → Bool)) (dst : Destination κ) :
    (m.findInBuffer pred = none ∧ ∀ w ∈ m.buffer, ¬ Request.matches ⟨pred, dst⟩ w) ∨
      ∃ i older newer, m.findInBuffer pred = some i ∧ m.buffer = older ++ m.buffer.get i :: newer ∧
        m.buffer.eraseIdx i = older ++ newer ∧ Request.matches ⟨pred, dst⟩ (m.buffer.get i) ∧
        ∀ w ∈ older, ¬ Request.matches ⟨pred, dst⟩ w := by
  unfold findInBuffer
  rcases findFinIdx?_cases (fun w => pred.all fun pred => pred w) m.buffer with
    hnone | ⟨i, older, newer, hf, hl, hlen, hi, hold⟩
  · exact .inl hnone
  · refine .inr ⟨i, older, newer, hf, hl, ?_, hi, hold⟩
    rw [← hlen]
    conv_lhs => rw [hl]
    exact eraseIdx_append_cons ..

end Search

section Refinement

variable {m m' : Mailbox T κ} {accepts : ComponentId → Bool} {value : T} {e : Event T κ}
variable {es : List (Event T κ)}

def pairing (m : Mailbox T κ) : Pairing.State (Request T κ) T where
  pending := m.requests.reverse
  buffer := m.buffer
  paired := m.delivered

def Event.pairing : Event T κ → Pairing.Event (Request T κ) T
  | .arrive value accepts => .arrive value fun req => passthru accepts req.dst
  | .putRequest pred cb => .ask ⟨pred, .callback cb⟩
  | .putRequestTo pred com port _ => .ask ⟨pred, .component com port⟩

theorem action_of_none (h : m.findMatching value = none) :
    m.action accepts value = { m with
      buffer := m.buffer ++ [value]
      qdCreated := m.qdCreated + 1 } := by
  rw [action, h]

theorem action_of_some {i : Fin m.requests.length} (h : m.findMatching value = some i) :
    m.action accepts value =
      if passthru accepts (m.requests.get i).dst then { m with
        requests := m.requests.eraseIdx i
        delivered := m.delivered ++ [(value, m.requests.get i)] }
      else action accepts value { m with requests := m.requests.eraseIdx i } := by
  rw [action, h]

theorem pairing_action (m : Mailbox T κ) (accepts : ComponentId → Bool) (value : T) :
    Pairing.Step Request.matches m.pairing
      (.arrive value fun req => passthru accepts req.dst) (m.action accepts value).pairing := by
  -- by the number of requests, one fewer each time that a delivery fails
  induction hn : m.requests.length using Nat.strong_induction_on generalizing m with
  | _ n ih =>
    rcases findMatching_cases m value with ⟨hf, hall⟩ | ⟨i, older, newer, hf, hl, he, hi, ho⟩
    · have hkeep : m.requests.reverse.filter (fun q => !q.matches value) = m.requests.reverse := by
        simpa using hall
      have heq : (m.action accepts value).pairing = { m.pairing with
          pending := m.pairing.pending.filter fun q => !q.matches value
          buffer := m.pairing.buffer ++ [value] } := by
        simp [action_of_none hf, pairing, hkeep]
      rw [heq]
      exact .buffer fun q hq hm => absurd hm (hall q hq)
    · by_cases hp : passthru accepts (m.requests.get i).dst
      · have hkeep : older.filter (fun q => !q.matches value) = older := by simpa using ho
        have heq : (m.action accepts value).pairing = { m.pairing with
            pending := older.filter (fun q => !q.matches value) ++ newer
            paired := m.pairing.paired ++ [(value, m.requests.get i)] } := by
          rw [action_of_some hf, if_pos hp]
          simp only [pairing, he, hkeep]
        rw [heq]
        exact .pair hl hi hp fun q hq hm => absurd hm (ho q hq)
      · rw [action_of_some hf, if_neg hp]
        have hlt : (m.requests.eraseIdx i).length < n := by
          have := i.isLt
          rw [List.length_eraseIdx_of_lt i.isLt]
          omega
        have hstep := ih _ hlt { m with requests := m.requests.eraseIdx i } rfl
        have heq : ({ m with requests := m.requests.eraseIdx i } : Mailbox T κ).pairing =
            { m.pairing with pending := older ++ newer } := by
          simp [pairing, he]
        rw [heq] at hstep
        exact hstep.of_failed hl hi hp ho

theorem pairing_takeBuffered {i : Fin m.buffer.length} {req : Request T κ} {older newer : List T}
    (hl : m.buffer = older ++ m.buffer.get i :: newer) (he : m.buffer.eraseIdx i = older ++ newer)
    (hi : req.matches (m.buffer.get i)) (ho : ∀ w ∈ older, ¬ req.matches w) :
    Pairing.Step Request.matches m.pairing (.ask req) (m.takeBuffered i req).pairing := by
  have heq : (m.takeBuffered i req).pairing = { m.pairing with
      buffer := older ++ newer
      paired := m.pairing.paired ++ [(m.buffer.get i, req)] } := by
    simp only [takeBuffered, pairing, he]
  rw [heq]
  exact .take hl hi ho

theorem pairing_store {req : Request T κ} (h : ∀ w ∈ m.buffer, ¬ req.matches w) :
    Pairing.Step Request.matches m.pairing (.ask req)
      ({ m with requests := req :: m.requests } : Mailbox T κ).pairing := by
  have heq : ({ m with requests := req :: m.requests } : Mailbox T κ).pairing =
      { m.pairing with pending := m.pairing.pending ++ [req] } := by
    simp [pairing]
  rw [heq]
  exact .store h

theorem exists_step (m : Mailbox T κ) (h : e.Valid) : ∃ m', m.step e = some m' := by
  cases e with
  | arrive value accepts => exact ⟨_, rfl⟩
  | putRequest pred cb => exact ⟨_, rfl⟩
  | putRequestTo pred com port accepts =>
    have hp : passthru accepts (.component com port : Destination κ) := h
    simp only [step, putRequestTo]
    split
    · exact ⟨_, rfl⟩
    · exact ⟨_, if_pos hp⟩

/-- Every event at a mailbox pairs its values and requests, the oldest first. -/
theorem pairing_step (h : m.Step e m') :
    Pairing.Step Request.matches m.pairing e.pairing m'.pairing := by
  obtain ⟨-, hs⟩ := h
  cases e with
  | arrive value accepts =>
    obtain rfl := Option.some.inj hs
    exact pairing_action m accepts value
  | putRequest pred cb =>
    obtain rfl := Option.some.inj hs
    unfold putRequest
    rcases findInBuffer_cases m pred (.callback cb) with ⟨hf, hall⟩ | ⟨i, _, _, hf, hl, he, hi, ho⟩
    · rw [hf]
      exact pairing_store hall
    · rw [hf]
      exact pairing_takeBuffered hl he hi ho
  | putRequestTo pred com port accepts =>
    have hs : m.putRequestTo accepts pred com port = some m' := hs
    unfold putRequestTo at hs
    rcases findInBuffer_cases m pred (.component com port) with
      ⟨hf, hall⟩ | ⟨i, _, _, hf, hl, he, hi, ho⟩
    · rw [hf] at hs
      obtain rfl := Option.some.inj hs
      exact pairing_store hall
    · rw [hf] at hs
      dsimp only at hs
      split at hs
      · obtain rfl := Option.some.inj hs
        exact pairing_takeBuffered hl he hi ho
      · cases hs

def Counted (m : Mailbox T κ) : Prop := (m.qdCreated : ℤ) - m.qdProcessed = m.buffer.length

theorem Counted.action (accepts : ComponentId → Bool) (value : T) (h : m.Counted) :
    (m.action accepts value).Counted := by
  induction hn : m.requests.length using Nat.strong_induction_on generalizing m with
  | _ n ih =>
    cases hf : m.findMatching value with
    | none =>
      rw [action_of_none hf]
      unfold Counted at *
      simp only [List.length_append, List.length_singleton]
      omega
    | some i =>
      rw [action_of_some hf]
      split
      · exact h
      · apply ih _ _ _ rfl
        · have := i.isLt
          rw [List.length_eraseIdx_of_lt i.isLt]
          omega
        · exact h

theorem Counted.takeBuffered (h : m.Counted) (i : Fin m.buffer.length) (req : Request T κ) :
    (m.takeBuffered i req).Counted := by
  have := i.isLt
  unfold Counted at *
  simp only [Mailbox.takeBuffered, List.length_eraseIdx_of_lt i.isLt]
  omega

theorem Counted.step (h : m.Counted) (hs : m.Step e m') : m'.Counted := by
  obtain ⟨-, hs⟩ := hs
  cases e with
  | arrive value accepts =>
    obtain rfl := Option.some.inj hs
    exact h.action accepts value
  | putRequest pred cb =>
    obtain rfl := Option.some.inj hs
    unfold putRequest
    split
    · exact h
    · exact h.takeBuffered _ _
  | putRequestTo pred com port accepts =>
    have hs : m.putRequestTo accepts pred com port = some m' := hs
    unfold putRequestTo at hs
    split at hs
    · obtain rfl := Option.some.inj hs
      exact h
    · split at hs
      · obtain rfl := Option.some.inj hs
        exact h.takeBuffered _ _
      · cases hs

/-- A mailbox refines oldest-first pairing. No assertion fails, no buffered value matches a
pending request, no value is lost, and the buffered values are counted. -/
theorem refines_pairing (h : Run Step ({} : Mailbox T κ) es m) :
    (∀ e : Event T κ, e.Valid → ∃ m', m.step e = some m') ∧
    Run (Pairing.Step Request.matches) {} (es.map Event.pairing) m.pairing ∧
    (∀ value ∈ m.buffer, ∀ req ∈ m.requests, ¬ req.matches value) ∧
    (m.buffer : Multiset T) + (m.delivered.map Prod.fst : Multiset T) =
      Pairing.arrived (es.map Event.pairing) ∧
    (m.qdCreated : ℤ) - m.qdProcessed = m.buffer.length := by
  have hrun : Run (Pairing.Step Request.matches) {} (es.map Event.pairing) m.pairing := by
    induction h with
    | nil => exact .nil
    | snoc _ hs ih =>
      rw [List.map_append]
      exact ih.snoc (pairing_step hs)
  refine ⟨fun e he => exists_step m he, hrun, ?_, Pairing.accounted_of_run hrun, ?_⟩
  · intro value hv req hr
    exact Pairing.unmatched_of_run hrun value hv req (List.mem_reverse.mpr hr)
  · exact h.invariant (I := Counted) (fun _ _ _ hc hs => hc.step hs) rfl

theorem run_snoc (h : Run Step ({} : Mailbox T κ) es m) (e : Event T κ) (he : e.Valid)
    (hs : m.step e = some m') : Run Step ({} : Mailbox T κ) (es ++ [e]) m' := h.snoc ⟨he, hs⟩

/-- A value goes past a request that it does not match, and past one whose component has
vanished, to the callback of a newer request. -/
theorem pairing_vanished :
    ∃ m, Run Step ({} : Mailbox ℕ Unit) [.putRequest (some (· == 1)) (),
        .putRequestTo none 7 0 fun _ => true, .putRequest none (), .arrive 2 fun _ => false] m ∧
      m.buffer = [] ∧
      (m.buffer : Multiset ℕ) + (m.delivered.map Prod.fst : Multiset ℕ) = {2} := by
  have h0 : Run Step ({} : Mailbox ℕ Unit) [] {} := .nil
  have h1 := run_snoc h0 (.putRequest (some (· == 1)) ()) trivial rfl
  have h2 := run_snoc h1 (.putRequestTo none 7 0 fun _ => true) rfl rfl
  have h3 := run_snoc h2 (.putRequest none ()) trivial rfl
  have h4 := run_snoc h3 (.arrive 2 fun _ => false) trivial rfl
  refine ⟨_, h4, ?_, (refines_pairing h4).2.2.2.1⟩
  rw [action_of_some (i := ⟨1, by decide⟩) (by decide), if_neg (by decide),
    action_of_some (i := ⟨0, by decide⟩) (by decide), if_pos (by decide)]
  rfl

end Refinement

end Mailbox

end Hypercomm.Components
