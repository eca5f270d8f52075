import Mathlib.Data.List.Perm.Basic
import Mathlib.Data.List.ReduceOption
import Hypercomm.Components.Mailbox

/-! # Nested calls at a mailbox

Whatever takes a value from a mailbox may call the mailbox before it returns. A request that
is put to a callback sends the value while its place in the buffer is still there, and the
place is erased afterwards, at the position that was found before.
-/

namespace Hypercomm.Components

open Transition

variable {T κ : Type*}

namespace Mailbox

/-- `mailbox::action`, with whether the value was delivered. -/
def handOff (accepts : ComponentId → Bool) (value : T) (m : Mailbox T κ) : Mailbox T κ × Bool :=
  match m.findMatching value with
  | none => ({ m with
      buffer := m.buffer ++ [value]
      qdCreated := m.qdCreated + 1 }, false)
  | some i =>
      let req := m.requests.get i
      let m := { m with requests := m.requests.eraseIdx i }
      if passthru accepts req.dst then
        ({ m with delivered := m.delivered ++ [(value, req)] }, true)
      else handOff accepts value m
termination_by m.requests.length
decreasing_by
  have := i.isLt
  simp only [List.length_eraseIdx_of_lt i.isLt]
  omega

def scanned (m : Mailbox T κ) (pred : Option (T → Bool)) : List T :=
  match m.findInBuffer pred with
  | none => m.buffer
  | some i => m.buffer.take (i + 1)

end Mailbox

namespace Nested

/-- A call that has not returned. If it sends a value from the buffer then it holds the
position, which may have been invalidated. -/
inductive Frame
  | sending (search : Option ℕ)
  | call
  deriving DecidableEq

namespace Frame

def isSending : Frame → Bool
  | sending _ => true
  | call => false

/-- Values that are pushed to a deque invalidate the positions in it. -/
def pushed : Frame → Frame
  | sending _ => sending none
  | call => call

/-- One of `n` values is erased. The positions of the others stay valid if it was the first or
the last. -/
def erased (n i : ℕ) : Frame → Frame
  | sending search => sending (search.bind fun j =>
      if j = i then none
      else if i = 0 then some (j - 1)
      else if i + 1 = n then some j
      else none)
  | call => call

end Frame

end Nested

/-- A mailbox with its calls, the innermost in front. A value that was moved from the buffer
leaves null behind. What arrived and what was delivered is logged, and whether null was looked at
and an invalid position was used. -/
structure Nested (T κ : Type*) where
  mailbox : Mailbox (Option T) κ
  active : Bool
  /-- the values that wait for the activation -/
  incoming : List T
  frames : List Nested.Frame := []
  arrived : List T
  seen : Bool := false
  undefined : Bool := false

namespace Nested

def start (requests : List (Request (Option T) κ)) (buffer incoming : List T) (active : Bool) :
    Nested T κ where
  mailbox := { requests, buffer := buffer.map some }
  active := active
  incoming := incoming
  arrived := buffer ++ incoming

def look (s : Nested T κ) (pred : Option (Option T → Bool)) : Nested T κ :=
  { s with seen := s.seen || (s.mailbox.scanned pred).any Option.isNone }

def store (s : Nested T κ) (req : Request (Option T) κ) : Nested T κ :=
  { s with mailbox := { s.mailbox with requests := req :: s.mailbox.requests } }

/-- A value that is sent is moved, and erased when the callback returns. The code sends an entry
that was moved from like any other. Here it is only recorded that one was seen. -/
def putRequest (s : Nested T κ) (pred : Option (Option T → Bool)) (cb : κ) : Nested T κ :=
  let s := s.look pred
  match s.mailbox.findInBuffer pred with
  | none => s.store ⟨pred, .callback cb⟩
  | some i => match s.mailbox.buffer.get i with
      | none => s
      | some value => { s with
          mailbox := { s.mailbox with
            buffer := s.mailbox.buffer.set i none
            qdProcessed := s.mailbox.qdProcessed + 1
            delivered := s.mailbox.delivered ++ [(some value, ⟨pred, .callback cb⟩)] }
          frames := .sending (some i) :: s.frames }

/-- The value is erased first. It is asserted that the component accepts it, and without
assertions it is dropped. -/
def putRequestTo (s : Nested T κ) (accepts : ComponentId → Bool) (pred : Option (Option T → Bool))
    (com : ComponentId) (port : ℕ) : Nested T κ :=
  let s := s.look pred
  match s.mailbox.findInBuffer pred with
  | none => s.store ⟨pred, .component com port⟩
  | some i => match s.mailbox.buffer.get i with
      | none => s
      | some value =>
          let req : Request (Option T) κ := ⟨pred, .component com port⟩
          let frames := s.frames.map (Frame.erased s.mailbox.buffer.length i)
          let mailbox := { s.mailbox with
            buffer := s.mailbox.buffer.eraseIdx i
            qdProcessed := s.mailbox.qdProcessed + 1 }
          if passthru accepts req.dst then { s with
            mailbox := { mailbox with delivered := mailbox.delivered ++ [(some value, req)] }
            frames := .call :: frames }
          else { s with mailbox, frames }

/-- A mailbox that is not active keeps the value for its activation. -/
def accept (s : Nested T κ) (accepts : ComponentId → Bool) (value : T) : Nested T κ :=
  let s := { s with arrived := s.arrived ++ [value] }
  if s.active then
    let o := s.mailbox.handOff accepts (some value)
    { s with
      mailbox := o.1
      frames := if o.2 then .call :: s.frames else s.frames.map Frame.pushed }
  else { s with incoming := value :: s.incoming }

def ret (s : Nested T κ) : Option (Nested T κ) :=
  match s.frames with
  | [] => none
  | .call :: frames => some { s with frames }
  | .sending none :: frames => some { s with
      frames
      undefined := true }
  | .sending (some i) :: frames => some { s with
      mailbox := { s.mailbox with buffer := s.mailbox.buffer.eraseIdx i }
      frames := frames.map (Frame.erased s.mailbox.buffer.length i) }

inductive Event (T κ : Type*)
  | accept (accepts : ComponentId → Bool) (value : T)
  | putRequest (pred : Option (Option T → Bool)) (cb : κ)
  | putRequestTo (accepts : ComponentId → Bool) (pred : Option (Option T → Bool))
      (com : ComponentId) (port : ℕ)
  | ret

def step (s : Nested T κ) : Event T κ → Option (Nested T κ)
  | .accept accepts value => some (s.accept accepts value)
  | .putRequest pred cb => some (s.putRequest pred cb)
  | .putRequestTo accepts pred com port => some (s.putRequestTo accepts pred com port)
  | .ret => s.ret

/-- Each value that arrived was sent once or is still buffered, and none was seen after it was
moved. -/
structure ExactlyOnce (s : Nested T κ) : Prop where
  conserved : ((s.mailbox.delivered.map Prod.fst ++ s.mailbox.buffer).reduceOption ++
    s.incoming).Perm s.arrived
  sent : ∀ p ∈ s.mailbox.delivered, p.1.isSome
  unseen : s.seen = false
  defined : s.undefined = false
  idle : s.frames = [] → none ∉ s.mailbox.buffer

/-- A search does not come to a value that is being sent, a component that is named in a request
accepts what is buffered for it, and a call returns to a position that is valid. -/
def Meets (s : Nested T κ) : Event T κ → Prop
  | .accept _ _ => True
  | .putRequest pred _ => none ∉ s.mailbox.scanned pred
  | .putRequestTo accepts pred com _ => none ∉ s.mailbox.scanned pred ∧
      ((s.mailbox.findInBuffer pred).isSome → accepts com)
  | .ret => s.frames.head? ≠ some (.sending none)

instance [DecidableEq T] (s : Nested T κ) : (e : Event T κ) → Decidable (s.Meets e)
  | .accept _ _ => inferInstanceAs (Decidable True)
  | .putRequest pred _ => inferInstanceAs (Decidable (none ∉ s.mailbox.scanned pred))
  | .putRequestTo accepts pred com _ => inferInstanceAs (Decidable (none ∉ s.mailbox.scanned pred ∧
      ((s.mailbox.findInBuffer pred).isSome → accepts com)))
  | .ret => inferInstanceAs (Decidable (s.frames.head? ≠ some (.sending none)))

end Nested

section HandOff

variable {m : Mailbox T κ} {accepts : ComponentId → Bool} {value : T}

theorem Mailbox.handOff_cases (m : Mailbox T κ) (accepts : ComponentId → Bool) (value : T) :
    (∃ req, (m.handOff accepts value).2 = true ∧
      (m.handOff accepts value).1.buffer = m.buffer ∧
      (m.handOff accepts value).1.delivered = m.delivered ++ [(value, req)]) ∨
    ((m.handOff accepts value).2 = false ∧
      (m.handOff accepts value).1.buffer = m.buffer ++ [value] ∧
      (m.handOff accepts value).1.delivered = m.delivered) := by
  -- by the number of requests, one fewer each time that a delivery fails
  induction hn : m.requests.length using Nat.strong_induction_on generalizing m with
  | _ n ih =>
    rw [handOff]
    rcases hf : m.findMatching value with _ | i
    · exact .inr ⟨rfl, rfl, rfl⟩
    · dsimp only
      split_ifs
      · exact .inl ⟨m.requests.get i, rfl, rfl, rfl⟩
      · have hlt : (m.requests.eraseIdx i).length < n := by
          have := i.isLt
          rw [List.length_eraseIdx_of_lt i.isLt]
          omega
        exact ih _ hlt { m with requests := m.requests.eraseIdx i } rfl

/-- The mailbox is that of the action. -/
theorem Mailbox.handOff_fst (m : Mailbox T κ) (accepts : ComponentId → Bool) (value : T) :
    (m.handOff accepts value).1 = m.action accepts value := by
  induction hn : m.requests.length using Nat.strong_induction_on generalizing m with
  | _ n ih =>
    rw [handOff]
    rcases hf : m.findMatching value with _ | i
    · rw [action_of_none hf]
    · rw [action_of_some hf]
      dsimp only
      split_ifs
      · rfl
      · have hlt : (m.requests.eraseIdx i).length < n := by
          have := i.isLt
          rw [List.length_eraseIdx_of_lt i.isLt]
          omega
        exact ih _ hlt { m with requests := m.requests.eraseIdx i } rfl

end HandOff

namespace Nested

section Positions

variable {l : List (Option T)} {frames : List Frame} {i j n : ℕ} {value : T}

theorem perm_reduceOption_eraseIdx (h : l[i]? = some (some value)) :
    (value :: (l.eraseIdx i).reduceOption).Perm l.reduceOption := by
  obtain ⟨hi, hv⟩ := List.getElem?_eq_some_iff.mp h
  have hp := (List.getElem_cons_eraseIdx_perm hi).filterMap id
  rw [hv] at hp
  exact hp

theorem perm_reduceOption_set (h : l[i]? = some (some value)) :
    (value :: (l.set i none).reduceOption).Perm l.reduceOption := by
  obtain ⟨hi, -⟩ := List.getElem?_eq_some_iff.mp h
  have hp := (List.set_perm_cons_eraseIdx hi none).filterMap id
  exact (hp.cons value).trans (perm_reduceOption_eraseIdx h)

theorem reduceOption_eraseIdx_none (h : l[i]? = some none) :
    (l.eraseIdx i).reduceOption.Perm l.reduceOption := by
  obtain ⟨hi, hv⟩ := List.getElem?_eq_some_iff.mp h
  have hp := (List.getElem_cons_eraseIdx_perm hi).filterMap id
  rw [hv] at hp
  exact hp

theorem countP_set (h : l[i]? = some (some value)) :
    (l.set i none).countP Option.isNone = l.countP Option.isNone + 1 := by
  obtain ⟨hi, hv⟩ := List.getElem?_eq_some_iff.mp h
  have hp := (List.set_perm_cons_eraseIdx hi none).countP_eq Option.isNone
  have hq := (List.getElem_cons_eraseIdx_perm hi).countP_eq Option.isNone
  rw [hv, List.countP_cons_of_neg (by simp)] at hq
  rw [hp, ← hq, List.countP_cons_of_pos rfl]

theorem countP_eraseIdx_some (h : l[i]? = some (some value)) :
    (l.eraseIdx i).countP Option.isNone = l.countP Option.isNone := by
  obtain ⟨hi, hv⟩ := List.getElem?_eq_some_iff.mp h
  have hq := (List.getElem_cons_eraseIdx_perm hi).countP_eq Option.isNone
  rwa [hv, List.countP_cons_of_neg (by simp)] at hq

theorem countP_eraseIdx_none (h : l[i]? = some none) :
    (l.eraseIdx i).countP Option.isNone + 1 = l.countP Option.isNone := by
  obtain ⟨hi, hv⟩ := List.getElem?_eq_some_iff.mp h
  have hq := (List.getElem_cons_eraseIdx_perm hi).countP_eq Option.isNone
  rwa [hv, List.countP_cons_of_pos rfl] at hq

theorem countP_erased (n i : ℕ) (frames : List Frame) :
    (frames.map (Frame.erased n i)).countP Frame.isSending = frames.countP Frame.isSending := by
  rw [List.countP_map]
  congr 1
  ext f
  cases f <;> rfl

theorem countP_pushed (frames : List Frame) :
    (frames.map Frame.pushed).countP Frame.isSending = frames.countP Frame.isSending := by
  rw [List.countP_map]
  congr 1
  ext f
  cases f <;> rfl

/-- The positions of the calls are those of values that were moved. -/
def Positioned (l : List (Option T)) (frames : List Frame) : Prop :=
  ∀ j, Frame.sending (some j) ∈ frames → l[j]? = some none

theorem Positioned.erased (h : Positioned l frames) (i : ℕ) :
    Positioned (l.eraseIdx i) (frames.map (Frame.erased l.length i)) := by
  intro j hj
  obtain ⟨f, hf, hfj⟩ := List.mem_map.mp hj
  cases f with
  | call => cases hfj
  | sending search =>
    obtain ⟨k, rfl, hk⟩ := Option.bind_eq_some_iff.mp (Frame.sending.inj hfj)
    have hnone := h k hf
    have hlt := (List.getElem?_eq_some_iff.mp hnone).1
    rw [List.getElem?_eraseIdx]
    split_ifs at hk with hki h0 hn
    · obtain rfl := Option.some.inj hk
      rw [if_neg (by omega), show k - 1 + 1 = k by omega]
      exact hnone
    · obtain rfl := Option.some.inj hk
      rw [if_pos (by omega)]
      exact hnone

theorem Positioned.pushed (l : List (Option T)) (frames : List Frame) :
    Positioned l (frames.map Frame.pushed) := by
  intro j hj
  obtain ⟨f, -, hfj⟩ := List.mem_map.mp hj
  cases f <;> cases hfj

theorem Positioned.sending (h : Positioned l frames) (hi : l[i]? = some (some value)) :
    Positioned (l.set i none) (.sending (some i) :: frames) := by
  obtain ⟨hlt, -⟩ := List.getElem?_eq_some_iff.mp hi
  intro j hj
  rcases List.mem_cons.mp hj with hj | hj
  · obtain rfl := Option.some.inj (Frame.sending.inj hj)
    simp [hlt]
  · have hnone := h j hj
    rw [List.getElem?_set_ne, hnone]
    rintro rfl
    rw [hi] at hnone
    cases hnone

end Positions

section Steps

variable {s t : Nested T κ} {e : Event T κ} {pred : Option (Option T → Bool)} {cb : κ}
variable {accepts : ComponentId → Bool} {com : ComponentId} {port : ℕ} {value : T}

structure Sound (s : Nested T κ) : Prop where
  conserved : ((s.mailbox.delivered.map Prod.fst ++ s.mailbox.buffer).reduceOption ++
    s.incoming).Perm s.arrived
  sent : ∀ p ∈ s.mailbox.delivered, p.1.isSome
  unseen : s.seen = false
  defined : s.undefined = false
  positioned : Positioned s.mailbox.buffer s.frames
  moved : s.mailbox.buffer.countP Option.isNone = s.frames.countP Frame.isSending

theorem Sound.exactlyOnce (h : Sound s) : ExactlyOnce s := by
  refine ⟨h.conserved, h.sent, h.unseen, h.defined, fun hidle hnone => ?_⟩
  have hzero := h.moved
  rw [hidle, List.countP_nil, List.countP_eq_zero] at hzero
  exact hzero none hnone rfl

theorem sound_start (requests : List (Request (Option T) κ)) (buffer incoming : List T)
    (active : Bool) : Sound (start requests buffer incoming active) := by
  constructor
  · simp [start, List.reduceOption, List.filterMap_map]
  · simp [start]
  · rfl
  · rfl
  · simp [start, Positioned]
  · simp [start, List.countP_map, Function.comp_def]

theorem look_of_not_mem (h : none ∉ s.mailbox.scanned pred) : s.look pred = s := by
  have hfalse : (s.mailbox.scanned pred).any Option.isNone = false := by
    rw [List.any_eq_false]
    rintro v hv hnone
    exact h (Option.isNone_iff_eq_none.mp hnone ▸ hv)
  simp [look, hfalse]

theorem seen_look (h : none ∈ s.mailbox.scanned pred) : (s.look pred).seen = true := by
  have htrue : (s.mailbox.scanned pred).any Option.isNone = true :=
    List.any_eq_true.mpr ⟨none, h, rfl⟩
  simp [look, htrue]

theorem find_cases (h : none ∉ s.mailbox.scanned pred) :
    s.mailbox.findInBuffer pred = none ∨
      ∃ i value, s.mailbox.findInBuffer pred = some i ∧ s.mailbox.buffer.get i = some value ∧
        s.mailbox.buffer[i.val]? = some (some value) := by
  rcases hf : s.mailbox.findInBuffer pred with _ | i
  · exact .inl rfl
  · right
    rcases hv : s.mailbox.buffer.get i with _ | value
    · apply absurd _ h
      simp only [Mailbox.scanned, hf]
      rw [← hv]
      apply List.mem_take_iff_getElem.mpr
      exact ⟨i, by simp, rfl⟩
    · refine ⟨i, value, rfl, hv, ?_⟩
      rw [List.getElem?_eq_getElem i.isLt]
      exact congrArg some hv

theorem Sound.store (h : Sound s) (req : Request (Option T) κ) : Sound (s.store req) :=
  ⟨h.conserved, h.sent, h.unseen, h.defined, h.positioned, h.moved⟩

theorem Sound.putRequest (h : Sound s) (cb : κ) (hpred : none ∉ s.mailbox.scanned pred) :
    Sound (s.putRequest pred cb) := by
  unfold Nested.putRequest
  rw [look_of_not_mem hpred]
  rcases find_cases hpred with hf | ⟨i, value, hf, hv, hi⟩
  · simp only [hf]
    exact h.store _
  · simp only [hf, hv]
    constructor
    · apply List.Perm.trans _ h.conserved
      apply List.Perm.append_right
      simp only [List.map_append, List.map_cons, List.map_nil, List.reduceOption_append,
        List.append_assoc]
      apply List.Perm.append_left
      exact perm_reduceOption_set hi
    · intro p hp
      rcases List.mem_append.mp hp with hp | hp
      · exact h.sent p hp
      · rw [List.mem_singleton.mp hp]
        rfl
    · exact h.unseen
    · exact h.defined
    · exact h.positioned.sending hi
    · dsimp only
      rw [countP_set hi, h.moved, List.countP_cons_of_pos rfl]

theorem Sound.putRequestTo (h : Sound s) (port : ℕ) (hpred : none ∉ s.mailbox.scanned pred)
    (hcom : (s.mailbox.findInBuffer pred).isSome → accepts com) :
    Sound (s.putRequestTo accepts pred com port) := by
  unfold Nested.putRequestTo
  rw [look_of_not_mem hpred]
  rcases find_cases hpred with hf | ⟨i, value, hf, hv, hi⟩
  · simp only [hf]
    exact h.store _
  · have hp : passthru accepts (.component com port : Destination κ) := hcom (by rw [hf]; rfl)
    simp only [hf, hv, hp, if_true]
    constructor
    · apply List.Perm.trans _ h.conserved
      apply List.Perm.append_right
      simp only [List.map_append, List.map_cons, List.map_nil, List.reduceOption_append,
        List.append_assoc]
      apply List.Perm.append_left
      exact perm_reduceOption_eraseIdx hi
    · intro p hp
      rcases List.mem_append.mp hp with hp | hp
      · exact h.sent p hp
      · rw [List.mem_singleton.mp hp]
        rfl
    · exact h.unseen
    · exact h.defined
    · intro j hj
      rcases List.mem_cons.mp hj with hj | hj
      · cases hj
      · exact h.positioned.erased i j hj
    · dsimp only
      rw [countP_eraseIdx_some hi, h.moved, List.countP_cons_of_neg (by simp [Frame.isSending]),
        countP_erased]

theorem perm_concat {new old arrived : List T} (h : new.Perm (value :: old))
    (hc : old.Perm arrived) : new.Perm (arrived ++ [value]) :=
  (h.trans (hc.cons value)).trans (List.perm_append_singleton value arrived).symm

theorem Sound.accept (h : Sound s) (accepts : ComponentId → Bool) (value : T) :
    Sound (s.accept accepts value) := by
  unfold Nested.accept
  dsimp only
  split_ifs with hactive hdelivered
  · obtain ⟨req, -, hb, hd⟩ := (s.mailbox.handOff_cases accepts (some value)).resolve_right
      fun hr => by simp [hr.1] at hdelivered
    constructor
    · dsimp only
      rw [hb, hd]
      apply perm_concat _ h.conserved
      simp only [List.map_append, List.map_cons, List.map_nil, List.reduceOption_append,
        List.append_assoc]
      exact List.perm_middle
    · dsimp only
      rw [hd]
      intro p hp
      rcases List.mem_append.mp hp with hp | hp
      · exact h.sent p hp
      · rw [List.mem_singleton.mp hp]
        rfl
    · exact h.unseen
    · exact h.defined
    · intro j hj
      dsimp only
      rw [hb]
      rcases List.mem_cons.mp hj with hj | hj
      · cases hj
      · exact h.positioned j hj
    · dsimp only
      rw [hb, h.moved, List.countP_cons_of_neg (by simp [Frame.isSending])]
  · obtain ⟨-, hb, hd⟩ := (s.mailbox.handOff_cases accepts (some value)).resolve_left
      fun ⟨_, hl, _⟩ => hdelivered hl
    constructor
    · dsimp only
      rw [hb, hd]
      apply perm_concat _ h.conserved
      rw [← List.append_assoc, List.reduceOption_append, List.append_assoc]
      exact List.perm_middle
    · dsimp only
      rw [hd]
      exact h.sent
    · exact h.unseen
    · exact h.defined
    · exact .pushed _ _
    · dsimp only
      rw [hb, countP_pushed, ← h.moved, List.countP_append]
      rfl
  · constructor
    · exact perm_concat List.perm_middle h.conserved
    · exact h.sent
    · exact h.unseen
    · exact h.defined
    · exact h.positioned
    · exact h.moved

theorem Sound.ret (h : Sound s) (hvalid : s.frames.head? ≠ some (.sending none))
    (ht : s.ret = some t) : Sound t := by
  unfold Nested.ret at ht
  have hpos := h.positioned
  have hmoved := h.moved
  split at ht
  · cases ht
  · rename_i frames hframes
    cases ht
    rw [hframes] at hpos hmoved
    refine ⟨h.conserved, h.sent, h.unseen, h.defined, fun j hj => ?_, ?_⟩
    · exact hpos j (List.mem_cons_of_mem _ hj)
    · rw [hmoved, List.countP_cons_of_neg (by simp [Frame.isSending])]
  · rename_i frames hframes
    rw [hframes] at hvalid
    exact absurd rfl hvalid
  · rename_i i frames hframes
    cases ht
    rw [hframes] at hpos hmoved
    have hi := hpos i List.mem_cons_self
    have hrest : Positioned s.mailbox.buffer frames := fun j hj =>
      hpos j (List.mem_cons_of_mem _ hj)
    constructor
    · apply List.Perm.trans _ h.conserved
      apply List.Perm.append_right
      simp only [List.reduceOption_append]
      apply List.Perm.append_left
      exact reduceOption_eraseIdx_none hi
    · exact h.sent
    · exact h.unseen
    · exact h.defined
    · exact hrest.erased i
    · rw [List.countP_cons_of_pos rfl, ← countP_eraseIdx_none hi] at hmoved
      dsimp only
      rw [countP_erased]
      exact Nat.succ.inj hmoved

theorem Sound.step (h : Sound s) (hm : s.Meets e) (ht : s.step e = some t) : Sound t := by
  cases e with
  | accept accepts value =>
    obtain rfl := Option.some.inj ht
    exact h.accept accepts value
  | putRequest pred cb =>
    obtain rfl := Option.some.inj ht
    exact h.putRequest cb hm
  | putRequestTo accepts pred com port =>
    obtain rfl := Option.some.inj ht
    exact h.putRequestTo port hm.1 hm.2
  | ret => exact h.ret hm ht

theorem seen_putRequest (h : none ∈ s.mailbox.scanned pred) (cb : κ) :
    (s.putRequest pred cb).seen = true := by
  have hseen := seen_look h
  unfold Nested.putRequest
  dsimp only
  split
  · exact hseen
  · split <;> exact hseen

theorem seen_putRequestTo (h : none ∈ s.mailbox.scanned pred) (accepts : ComponentId → Bool)
    (com : ComponentId) (port : ℕ) :
    (s.putRequestTo accepts pred com port).seen = true := by
  have hseen := seen_look h
  unfold Nested.putRequestTo
  dsimp only
  split
  · exact hseen
  · split
    · exact hseen
    · split_ifs <;> exact hseen

theorem not_conserved_putRequestTo (h : Sound s) (hpred : none ∉ s.mailbox.scanned pred)
    (hfound : (s.mailbox.findInBuffer pred).isSome) (hcom : ¬ accepts com) :
    ¬ ExactlyOnce (s.putRequestTo accepts pred com port) := by
  intro hgood
  have hc := hgood.conserved
  unfold Nested.putRequestTo at hc
  rw [look_of_not_mem hpred] at hc
  rcases find_cases hpred with hf | ⟨i, value, hf, hv, hi⟩
  · rw [hf] at hfound
    cases hfound
  · have hp : ¬ passthru accepts (.component com port : Destination κ) := hcom
    simp only [hf, hv, hp, Bool.false_eq_true, if_false] at hc
    have hlen := hc.length_eq.trans h.conserved.length_eq.symm
    have hperm := (perm_reduceOption_eraseIdx hi).length_eq
    simp only [List.reduceOption_append, List.length_append, List.length_cons] at hlen hperm
    omega

/-- A step that does not meet the condition breaks the property. -/
theorem not_exactlyOnce_of_not_meets (h : Sound s) (hm : ¬ s.Meets e) (ht : s.step e = some t) :
    ¬ ExactlyOnce t := by
  cases e with
  | accept accepts value => exact absurd trivial hm
  | putRequest pred cb =>
    obtain rfl := Option.some.inj ht
    intro hgood
    have hseen := seen_putRequest (not_not.mp hm) cb
    rw [hgood.unseen] at hseen
    cases hseen
  | putRequestTo accepts pred com port =>
    obtain rfl := Option.some.inj ht
    rcases not_and_or.mp hm with hm | hm
    · intro hgood
      have hseen := seen_putRequestTo (not_not.mp hm) accepts com port
      rw [hgood.unseen] at hseen
      cases hseen
    · by_cases hpred : none ∈ s.mailbox.scanned pred
      · intro hgood
        have hseen := seen_putRequestTo hpred accepts com port
        rw [hgood.unseen] at hseen
        cases hseen
      · obtain ⟨hfound, hcom⟩ := Classical.not_imp.mp hm
        exact not_conserved_putRequestTo h hpred hfound hcom
  | ret =>
    have hhead : s.frames.head? = some (.sending none) := not_not.mp hm
    obtain ⟨frames, hframes⟩ := List.head?_eq_some_iff.mp hhead
    have ht : s.ret = some t := ht
    rw [Nested.ret, hframes] at ht
    cases ht
    intro hgood
    cases hgood.defined

end Steps

section Runs

variable {requests : List (Request (Option T) κ)} {buffer incoming : List T} {active : Bool}
variable {es : List (Event T κ)} {s : Nested T κ}

/-- Every value is handed off exactly once, however the calls are nested, if and only if no
search comes to a value that is being sent, no buffered value is sent to a component that does not
accept it, and no call returns to a position that was invalidated. -/
theorem exactlyOnce_throughout_iff
    (h : Run (ofFun step) (start requests buffer incoming active) es s) :
    Throughout (ofFun step) ExactlyOnce (start requests buffer incoming active) es ↔
      Run (restrict (ofFun step) Meets) (start requests buffer incoming active) es s := by
  apply h.throughout_iff (I := Sound)
  · intro s e t u ht hu
    exact Option.some.inj (ht.symm.trans hu)
  · intro s e t hs hm ht
    exact hs.step hm ht
  · intro s hs
    exact hs.exactlyOnce
  · intro s e t hs hm ht
    exact not_exactlyOnce_of_not_meets hs hm ht
  · exact sound_start requests buffer incoming active

def inner : List (Event ℕ Unit) :=
  [.putRequest (some (· == some 7)) (), .putRequest (some (· == some 5)) (), .ret, .ret]

theorem exactlyOnce_inner :
    Throughout (ofFun step) ExactlyOnce (start [] [5, 7] [] true : Nested ℕ Unit) inner := by
  have h : Run (restrict (ofFun step) Meets) (start [] [5, 7] [] true : Nested ℕ Unit)
      [.putRequest (some (· == some 7)) ()] _ :=
    Run.nil.snoc_restrict (Event.putRequest (some (· == some 7)) ()) (by decide) rfl
  have h := h.snoc_restrict (Event.putRequest (some (· == some 5)) ()) (by decide) rfl
  have h := h.snoc_restrict Event.ret (by decide) rfl
  have h := h.snoc_restrict Event.ret (by decide) rfl
  exact (exactlyOnce_throughout_iff h.of_restrict).mpr h

/-- A callback puts a request for any value, and comes to the value that it was sent. -/
theorem not_exactlyOnce_putRequest : ¬ ∀ (es : List (Event ℕ Unit)) (s : Nested ℕ Unit),
    Run (ofFun step) (start [] [5, 7] [] true) es s → ExactlyOnce s := by
  intro hall
  have h : Run (ofFun step) (start [] [5, 7] [] true : Nested ℕ Unit)
      [.putRequest none (), .putRequest none ()] _ := run_of_exec rfl
  cases (hall _ _ h).unseen

end Runs

end Nested

end Hypercomm.Components
