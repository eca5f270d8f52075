import Mathlib.Data.Multiset.Basic
import Mathlib.Logic.Function.Basic
import Hypercomm.Transition.Chain
import Hypercomm.Transition.Run

/-! # The interceptor of one PE

A message for an index is handed to the local element, sent to the last known PE
of the element, or buffered at the home PE of the index. Forwarding records, kept
at the home PE of an index, redirect its messages to another index.
-/

namespace Hypercomm.Interceptor

variable {Idx Msg : Type*}

/-- What the location manager of this PE knows about an index. -/
inductive Location
  /-- the element is local -/
  | here
  /-- the index has an id, and the cache an entry for it unless that is missing -/
  | cached (pe : Option ℕ)
  /-- the index has no id -/
  | unknown
  deriving DecidableEq, Repr

/-- The interceptor of a PE, the location manager it consults, and a log of where
the messages went. -/
structure Branch (Idx Msg : Type*) where
  fwdReqs : List (Idx × Idx) := []
  queued : List (Idx × Msg) := []
  qdCreated : ℕ := 0
  qdProcessed : ℕ := 0
  location : Idx → Location := fun _ => .unknown
  /-- the elements whose creation this PE has processed -/
  created : Idx → Bool := fun _ => false
  given : List Msg := []
  received : List (Idx × Msg) := []
  /-- deliveries to local elements, waiting in the queue of this PE -/
  pushed : List (Idx × Msg) := []
  sent : List (ℕ × Idx × Msg) := []

inductive Stop
  | duplicateForwardingRequest
  /-- a call that never returns -/
  | endless
  deriving DecidableEq, Repr

namespace Branch

variable [DecidableEq Idx]

def record (s : Branch Idx Msg) (idx : Idx) : Option Idx := s.fwdReqs.lookup idx

/-- Recursively unravel forwarding requests until the destination is found. -/
def dealias (s : Branch Idx Msg) (idx : Idx) : Option Idx :=
  Transition.follow s.record (s.fwdReqs.length + 1) idx

/-- `delivery::process`: run the element now, or push the message onto its PE. -/
def process (s : Branch Idx Msg) (idx : Idx) (msg : Msg) (immediate : Bool) : Branch Idx Msg :=
  if immediate then { s with received := s.received ++ [(idx, msg)] }
  else { s with pushed := s.pushed ++ [(idx, msg)] }

section Pe

variable (mine : ℕ) (home : Idx → ℕ)

/-- The last known PE of an index, and its home PE when that was computed. -/
def lookupOrUpdate (s : Branch Idx Msg) (idx : Idx) : Branch Idx Msg × ℕ × Option ℕ :=
  match s.location idx with
  | .cached none =>
      ({ s with location := Function.update s.location idx (.cached (some (home idx))) },
        home idx, some (home idx))
  | .cached (some pe) => (s, pe, if pe = mine then some (home idx) else none)
  | _ => (s, home idx, some (home idx))

def deliver (s : Branch Idx Msg) (pre : Idx) (msg : Msg) (immediate : Bool) :
    Option (Branch Idx Msg) :=
  (s.dealias pre).bind fun post =>
    if s.location post = .here then some (s.process post msg immediate) else
      let (s, lastPe, homePe) := s.lookupOrUpdate mine home post
      if mine = lastPe ∧ some lastPe = homePe then
        some { s with queued := s.queued ++ [(post, msg)], qdCreated := s.qdCreated + 1 }
      -- a message sent to this very PE is delivered here again, and again
      else if lastPe = mine then none
      else some { s with sent := s.sent ++ [(lastPe, post, msg)] }

def redeliver (idx : Idx) (s : Branch Idx Msg) (msg : Msg) : Option (Branch Idx Msg) :=
  (s.deliver mine home idx msg true).map fun s => { s with qdProcessed := s.qdProcessed + 1 }

/-- Try to send any messages buffered for a given index. -/
def resyncQueue (s : Branch Idx Msg) (idx : Idx) : Option (Branch Idx Msg) :=
  ((s.queued.filter (·.1 = idx)).map Prod.snd).foldlM (redeliver mine home idx)
    { s with queued := s.queued.filter (·.1 ≠ idx) }

/-- Away from the home PE of the index, the request is passed on to it. -/
def forward (s : Branch Idx Msg) (src dst : Idx) : Except Stop (Branch Idx Msg) :=
  if home src = mine then
    match s.record src with
    | none =>
        match resyncQueue mine home { s with fwdReqs := (src, dst) :: s.fwdReqs } src with
        | some s => .ok s
        | none => .error .endless
    | some _ => .error .duplicateForwardingRequest
  else .ok s

def stopForwarding (s : Branch Idx Msg) (idx : Idx) : Branch Idx Msg :=
  if home idx = mine then { s with fwdReqs := s.fwdReqs.filter (·.1 ≠ idx) } else s

end Pe

end Branch

/-- What can happen on a PE. The location in the last three is what the location
manager of this PE knows from then on. -/
inductive Event (Idx Msg : Type*) where
  | deliver (idx : Idx) (msg : Msg) (immediate : Bool)
  /-- the scheduler runs a pushed delivery -/
  | handle (idx : Idx) (msg : Msg)
  | forward (src dst : Idx)
  | stopForwarding (idx : Idx)
  | create (idx : Idx) (l : Location)
  | destroy (idx : Idx) (l : Location)
  | locate (idx : Idx) (l : Location)

section Step

variable [DecidableEq Idx] [DecidableEq Msg] (mine : ℕ) (home : Idx → ℕ)

def orEndless {σ : Type*} : Option σ → Except Stop σ
  | some s => .ok s
  | none => .error .endless

def step (s : Branch Idx Msg) : Event Idx Msg → Except Stop (Branch Idx Msg)
  | .deliver idx msg immediate =>
      orEndless (Branch.deliver mine home { s with given := s.given ++ [msg] } idx msg immediate)
  | .handle idx msg =>
      let s := { s with pushed := s.pushed.erase (idx, msg) }
      orEndless (Branch.deliver mine home s idx msg true)
  | .forward src dst => s.forward mine home src dst
  | .stopForwarding idx => .ok (s.stopForwarding mine home idx)
  | .create idx l =>
      .ok (Branch.stopForwarding mine home { s with
        location := Function.update s.location idx l
        created := Function.update s.created idx true } idx)
  | .destroy idx l =>
      .ok { s with
        location := Function.update s.location idx l
        created := Function.update s.created idx false }
  | .locate idx l => .ok { s with location := Function.update s.location idx l }

/-- The element is local, or the cache names the other PE that hosts it. -/
def Location.Tracked (l : Location) : Prop := l = .here ∨ ∃ pe ≠ mine, l = .cached (some pe)

/-- What the location manager promises: the cache of this PE never names this PE for
an element that is not local, except as its home, and the home PE keeps track of
the elements whose creation it has processed. -/
def Permitted (s : Branch Idx Msg) : Event Idx Msg → Prop
  | .handle idx msg => (idx, msg) ∈ s.pushed
  | .create idx l => l = .here ∨ home idx = mine ∧ l.Tracked mine
  | .destroy idx l => l ≠ .here ∧ (l = .cached (some mine) → home idx = mine)
  | .locate idx l => (l = .cached (some mine) → home idx = mine) ∧
      (home idx = mine → s.created idx = true → l.Tracked mine)
  | _ => True

def Step (s : Branch Idx Msg) (e : Event Idx Msg) (t : Branch Idx Msg) : Prop :=
  Permitted mine home s e ∧ step mine home s e = .ok t

end Step

end Hypercomm.Interceptor
