import Mathlib.Logic.Function.Basic
import Hypercomm.Transition.Reader
import Hypercomm.Transition.Run

/-! # The tasks of a workgroup element

A task waits for one continuation at a time. A message for it is accepted when it
is for that continuation, and buffered otherwise. When a task moves on, the
buffered messages for its new continuation are replayed.
-/

namespace Hypercomm.Tasking

structure TaskId where
  host : BitVec 32
  task : BitVec 32
  deriving DecidableEq, Repr

/-- The type of a reference number. -/
abbrev ContinuationId := UInt16

abbrev TaskKind := BitVec 32

variable {σ Payload : Type*}

structure Task (σ : Type*) where
  state : σ
  active : Bool := true
  continuation : ContinuationId

/-- The registered constructors and continuations of all kinds of tasks. -/
structure Registry (σ Payload : Type*) where
  creator : TaskKind → Payload → Task σ
  continuation : ContinuationId → Task σ → Payload → Task σ

/-- A workgroup element, with the continuations it invoked under the task id that
was active then. The buffers of all tasks share one list. -/
structure Workgroup (σ Payload : Type*) where
  active : TaskId
  tasks : TaskId → Option (Task σ) := fun _ => none
  buffers : List (TaskId × ContinuationId × Payload) := []
  invoked : List (TaskId × ContinuationId × Payload) := []

inductive Event (Payload : Type*) where
  | create (tid : TaskId) (kind : TaskKind) (payload : Payload)
  /-- a task message, or a reduction message whose first element is the task id -/
  | resume (tid : TaskId) (cid : ContinuationId) (payload : Payload)
  /-- migration: `active_` is not among the members that are pup'd -/
  | pup (garbage : TaskId)

namespace Workgroup

def isFor (tid : TaskId) (cid : ContinuationId) (b : TaskId × ContinuationId × Payload) : Bool :=
  b.1 = tid ∧ b.2.1 = cid

def buffered (w : Workgroup σ Payload) (tid : TaskId) (cid : ContinuationId) : List Payload :=
  (w.buffers.filter (isFor tid cid)).map (·.2.2)

def popFront (w : Workgroup σ Payload) (tid : TaskId) (cid : ContinuationId) :
    Workgroup σ Payload :=
  { w with buffers := w.buffers.eraseP (isFor tid cid) }

def buffer (w : Workgroup σ Payload) (tid : TaskId) (cid : ContinuationId) (payload : Payload) :
    Workgroup σ Payload :=
  { w with buffers := w.buffers ++ [(tid, cid, payload)] }

variable (reg : Registry σ Payload)

/-- Invoke the continuation of the task, unless the message is out of order. Also
tells whether the task is still alive. -/
def accept (w : Workgroup σ Payload) (tid : TaskId) (cid : ContinuationId) (payload : Payload) :
    Option (Workgroup σ Payload × Bool) :=
  (w.tasks tid).bind fun task =>
    if task.continuation = cid then
      let w := { w with active := tid }
      let task := reg.continuation cid task payload
      some ({ w with
        tasks := Function.update w.tasks tid (if task.active then some task else none)
        invoked := w.invoked ++ [(w.active, cid, payload)] }, task.active)
    else none

/-- Replay buffered messages of the active task, at most as many as there are. -/
def tryContinue : ℕ → Workgroup σ Payload → Workgroup σ Payload
  | 0, w => w
  | n + 1, w =>
      match w.tasks w.active with
      | none => w
      | some task =>
          match w.buffered w.active task.continuation with
          | [] => w
          | payload :: _ =>
              match w.accept reg w.active task.continuation payload with
              | none => w
              | some (w', keep) =>
                  let w' := w'.popFront w.active task.continuation
                  if keep then tryContinue n w' else w'

/-- Creating a task fails when its id is taken. -/
def create (w : Workgroup σ Payload) (tid : TaskId) (kind : TaskKind) (payload : Payload) :
    Option (Workgroup σ Payload) :=
  let w := { w with active := tid }
  let task := reg.creator kind payload
  if task.active then
    if (w.tasks tid).isSome then none
    else some (tryContinue reg w.buffers.length
      { w with tasks := Function.update w.tasks tid (some task) })
  else some w

def resume (w : Workgroup σ Payload) (tid : TaskId) (cid : ContinuationId) (payload : Payload) :
    Workgroup σ Payload :=
  match w.accept reg tid cid payload with
  | none => w.buffer tid cid payload
  | some (w, keep) => if keep then tryContinue reg w.buffers.length w else w

def step (w : Workgroup σ Payload) : Event Payload → Option (Workgroup σ Payload)
  | .create tid kind payload => w.create reg tid kind payload
  | .resume tid cid payload => some (w.resume reg tid cid payload)
  | .pup garbage => some { w with active := garbage }

end Workgroup

end Hypercomm.Tasking
