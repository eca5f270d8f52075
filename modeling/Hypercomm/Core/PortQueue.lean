import Mathlib.Algebra.BigOperators.Group.Finset.Basic
import Mathlib.Algebra.Order.Ring.Nat
import Mathlib.Data.List.Nodup
import Mathlib.Data.List.ReduceOption
import Mathlib.Logic.Function.Basic
import Hypercomm.Transition.Run

/-! # Values that wait for their port

A value that is received on a port which is not open waits in the queue of the port, and the
queue is flushed when the port is opened. Whatever takes a value may call the locality before it
returns. The value that is being delivered stays in front of the queue, moved, until then, and the
flush goes on with the entry of the port that it began with.
-/

namespace Hypercomm

open Transition

/-- A port object. Ports are compared by value, and each object knows whether it is alive. -/
structure PortObject (π : Type*) where
  port : π
  id : ℕ
  deriving DecidableEq

namespace PortQueues

/-- A call that has not returned: the delivery of a value that was just received, or the flush
of a queue, with the number of the destination among those of the port. -/
inductive Frame (π : Type*)
  | call
  | flush (ours : PortObject π) (number : ℕ)

def Frame.port {π : Type*} : Frame π → Option π
  | call => none
  | flush ours _ => some ours.port

end PortQueues

/-- The entry ports of a locality, and the queues of the others. The values of a port are numbered
as they are received, and so are the destinations that it is opened to. What is received and
handed over is logged. -/
structure PortQueues (π D V : Type*) where
  alive : PortObject π → Bool := fun _ => false
  entryPorts : π → Option (PortObject π × D) := fun _ => none
  /-- the keys of the queues -/
  keys : Finset π := ∅
  portQueue : π → List (Option (ℕ × V)) := fun _ => []
  frames : List (PortQueues.Frame π) := []
  qdCreated : ℕ := 0
  qdProcessed : ℕ := 0
  opened : π → List D := fun _ => []
  received : π → List (ℕ × V) := fun _ => []
  handed : π → List ((ℕ × V) × ℕ) := fun _ => []
  /-- what the destructor sent back to the locality -/
  resent : π → List (ℕ × V) := fun _ => []
  cleared : Bool := false
  destroyed : Bool := false
  /-- a value was delivered after it was moved -/
  seen : Bool := false
  /-- a flush read the entry of its port after it was erased -/
  dangling : Bool := false

namespace PortQueues

variable {π D V : Type*} [DecidableEq π]

def flushing (s : PortQueues π D V) : List π := s.frames.filterMap Frame.port

def queued (s : PortQueues π D V) : ℕ := ∑ p ∈ s.keys, (s.portQueue p).length

def hand (s : PortQueues π D V) (p : π) (value : ℕ × V) (number : ℕ) : PortQueues π D V :=
  { s with handed := Function.update s.handed p (s.handed p ++ [(value, number)]) }

/-- The loop of `resync_port_queue`, up to the delivery of the next value. -/
def resyncPortQueue (s : PortQueues π D V) (ours : PortObject π) (number : ℕ) :
    PortQueues π D V :=
  match s.portQueue ours.port with
  | [] => { s with keys := s.keys.erase ours.port }
  | front :: buffer =>
      if s.alive ours then
        let s := { s with
          portQueue := Function.update s.portQueue ours.port (none :: buffer)
          frames := .flush ours number :: s.frames }
        match front with
        | some value => s.hand ours.port value number
        | none => { s with seen := true }
      else s

/-- It is fatal to open a port that is open. -/
def openPort (s : PortQueues π D V) (ours : PortObject π) (theirs : D) :
    Option (PortQueues π D V) :=
  match s.entryPorts ours.port with
  | some _ => none
  | none =>
      let s := { s with
        alive := Function.update s.alive ours true
        entryPorts := Function.update s.entryPorts ours.port (some (ours, theirs))
        opened := Function.update s.opened ours.port (s.opened ours.port ++ [theirs]) }
      some (s.resyncPortQueue ours (s.opened ours.port).length)

/-- The entry of an equal port is erased. -/
def invalidatePort (keepAlive : PortObject π → Bool) (s : PortQueues π D V)
    (port : PortObject π) : PortQueues π D V :=
  let alive := s.alive port && keepAlive port
  let s := { s with alive := Function.update s.alive port alive }
  if alive then s else { s with entryPorts := Function.update s.entryPorts port.port none }

def receive (s : PortQueues π D V) (p : π) (value : V) : PortQueues π D V :=
  let value := ((s.received p).length, value)
  let s := { s with received := Function.update s.received p (s.received p ++ [value]) }
  match s.entryPorts p with
  | none => { s with
      keys := insert p s.keys
      portQueue := Function.update s.portQueue p (s.portQueue p ++ [some value])
      qdCreated := s.qdCreated + 1 }
  | some _ => { s.hand p value (s.opened p).length with frames := .call :: s.frames }

/-- The entry that a flush began with is there. -/
def holds (s : PortQueues π D V) (ours : PortObject π) (number : ℕ) : Bool :=
  (s.entryPorts ours.port).isSome && (s.opened ours.port).length == number

/-- The innermost call returns. The value that was delivered is popped, and the flush reads the
entry of its port to go on. -/
def ret (s : PortQueues π D V) : Option (PortQueues π D V) :=
  match s.frames with
  | [] => none
  | .call :: frames => some { s with frames }
  | .flush ours number :: frames =>
      let s := { s with
        portQueue := Function.update s.portQueue ours.port (s.portQueue ours.port).tail
        qdProcessed := s.qdProcessed + 1
        frames }
      if s.holds ours number then some (s.resyncPortQueue ours number)
      else some { s with dangling := true }

/-- The destructor begins with the entry ports. Then it destroys the components, which may return
values. -/
def clear (s : PortQueues π D V) : Option (PortQueues π D V) :=
  match s.frames with
  | [] => some { s with
      entryPorts := fun _ => none
      cleared := true }
  | _ => none

/-- The destructor ends with the queues. -/
def dump (s : PortQueues π D V) : Option (PortQueues π D V) :=
  if s.cleared && s.frames.isEmpty then some { s with
      resent := fun p => if p ∈ s.keys then (s.portQueue p).reduceOption else []
      qdProcessed := s.qdProcessed + s.queued
      portQueue := fun _ => []
      keys := ∅
      destroyed := true }
  else none

inductive Event (π D V : Type*)
  | openPort (ours : PortObject π) (theirs : D)
  | invalidatePort (port : PortObject π)
  | receive (p : π) (value : V)
  | ret
  | clear
  | dump

def Event.on (p : π) : Event π D V → Option V
  | .receive q value => if q = p then some value else none
  | _ => none

/-- There are no calls after the destructor, and it opens no ports. -/
def step (keepAlive : PortObject π → Bool) (s : PortQueues π D V) (e : Event π D V) :
    Option (PortQueues π D V) :=
  if s.destroyed || s.dangling then none
  else match e with
    | .openPort ours theirs => if s.cleared then none else s.openPort ours theirs
    | .invalidatePort port => some (s.invalidatePort keepAlive port)
    | .receive p value => some (s.receive p value)
    | .ret => s.ret
    | .clear => s.clear
    | .dump => s.dump

/-- The values of a port are delivered once and in order, the rest wait, and only while the port
is not open or its queue is being flushed. -/
structure InOrder (s : PortQueues π D V) : Prop where
  order : ∀ p, s.received p =
    (s.handed p).map Prod.fst ++ s.resent p ++ (s.portQueue p).reduceOption
  unseen : s.seen = false
  sound : s.dangling = false
  settled : ∀ p ∉ s.flushing, (s.entryPorts p).isSome → s.portQueue p = []

/-- A call that a flush made does not return after the port was closed. -/
def Keeps (s : PortQueues π D V) : Event π D V → Prop
  | .ret => ∀ ours number, s.frames.head? = some (.flush ours number) → s.holds ours number
  | _ => True

/-- While a queue is being flushed its port is not closed, nor opened again, and nothing is received
on it if it is open and more values wait. -/
def Meets (s : PortQueues π D V) : Event π D V → Prop
  | .openPort ours _ => ours.port ∉ s.flushing
  | .receive p _ => p ∈ s.flushing → (s.entryPorts p).isSome → (s.portQueue p).length = 1
  | e => s.Keeps e

/-- The handling of a value does not receive on the port that is being flushed, or open it. -/
def Calm (s : PortQueues π D V) : Event π D V → Prop
  | .openPort ours _ => ours.port ∉ s.flushing
  | .receive p _ => p ∉ s.flushing
  | _ => True

/-- What holds of the ports, with the counts of the values, and of the destinations, which are
served one after another. -/
structure Lossless (s : PortQueues π D V) : Prop extends InOrder s where
  numbers : ∀ p, (s.handed p).Pairwise fun a b => a.2 ≤ b.2
  served : ∀ p, ∀ a ∈ s.handed p, 0 < a.2 ∧ a.2 ≤ (s.opened p).length
  counted : s.qdCreated = s.qdProcessed + s.queued
  keys : ∀ p ∉ s.keys, s.portQueue p = []
  resent : s.destroyed = true → ∀ p, s.received p = (s.handed p).map Prod.fst ++ s.resent p

section Steps

variable {keepAlive : PortObject π → Bool} {s t : PortQueues π D V} {e : Event π D V}
variable {ours port : PortObject π} {p : π} {value : V} {theirs : D} {number : ℕ}

/-- What holds at any point of a call, up to what the loop of a flush is about to do. -/
structure Consistent (s : PortQueues π D V) : Prop where
  order : ∀ p, s.received p =
    (s.handed p).map Prod.fst ++ s.resent p ++ (s.portQueue p).reduceOption
  unseen : s.seen = false
  sound : s.dangling = false
  fresh : ∀ p, ∀ x ∈ s.received p, x.1 < (s.received p).length
  nodup : s.flushing.Nodup
  front : ∀ p ∈ s.flushing, ∃ buffer, s.portQueue p = none :: buffer ∧ none ∉ buffer
  rest : ∀ p ∉ s.flushing, none ∉ s.portQueue p
  entry : ∀ p o d, s.entryPorts p = some (o, d) →
    o.port = p ∧ s.alive o = true ∧ 0 < (s.opened p).length
  holder : ∀ o n, .flush o n ∈ s.frames → (∀ o' d, s.entryPorts o.port = some (o', d) → o' = o) ∧
    0 < n ∧ n = (s.opened o.port).length
  numbers : ∀ p, (s.handed p).Pairwise fun a b => a.2 ≤ b.2
  served : ∀ p, ∀ a ∈ s.handed p, 0 < a.2 ∧ a.2 ≤ (s.opened p).length
  counted : s.qdCreated = s.qdProcessed + s.queued
  keys : ∀ p ∉ s.keys, s.portQueue p = []
  unsent : s.destroyed = false → ∀ p, s.resent p = []
  emptied : s.destroyed = true → ∀ p, s.portQueue p = []

def Settled (s : PortQueues π D V) (p : π) : Prop :=
  p ∉ s.flushing → (s.entryPorts p).isSome → s.portQueue p = []

structure Sound (s : PortQueues π D V) : Prop extends Consistent s where
  settled : ∀ p, s.Settled p

omit [DecidableEq π] in
theorem Sound.lossless (h : Sound s) : Lossless s := by
  refine ⟨⟨h.order, h.unseen, h.sound, h.settled⟩, h.numbers, h.served, h.counted, h.keys,
    fun hd p => ?_⟩
  have horder := h.order p
  rwa [h.emptied hd p, List.reduceOption_nil, List.append_nil] at horder

omit [DecidableEq π] in
theorem sound_start : Sound ({} : PortQueues π D V) := by
  refine ⟨⟨?_, rfl, rfl, ?_, List.nodup_nil, ?_, ?_, ?_, ?_, ?_, ?_, rfl, ?_, ?_, ?_⟩, ?_⟩ <;>
    simp [flushing, Settled]

theorem sum_update {α : Type*} (f : π → List α) (S : Finset π) (p : π) (l : List α)
    (h : p ∉ S → f p = []) :
    ∑ q ∈ insert p S, (Function.update f p l q).length + (f p).length =
      ∑ q ∈ S, (f q).length + l.length := by
  have hS : ∑ q ∈ insert p S, (f q).length = ∑ q ∈ S, (f q).length := by
    by_cases hp : p ∈ S
    · rw [Finset.insert_eq_of_mem hp]
    · rw [Finset.sum_insert hp, h hp, List.length_nil, Nat.zero_add]
  have hother : ∑ q ∈ (insert p S).erase p, (Function.update f p l q).length =
      ∑ q ∈ (insert p S).erase p, (f q).length := by
    apply Finset.sum_congr rfl
    intro q hq
    rw [Function.update_of_ne (Finset.ne_of_mem_erase hq)]
  rw [← hS, ← Finset.add_sum_erase _ _ (Finset.mem_insert_self p S),
    ← Finset.add_sum_erase _ (fun q => (f q).length) (Finset.mem_insert_self p S), hother,
    Function.update_self]
  omega

theorem queued_erase (h : s.portQueue p = []) :
    ∑ q ∈ s.keys.erase p, (s.portQueue q).length = s.queued := by
  apply Finset.sum_erase
  rw [h, List.length_nil]

theorem Consistent.mem_keys (h : Consistent s) (hq : s.portQueue p ≠ []) : p ∈ s.keys := by
  by_contra hp
  exact hq (h.keys p hp)

theorem Consistent.deliver {buffer : List (Option (ℕ × V))} {x : ℕ × V} (h : Consistent s)
    (hp : ours.port ∉ s.flushing)
    (hentry : ∀ o d, s.entryPorts ours.port = some (o, d) → o = ours) (hpos : 0 < number)
    (hn : number = (s.opened ours.port).length) (hlive : s.destroyed = false)
    (hq : s.portQueue ours.port = some x :: buffer) :
    Consistent (hand { s with
      portQueue := Function.update s.portQueue ours.port (none :: buffer)
      frames := .flush ours number :: s.frames } ours.port x number) := by
  have hbuffer : none ∉ buffer := by
    have hrest := h.rest _ hp
    rw [hq, List.mem_cons, not_or] at hrest
    exact hrest.2
  have hkey : insert ours.port s.keys = s.keys :=
    Finset.insert_eq_of_mem (h.mem_keys (by rw [hq]; exact List.cons_ne_nil _ _))
  constructor
  · intro p
    by_cases hpo : p = ours.port
    · subst hpo
      simp [hand, h.order ours.port, hq, h.unsent hlive]
    · simp [hand, hpo, h.order p]
  · exact h.unseen
  · exact h.sound
  · exact h.fresh
  · exact List.nodup_cons.mpr ⟨hp, h.nodup⟩
  · intro p hpf
    by_cases hpo : p = ours.port
    · subst hpo
      exact ⟨buffer, by simp [hand], hbuffer⟩
    · obtain ⟨b, hb, hnone⟩ := h.front p ((List.mem_cons.mp hpf).resolve_left hpo)
      exact ⟨b, by simp [hand, hpo, hb], hnone⟩
  · intro p hpf
    obtain ⟨hpo, hpf⟩ := List.ne_and_not_mem_of_not_mem_cons hpf
    simpa [hand, hpo] using h.rest p hpf
  · exact h.entry
  · intro o n hmem
    rcases List.mem_cons.mp hmem with heq | hmem
    · cases heq
      exact ⟨hentry, hpos, hn⟩
    · exact h.holder o n hmem
  · intro p
    by_cases hpo : p = ours.port
    · subst hpo
      simp only [hand, Function.update_self]
      apply List.pairwise_append.mpr
      refine ⟨h.numbers _, List.pairwise_singleton _ _, fun a ha b hb => ?_⟩
      rw [List.mem_singleton.mp hb, hn]
      exact (h.served _ a ha).2
    · simpa [hand, hpo] using h.numbers p
  · intro p a ha
    by_cases hpo : p = ours.port
    · subst hpo
      simp only [hand, Function.update_self] at ha
      rcases List.mem_append.mp ha with ha | ha
      · exact h.served _ a ha
      · rw [List.mem_singleton.mp ha]
        exact ⟨hpos, hn.le⟩
    · simp only [hand, Function.update_of_ne hpo] at ha
      exact h.served p a ha
  · have hsum := sum_update s.portQueue s.keys ours.port (none :: buffer) (h.keys _)
    rw [hkey, hq, List.length_cons, List.length_cons] at hsum
    rw [show s.qdCreated = _ from h.counted]
    exact congrArg _ (Nat.add_right_cancel hsum).symm
  · intro p hpk
    by_cases hpo : p = ours.port
    · subst hpo
      exact absurd (h.keys _ hpk) (by rw [hq]; exact List.cons_ne_nil _ _)
    · simpa [hand, hpo] using h.keys p hpk
  · exact h.unsent
  · intro hd
    rw [show s.destroyed = true from hd] at hlive
    cases hlive

/-- The loop of a flush ends with an empty queue or a closed port. -/
theorem Consistent.resyncPortQueue (h : Consistent s) (hp : ours.port ∉ s.flushing)
    (hentry : ∀ o d, s.entryPorts ours.port = some (o, d) → o = ours) (hpos : 0 < number)
    (hn : number = (s.opened ours.port).length) (hlive : s.destroyed = false)
    (hset : ∀ q ≠ ours.port, s.Settled q) : Sound (s.resyncPortQueue ours number) := by
  unfold PortQueues.resyncPortQueue
  split
  · rename_i hq
    constructor
    · refine { h with counted := ?_, keys := fun p hpk => ?_ }
      · rw [show s.qdCreated = _ from h.counted]
        exact congrArg _ (queued_erase hq).symm
      · by_cases hpo : p = ours.port
        · exact hpo ▸ hq
        · exact h.keys p fun hmem => hpk (Finset.mem_erase.mpr ⟨hpo, hmem⟩)
    · intro q
      by_cases hqo : q = ours.port
      · exact fun _ _ => hqo ▸ hq
      · exact hset q hqo
  · rename_i front buffer hq
    split_ifs with halive
    · rcases front with _ | x
      · exact absurd (by rw [hq]; exact List.mem_cons_self) (h.rest _ hp)
      · refine ⟨h.deliver hp hentry hpos hn hlive hq, fun q hqf hopen => ?_⟩
        obtain ⟨hqo, hqf⟩ := List.ne_and_not_mem_of_not_mem_cons hqf
        simpa [hand, hqo] using hset q hqo hqf hopen
    · refine ⟨h, fun q => ?_⟩
      by_cases hqo : q = ours.port
      · subst hqo
        intro _ hopen
        obtain ⟨⟨o, d⟩, ho⟩ := Option.isSome_iff_exists.mp hopen
        have halive' := (h.entry _ o d ho).2.1
        rw [hentry o d ho] at halive'
        exact absurd halive' halive
      · exact hset q hqo

theorem Sound.openPort (h : Sound s) (hlive : s.destroyed = false) (hm : ours.port ∉ s.flushing)
    (ht : s.openPort ours theirs = some t) : Sound t := by
  unfold PortQueues.openPort at ht
  split at ht
  · cases ht
  · rename_i hclosed
    obtain rfl := Option.some.inj ht
    apply Consistent.resyncPortQueue
    · refine { h.toConsistent with entry := ?_, holder := ?_, served := ?_ }
      · intro p o d hod
        by_cases hpo : p = ours.port
        · subst hpo
          dsimp only at hod
          rw [Function.update_self] at hod
          cases hod
          simp
        · dsimp only at hod
          rw [Function.update_of_ne hpo] at hod
          obtain ⟨hport, halive, hpos⟩ := h.entry p o d hod
          refine ⟨hport, ?_, ?_⟩
          · dsimp only
            rw [Function.update_of_ne, halive]
            rintro rfl
            exact hpo hport.symm
          · simpa [hpo] using hpos
      · intro o n hmem
        have hpo : o.port ≠ ours.port := by
          intro heq
          exact hm (heq ▸ List.mem_filterMap.mpr ⟨_, hmem, rfl⟩)
        dsimp only
        rw [Function.update_of_ne hpo, Function.update_of_ne hpo]
        exact h.holder o n hmem
      · intro p a ha
        obtain ⟨hpos, hle⟩ := h.served p a ha
        refine ⟨hpos, hle.trans ?_⟩
        by_cases hpo : p = ours.port
        · subst hpo
          simp
        · simp [hpo]
    · exact hm
    · intro o d hod
      dsimp only at hod
      rw [Function.update_self] at hod
      cases hod
      rfl
    · simp
    · rfl
    · exact hlive
    · intro q hqo hqf hopen
      dsimp only at hopen
      rw [Function.update_of_ne hqo] at hopen
      exact h.settled q hqf hopen

theorem Sound.invalidatePort (h : Sound s) (port : PortObject π) :
    Sound (s.invalidatePort keepAlive port) := by
  unfold PortQueues.invalidatePort
  dsimp only
  split_ifs with halive
  · have hsame : Function.update s.alive port (s.alive port && keepAlive port) = s.alive := by
      rw [Function.update_eq_self_iff, halive]
      exact ((Bool.and_eq_true _ _).mp halive).1.symm
    rw [hsame]
    exact h
  · refine ⟨{ h.toConsistent with entry := ?_, holder := ?_ }, fun q hqf hopen => ?_⟩
    · intro p o d hod
      have hpo : p ≠ port.port := by
        rintro rfl
        simp at hod
      dsimp only at hod
      rw [Function.update_of_ne hpo] at hod
      obtain ⟨hport, ho, hpos⟩ := h.entry p o d hod
      refine ⟨hport, ?_, hpos⟩
      dsimp only
      rw [Function.update_of_ne, ho]
      rintro rfl
      exact hpo hport.symm
    · intro o n hmem
      refine ⟨fun o' d hod => (h.holder o n hmem).1 o' d ?_, (h.holder o n hmem).2⟩
      have hpo : o.port ≠ port.port := by
        intro heq
        simp [heq] at hod
      dsimp only at hod
      rwa [Function.update_of_ne hpo] at hod
    · have hqo : q ≠ port.port := by
        rintro rfl
        simp at hopen
      dsimp only at hopen
      rw [Function.update_of_ne hqo] at hopen
      exact h.settled q hqf hopen

theorem fresh_concat {l : List (ℕ × V)} (h : ∀ x ∈ l, x.1 < l.length) (value : V) :
    ∀ x ∈ l ++ [(l.length, value)], x.1 < (l ++ [(l.length, value)]).length := by
  intro x hx
  rw [List.length_append, List.length_singleton]
  rcases List.mem_append.mp hx with hx | hx
  · exact Nat.lt_succ_of_lt (h x hx)
  · rw [List.mem_singleton.mp hx]
    exact Nat.lt_succ_self _

theorem Sound.enqueue (h : Sound s) (hlive : s.destroyed = false) (hclosed : s.entryPorts p = none)
    (value : V) : Sound (s.receive p value) := by
  unfold PortQueues.receive
  simp only [hclosed]
  have hne : s.portQueue p ++ [some ((s.received p).length, value)] ≠ [] := by simp
  refine ⟨⟨fun q => ?_, h.unseen, h.sound, fun q => ?_, h.nodup, fun q hqf => ?_, fun q hqf => ?_,
    h.entry, h.holder, h.numbers, h.served, ?_, fun q hqk => ?_, h.unsent, fun hd => ?_⟩,
    fun q hqf hopen => ?_⟩
  · by_cases hqp : q = p
    · subst hqp
      simp [h.order q, List.reduceOption_append]
    · simp [hqp, h.order q]
  · by_cases hqp : q = p
    · subst hqp
      simpa using fresh_concat (h.fresh q) value
    · simpa [hqp] using h.fresh q
  · obtain ⟨buffer, hq, hnone⟩ := h.front q hqf
    by_cases hqp : q = p
    · subst hqp
      exact ⟨buffer ++ [some ((s.received q).length, value)], by simp [hq], by simp [hnone]⟩
    · exact ⟨buffer, by simp [hqp, hq], hnone⟩
  · by_cases hqp : q = p
    · subst hqp
      simpa using h.rest q hqf
    · simpa [hqp] using h.rest q hqf
  · have hsum := sum_update s.portQueue s.keys p
      (s.portQueue p ++ [some ((s.received p).length, value)]) (h.keys p)
    rw [List.length_append, List.length_singleton] at hsum
    have hcounted := h.counted
    unfold queued at hcounted ⊢
    dsimp only
    omega
  · have hqp : q ≠ p := fun heq => hqk (heq ▸ Finset.mem_insert_self _ _)
    simpa [hqp] using h.keys q fun hmem => hqk (Finset.mem_insert_of_mem hmem)
  · rw [show s.destroyed = true from hd] at hlive
    cases hlive
  · have hqp : q ≠ p := by
      rintro rfl
      simp [hclosed] at hopen
    simpa [hqp] using h.settled q hqf hopen

theorem Sound.pass (h : Sound s) (hlive : s.destroyed = false) {o : PortObject π} {d : D}
    (hopen : s.entryPorts p = some (o, d)) (hbuffer : (s.portQueue p).reduceOption = [])
    (value : V) : Sound (s.receive p value) := by
  have hpos : 0 < (s.opened p).length := (h.entry p o d hopen).2.2
  unfold PortQueues.receive
  simp only [hopen]
  refine ⟨⟨fun q => ?_, h.unseen, h.sound, fun q => ?_, h.nodup, h.front, h.rest, h.entry, ?_,
    fun q => ?_, fun q a ha => ?_, h.counted, h.keys, h.unsent, h.emptied⟩, h.settled⟩
  · by_cases hqp : q = p
    · subst hqp
      simp [hand, h.order q, hbuffer, h.unsent hlive]
    · simp [hand, hqp, h.order q]
  · by_cases hqp : q = p
    · subst hqp
      simpa [hand] using fresh_concat (h.fresh q) value
    · simpa [hand, hqp] using h.fresh q
  · intro o n hmem
    rcases List.mem_cons.mp hmem with heq | hmem
    · cases heq
    · exact h.holder o n hmem
  · by_cases hqp : q = p
    · subst hqp
      simp only [hand, Function.update_self]
      apply List.pairwise_append.mpr
      refine ⟨h.numbers _, List.pairwise_singleton _ _, fun a ha b hb => ?_⟩
      rw [List.mem_singleton.mp hb]
      exact (h.served _ a ha).2
    · simpa [hand, hqp] using h.numbers q
  · by_cases hqp : q = p
    · subst hqp
      simp only [hand, Function.update_self] at ha
      rcases List.mem_append.mp ha with ha | ha
      · exact h.served _ a ha
      · rw [List.mem_singleton.mp ha]
        exact ⟨hpos, le_rfl⟩
    · simp only [hand, Function.update_of_ne hqp] at ha
      exact h.served q a ha

theorem Sound.receive (h : Sound s) (hlive : s.destroyed = false)
    (hm : p ∈ s.flushing → (s.entryPorts p).isSome → (s.portQueue p).length = 1) (value : V) :
    Sound (s.receive p value) := by
  rcases hopen : s.entryPorts p with _ | ⟨o, d⟩
  · exact h.enqueue hlive hopen value
  · apply h.pass hlive hopen
    have hsome : (s.entryPorts p).isSome = true := by
      rw [hopen]
      rfl
    by_cases hp : p ∈ s.flushing
    · obtain ⟨buffer, hq, -⟩ := h.front p hp
      have hlen := hm hp hsome
      rw [hq, List.length_cons, Nat.add_eq_right, List.length_eq_zero_iff] at hlen
      rw [hq, hlen]
      rfl
    · rw [h.settled p hp hsome]
      rfl

theorem Sound.ret (h : Sound s) (hlive : s.destroyed = false) (hk : s.Keeps (.ret : Event π D V))
    (ht : s.ret = some t) : Sound t := by
  unfold PortQueues.ret at ht
  split at ht
  · cases ht
  · rename_i frames hframes
    obtain rfl := Option.some.inj ht
    have hflush : s.flushing = frames.filterMap Frame.port := by
      rw [flushing, hframes]
      rfl
    have hnodup := h.nodup
    have hfront := h.front
    have hrest := h.rest
    have hsettled := h.settled
    unfold Settled at hsettled
    rw [hflush] at hnodup hfront hrest hsettled
    refine ⟨{ h.toConsistent with
      nodup := hnodup, front := hfront, rest := hrest, holder := fun o n hmem => ?_ }, hsettled⟩
    exact h.holder o n (hframes ▸ List.mem_cons_of_mem _ hmem)
  · rename_i ours number frames hframes
    have hholds : s.holds ours number = true := hk ours number (by rw [hframes]; rfl)
    obtain rfl := Option.some.inj ((if_pos hholds).symm.trans ht)
    have hflush : s.flushing = ours.port :: frames.filterMap Frame.port := by
      rw [flushing, hframes]
      rfl
    obtain ⟨hentry, hpos, hn⟩ := h.holder ours number (hframes ▸ List.mem_cons_self)
    obtain ⟨buffer, hq, hbuffer⟩ := h.front ours.port (hflush ▸ List.mem_cons_self)
    have hnodup := List.nodup_cons.mp (hflush ▸ h.nodup)
    have hkey : insert ours.port s.keys = s.keys :=
      Finset.insert_eq_of_mem (h.mem_keys (by rw [hq]; exact List.cons_ne_nil _ _))
    apply Consistent.resyncPortQueue
    · refine { h.toConsistent with
        order := fun p => ?_, nodup := hnodup.2, front := fun p hpf => ?_,
        rest := fun p hpf => ?_, holder := fun o n hmem => ?_, counted := ?_,
        keys := fun p hpk => ?_, emptied := fun hd => ?_ }
      · by_cases hpo : p = ours.port
        · subst hpo
          simp [h.order ours.port, hq, List.reduceOption]
        · simp [hpo, h.order p]
      · obtain ⟨b, hb, hnone⟩ := h.front p (hflush ▸ List.mem_cons_of_mem _ hpf)
        refine ⟨b, ?_, hnone⟩
        dsimp only
        rw [Function.update_of_ne, hb]
        rintro rfl
        exact hnodup.1 hpf
      · by_cases hpo : p = ours.port
        · subst hpo
          simpa [hq] using hbuffer
        · have hnot : p ∉ s.flushing := by
            rw [hflush, List.mem_cons, not_or]
            exact ⟨hpo, hpf⟩
          simpa [hpo] using h.rest p hnot
      · exact h.holder o n (hframes ▸ List.mem_cons_of_mem _ hmem)
      · have hsum := sum_update s.portQueue s.keys ours.port (s.portQueue ours.port).tail (h.keys _)
        have hcounted := h.counted
        rw [hkey, hq, List.length_cons, List.tail_cons] at hsum
        unfold queued at hcounted ⊢
        rw [hq, List.tail_cons]
        dsimp only
        omega
      · by_cases hpo : p = ours.port
        · subst hpo
          simp [h.keys _ hpk]
        · simpa [hpo] using h.keys p hpk
      · rw [show s.destroyed = true from hd] at hlive
        cases hlive
    · exact hnodup.1
    · exact hentry
    · exact hpos
    · exact hn
    · exact hlive
    · intro q hqo hqf hopen
      have hnot : q ∉ s.flushing := by
        rw [hflush, List.mem_cons, not_or]
        exact ⟨hqo, hqf⟩
      simpa [hqo] using h.settled q hnot hopen

omit [DecidableEq π] in
theorem Sound.clear (h : Sound s) (ht : s.clear = some t) : Sound t := by
  unfold PortQueues.clear at ht
  split at ht
  · obtain rfl := Option.some.inj ht
    refine ⟨{ h.toConsistent with entry := fun p o d hod => ?_, holder := fun o n hmem => ?_ },
      fun q hqf hopen => ?_⟩
    · cases hod
    · refine ⟨fun o' d hod => ?_, (h.holder o n hmem).2⟩
      cases hod
    · cases hopen
  · cases ht

theorem Sound.dump (h : Sound s) (hlive : s.destroyed = false) (ht : s.dump = some t) :
    Sound t := by
  unfold PortQueues.dump at ht
  split_ifs at ht with hidle
  obtain rfl := Option.some.inj ht
  have hframes : s.frames = [] := List.isEmpty_iff.mp ((Bool.and_eq_true _ _).mp hidle).2
  have hflush : s.flushing = [] := by
    rw [flushing, hframes]
    rfl
  refine ⟨{ h.toConsistent with
    order := fun p => ?_, front := fun p hpf => ?_, rest := fun p _ => List.not_mem_nil,
    counted := ?_, keys := fun _ _ => rfl, unsent := fun hd => ?_, emptied := fun _ _ => rfl },
    fun _ _ _ => rfl⟩
  · have horder := h.order p
    rw [h.unsent hlive, List.append_nil] at horder
    dsimp only
    split_ifs with hp
    · simpa using horder
    · simpa [h.keys p hp] using horder
  · have hpf : p ∈ s.flushing := hpf
    rw [hflush] at hpf
    cases hpf
  · simpa [queued] using h.counted
  · cases hd

theorem step_live (ht : s.step keepAlive e = some t) :
    s.destroyed = false ∧ s.dangling = false := by
  by_contra hend
  have hend : (s.destroyed || s.dangling) = true := by
    cases hd : s.destroyed <;> simp_all
  unfold PortQueues.step at ht
  rw [if_pos hend] at ht
  cases ht

theorem Sound.step (h : Sound s) (hm : s.Meets e) (ht : s.step keepAlive e = some t) :
    Sound t := by
  obtain ⟨hlive, hsound⟩ := step_live ht
  simp only [PortQueues.step, hlive, hsound, Bool.or_self, Bool.false_eq_true, if_false] at ht
  cases e with
  | openPort ours theirs =>
    dsimp only at ht
    split_ifs at ht
    exact h.openPort hlive hm ht
  | invalidatePort port =>
    obtain rfl := Option.some.inj ht
    exact h.invalidatePort port
  | receive p value =>
    obtain rfl := Option.some.inj ht
    exact h.receive hlive hm value
  | ret => exact h.ret hlive hm ht
  | clear => exact h.clear ht
  | dump => exact h.dump hlive ht

/-- A port that is opened again while its queue is flushed delivers the value in front. -/
theorem seen_openPort (h : Sound s) (hp : ours.port ∈ s.flushing)
    (ht : s.openPort ours theirs = some t) : t.seen = true := by
  unfold PortQueues.openPort at ht
  split at ht
  · cases ht
  · obtain rfl := Option.some.inj ht
    obtain ⟨buffer, hq, -⟩ := h.front _ hp
    simp [PortQueues.resyncPortQueue, hq]

theorem not_order_receive (h : Sound s) (hlive : s.destroyed = false) (hp : p ∈ s.flushing)
    (hopen : (s.entryPorts p).isSome) (hlen : (s.portQueue p).length ≠ 1) (value : V) :
    ¬ InOrder (s.receive p value) := by
  intro hgood
  obtain ⟨⟨o, d⟩, ho⟩ := Option.isSome_iff_exists.mp hopen
  obtain ⟨buffer, hq, hnone⟩ := h.front p hp
  have horder := hgood.order p
  have hbefore := h.order p
  rw [hq, List.reduceOption_cons_of_none, h.unsent hlive, List.append_nil] at hbefore
  simp only [PortQueues.receive, ho, hand, Function.update_self, List.map_append, List.map_cons,
    List.map_nil, hq, List.reduceOption_cons_of_none, h.unsent hlive, List.append_nil,
    hbefore, List.append_assoc, List.append_cancel_left_eq, List.singleton_append] at horder
  rcases buffer with _ | ⟨_ | x, buffer⟩
  · exact hlen (by rw [hq]; rfl)
  · exact hnone List.mem_cons_self
  · rw [List.reduceOption_cons_of_some, List.cons_append] at horder
    obtain ⟨heq, -⟩ := List.cons_eq_cons.mp horder
    have hx : x ∈ s.received p := by
      rw [h.order p, hq]
      exact List.mem_append_right _ List.mem_cons_self
    have hlt := h.fresh p x hx
    rw [heq, hbefore] at hlt
    exact absurd hlt (lt_irrefl _)

/-- A flush that goes on with a port which was closed reads an entry that was erased. -/
theorem dangling_ret (hk : ¬ s.Keeps (.ret : Event π D V)) (ht : s.ret = some t) :
    t.dangling = true := by
  simp only [Keeps, not_forall] at hk
  obtain ⟨ours, number, hhead, hholds⟩ := hk
  obtain ⟨frames, hframes⟩ := List.head?_eq_some_iff.mp hhead
  simp only [PortQueues.ret, hframes] at ht
  obtain rfl := Option.some.inj ((if_neg hholds).symm.trans ht)
  rfl

theorem not_inOrder_of_not_meets (h : Sound s) (hm : ¬ s.Meets e)
    (ht : s.step keepAlive e = some t) : ¬ InOrder t := by
  obtain ⟨hlive, hsound⟩ := step_live ht
  simp only [PortQueues.step, hlive, hsound, Bool.or_self, Bool.false_eq_true, if_false] at ht
  cases e with
  | openPort ours theirs =>
    dsimp only at ht
    split_ifs at ht
    intro hgood
    have hseen := seen_openPort h (not_not.mp hm) ht
    rw [hgood.unseen] at hseen
    cases hseen
  | receive p value =>
    obtain rfl := Option.some.inj ht
    obtain ⟨hp, hm⟩ := Classical.not_imp.mp hm
    obtain ⟨hopen, hlen⟩ := Classical.not_imp.mp hm
    exact not_order_receive h hlive hp hopen hlen value
  | ret =>
    intro hgood
    have hdangling := dangling_ret hm ht
    rw [hgood.sound] at hdangling
    cases hdangling
  | _ => exact absurd trivial hm

omit [DecidableEq π] in
theorem Calm.meets (h : s.Calm e) (hk : s.Keeps e) : s.Meets e := by
  cases e with
  | openPort ours theirs => exact h
  | receive p value => exact fun hp => absurd hp h
  | _ => exact hk

theorem received_step (ht : s.step keepAlive e = some t) (p : π) :
    t.received p = s.received p ++ ((e.on p).map fun v => ((s.received p).length, v)).toList := by
  obtain ⟨hlive, hsound⟩ := step_live ht
  simp only [PortQueues.step, hlive, hsound, Bool.or_self, Bool.false_eq_true, if_false] at ht
  have hresync (u : PortQueues π D V) (ours : PortObject π) (number : ℕ) :
      (u.resyncPortQueue ours number).received = u.received := by
    unfold resyncPortQueue
    split
    · rfl
    · split_ifs
      · split <;> rfl
      · rfl
  cases e with
  | openPort ours theirs =>
    simp only [PortQueues.openPort] at ht
    split_ifs at ht
    split at ht
    · cases ht
    · obtain rfl := Option.some.inj ht
      simp [hresync, Event.on]
  | invalidatePort port =>
    obtain rfl := Option.some.inj ht
    simp only [PortQueues.invalidatePort]
    split_ifs <;> simp [Event.on]
  | receive q value =>
    obtain rfl := Option.some.inj ht
    have hreceived : (s.receive q value).received =
        Function.update s.received q (s.received q ++ [((s.received q).length, value)]) := by
      unfold PortQueues.receive
      dsimp only
      split <;> rfl
    rw [hreceived]
    by_cases hpq : p = q
    · subst hpq
      simp [Event.on]
    · simp [Event.on, hpq, Ne.symm hpq]
  | ret =>
    simp only [PortQueues.ret] at ht
    split at ht
    · cases ht
    · obtain rfl := Option.some.inj ht
      simp [Event.on]
    · split_ifs at ht <;> obtain rfl := Option.some.inj ht <;> simp [hresync, Event.on]
  | clear =>
    simp only [PortQueues.clear] at ht
    split at ht <;> cases ht
    simp [Event.on]
  | dump =>
    simp only [PortQueues.dump] at ht
    split_ifs at ht
    obtain rfl := Option.some.inj ht
    simp [Event.on]

end Steps

section Runs

variable {keepAlive : PortObject π → Bool} {s : PortQueues π D V} {es : List (Event π D V)}

theorem received_run (h : Run (ofFun (step keepAlive)) {} es s) (p : π) :
    s.received p = (es.filterMap (Event.on p)).mapIdx Prod.mk := by
  apply Run.invariant_labels (I := fun es s => s.received p = (es.filterMap (Event.on p)).mapIdx
    Prod.mk) rfl _ h
  intro es s e t hs ht
  rw [received_step ht, hs, List.filterMap_append, List.mapIdx_append, List.length_mapIdx]
  congr 1
  cases he : Event.on p e <;> simp [he]

/-- Every value that was received on a port is handed over once and in order, or waits to be, and
is sent back if the locality is destroyed, if and only if no port is closed while its queue is being
flushed. -/
theorem lossless_throughout_iff (h : Run (restrict (ofFun (step keepAlive)) Calm) {} es s) :
    (∀ p, s.received p = (es.filterMap (Event.on p)).mapIdx Prod.mk) ∧
    (Throughout (restrict (ofFun (step keepAlive)) Calm) Lossless {} es ↔
      Run (restrict (restrict (ofFun (step keepAlive)) Calm) Keeps) {} es s) := by
  refine ⟨received_run h.of_restrict, ?_⟩
  apply h.throughout_iff (I := Sound)
  · intro s e t u ht hu
    exact Option.some.inj (ht.2.symm.trans hu.2)
  · intro s e t hs hk ht
    exact hs.step (ht.1.meets hk) ht.2
  · intro s hs
    exact hs.lossless
  · intro s e t hs hk ht hgood
    have hm : ¬ s.Meets e := by
      cases e with
      | ret => exact hk
      | _ => exact absurd trivial hk
    exact not_inOrder_of_not_meets hs hm ht.2 hgood.toInOrder
  · exact sound_start

omit [DecidableEq π] in
theorem keeps_ret [DecidableEq π] {ours : PortObject π} {number : ℕ} {frames : List (Frame π)}
    (hs : s.frames = .flush ours number :: frames) (hh : s.holds ours number = true) :
    s.Keeps (.ret : Event π D V) := by
  intro o n hhead
  rw [hs] at hhead
  cases hhead
  exact hh

theorem snoc_kept {t : PortQueues π D V}
    (h : Run (restrict (restrict (ofFun (step keepAlive)) Calm) Keeps) {} es s) (e : Event π D V)
    (hk : s.Keeps e) (hc : s.Calm e) (ht : s.step keepAlive e = some t) :
    Run (restrict (restrict (ofFun (step keepAlive)) Calm) Keeps) {} (es ++ [e]) t :=
  h.snoc ⟨hk, hc, ht⟩

/-- Two values wait for a port, which is closed later and opened again for a third one. -/
def reopened : List (Event ℕ Unit ℕ) :=
  [.receive 0 5, .receive 0 7, .openPort ⟨0, 0⟩ (), .ret, .ret, .invalidatePort ⟨0, 0⟩,
    .receive 0 9, .openPort ⟨0, 1⟩ (), .ret, .receive 1 4, .clear, .dump]

theorem lossless_reopened :
    Throughout (restrict (ofFun (step fun _ => false)) Calm) Lossless {} reopened := by
  have h : Run (restrict (restrict (ofFun (step fun _ => false)) Calm) Keeps)
      ({} : PortQueues ℕ Unit ℕ) [] _ := .nil
  have h := snoc_kept h (.receive 0 5) trivial List.not_mem_nil rfl
  have h := snoc_kept h (.receive 0 7) trivial List.not_mem_nil rfl
  have h := snoc_kept h (.openPort ⟨0, 0⟩ ()) trivial List.not_mem_nil rfl
  have h := snoc_kept h .ret (keeps_ret rfl rfl) trivial rfl
  have h := snoc_kept h .ret (keeps_ret rfl rfl) trivial rfl
  have h := snoc_kept h (.invalidatePort ⟨0, 0⟩) trivial trivial rfl
  have h := snoc_kept h (.receive 0 9) trivial List.not_mem_nil rfl
  have h := snoc_kept h (.openPort ⟨0, 1⟩ ()) trivial List.not_mem_nil rfl
  have h := snoc_kept h .ret (keeps_ret rfl rfl) trivial rfl
  have h := snoc_kept h (.receive 1 4) trivial List.not_mem_nil rfl
  have h := snoc_kept h .clear trivial trivial rfl
  have h := snoc_kept h .dump trivial trivial rfl
  exact (lossless_throughout_iff h.of_restrict).2.mpr h

/-- A destination that is given the value which waited for it closes its port. -/
theorem not_lossless_oneShot : ¬ ∀ (es : List (Event ℕ Unit ℕ)) (s : PortQueues ℕ Unit ℕ),
    Run (restrict (ofFun (step fun _ => false)) Calm) {} es s → Lossless s := by
  intro hall
  have h : Run (restrict (ofFun (step fun _ => false)) Calm) ({} : PortQueues ℕ Unit ℕ)
      [.receive 0 5] _ := Run.nil.snoc_restrict (Event.receive 0 5) List.not_mem_nil rfl
  have h := h.snoc_restrict (Event.openPort ⟨0, 0⟩ ()) List.not_mem_nil rfl
  have h := h.snoc_restrict (Event.invalidatePort ⟨0, 0⟩) trivial rfl
  have h := h.snoc_restrict Event.ret trivial rfl
  cases (hall _ _ h).sound

/-- The values of each port are handed over once and in order if and only if no port is closed or
opened while its queue is being flushed, and none receives a value then that passes others. -/
theorem portsInOrder_throughout_iff (h : Run (ofFun (step keepAlive)) {} es s) :
    (∀ p, s.received p = (es.filterMap (Event.on p)).mapIdx Prod.mk) ∧
    (Throughout (ofFun (step keepAlive)) InOrder {} es ↔
      Run (restrict (ofFun (step keepAlive)) Meets) {} es s) := by
  refine ⟨received_run h, ?_⟩
  apply h.throughout_iff (I := Sound)
  · intro s e t u ht hu
    exact Option.some.inj (ht.symm.trans hu)
  · intro s e t hs hm ht
    exact hs.step hm ht
  · intro s hs
    exact hs.lossless.toInOrder
  · intro s e t hs hm ht
    exact not_inOrder_of_not_meets hs hm ht
  · exact sound_start

def followUp : List (Event ℕ Unit ℕ) :=
  [.receive 0 5, .openPort ⟨0, 0⟩ (), .receive 0 7, .ret, .ret]

theorem inOrder_followUp : Throughout (ofFun (step fun _ => true)) InOrder {} followUp := by
  have h : Run (restrict (ofFun (step fun _ => true)) Meets) ({} : PortQueues ℕ Unit ℕ)
      [.receive 0 5] _ :=
    Run.nil.snoc_restrict (Event.receive 0 5) (fun hp => absurd hp List.not_mem_nil) rfl
  have h := h.snoc_restrict (Event.openPort ⟨0, 0⟩ ()) List.not_mem_nil rfl
  have h := h.snoc_restrict (Event.receive 0 7) (fun _ _ => rfl) rfl
  have h := h.snoc_restrict Event.ret (fun _ _ hhead => by cases hhead) rfl
  have h := h.snoc_restrict Event.ret (keeps_ret rfl rfl) rfl
  exact (portsInOrder_throughout_iff h.of_restrict).2.mpr h

/-- A destination closes its port, and the listener connects the next one to it. -/
theorem not_inOrder_successor : ¬ ∀ (es : List (Event ℕ Unit ℕ)) (s : PortQueues ℕ Unit ℕ),
    Run (ofFun (step fun _ => false)) {} es s → InOrder s := by
  intro hall
  have h : Run (ofFun (step fun _ => false)) ({} : PortQueues ℕ Unit ℕ)
      [.receive 0 5, .receive 0 7, .openPort ⟨0, 0⟩ (), .invalidatePort ⟨0, 0⟩,
        .openPort ⟨0, 1⟩ ()] _ := run_of_exec rfl
  cases (hall _ _ h).unseen

end Runs

end PortQueues

end Hypercomm
