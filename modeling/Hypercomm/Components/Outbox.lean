import Mathlib.Data.List.FinRange
import Mathlib.Logic.Function.Basic
import Mathlib.Tactic.SplitIfs
import Hypercomm.Transition.Run

/-! # Outputs

A component relays each value that it produces to the destination of the output, and
buffers the value if the output has no destination or if the destination refuses. The
buffer is flushed when an active component is connected, and at no other time.
-/

namespace Hypercomm.Components

open Transition

/-- A component as its outputs see it. A destination refuses once it has taken as many
values as it is willing to. What was produced and delivered is logged. -/
structure Producer (m : ℕ) (V D : Type*) where
  active : Bool := false
  activated : Bool := false
  persistent : Bool := false
  connectors : Fin m → Option D := fun _ => none
  buffer : Fin m → List V := fun _ => []
  willing : D → ℕ
  produced : Fin m → List V := fun _ => []
  delivered : Fin m → List V := fun _ => []

namespace Producer

variable {m : ℕ} {V D : Type*} [DecidableEq D]

def passthru (s : Producer m V D) (dst : D) : Option (Producer m V D) :=
  if s.willing dst = 0 then none
  else some { s with willing := Function.update s.willing dst (s.willing dst - 1) }

def relay (s : Producer m V D) (o : Fin m) (dst : D) (val : V) : Option (Producer m V D) :=
  (s.passthru dst).map fun s =>
    { s with delivered := Function.update s.delivered o (s.delivered o ++ [val]) }

def deliver (s : Producer m V D) (o : Fin m) (val : V) : Producer m V D :=
  let s := { s with produced := Function.update s.produced o (s.produced o ++ [val]) }
  ((s.connectors o).bind fun dst => s.relay o dst val).getD
    { s with buffer := Function.update s.buffer o (s.buffer o ++ [val]) }

def unspool (s : Producer m V D) (vals : Fin m → V) : Producer m V D :=
  (List.finRange m).foldl (fun s o => s.deliver o (vals o)) s

def flushFrom (o : Fin m) (dst : D) : List V → Producer m V D → Producer m V D
  | [], s => { s with buffer := Function.update s.buffer o [] }
  | val :: buf, s =>
      match s.relay o dst val with
      | some s => flushFrom o dst buf s
      | none => { s with buffer := Function.update s.buffer o (val :: buf) }

def tryFlush (s : Producer m V D) (o : Fin m) (dst : D) : Producer m V D :=
  flushFrom o dst (s.buffer o) s

/-- Null is passed to the destination that an output had before. -/
def connectTo (s : Producer m V D) (o : Fin m) (dst : D) : Producer m V D :=
  let s := ((s.connectors o).bind s.passthru).getD s
  { s with connectors := Function.update s.connectors o (some dst) }

/-- It is asserted that an active component has no other destination for the output. -/
def outputTo (s : Producer m V D) (o : Fin m) (dst : D) : Option (Producer m V D) :=
  if s.active && (s.connectors o).isSome then none
  else if s.active then some ((s.connectTo o dst).tryFlush o dst)
  else some (s.connectTo o dst)

def empty (s : Producer m V D) : Bool := decide (∀ o, s.buffer o = [])

def collectible (s : Producer m V D) : Bool := s.activated && !s.active && s.empty

/-- The action runs on a component that is active, and produces a value for each output. -/
def action (s : Producer m V D) (vals : Fin m → V) : Option (Producer m V D) :=
  if s.active then
    let s := s.unspool vals
    some (if s.persistent then s else { s with active := false })
  else none

def activate (s : Producer m V D) : Option (Producer m V D) :=
  if s.active then none
  else some { s with
    active := true
    activated := true }

/-- The destinations change on their own. -/
inductive Event (m : ℕ) (V D : Type*)
  | activate
  | action (vals : Fin m → V)
  | outputTo (o : Fin m) (dst : D)
  | allow (dst : D) (k : ℕ)

def step (s : Producer m V D) : Event m V D → Option (Producer m V D)
  | .activate => s.activate
  | .action vals => s.action vals
  | .outputTo o dst => s.outputTo o dst
  | .allow dst k => some { s with willing := Function.update s.willing dst k }

/-- What was delivered is a prefix of what was produced, and all of it once the output is
connected and the destination does not refuse. Then a component that is through is
collectible. -/
structure InOrder (s : Producer m V D) : Prop where
  delivered : ∀ o, s.delivered o <+: s.produced o
  complete : ∀ o dst, s.connectors o = some dst → s.willing dst ≠ 0 →
    s.delivered o = s.produced o
  collectible : s.activated = true → s.active = false →
    (∀ o, ∃ dst, s.connectors o = some dst ∧ s.willing dst ≠ 0) → s.collectible = true

/-- No destination begins to accept what is buffered: the output of a component that is not
active is connected to it, or it does not refuse any more. -/
def Meets (s : Producer m V D) : Event m V D → Prop
  | .outputTo o dst => s.active = true ∨ s.buffer o = [] ∨ s.willing dst = 0
  | .allow dst k => k = 0 ∨ ∀ o, s.connectors o = some dst → s.buffer o = []
  | _ => True

section Sound

variable {s t : Producer m V D} {o : Fin m} {dst : D} {val : V} {vals : Fin m → V}

/-- Every value that was produced is delivered or buffered, and buffered only if it has no
destination or is refused. -/
structure Sound (s : Producer m V D) : Prop where
  conserved : ∀ o, s.produced o = s.delivered o ++ s.buffer o
  flushed : ∀ o dst, s.connectors o = some dst → s.willing dst ≠ 0 → s.buffer o = []

omit [DecidableEq D] in
theorem Sound.inOrder (h : Sound s) : InOrder s := by
  refine ⟨fun o => ?_, fun o dst hc hw => ?_, fun hact hin hall => ?_⟩
  · rw [h.conserved o]
    exact List.prefix_append _ _
  · rw [h.conserved o, h.flushed o dst hc hw, List.append_nil]
  · have hempty : s.empty = true := by
      apply decide_eq_true
      intro o
      obtain ⟨dst, hc, hw⟩ := hall o
      exact h.flushed o dst hc hw
    simp [Producer.collectible, hact, hin, hempty]

theorem passthru_eq_some (h : s.passthru dst = some t) :
    s.willing dst ≠ 0 ∧
      t = { s with willing := Function.update s.willing dst (s.willing dst - 1) } := by
  unfold passthru at h
  split_ifs at h with hw
  cases h
  exact ⟨hw, rfl⟩

theorem passthru_eq_none (h : s.passthru dst = none) : s.willing dst = 0 := by
  unfold passthru at h
  split_ifs at h with hw
  exact hw

theorem willing_of_update {w : D → ℕ} {d : D}
    (h : Function.update w dst (w dst - 1) d ≠ 0) : w d ≠ 0 := by
  by_cases hd : d = dst
  · subst hd
    rw [Function.update_self] at h
    omega
  · rwa [Function.update_of_ne hd] at h

theorem deliver_of_accepted (hc : s.connectors o = some dst) (hw : s.willing dst ≠ 0) :
    s.deliver o val = { s with
      willing := Function.update s.willing dst (s.willing dst - 1)
      produced := Function.update s.produced o (s.produced o ++ [val])
      delivered := Function.update s.delivered o (s.delivered o ++ [val]) } := by
  simp [Producer.deliver, relay, passthru, hc, hw]

theorem deliver_of_refused (h : ∀ dst, s.connectors o = some dst → s.willing dst = 0) :
    s.deliver o val = { s with
      buffer := Function.update s.buffer o (s.buffer o ++ [val])
      produced := Function.update s.produced o (s.produced o ++ [val]) } := by
  rcases hc : s.connectors o with _ | dst
  · simp [Producer.deliver, hc]
  · simp [Producer.deliver, relay, passthru, hc, h dst hc]

theorem Sound.deliver (h : Sound s) (o : Fin m) (val : V) : Sound (s.deliver o val) := by
  by_cases hr : ∃ dst, s.connectors o = some dst ∧ s.willing dst ≠ 0
  · obtain ⟨dst, hc, hw⟩ := hr
    rw [deliver_of_accepted hc hw]
    constructor
    · intro o'
      by_cases ho : o' = o
      · subst ho
        simp [h.conserved o', h.flushed o' dst hc hw]
      · simpa [Function.update_of_ne ho] using h.conserved o'
    · intro o' dst' hc' hw'
      exact h.flushed o' dst' hc' (willing_of_update hw')
  · have hrefused : ∀ dst, s.connectors o = some dst → s.willing dst = 0 := by
      intro dst hc
      by_contra hw
      exact hr ⟨dst, hc, hw⟩
    rw [deliver_of_refused hrefused]
    constructor
    · intro o'
      by_cases ho : o' = o
      · subst ho
        simp [h.conserved o']
      · simpa [Function.update_of_ne ho] using h.conserved o'
    · intro o' dst' hc' hw'
      have ho : o' ≠ o := by
        rintro rfl
        exact hw' (hrefused dst' hc')
      simpa [Function.update_of_ne ho] using h.flushed o' dst' hc' hw'

theorem Sound.unspool (h : Sound s) (vals : Fin m → V) : Sound (s.unspool vals) := by
  unfold Producer.unspool
  induction List.finRange m generalizing s with
  | nil => exact h
  | cons o os ih => exact ih (h.deliver o (vals o))

theorem Sound.action (h : Sound s) (ht : s.action vals = some t) : Sound t := by
  unfold Producer.action at ht
  split_ifs at ht
  have hu := h.unspool vals
  obtain rfl := Option.some.inj ht
  split_ifs
  · exact hu
  · exact ⟨hu.conserved, hu.flushed⟩

structure Flushed (o : Fin m) (dst : D) (buf : List V) (s t : Producer m V D) : Prop where
  connectors : t.connectors = s.connectors
  produced : t.produced = s.produced
  buffer_of_ne : ∀ o', o' ≠ o → t.buffer o' = s.buffer o'
  delivered_of_ne : ∀ o', o' ≠ o → t.delivered o' = s.delivered o'
  conserved : t.delivered o ++ t.buffer o = s.delivered o ++ buf
  willing : ∀ d, t.willing d ≠ 0 → s.willing d ≠ 0
  flushed : t.willing dst ≠ 0 → t.buffer o = []

theorem flushed_flushFrom (o : Fin m) (dst : D) (buf : List V) (s : Producer m V D) :
    Flushed o dst buf s (flushFrom o dst buf s) := by
  induction buf generalizing s with
  | nil =>
    refine ⟨rfl, rfl, fun o' ho => ?_, fun o' _ => rfl, ?_, fun d h => h, fun _ => ?_⟩
    · exact Function.update_of_ne ho _ _
    · simp [flushFrom]
    · simp [flushFrom]
  | cons val buf ih =>
    rcases hr : s.relay o dst val with _ | u
    · have hw : s.willing dst = 0 := passthru_eq_none (Option.map_eq_none_iff.mp hr)
      have hf : flushFrom o dst (val :: buf) s =
          { s with buffer := Function.update s.buffer o (val :: buf) } := by
        rw [flushFrom, hr]
      rw [hf]
      refine ⟨rfl, rfl, fun o' ho => ?_, fun o' _ => rfl, ?_, fun d h => h, fun h => ?_⟩
      · exact Function.update_of_ne ho _ _
      · simp
      · exact absurd hw h
    · obtain ⟨v, hv, hu⟩ := Option.map_eq_some_iff.mp hr
      obtain ⟨hw, rfl⟩ := passthru_eq_some hv
      have hf : flushFrom o dst (val :: buf) s = flushFrom o dst buf u := by
        rw [flushFrom, hr]
      have hi := ih u
      subst hu
      rw [hf]
      refine ⟨hi.connectors, hi.produced, hi.buffer_of_ne, fun o' ho => ?_, ?_, fun d h => ?_,
        hi.flushed⟩
      · rw [hi.delivered_of_ne o' ho]
        exact Function.update_of_ne ho _ _
      · rw [hi.conserved]
        simp
      · exact willing_of_update (hi.willing d h)

theorem Sound.tryFlush (h : ∀ o, s.produced o = s.delivered o ++ s.buffer o)
    (ho : ∀ o' dst', o' ≠ o → s.connectors o' = some dst' → s.willing dst' ≠ 0 →
      s.buffer o' = []) (hc : s.connectors o = some dst) : Sound (s.tryFlush o dst) := by
  have hf := flushed_flushFrom o dst (s.buffer o) s
  constructor
  · intro o'
    rw [Producer.tryFlush, hf.produced, h o']
    by_cases hne : o' = o
    · rw [hne, hf.conserved]
    · rw [hf.delivered_of_ne o' hne, hf.buffer_of_ne o' hne]
  · intro o' dst' hc' hw
    rw [Producer.tryFlush, hf.connectors] at hc'
    by_cases hne : o' = o
    · subst hne
      obtain rfl := Option.some.inj (hc.symm.trans hc')
      exact hf.flushed hw
    · rw [Producer.tryFlush, hf.buffer_of_ne o' hne]
      exact ho o' dst' hne hc' (hf.willing dst' hw)

theorem exists_connectTo (s : Producer m V D) (o : Fin m) (dst : D) :
    ∃ w, s.connectTo o dst = { s with
      willing := w
      connectors := Function.update s.connectors o (some dst) } ∧
      (∀ d, w d ≠ 0 → s.willing d ≠ 0) ∧ ∀ d, s.connectors o ≠ some d → w d = s.willing d := by
  unfold connectTo
  rcases hc : s.connectors o with _ | old
  · exact ⟨s.willing, rfl, fun d h => h, fun d _ => rfl⟩
  · rcases hp : s.passthru old with _ | u
    · exact ⟨s.willing, by simp [hp], fun d h => h, fun d _ => rfl⟩
    · obtain ⟨-, rfl⟩ := passthru_eq_some hp
      refine ⟨_, by rw [Option.bind_some, hp]; rfl, fun d h => willing_of_update h, ?_⟩
      intro d hd
      apply Function.update_of_ne
      rintro rfl
      exact hd rfl

omit [DecidableEq D] in
theorem connectors_update {o' : Fin m} {dst' : D} (ho : o' ≠ o)
    (h : Function.update s.connectors o (some dst) o' = some dst') :
    s.connectors o' = some dst' := by
  rwa [Function.update_of_ne ho] at h

theorem Sound.outputTo (h : Sound s) (hm : s.Meets (.outputTo o dst))
    (ht : s.outputTo o dst = some t) : Sound t := by
  obtain ⟨w, hw, hle, -⟩ := exists_connectTo s o dst
  unfold Producer.outputTo at ht
  split_ifs at ht with hboth hact
  · obtain rfl := Option.some.inj ht
    rw [hw]
    refine Sound.tryFlush h.conserved (fun o' dst' ho hc hw' => ?_) (Function.update_self _ _ _)
    exact h.flushed o' dst' (connectors_update ho hc) (hle dst' hw')
  · obtain rfl := Option.some.inj ht
    rw [hw]
    refine ⟨h.conserved, fun o' dst' hc hw' => ?_⟩
    by_cases ho : o' = o
    · subst ho
      obtain rfl : dst = dst' := by simpa using hc
      rcases hm with hm | hm | hm
      · exact absurd hm hact
      · exact hm
      · exact absurd hm (hle dst hw')
    · exact h.flushed o' dst' (connectors_update ho hc) (hle dst' hw')

theorem Sound.step (h : Sound s) {e : Event m V D} (hm : s.Meets e) (ht : s.step e = some t) :
    Sound t := by
  cases e with
  | activate =>
    change s.activate = some t at ht
    unfold Producer.activate at ht
    split_ifs at ht
    obtain rfl := Option.some.inj ht
    exact ⟨h.conserved, h.flushed⟩
  | action vals => exact h.action ht
  | outputTo o dst => exact h.outputTo hm ht
  | allow dst k =>
    obtain rfl := Option.some.inj ht
    refine ⟨h.conserved, fun o dst' hc hw => ?_⟩
    by_cases hd : dst' = dst
    · subst hd
      rcases hm with hm | hm
      · rw [hm] at hw
        simp at hw
      · exact hm o hc
    · refine h.flushed o dst' hc ?_
      simpa [Function.update_of_ne hd] using hw

omit [DecidableEq D] in
theorem buffer_eq_nil_of_delivered (h : Sound s) (hd : s.delivered o = s.produced o) :
    s.buffer o = [] := by
  rw [h.conserved o] at hd
  exact List.self_eq_append_right.mp hd

theorem not_inOrder_of_not_meets (h : Sound s) {e : Event m V D} (hm : ¬ s.Meets e)
    (ht : s.step e = some t) : ¬ InOrder t := by
  intro hin
  cases e with
  | activate => exact hm trivial
  | action vals => exact hm trivial
  | outputTo o dst =>
    change s.outputTo o dst = some t at ht
    obtain ⟨w, hw, -, heq⟩ := exists_connectTo s o dst
    unfold Producer.outputTo at ht
    split_ifs at ht with hboth hact
    · exact hm (Or.inl hact)
    · obtain rfl := Option.some.inj ht
      refine hm (Or.inr (or_iff_not_imp_right.mpr fun hdst => ?_))
      by_cases hc : s.connectors o = some dst
      · exact h.flushed o dst hc hdst
      · rw [hw] at hin
        refine buffer_eq_nil_of_delivered h (hin.complete o dst (Function.update_self _ _ _) ?_)
        exact fun h0 => hdst ((heq dst hc).symm.trans h0)
  | allow dst k =>
    obtain rfl := Option.some.inj ht
    refine hm (or_iff_not_imp_left.mpr fun hk o hc => ?_)
    exact buffer_eq_nil_of_delivered h (hin.complete o dst hc (by simpa using hk))

end Sound

section Runs

variable {s t : Producer m V D} {es : List (Event m V D)}

def acceptedBoth : List (Event 1 ℕ Unit) :=
  [.allow () 2, .outputTo (Fin.last 0) (), .activate, .action fun _ => 1, .action fun _ => 2]

def refusedOnce : List (Event 1 ℕ Unit) :=
  [.outputTo (Fin.last 0) (), .activate, .action fun _ => 1, .allow () 1, .action fun _ => 2]

end Runs

end Producer

end Hypercomm.Components
