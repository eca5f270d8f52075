import Mathlib.Data.List.Nodup
import Mathlib.Logic.Function.Basic
import Hypercomm.Components.Multistate

/-! # The subscribers of a state server

Several components take states from one server. The server invalidates them once it has no
more states to offer, although some of the states may still be in use.
-/

namespace Hypercomm.Components

open Transition

/-- A component with one input that subscribes to a server. Its incoming sets are known by
their tags. -/
structure Subscriber (S : Type*) where
  active : Bool := false
  activated : Bool := false
  persistent : Bool := false
  state : ℕ × Option S := (0, none)
  incoming : List ℕ := []

/-- What a call of `stage_action` is doing. -/
inductive Phase
  | acting
  | unspooling
  deriving DecidableEq

structure Frame where
  id : ℕ
  tag : ℕ
  phase : Phase
  loop : Bool

/-- A component was deactivated: whether a state was available then, the end of inserting was
not declared, or the component held a state whose action had not finished. -/
structure Deactivation where
  id : ℕ
  available : Bool
  inserting : Bool
  holding : Bool
  deriving DecidableEq

/-- A server with its subscribers and the calls in progress. The declared end of inserting and
the deactivations are only logged. -/
structure Serving (S : Type*) where
  server : StateServer S := {}
  subscribers : List ℕ := []
  components : ℕ → Option (Subscriber S) := fun _ => none
  nComponents : ℕ := 0
  invalidations : List ℕ := []
  stack : List Frame := []
  declared : Bool := false
  deactivations : List Deactivation := []

namespace Serving

variable {S : Type*}

def holding (s : Serving S) (id : ℕ) : Bool :=
  s.stack.any (fun f => f.id == id && decide (f.phase = .acting)) ||
    (s.components id).any fun com => !com.incoming.isEmpty

def deactivate (s : Serving S) (id : ℕ) (com : Subscriber S) : Serving S :=
  { s with
    components := Function.update s.components id
      (some { com with active := false, incoming := [] })
    deactivations := s.deactivations ++
      [⟨id, !s.server.avail.isEmpty, !s.declared, s.holding id⟩] }

def destroy (s : Serving S) (id : ℕ) : Serving S :=
  { s with
    components := Function.update s.components id none
    subscribers := s.subscribers.erase id }

def invalidateComponent (s : Serving S) (id : ℕ) : Serving S :=
  match s.components id with
  | none => s
  | some com =>
      let s := s.deactivate id com
      if com.active then s.destroy id
      else { s with invalidations := s.invalidations ++ [id] }

/-- Each step of the loop erases a subscriber, so that it makes no more steps than there are
subscribers before it. -/
def invalidateAll (exclude : ℕ) : ℕ → Serving S → Serving S
  | 0, s => s
  | n + 1, s =>
      match s.subscribers with
      | [] => s
      | com :: subscribers =>
          let s := { s with subscribers := subscribers }
          invalidateAll exclude n (if exclude = com then s else s.invalidateComponent com)

def checkStatus (s : Serving S) (exclude : ℕ) : Serving S :=
  if s.server.done then invalidateAll exclude s.subscribers.length s else s

/-- Nothing is excluded, as ids start from one. -/
def doneInserting (s : Serving S) : Serving S :=
  checkStatus { s with
    server := { s.server with isInserting := false }
    declared := true } 0

def putState (s : Serving S) (tag : ℕ) (st : S) : Option (Serving S) :=
  (s.server.putState tag st).map fun server => { s with
    server := server
    declared := false }

def emplaceComponent (s : Serving S) : Serving S :=
  { s with
    components := Function.update s.components (s.nComponents + 1) (some {})
    subscribers := s.subscribers ++ [s.nComponents + 1]
    nComponents := s.nComponents + 1 }

/-- It is asserted that there is no set with this tag. -/
def directStage (s : Serving S) (id tag : ℕ) (com : Subscriber S) : Option (Serving S) :=
  if com.active then some { s with
    components := Function.update s.components id (some com)
    stack := ⟨id, tag, .acting, false⟩ :: s.stack }
  else if tag ∈ com.incoming then none
  else
    let com := { com with incoming := com.incoming.orderedInsert (· ≤ ·) tag }
    some { s with components := Function.update s.components id (some com) }

/-- The value stays where it is if the component is gone or there is no state for it. -/
def accept (s : Serving S) (id tag : ℕ) : Option (Serving S) :=
  match s.components id, s.server.findState tag with
  | some _, some st =>
      let s := checkStatus { s with server := s.server.acquireState tag } id
      (s.components id).bind fun com => s.directStage id tag { com with state := (tag, some st) }
  | _, _ => some s

def stageNext (s : Serving S) (id : ℕ) : Serving S :=
  match s.components id with
  | none => s
  | some com =>
      match com.active, com.incoming with
      | true, tag :: _ => { s with stack := ⟨id, tag, .acting, true⟩ :: s.stack }
      | _, _ => s

def activateComponent (s : Serving S) (id : ℕ) : Option (Serving S) :=
  (s.components id).bind fun com =>
    if id ∈ s.invalidations then
      some (destroy { s with invalidations := s.invalidations.erase id } id)
    else if com.active then none
    else
      let com := { com with active := true, activated := true }
      some (stageNext { s with components := Function.update s.components id (some com) } id)

/-- The innermost call goes on. After its action it updates the server, and after its outputs
were unspooled the component is deactivated unless it persists. -/
def ret (s : Serving S) : Option (Serving S) :=
  match s.stack with
  | [] => none
  | f :: stack => (s.components f.id).bind fun com =>
      match f.phase with
      | .acting => some { s with
          server := s.server.releaseState com.state
          components := Function.update s.components f.id (some { com with
            persistent := !s.server.done
            state := if com.state.1 ∈ s.server.continuations then (com.state.1, none) else com.state
            incoming := if f.loop then com.incoming.erase f.tag else com.incoming })
          stack := { f with phase := .unspooling } :: stack }
      | .unspooling =>
          let s := { s with stack := stack }
          let s := if com.persistent then s else s.deactivate f.id com
          some (if f.loop then s.stageNext f.id else s)

def collect (s : Serving S) (id : ℕ) : Option (Serving S) :=
  (s.components id).bind fun com =>
    if com.activated && !com.active then some (s.destroy id) else none

inductive Event (S : Type*)
  | emplaceComponent
  | putState (tag : ℕ) (st : S)
  | doneInserting
  | activateComponent (id : ℕ)
  | accept (id tag : ℕ)
  | ret
  | collect (id : ℕ)

/-- What an action does are the events until its call returns. -/
def step (s : Serving S) : Event S → Option (Serving S)
  | .emplaceComponent => some s.emplaceComponent
  | .putState tag st => s.putState tag st
  | .doneInserting => some s.doneInserting
  | .activateComponent id => s.activateComponent id
  | .accept id tag => s.accept id tag
  | .ret => s.ret
  | .collect id => s.collect id

def Deactivated (s : Serving S) (id : ℕ) : Prop := id ∈ s.deactivations.map Deactivation.id

/-- What the subscribers of a server may rely on. -/
structure Orderly (s : Serving S) : Prop where
  clean : ∀ d ∈ s.deactivations, d.available = false ∧ d.inserting = false ∧ d.holding = false
  once : (s.deactivations.map Deactivation.id).Nodup
  all : s.declared = true → s.server.avail = [] → (∀ id, s.holding id = false) →
    ∀ id, 1 ≤ id → id ≤ s.nComponents → (∀ f ∈ s.stack, f.id ≠ id) → s.Deactivated id

/-- The end of inserting was declared and there is no state left. -/
def closed (s : Serving S) : Bool := s.declared && s.server.avail.isEmpty

def Idle (s : Serving S) (id : ℕ) : Prop :=
  (∀ f ∈ s.stack, f.id ≠ id) ∧ ∀ com, s.components id = some com → com.incoming = []

/-- Nothing is added to a server that has no states left, and no state is in use when the last
one is acquired or the end of inserting is declared. Components are activated once. -/
def Meets (s : Serving S) : Event S → Prop
  | .emplaceComponent => s.closed = false
  | .putState _ _ => s.closed = true → ∀ id, 1 ≤ id → id ≤ s.nComponents → s.Deactivated id
  | .doneInserting => s.server.avail = [] → ∀ id ∈ s.subscribers, s.Idle id
  | .accept _ tag => (s.server.acquireState tag).done = true → ∀ id ∈ s.subscribers, s.Idle id
  | .activateComponent id => ∀ com, s.components id = some com → com.activated = false
  | _ => True

section Tracking

variable {s t : Serving S} {id : ℕ} {com : Subscriber S}

/-- The calls and waiting sets of a component. A set that is staged by `activate` stays in the
inbox until its action has finished. -/
def work (s : Serving S) (id : ℕ) (com : Subscriber S) : ℕ :=
  com.incoming.length +
    s.stack.countP fun f => decide (f.id = id ∧ (f.loop = false ∨ f.phase = .unspooling))

/-- A component that was not deactivated is still subscribed, or has the last work to do. -/
def Live (s : Serving S) (id : ℕ) : Prop :=
  ∃ com, s.components id = some com ∧ com.activated = com.active ∧
    (s.closed = false → id ∈ s.subscribers) ∧ (s.closed = true → s.work id com = 1)

structure Tracked (s : Serving S) : Prop where
  flag : s.declared = !s.server.isInserting ∨
    s.declared = false ∧ s.server.avail = [] ∧ s.stack = [] ∧
      ∀ id com, s.components id = some com → com.incoming = []
  bound : ∀ id, id = 0 ∨ s.nComponents < id → s.components id = none ∧ id ∉ s.subscribers ∧
    ¬ s.Deactivated id
  dead : ∀ id com, s.Deactivated id → s.components id = some com →
    com.active = false ∧ (com.activated = true ∨ id ∈ s.invalidations)
  listed : ∀ id ∈ s.subscribers, ¬ s.Deactivated id
  nodup : s.subscribers.Nodup
  empty : s.closed = true → s.subscribers = []
  frames : ∀ f ∈ s.stack, ¬ s.Deactivated f.id ∧ ∃ com, s.components f.id = some com ∧
    com.active = true ∧ (f.phase = .unspooling → com.persistent = !s.closed) ∧
    (f.loop = true → f.phase = .acting → f.tag ∈ com.incoming)
  loops : ∀ id, s.stack.countP (fun f => decide (f.id = id ∧ f.loop = true)) ≤ 1
  noted : ∀ id ∈ s.invalidations, s.Deactivated id
  clean : ∀ d ∈ s.deactivations, d.available = false ∧ d.inserting = false ∧ d.holding = false
  once : (s.deactivations.map Deactivation.id).Nodup

structure Sound (s : Serving S) : Prop where
  tracked : Tracked s
  live : ∀ id, 1 ≤ id → id ≤ s.nComponents → ¬ s.Deactivated id → s.Live id

theorem Sound.orderly (h : Sound s) : Orderly s := by
  refine ⟨h.tracked.clean, h.tracked.once, fun hd ha hh id h1 hn hf => ?_⟩
  by_contra hdead
  obtain ⟨com, hcom, -, -, hw⟩ := h.live id h1 hn hdead
  have hclosed : s.closed = true := by simp [closed, hd, ha]
  have hcount : s.stack.countP (fun f => decide (f.id = id ∧
      (f.loop = false ∨ f.phase = .unspooling))) = 0 := by
    rw [List.countP_eq_zero]
    intro f hin
    simp [hf f hin]
  have hwork := hw hclosed
  rw [work, hcount] at hwork
  have hne : com.incoming ≠ [] := by
    intro hnil
    rw [hnil] at hwork
    cases hwork
  have hhold := hh id
  simp [holding, hcom, hne] at hhold

structure Cleared (s t : Serving S) (gone rest : List ℕ) : Prop where
  server : t.server = s.server
  stack : t.stack = s.stack
  declared : t.declared = s.declared
  nComponents : t.nComponents = s.nComponents
  subscribers : t.subscribers = rest
  components : ∀ x ∉ gone, t.components x = s.components x
  inactive : ∀ x ∈ gone, ∀ com, t.components x = some com →
    com.active = false ∧ x ∈ t.invalidations
  deactivations : t.deactivations = s.deactivations ++
    gone.map fun x => ⟨x, !s.server.avail.isEmpty, !s.declared, false⟩
  noted : ∀ x ∈ t.invalidations, x ∈ s.invalidations ∨ x ∈ gone
  kept : ∀ x ∈ s.invalidations, x ∈ t.invalidations

theorem Cleared.refl (s : Serving S) : Cleared s s [] s.subscribers :=
  ⟨rfl, rfl, rfl, rfl, rfl, fun _ _ => rfl, by simp, by simp, fun _ h => .inl h, fun _ h => h⟩

theorem Cleared.trans {u : Serving S} {g g' r r' : List ℕ} (h : Cleared s u g r)
    (h' : Cleared u t g' r') : Cleared s t (g ++ g') r' := by
  refine ⟨h'.server.trans h.server, h'.stack.trans h.stack, h'.declared.trans h.declared,
    h'.nComponents.trans h.nComponents, h'.subscribers, ?_, ?_, ?_, ?_,
    fun x hx => h'.kept x (h.kept x hx)⟩
  · intro x hx
    rw [List.mem_append, not_or] at hx
    rw [h'.components x hx.2, h.components x hx.1]
  · intro x hx com hcom
    by_cases hx' : x ∈ g'
    · exact h'.inactive x hx' com hcom
    · rw [h'.components x hx'] at hcom
      obtain ⟨hact, hn⟩ := h.inactive x ((List.mem_append.mp hx).resolve_right hx') com hcom
      exact ⟨hact, h'.kept x hn⟩
  · rw [h'.deactivations, h.deactivations, h.server, h.declared, List.map_append,
      List.append_assoc]
  · intro x hx
    rcases h'.noted x hx with hx | hx
    · exact (h.noted x hx).imp_right (List.mem_append_left _)
    · exact .inr (List.mem_append_right _ hx)

theorem Idle.holding (h : s.Idle id) : s.holding id = false := by
  unfold Serving.holding
  rw [Bool.or_eq_false_iff]
  constructor
  · rw [List.any_eq_false]
    intro f hf
    simp [h.1 f hf]
  · cases hcom : s.components id with
    | none => rfl
    | some com => simp [h.2 com hcom]

theorem cleared_invalidateComponent (hcom : s.components id = some com) (hidle : s.Idle id)
    (hid : id ∉ s.subscribers) : Cleared s (s.invalidateComponent id) [id] s.subscribers := by
  unfold invalidateComponent
  rw [hcom]
  dsimp only
  cases hact : com.active with
  | true =>
    rw [if_pos rfl]
    refine ⟨rfl, rfl, rfl, rfl, List.erase_of_not_mem hid, ?_, ?_, ?_, fun x hx => .inl hx,
      fun x hx => hx⟩
    · intro x hx
      rw [List.mem_singleton] at hx
      simp only [destroy, deactivate, Function.update_of_ne hx]
    · intro x hx com' hcom'
      rw [List.mem_singleton] at hx
      simp [destroy, hx] at hcom'
    · simp [destroy, deactivate, hidle.holding]
  | false =>
    rw [if_neg Bool.false_ne_true]
    refine ⟨rfl, rfl, rfl, rfl, rfl, ?_, ?_, ?_, ?_, ?_⟩
    · intro x hx
      rw [List.mem_singleton] at hx
      simp only [deactivate, Function.update_of_ne hx]
    · intro x hx com' hcom'
      rw [List.mem_singleton] at hx
      subst hx
      simp only [deactivate, Function.update_self, Option.some.injEq] at hcom'
      rw [← hcom']
      exact ⟨rfl, List.mem_append_right _ (List.mem_singleton_self _)⟩
    · simp [deactivate, hidle.holding]
    · intro x hx
      exact List.mem_append.mp hx
    · exact fun x hx => List.mem_append_left _ hx

theorem Idle.cleared {gone rest : List ℕ} {x : ℕ} (h : s.Idle x) (hc : Cleared s t gone rest)
    (hx : x ∉ gone) : t.Idle x := by
  unfold Idle
  rw [hc.stack, hc.components x hx]
  exact h

theorem cleared_invalidateAll (exclude : ℕ) (l : List ℕ) (hl : s.subscribers = l)
    (hnd : l.Nodup) (hidle : ∀ x ∈ l, s.Idle x)
    (hcom : ∀ x ∈ l, ∃ com, s.components x = some com) :
    Cleared s (invalidateAll exclude l.length s) (l.filter (· ≠ exclude)) [] := by
  induction l generalizing s with
  | nil =>
    have h := Cleared.refl s
    rwa [hl] at h
  | cons c l ih =>
    rw [List.nodup_cons] at hnd
    rw [List.length_cons, invalidateAll, hl]
    dsimp only
    have hskip : Cleared s { s with subscribers := l } [] l :=
      ⟨rfl, rfl, rfl, rfl, rfl, fun _ _ => rfl, by simp, by simp, fun _ h => .inl h,
        fun _ h => h⟩
    have hother : ∀ x ∈ l, x ∉ [c] := by
      intro x hx hc
      rw [List.mem_singleton.mp hc] at hx
      exact hnd.1 hx
    by_cases hex : exclude = c
    · rw [if_pos hex, List.filter_cons_of_neg (by simp [hex])]
      exact hskip.trans (ih rfl hnd.2 (fun x hx => hidle x (List.mem_cons_of_mem c hx))
        fun x hx => hcom x (List.mem_cons_of_mem c hx))
    · rw [if_neg hex, List.filter_cons_of_pos (by simpa using Ne.symm hex)]
      obtain ⟨com, hc⟩ := hcom c List.mem_cons_self
      have hstep : Cleared s (invalidateComponent { s with subscribers := l } c) [c] l :=
        hskip.trans (cleared_invalidateComponent hc (hidle c List.mem_cons_self) hnd.1)
      refine hstep.trans (ih hstep.subscribers hnd.2 ?_ ?_)
      · intro x hx
        exact (hidle x (List.mem_cons_of_mem c hx)).cleared hstep (hother x hx)
      · intro x hx
        obtain ⟨com', hc'⟩ := hcom x (List.mem_cons_of_mem c hx)
        exact ⟨com', (hstep.components x (hother x hx)).trans hc'⟩

theorem Tracked.range (h : Tracked s) (hcom : s.components id = some com) :
    1 ≤ id ∧ id ≤ s.nComponents := by
  by_contra hn
  have hnone := (h.bound id (by omega)).1
  rw [hcom] at hnone
  cases hnone

theorem Sound.frame_live (h : Sound s) {f : Frame} (hf : f ∈ s.stack) : s.Live f.id := by
  obtain ⟨hd, com, hcom, -⟩ := h.tracked.frames f hf
  obtain ⟨h1, hn⟩ := h.tracked.range hcom
  exact h.live f.id h1 hn hd

/-- The server offers no states exactly if it is closed, once something was inserted. -/
theorem Tracked.done_eq (h : Tracked s) (hs : s.stack ≠ []) : s.server.done = s.closed := by
  rcases h.flag with hflag | ⟨-, -, hstack, -⟩
  · simp [StateServer.done, closed, hflag, Bool.and_comm]
  · exact absurd hstack hs

/-- If no state is in use, the server may close, up to one component that is excluded. -/
theorem Sound.close (h : Sound s) (hopen : s.closed = false) {e : ℕ}
    (server : StateServer S) (ha : server.avail = []) (hi : server.isInserting = false)
    (hidle : ∀ x ∈ s.subscribers, s.Idle x)
    (ht : t = checkStatus { s with server := server, declared := true } e) :
    Tracked t ∧ t.server = server ∧ t.declared = true ∧ t.stack = [] ∧
      t.nComponents = s.nComponents ∧ t.components e = s.components e ∧
      (t.Deactivated e ↔ s.Deactivated e) ∧
      ∀ id, 1 ≤ id → id ≤ s.nComponents → id ≠ e → t.Deactivated id := by
  have hdone : server.done = true := by simp [StateServer.done, ha, hi]
  rw [checkStatus, if_pos hdone] at ht
  have hlive : ∀ x ∈ s.subscribers, s.Live x := by
    intro x hx
    have hr : 1 ≤ x ∧ x ≤ s.nComponents := by
      by_contra hn
      exact (h.tracked.bound x (by omega)).2.1 hx
    exact h.live x hr.1 hr.2 (h.tracked.listed x hx)
  have hc := cleared_invalidateAll (s := { s with server := server, declared := true }) e
    s.subscribers rfl h.tracked.nodup hidle fun x hx => ⟨_, (hlive x hx).choose_spec.1⟩
  rw [← ht] at hc
  have hstack : s.stack = [] := by
    by_contra hne
    obtain ⟨f, hf⟩ := List.exists_mem_of_ne_nil _ hne
    obtain ⟨com, -, -, hsub, -⟩ := h.frame_live hf
    exact (hidle f.id (hsub hopen)).1 f hf rfl
  have hclosed : t.closed = true := by simp [closed, hc.declared, hc.server, ha]
  have hdead : ∀ x, t.Deactivated x ↔
      s.Deactivated x ∨ x ∈ s.subscribers.filter (· ≠ e) := by
    intro x
    unfold Deactivated
    rw [hc.deactivations, List.map_append, List.map_map, List.mem_append]
    simp [Function.comp_def]
  have hgone : ∀ x, x ∈ s.subscribers.filter (· ≠ e) → x ∈ s.subscribers ∧ x ≠ e := by
    intro x hx
    simpa using hx
  refine ⟨⟨?_, ?_, ?_, ?_, ?_, ?_, ?_, ?_, ?_, ?_, ?_⟩, hc.server, hc.declared,
    hc.stack.trans hstack, hc.nComponents, ?_, ?_, ?_⟩
  · left
    rw [hc.declared, hc.server, hi]
    rfl
  · intro x hx
    rw [hc.nComponents] at hx
    obtain ⟨hcx, hsx, hdx⟩ := h.tracked.bound x hx
    have hg : x ∉ s.subscribers.filter (· ≠ e) := fun hin => hsx (hgone x hin).1
    refine ⟨(hc.components x hg).trans hcx, ?_, fun hd => ((hdead x).mp hd).elim hdx hg⟩
    rw [hc.subscribers]
    exact List.not_mem_nil
  · intro x com hd hcom
    by_cases hg : x ∈ s.subscribers.filter (· ≠ e)
    · obtain ⟨hact, hn⟩ := hc.inactive x hg com hcom
      exact ⟨hact, .inr hn⟩
    · rw [hc.components x hg] at hcom
      obtain ⟨hact, hn⟩ := h.tracked.dead x com (((hdead x).mp hd).resolve_right hg) hcom
      exact ⟨hact, hn.imp_right (hc.kept x)⟩
  · rw [hc.subscribers]
    simp
  · rw [hc.subscribers]
    exact List.nodup_nil
  · exact fun _ => hc.subscribers
  · rw [hc.stack, hstack]
    simp
  · rw [hc.stack, hstack]
    simp
  · intro x hx
    exact (hdead x).mpr ((hc.noted x hx).imp_left (h.tracked.noted x))
  · intro d hd
    rw [hc.deactivations, List.mem_append, List.mem_map] at hd
    rcases hd with hd | ⟨x, -, rfl⟩
    · exact h.tracked.clean d hd
    · simp [ha]
  · rw [hc.deactivations, List.map_append, List.map_map]
    refine List.nodup_append.mpr ⟨h.tracked.once, ?_, ?_⟩
    · simpa [Function.comp_def] using h.tracked.nodup.filter _
    · rintro x hx _ hy rfl
      have hg : x ∈ s.subscribers.filter (· ≠ e) := by simpa [Function.comp_def] using hy
      exact h.tracked.listed x (hgone x hg).1 hx
  · exact hc.components e fun hg => (hgone e hg).2 rfl
  · rw [hdead, or_iff_left]
    exact fun hg => (hgone e hg).2 rfl
  · intro x h1 hn hne
    rw [hdead]
    by_contra hno
    rw [not_or] at hno
    obtain ⟨com, -, -, hsub, -⟩ := h.live x h1 hn hno.1
    exact hno.2 (by simpa using ⟨hsub hopen, hne⟩)

theorem Tracked.directStage (h : Tracked s) {tag : ℕ} {st : ℕ × Option S}
    (hflag : s.declared = !s.server.isInserting) (hcom : s.components id = some com)
    (ht : s.directStage id tag { com with state := st } = some t) :
    Tracked t ∧ t.server = s.server ∧ t.declared = s.declared ∧
      t.nComponents = s.nComponents ∧ t.subscribers = s.subscribers ∧
      t.deactivations = s.deactivations ∧
      (∀ x ≠ id, t.components x = s.components x ∧ ∀ c, t.work x c = s.work x c) ∧
      ∃ com', t.components id = some com' ∧ com'.activated = com.activated ∧
        com'.active = com.active ∧ t.work id com' = s.work id com + 1 := by
  have hother : ∀ {c : Option (Subscriber S)} {x : ℕ}, x ≠ id →
      Function.update s.components id c x = s.components x := by
    intro c x hx
    exact Function.update_of_ne hx ..
  have hid : id ≠ 0 ∧ id ≤ s.nComponents := by
    have := h.range hcom
    omega
  unfold Serving.directStage at ht
  split_ifs at ht with hact hin
  · obtain rfl := Option.some.inj ht
    have hdead : ¬ s.Deactivated id := by
      intro hd
      have := (h.dead id com hd hcom).1
      rw [show com.active = true from hact] at this
      cases this
    refine ⟨⟨.inl hflag, ?_, ?_, h.listed, h.nodup, h.empty, ?_, ?_, h.noted, h.clean, h.once⟩,
      rfl, rfl, rfl, rfl, rfl, ?_, ?_⟩
    · intro x hx
      have hne : x ≠ id := by
        rintro rfl
        exact hx.elim hid.1 (Nat.not_lt.mpr hid.2)
      exact ⟨(hother hne).trans (h.bound x hx).1, (h.bound x hx).2⟩
    · intro x c hd hc
      have hne : x ≠ id := by
        rintro rfl
        exact hdead hd
      exact h.dead x c hd ((hother hne).symm.trans hc)
    · intro f hf
      rcases List.mem_cons.mp hf with rfl | hf
      · exact ⟨hdead, _, Function.update_self .., hact, by simp, by simp⟩
      · obtain ⟨hd, c, hc, hrest⟩ := h.frames f hf
        refine ⟨hd, ?_⟩
        by_cases hne : f.id = id
        · rw [hne, hcom] at hc
          cases hc
          refine ⟨{ com with state := st }, ?_, hrest⟩
          rw [hne]
          exact Function.update_self ..
        · exact ⟨c, (hother hne).trans hc, hrest⟩
    · intro x
      rw [List.countP_cons_of_neg (by simp)]
      exact h.loops x
    · intro x hx
      refine ⟨hother hx, fun c => ?_⟩
      simp only [work]
      rw [List.countP_cons_of_neg (by simp [Ne.symm hx])]
    · refine ⟨_, Function.update_self .., rfl, rfl, ?_⟩
      simp only [work]
      rw [List.countP_cons_of_pos (by simp)]
      omega
  · obtain rfl := Option.some.inj ht
    refine ⟨⟨.inl hflag, ?_, ?_, h.listed, h.nodup, h.empty, ?_, h.loops, h.noted, h.clean,
      h.once⟩, rfl, rfl, rfl, rfl, rfl, fun x hx => ⟨hother hx, fun c => rfl⟩, ?_⟩
    · intro x hx
      have hne : x ≠ id := by
        rintro rfl
        exact hx.elim hid.1 (Nat.not_lt.mpr hid.2)
      exact ⟨(hother hne).trans (h.bound x hx).1, (h.bound x hx).2⟩
    · intro x c hd hc
      by_cases hne : x = id
      · subst hne
        dsimp only at hc
        rw [Function.update_self] at hc
        cases hc
        exact h.dead x com hd hcom
      · exact h.dead x c hd ((hother hne).symm.trans hc)
    · intro f hf
      obtain ⟨hd, c, hc, hactive, hrest⟩ := h.frames f hf
      have hne : f.id ≠ id := by
        intro he
        rw [he, hcom] at hc
        cases hc
        exact hact hactive
      exact ⟨hd, c, (hother hne).trans hc, hactive, hrest⟩
    · refine ⟨_, Function.update_self .., rfl, rfl, ?_⟩
      simp only [work, List.orderedInsert_length]
      omega

end Tracking

section Steps

variable {s t : Serving S} {id : ℕ} {com : Subscriber S}

theorem Sound.update (h : Sound s) (hopen : s.closed = false) (server : StateServer S)
    {declared : Bool} (hflag : declared = !server.isInserting)
    (hopen' : (declared && server.avail.isEmpty) = false) :
    Sound { s with server := server, declared := declared } := by
  obtain ⟨htr, hlive⟩ := h
  refine ⟨⟨.inl hflag, htr.bound, htr.dead, htr.listed, htr.nodup, ?_, ?_, htr.loops, htr.noted,
    htr.clean, htr.once⟩, ?_⟩
  · intro hcl
    rw [closed, hopen'] at hcl
    cases hcl
  · intro f hf
    obtain ⟨hd, c, hcf, hact, hp, hrest⟩ := htr.frames f hf
    refine ⟨hd, c, hcf, hact, fun hph => ?_, hrest⟩
    rw [hp hph, hopen, closed, hopen']
  · intro id h1 hn hd
    obtain ⟨c, hcom, hact, hsub, -⟩ := hlive id h1 hn hd
    refine ⟨c, hcom, hact, fun _ => hsub hopen, fun hcl => ?_⟩
    rw [closed, hopen'] at hcl
    cases hcl

theorem Sound.doneInserting (h : Sound s) (hm : s.Meets .doneInserting) :
    Sound s.doneInserting := by
  by_cases ha : s.server.avail = []
  · cases hclosed : s.closed with
    | true =>
      -- nobody is left to be invalidated
      have hsub := h.tracked.empty hclosed
      have hd : s.declared = true := by
        simp only [closed, Bool.and_eq_true] at hclosed
        exact hclosed.1
      have hi : s.server.isInserting = false := by
        rcases h.tracked.flag with hf | hf
        · simpa [hd] using hf
        · rw [hf.1] at hd
          cases hd
      have he : s.doneInserting = s := by
        have hserver : ({ s.server with isInserting := false } : StateServer S) = s.server := by
          rw [← hi]
        unfold Serving.doneInserting checkStatus
        rw [hserver]
        simp only [hsub, List.length_nil, invalidateAll, ite_self]
        rw [← hsub, ← hd]
      rw [he]
      exact h
    | false =>
      obtain ⟨htr, -, -, -, hn, -, -, hall⟩ := h.close hclosed
        { s.server with isInserting := false } ha rfl (hm ha) (t := s.doneInserting) rfl
      refine ⟨htr, fun id h1 hle hd => ?_⟩
      rw [hn] at hle
      exact absurd (hall id h1 hle (by omega)) hd
  · have he : s.doneInserting = { s with
        server := { s.server with isInserting := false }
        declared := true } := by
      unfold Serving.doneInserting checkStatus
      exact if_neg (by simp [StateServer.done, ha])
    rw [he]
    exact h.update (by simp [closed, ha]) _ rfl (by simp [ha])

theorem Sound.accept (h : Sound s) {tag : ℕ} (hm : s.Meets (.accept id tag))
    (ht : s.accept id tag = some t) : Sound t := by
  unfold Serving.accept at ht
  split at ht
  · rename_i com st hcom hst
    have havail : s.server.avail ≠ [] := by
      intro hnil
      rw [StateServer.findState, hnil] at hst
      cases hst
    have hopen : s.closed = false := by simp [closed, havail]
    have hflag : s.declared = !s.server.isInserting := by
      rcases h.tracked.flag with hf | hf
      · exact hf
      · exact absurd hf.2.1 havail
    obtain ⟨com', hcom', ht⟩ := Option.bind_eq_some_iff.mp ht
    cases hdone : (s.server.acquireState tag).done with
    | true =>
      have hempty : (s.server.acquireState tag).avail = [] ∧
          (s.server.acquireState tag).isInserting = false := by
        simpa [StateServer.done] using hdone
      have hdecl : s.declared = true := by
        rw [hflag, show s.server.isInserting = false from hempty.2]
        rfl
      have hs : ({ s with server := s.server.acquireState tag } : Serving S) =
          { s with server := s.server.acquireState tag, declared := true } := by
        rw [← hdecl]
      obtain ⟨htr, hserver, hdt, hstack, hn, hce, hde, hall⟩ :=
        h.close hopen _ hempty.1 hempty.2 (hm hdone) (e := id) (by rw [← hs])
      obtain ⟨htr', hserver', hdt', hn', -, hde', hother, c, hc, hca, hcact, hw⟩ :=
        htr.directStage (by rw [hserver, hdt, hempty.2]; rfl) hcom' ht
      rw [hce] at hcom'
      refine ⟨htr', fun x h1 hle hd => ?_⟩
      rw [hn', hn] at hle
      by_cases hx : x = id
      · subst hx
        have hd' : ¬ s.Deactivated x := by
          rw [← hde]
          unfold Deactivated
          rwa [← hde']
        obtain ⟨c₀, hc₀, hact₀, hsub, -⟩ := h.live x h1 hle hd'
        rw [hcom'] at hc₀
        cases hc₀
        have hcl : t.closed = true := by
          simp [closed, hdt', hdt, hserver', hserver, hempty.1]
        refine ⟨c, hc, by rw [hca, hcact, hact₀], fun hf => ?_, fun _ => ?_⟩
        · rw [hcl] at hf
          cases hf
        · have hidle := hm hdone x (hsub hopen)
          rw [hw, work, hstack, hidle.2 com' hcom']
          rfl
      · have hdx := hall x h1 hle hx
        unfold Deactivated at hd hdx
        rw [hde'] at hd
        exact absurd hdx hd
    | false =>
      have hopen' : (s.declared && (s.server.acquireState tag).avail.isEmpty) = false := by
        have hi : (s.server.acquireState tag).isInserting = s.server.isInserting := rfl
        rw [hflag]
        simpa [StateServer.done, Bool.and_comm, hi] using hdone
      have hs := h.update hopen (s.server.acquireState tag) hflag hopen'
      simp only [checkStatus, hdone, Bool.false_eq_true, if_false] at hcom' ht
      obtain ⟨htr', hserver', hdt', hn', hsub', hde', hother, c, hc, hca, hcact, -⟩ :=
        hs.tracked.directStage hflag hcom' ht
      have hcl : t.closed = false := by
        rw [closed, hdt', hserver']
        exact hopen'
      refine ⟨htr', fun x h1 hle hd => ?_⟩
      rw [hn'] at hle
      unfold Deactivated at hd
      rw [hde'] at hd
      obtain ⟨c₀, hc₀, hact₀, hsub, -⟩ := hs.live x h1 hle hd
      have hsubx : x ∈ t.subscribers := by
        rw [hsub']
        exact hsub hopen'
      by_cases hx : x = id
      · subst hx
        rw [hcom'] at hc₀
        cases hc₀
        refine ⟨c, hc, by rw [hca, hcact, hact₀], fun _ => hsubx, fun hf => ?_⟩
        rw [hcl] at hf
        cases hf
      · refine ⟨c₀, (hother x hx).1.trans hc₀, hact₀, fun _ => hsubx, fun hf => ?_⟩
        rw [hcl] at hf
        cases hf
  · obtain rfl := Option.some.inj ht
    exact h

theorem Sound.emplaceComponent (h : Sound s) (hopen : s.closed = false) :
    Sound s.emplaceComponent := by
  obtain ⟨htr, hlive⟩ := h
  obtain ⟨hnone, hsub, hdead⟩ := htr.bound (s.nComponents + 1) (.inr (Nat.lt_succ_self _))
  have hother : ∀ {x : ℕ}, x ≠ s.nComponents + 1 →
      s.emplaceComponent.components x = s.components x := by
    intro x hx
    exact Function.update_of_ne hx ..
  refine ⟨⟨?_, ?_, ?_, ?_, ?_, ?_, ?_, htr.loops, htr.noted, htr.clean, htr.once⟩, ?_⟩
  · refine htr.flag.imp_right fun ⟨hd, ha, hst, hin⟩ => ⟨hd, ha, hst, fun x c hc => ?_⟩
    by_cases hx : x = s.nComponents + 1
    · subst hx
      simp only [Serving.emplaceComponent, Function.update_self, Option.some.injEq] at hc
      rw [← hc]
    · exact hin x c ((hother hx).symm.trans hc)
  · intro x hx
    have hx' : x = 0 ∨ s.nComponents < x := hx.imp_right fun h => Nat.lt_of_succ_lt h
    have hne : x ≠ s.nComponents + 1 := by
      rcases hx with rfl | hx
      · exact (Nat.succ_ne_zero _).symm
      · exact Nat.ne_of_gt hx
    obtain ⟨hc, hs, hd⟩ := htr.bound x hx'
    refine ⟨(hother hne).trans hc, ?_, hd⟩
    simpa [Serving.emplaceComponent, hne] using hs
  · intro x c hd hc
    have hne : x ≠ s.nComponents + 1 := by
      rintro rfl
      exact hdead hd
    exact htr.dead x c hd ((hother hne).symm.trans hc)
  · intro x hx
    rcases List.mem_append.mp hx with hx | hx
    · exact htr.listed x hx
    · rw [List.mem_singleton.mp hx]
      exact hdead
  · refine List.nodup_append.mpr ⟨htr.nodup, List.nodup_singleton _, ?_⟩
    rintro x hx _ hy rfl
    exact hsub (List.mem_singleton.mp hy ▸ hx)
  · intro hcl
    rw [show s.emplaceComponent.closed = s.closed from rfl, hopen] at hcl
    cases hcl
  · intro f hf
    obtain ⟨hd, c, hc, hrest⟩ := htr.frames f hf
    have hne : f.id ≠ s.nComponents + 1 := by
      intro he
      rw [he, hnone] at hc
      cases hc
    exact ⟨hd, c, (hother hne).trans hc, hrest⟩
  · intro x h1 hn hd
    by_cases hx : x = s.nComponents + 1
    · refine ⟨{}, ?_, rfl, fun _ => ?_, fun hcl => ?_⟩
      · rw [hx]
        exact Function.update_self ..
      · exact List.mem_append_right _ (List.mem_singleton.mpr hx)
      · rw [show s.emplaceComponent.closed = s.closed from rfl, hopen] at hcl
        cases hcl
    · obtain ⟨c, hc, hact, hs, hw⟩ := hlive x h1 (by
        have : x ≤ s.nComponents + 1 := hn
        omega) hd
      exact ⟨c, (hother hx).trans hc, hact, fun hcl => List.mem_append_left _ (hs hcl), hw⟩

theorem Sound.putState (h : Sound s) {tag : ℕ} {st : S} (hm : s.Meets (.putState tag st))
    (ht : s.putState tag st = some t) : Sound t := by
  obtain ⟨server, hserver, rfl⟩ := Option.map_eq_some_iff.mp ht
  have hi : server.isInserting = true := by
    unfold StateServer.putState at hserver
    split_ifs at hserver
    rw [← Option.some.inj hserver]
  cases hclosed : s.closed with
  | false => exact h.update hclosed _ (by rw [hi]; rfl) rfl
  | true =>
    have hall := hm hclosed
    obtain ⟨htr, -⟩ := h
    have hstack : s.stack = [] := by
      by_contra hne
      obtain ⟨f, hf⟩ := List.exists_mem_of_ne_nil _ hne
      obtain ⟨hd, c, hc, -⟩ := htr.frames f hf
      obtain ⟨h1, hn⟩ := htr.range hc
      exact hd (hall f.id h1 hn)
    refine ⟨⟨.inl (by rw [hi]; rfl), htr.bound, htr.dead, htr.listed, htr.nodup, ?_, ?_,
      htr.loops, htr.noted, htr.clean, htr.once⟩, fun x h1 hn hd => absurd (hall x h1 hn) hd⟩
    · intro hcl
      cases hcl
    · intro f hf
      rw [show s.stack = [] from hstack] at hf
      cases hf

theorem Sound.destroy (h : Sound s) (hdead : s.Deactivated id) {invalidations : List ℕ}
    (hinv : ∀ x, x ≠ id → (x ∈ invalidations ↔ x ∈ s.invalidations))
    (hinv' : id ∈ invalidations → id ∈ s.invalidations) :
    Sound (Serving.destroy { s with invalidations := invalidations } id) := by
  obtain ⟨htr, hlive⟩ := h
  have hsub : s.subscribers.erase id = s.subscribers :=
    List.erase_of_not_mem fun hin => htr.listed id hin hdead
  have hother : ∀ {x : ℕ}, x ≠ id →
      Function.update s.components id none x = s.components x := by
    intro x hx
    exact Function.update_of_ne hx ..
  have hne : ∀ {x : ℕ} {c}, Function.update s.components id none x = some c → x ≠ id := by
    rintro x c hc rfl
    rw [Function.update_self] at hc
    cases hc
  unfold Serving.destroy
  dsimp only
  rw [hsub]
  refine ⟨⟨?_, ?_, ?_, htr.listed, htr.nodup, htr.empty, ?_, htr.loops, ?_, htr.clean,
    htr.once⟩, ?_⟩
  · refine htr.flag.imp_right fun ⟨hd, ha, hst, hin⟩ => ⟨hd, ha, hst, fun x c hc => ?_⟩
    exact hin x c ((hother (hne hc)).symm.trans hc)
  · intro x hx
    obtain ⟨hc, hrest⟩ := htr.bound x hx
    refine ⟨?_, hrest⟩
    by_cases hx' : x = id
    · exact absurd hdead (hx' ▸ hrest.2)
    · exact (hother hx').trans hc
  · intro x c hd hc
    have hx := hne hc
    obtain ⟨hact, hn⟩ := htr.dead x c hd ((hother hx).symm.trans hc)
    exact ⟨hact, hn.imp_right (hinv x hx).mpr⟩
  · intro f hf
    obtain ⟨hd, c, hc, hrest⟩ := htr.frames f hf
    have hx : f.id ≠ id := by
      intro he
      exact hd (he ▸ hdead)
    exact ⟨hd, c, (hother hx).trans hc, hrest⟩
  · intro x hx
    by_cases hx' : x = id
    · exact hx' ▸ hdead
    · exact htr.noted x ((hinv x hx').mp hx)
  · intro x h1 hn hd
    have hx : x ≠ id := by
      rintro rfl
      exact hd hdead
    obtain ⟨c, hc, hrest⟩ := hlive x h1 hn hd
    exact ⟨c, (hother hx).trans hc, hrest⟩

theorem Sound.stageNext (h : Sound s) (hcom : s.components id = some com)
    (hdead : ¬ s.Deactivated id)
    (hloop : s.stack.countP (fun f => decide (f.id = id ∧ f.loop = true)) = 0) :
    Sound (s.stageNext id) := by
  unfold Serving.stageNext
  rw [hcom]
  dsimp only
  split
  · rename_i tag rest hact hin
    obtain ⟨htr, hlive⟩ := h
    have hflag : s.declared = !s.server.isInserting := by
      rcases htr.flag with hf | hf
      · exact hf
      · rw [hf.2.2.2 id com hcom] at hin
        cases hin
    refine ⟨⟨.inl hflag, htr.bound, htr.dead, htr.listed, htr.nodup, htr.empty, ?_, ?_,
      htr.noted, htr.clean, htr.once⟩, ?_⟩
    · intro f hf
      rcases List.mem_cons.mp hf with rfl | hf
      · exact ⟨hdead, com, hcom, hact, by simp, fun _ _ => by rw [hin]; exact List.mem_cons_self⟩
      · exact htr.frames f hf
    · intro x
      by_cases hx : x = id
      · subst hx
        rw [List.countP_cons_of_pos (by simp), hloop]
      · rw [List.countP_cons_of_neg (by simp [Ne.symm hx])]
        exact htr.loops x
    · intro x h1 hn hd
      obtain ⟨c, hc, hca, hsub, hw⟩ := hlive x h1 hn hd
      refine ⟨c, hc, hca, hsub, fun hcl => ?_⟩
      rw [← hw hcl, work, work, List.countP_cons_of_neg (by simp)]
  · exact h

theorem Sound.activateComponent (h : Sound s) (hm : s.Meets (.activateComponent id))
    (ht : s.activateComponent id = some t) : Sound t := by
  obtain ⟨com, hcom, ht⟩ := Option.bind_eq_some_iff.mp ht
  split_ifs at ht with hnote hact
  · obtain rfl := Option.some.inj ht
    refine h.destroy (h.tracked.noted id hnote) (fun x hx => ?_) List.mem_of_mem_erase
    exact List.mem_erase_of_ne hx
  · obtain rfl := Option.some.inj ht
    have hactd := hm com hcom
    have hdead : ¬ s.Deactivated id := by
      intro hd
      rcases (h.tracked.dead id com hd hcom).2 with hd | hd
      · rw [hactd] at hd
        cases hd
      · exact hnote hd
    have hframe : ∀ f ∈ s.stack, f.id ≠ id := by
      intro f hf he
      obtain ⟨-, c, hc, hcact, -⟩ := h.tracked.frames f hf
      rw [he, hcom] at hc
      cases hc
      exact hact hcact
    obtain ⟨htr, hlive⟩ := h
    have hother : ∀ {c : Option (Subscriber S)} {x : ℕ}, x ≠ id →
        Function.update s.components id c x = s.components x := by
      intro c x hx
      exact Function.update_of_ne hx ..
    refine Sound.stageNext ?_ (Function.update_self ..) hdead ?_
    · refine ⟨⟨?_, ?_, ?_, htr.listed, htr.nodup, htr.empty, ?_, htr.loops, htr.noted, htr.clean,
        htr.once⟩, ?_⟩
      · refine htr.flag.imp_right fun ⟨hd, ha, hst, hin⟩ => ⟨hd, ha, hst, fun x c hc => ?_⟩
        by_cases hx : x = id
        · subst hx
          dsimp only at hc
          rw [Function.update_self] at hc
          cases hc
          exact hin x com hcom
        · exact hin x c ((hother hx).symm.trans hc)
      · intro x hx
        obtain ⟨hc, hrest⟩ := htr.bound x hx
        have hne : x ≠ id := by
          rintro rfl
          rw [hcom] at hc
          cases hc
        exact ⟨(hother hne).trans hc, hrest⟩
      · intro x c hd hc
        have hne : x ≠ id := by
          rintro rfl
          exact hdead hd
        exact htr.dead x c hd ((hother hne).symm.trans hc)
      · intro f hf
        obtain ⟨hd, c, hc, hrest⟩ := htr.frames f hf
        exact ⟨hd, c, (hother (hframe f hf)).trans hc, hrest⟩
      · intro x h1 hn hd
        obtain ⟨c, hc, hca, hrest⟩ := hlive x h1 hn hd
        by_cases hx : x = id
        · subst hx
          rw [hcom] at hc
          cases hc
          exact ⟨_, Function.update_self .., rfl, hrest⟩
        · exact ⟨c, (hother hx).trans hc, hca, hrest⟩
    · rw [List.countP_eq_zero]
      intro f hf
      simp [hframe f hf]

theorem Sound.collect (h : Sound s) (ht : s.collect id = some t) : Sound t := by
  obtain ⟨com, hcom, ht⟩ := Option.bind_eq_some_iff.mp ht
  split_ifs at ht with hc
  obtain rfl := Option.some.inj ht
  obtain ⟨h1, hn⟩ := h.tracked.range hcom
  have hdead : s.Deactivated id := by
    by_contra hd
    obtain ⟨c, hcc, hca, -⟩ := h.live id h1 hn hd
    rw [hcom] at hcc
    cases hcc
    rw [hca] at hc
    simp at hc
  exact h.destroy hdead (fun _ _ => Iff.rfl) fun h => h

section Return

variable {f : Frame} {stack : List Frame}

theorem Sound.retActing (h : Sound s) (hs : s.stack = f :: stack)
    (hcom : s.components f.id = some com) (hph : f.phase = .acting) :
    Sound { s with
      server := s.server.releaseState com.state
      components := Function.update s.components f.id (some { com with
        persistent := !s.server.done
        state := if com.state.1 ∈ s.server.continuations then (com.state.1, none) else com.state
        incoming := if f.loop then com.incoming.erase f.tag else com.incoming })
      stack := { f with phase := .unspooling } :: stack } := by
  have hdone := h.tracked.done_eq (by rw [hs]; exact List.cons_ne_nil f stack)
  obtain ⟨htr, hlive⟩ := h
  have hf : f ∈ s.stack := by
    rw [hs]
    exact List.mem_cons_self
  obtain ⟨hdead, c, hc, hact, -, htag⟩ := htr.frames f hf
  rw [hcom] at hc
  cases hc
  have hflag : s.declared = !s.server.isInserting := by
    refine htr.flag.resolve_right fun hv => ?_
    rw [hv.2.2.1] at hs
    cases hs
  have hother : ∀ {c : Option (Subscriber S)} {x : ℕ}, x ≠ f.id →
      Function.update s.components f.id c x = s.components x := by
    intro c x hx
    exact Function.update_of_ne hx ..
  refine ⟨⟨.inl hflag, ?_, ?_, htr.listed, htr.nodup, htr.empty, ?_, ?_, htr.noted, htr.clean,
    htr.once⟩, ?_⟩
  · intro x hx
    obtain ⟨hc, hrest⟩ := htr.bound x hx
    have hne : x ≠ f.id := by
      rintro rfl
      rw [hcom] at hc
      cases hc
    exact ⟨(hother hne).trans hc, hrest⟩
  · intro x c hd hc
    have hne : x ≠ f.id := by
      rintro rfl
      exact hdead hd
    exact htr.dead x c hd ((hother hne).symm.trans hc)
  · intro g hg
    rcases List.mem_cons.mp hg with rfl | hg
    · refine ⟨hdead, _, Function.update_self .., hact, fun _ => ?_, fun _ hph' => ?_⟩
      · rw [hdone]
        rfl
      · cases hph'
    · have hg' : g ∈ s.stack := by
        rw [hs]
        exact List.mem_cons_of_mem f hg
      obtain ⟨hd, c, hc, hca, hp, ht⟩ := htr.frames g hg'
      by_cases hx : g.id = f.id
      · rw [hx, hcom] at hc
        cases hc
        refine ⟨hd, { com with
          persistent := !s.server.done
          state := if com.state.1 ∈ s.server.continuations then (com.state.1, none) else com.state
          incoming := if f.loop then com.incoming.erase f.tag else com.incoming },
          by rw [hx]; exact Function.update_self .., hact, fun _ => ?_, fun hl hph' => ?_⟩
        · rw [hdone]
          rfl
        · -- only one call is from the loop of the component
          cases hfl : f.loop with
          | false => exact ht hl hph'
          | true =>
            have htwo := htr.loops f.id
            rw [hs, List.countP_cons_of_pos (by simp [hfl])] at htwo
            have hpos : 0 < stack.countP (fun g => decide (g.id = f.id ∧ g.loop = true)) :=
              List.countP_pos_iff.mpr ⟨g, hg, by simp [hx, hl]⟩
            omega
      · exact ⟨hd, c, (hother hx).trans hc, hca, hp, ht⟩
  · intro x
    have hl := htr.loops x
    rw [hs, List.countP_cons] at hl
    rw [List.countP_cons]
    exact hl
  · intro x h1 hn hd
    obtain ⟨c, hc, hca, hsub, hw⟩ := hlive x h1 hn hd
    by_cases hx : x = f.id
    · subst hx
      rw [hcom] at hc
      cases hc
      refine ⟨_, Function.update_self .., hca, hsub, fun hcl => ?_⟩
      have hwork := hw hcl
      rw [work, hs, List.countP_cons] at hwork
      rw [work, List.countP_cons]
      cases hfl : f.loop with
      | false => simpa [hfl] using hwork
      | true =>
        have hlen := List.length_erase_of_mem (htag hfl hph)
        have hpos := List.length_pos_of_mem (htag hfl hph)
        simp only [hfl, hph, if_true, hlen] at hwork ⊢
        simp at hwork ⊢
        omega
    · refine ⟨c, (hother hx).trans hc, hca, hsub, fun hcl => ?_⟩
      rw [← hw hcl, work, work, hs, List.countP_cons_of_neg (by simp [Ne.symm hx]),
        List.countP_cons_of_neg (by simp [Ne.symm hx])]

theorem Sound.retPersistent (h : Sound s) (hs : s.stack = f :: stack)
    (hopen : s.closed = false) : Sound { s with stack := stack } := by
  obtain ⟨htr, hlive⟩ := h
  refine ⟨⟨.inl ?_, htr.bound, htr.dead, htr.listed, htr.nodup, htr.empty, ?_, ?_, htr.noted,
    htr.clean, htr.once⟩, ?_⟩
  · refine htr.flag.resolve_right fun hv => ?_
    rw [hv.2.2.1] at hs
    cases hs
  · intro g hg
    refine htr.frames g ?_
    rw [hs]
    exact List.mem_cons_of_mem f hg
  · intro x
    have hl := htr.loops x
    rw [hs, List.countP_cons] at hl
    exact Nat.le_trans (Nat.le_add_right _ _) hl
  · intro x h1 hn hd
    obtain ⟨c, hc, hca, hsub, -⟩ := hlive x h1 hn hd
    refine ⟨c, hc, hca, hsub, fun hcl => ?_⟩
    rw [show closed { s with stack := stack } = s.closed from rfl, hopen] at hcl
    cases hcl

theorem Sound.retCompletion (h : Sound s) (hs : s.stack = f :: stack)
    (hcom : s.components f.id = some com) (hph : f.phase = .unspooling)
    (hclosed : s.closed = true) :
    Sound (deactivate { s with stack := stack } f.id com) := by
  obtain ⟨htr, hlive⟩ := h
  have hf : f ∈ s.stack := by
    rw [hs]
    exact List.mem_cons_self
  have hrest : ∀ g ∈ stack, g ∈ s.stack := by
    intro g hg
    rw [hs]
    exact List.mem_cons_of_mem f hg
  obtain ⟨hdead, c, hc, hact, -⟩ := htr.frames f hf
  rw [hcom] at hc
  cases hc
  obtain ⟨h1, hn⟩ := htr.range hcom
  obtain ⟨c, hc, hca, -, hw⟩ := hlive f.id h1 hn hdead
  rw [hcom] at hc
  cases hc
  -- the call is the only work of the component
  have hwork := hw hclosed
  rw [work, hs, List.countP_cons_of_pos (by simp [hph])] at hwork
  have hin : com.incoming = [] := List.length_eq_zero_iff.mp (by omega)
  have hcount : stack.countP (fun g => decide (g.id = f.id ∧
      (g.loop = false ∨ g.phase = .unspooling))) = 0 := by omega
  have hnone : ∀ g ∈ stack, g.id ≠ f.id := by
    intro g hg he
    have hno := List.countP_eq_zero.mp hcount g hg
    simp only [he, true_and, decide_eq_true_eq, not_or, Bool.not_eq_false] at hno
    have hphase : g.phase = .acting := by
      cases hp : g.phase with
      | acting => rfl
      | unspooling => exact absurd hp hno.2
    obtain ⟨-, c, hc, -, -, htag⟩ := htr.frames g (hrest g hg)
    rw [he, hcom] at hc
    cases hc
    have hmem := htag hno.1 hphase
    rw [hin] at hmem
    cases hmem
  have hidle : Idle { s with stack := stack } f.id := by
    refine ⟨hnone, fun c hc => ?_⟩
    rw [show s.components f.id = some c from hc] at hcom
    rw [Option.some.inj hcom, hin]
  have hother : ∀ {c : Option (Subscriber S)} {x : ℕ}, x ≠ f.id →
      Function.update s.components f.id c x = s.components x := by
    intro c x hx
    exact Function.update_of_ne hx ..
  have hdeact : ∀ x, (deactivate { s with stack := stack } f.id com).Deactivated x ↔
      s.Deactivated x ∨ x = f.id := by
    intro x
    simp [Deactivated, deactivate]
  have hcl := hclosed
  simp only [closed, Bool.and_eq_true, List.isEmpty_iff] at hcl
  refine ⟨⟨.inl ?_, ?_, ?_, ?_, htr.nodup, htr.empty, ?_, ?_, ?_, ?_, ?_⟩, ?_⟩
  · refine htr.flag.resolve_right fun hv => ?_
    rw [hv.2.2.1] at hs
    cases hs
  · intro x hx
    obtain ⟨hc, hsub, hd⟩ := htr.bound x hx
    have hne : x ≠ f.id := by
      rintro rfl
      rw [hcom] at hc
      cases hc
    refine ⟨(hother hne).trans hc, hsub, ?_⟩
    rw [hdeact]
    exact not_or.mpr ⟨hd, hne⟩
  · intro x c hd hc
    by_cases hne : x = f.id
    · subst hne
      simp only [deactivate, Function.update_self, Option.some.injEq] at hc
      rw [← hc]
      exact ⟨rfl, .inl (hca.trans hact)⟩
    · exact htr.dead x c (((hdeact x).mp hd).resolve_right hne) ((hother hne).symm.trans hc)
  · intro x hx hd
    rcases (hdeact x).mp hd with hd | rfl
    · exact htr.listed x hx hd
    · rw [show (deactivate { s with stack := stack } f.id com).subscribers = s.subscribers
        from rfl, htr.empty hclosed] at hx
      cases hx
  · intro g hg
    obtain ⟨hd, c, hc, hcact⟩ := htr.frames g (hrest g hg)
    refine ⟨?_, c, (hother (hnone g hg)).trans hc, hcact⟩
    rw [hdeact]
    exact not_or.mpr ⟨hd, hnone g hg⟩
  · intro x
    have hl := htr.loops x
    rw [hs, List.countP_cons] at hl
    exact Nat.le_trans (Nat.le_add_right _ _) hl
  · intro x hx
    exact (hdeact x).mpr (.inl (htr.noted x hx))
  · intro d hd
    rcases List.mem_append.mp hd with hd | hd
    · exact htr.clean d hd
    · rw [List.mem_singleton.mp hd]
      exact ⟨by simp [hcl.2], by simp [hcl.1], hidle.holding⟩
  · simp only [deactivate, List.map_append]
    refine List.nodup_append.mpr ⟨htr.once, List.nodup_singleton _, ?_⟩
    rintro x hx _ hy rfl
    obtain rfl := List.mem_singleton.mp hy
    exact hdead hx
  · intro x hx1 hxn hd
    rw [hdeact, not_or] at hd
    obtain ⟨c, hc, hcact, hsub, hxw⟩ := hlive x hx1 hxn hd.1
    refine ⟨c, (hother hd.2).trans hc, hcact, hsub, fun hcl => ?_⟩
    rw [← hxw hclosed, work, work, hs, List.countP_cons_of_neg (by simp [Ne.symm hd.2])]
    rfl

theorem Sound.ret (h : Sound s) (ht : s.ret = some t) : Sound t := by
  unfold Serving.ret at ht
  split at ht
  · cases ht
  · rename_i f stack hs
    obtain ⟨com, hcom, ht⟩ := Option.bind_eq_some_iff.mp ht
    have hf : f ∈ s.stack := by
      rw [hs]
      exact List.mem_cons_self
    obtain ⟨hdead, c, hc, hact, hp, -⟩ := h.tracked.frames f hf
    rw [hcom] at hc
    cases hc
    split at ht
    · rename_i hph
      obtain rfl := Option.some.inj ht
      exact h.retActing hs hcom hph
    · rename_i hph
      have hpers := hp hph
      obtain rfl := Option.some.inj ht
      cases hclosed : s.closed with
      | false =>
        rw [hclosed, Bool.not_false] at hpers
        simp only [hpers, if_true]
        have hrest := h.retPersistent hs hclosed
        split_ifs with hl
        · refine hrest.stageNext hcom hdead ?_
          have htwo := h.tracked.loops f.id
          rw [hs, List.countP_cons_of_pos (by simp [hl])] at htwo
          exact Nat.le_zero.mp (Nat.le_of_succ_le_succ htwo)
        · exact hrest
      | true =>
        rw [hclosed, Bool.not_true] at hpers
        simp only [hpers, Bool.false_eq_true, if_false]
        have hrest := h.retCompletion hs hcom hph hclosed
        split_ifs with hl
        · -- the loop ends as the component is not active any more
          have he : (deactivate { s with stack := stack } f.id com).stageNext f.id =
              deactivate { s with stack := stack } f.id com := by
            unfold Serving.stageNext
            simp [deactivate]
          rw [he]
          exact hrest
        · exact hrest

end Return

theorem Sound.step {e : Event S} (h : Sound s) (hm : s.Meets e) (ht : s.step e = some t) :
    Sound t := by
  cases e with
  | emplaceComponent =>
    obtain rfl := Option.some.inj ht
    exact h.emplaceComponent hm
  | putState tag st => exact h.putState hm ht
  | doneInserting =>
    obtain rfl := Option.some.inj ht
    exact h.doneInserting hm
  | activateComponent id => exact h.activateComponent hm ht
  | accept id tag => exact h.accept hm ht
  | ret => exact h.ret ht
  | collect id => exact h.collect ht

theorem sound_init : Sound ({} : Serving S) := by
  refine ⟨⟨.inr ⟨rfl, rfl, rfl, by simp⟩, by simp [Deactivated], by simp [Deactivated], by simp,
    by simp, fun _ => rfl, by simp, by simp, by simp, by simp, by simp⟩, ?_⟩
  intro id h1 hn
  exact absurd h1 (Nat.not_le.mpr (Nat.lt_succ_of_le hn))

/-- Subscribers are deactivated once and in time, if no state is in use when the server finds
that it has none left and nothing is added to it afterwards. -/
theorem orderly_of_run {es : List (Event S)}
    (h : Run (restrict (ofFun step) Meets) ({} : Serving S) es s) : Orderly s :=
  (h.invariant (fun _ _ _ hi hs => hi.step hs.1 hs.2) sound_init).orderly

def twoComponents : List (Event ℕ) :=
  [.emplaceComponent, .emplaceComponent, .putState 0 7, .activateComponent 1, .doneInserting]

/-- When the first one accepts the only state, the server invalidates the other one, which has
nothing to do. The first one completes after its action. -/
theorem orderly_twoComponents : ∃ s : Serving ℕ,
    Run (restrict (ofFun step) Meets) {} (twoComponents ++ [.accept 1 0] ++ [.ret] ++ [.ret]) s ∧
    s.deactivations = [⟨2, false, false, false⟩, ⟨1, false, false, false⟩] ∧ Orderly s := by
  have hstart : ∃ s t u v : Serving ℕ, Run (restrict (ofFun step) Meets) {} twoComponents s ∧
      s.subscribers = [1, 2] ∧ s.stack = [] ∧
      s.components 1 = some ⟨true, true, false, (0, none), []⟩ ∧ s.components 2 = some {} ∧
      s.step (.accept 1 0) = some t ∧ t.step .ret = some u ∧ u.step .ret = some v ∧
      v.deactivations = [⟨2, false, false, false⟩, ⟨1, false, false, false⟩] := by
    have h : Run (restrict (ofFun step) Meets) ({} : Serving ℕ) [.emplaceComponent] _ :=
      Run.nil.snoc_restrict Event.emplaceComponent rfl rfl
    have h := h.snoc_restrict Event.emplaceComponent rfl rfl
    have h := h.snoc_restrict (Event.putState 0 7) (fun hc => by cases hc) rfl
    have h := h.snoc_restrict (Event.activateComponent 1) (fun com hcom => by cases hcom; rfl) rfl
    have h := h.snoc_restrict Event.doneInserting (fun ha => by cases ha) rfl
    exact ⟨_, _, _, _, h, rfl, rfl, rfl, rfl, rfl, rfl, rfl, rfl⟩
  obtain ⟨s, t, u, v, h, hsub, hstack, h1, h2, ht, hu, hv, hd⟩ := hstart
  have hidle : ∀ id ∈ s.subscribers, s.Idle id := by
    intro id hid
    refine ⟨by simp [hstack], fun com hcom => ?_⟩
    rw [hsub, List.mem_cons, List.mem_singleton] at hid
    rcases hid with rfl | rfl
    · rw [h1] at hcom
      cases hcom
      rfl
    · rw [h2] at hcom
      cases hcom
      rfl
  have h := h.snoc_restrict (Event.accept 1 0) (fun _ => hidle) ht
  have h := h.snoc_restrict Event.ret trivial hu
  have h := h.snoc_restrict Event.ret trivial hv
  exact ⟨v, h, hd, orderly_of_run h⟩

/-- A component has the only state, and its action runs, when inserting is declared done. -/
def doneWhileHeld : List (Event ℕ) :=
  [.emplaceComponent, .putState 0 7, .activateComponent 1, .accept 1 0, .doneInserting]

/-- The component is invalidated while it holds the state. -/
theorem not_orderly_doneWhileHeld : ¬ ∀ (es : List (Event ℕ)) (s : Serving ℕ),
    Run (ofFun step) {} es s → Orderly s := by
  intro hall
  have hrun : ∃ s : Serving ℕ, Run (ofFun step) {} doneWhileHeld s ∧
      s.deactivations = [⟨1, false, false, true⟩] := by
    have h : Run (ofFun step) ({} : Serving ℕ) doneWhileHeld _ := run_of_exec rfl
    exact ⟨_, h, rfl⟩
  obtain ⟨s, h, hd⟩ := hrun
  have hc := (hall doneWhileHeld s h).clean ⟨1, false, false, true⟩ (by simp [hd])
  cases hc.2.2

end Steps

end Serving

end Hypercomm.Components
