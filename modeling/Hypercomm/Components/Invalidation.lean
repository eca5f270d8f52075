import Hypercomm.Components.Acceptor
import Hypercomm.Transition.Run

/-! # Invalidation before activation

A locality notes the components that it invalidates before they are activated, and the
activation of such a component erases it. A component that accepts null before it is
activated is not noted.
-/

namespace Hypercomm.Components

open Transition

namespace Acceptor

variable {n : ℕ} {V : Type*}

/-- Whether a component is collectible depends on its outputs, which may be drained. -/
def collectible (s : Acceptor n V) (drained : Bool) : Bool := s.activated && !s.active && drained

end Acceptor

/-- The components of a locality. Those that were erased keep their last state, for the
record, and no call reads it. -/
structure ComponentMap {ι : Type*} (arity : ι → ℕ) (V : Type*) where
  components : ι → Bool
  acceptors : (id : ι) → Acceptor (arity id) V
  invalidations : List ι := []

namespace ComponentMap

variable {ι V : Type*} {arity : ι → ℕ}

def start (arity : ι → ℕ) (V : Type*) (permissive persistent : ι → Bool) :
    ComponentMap arity V where
  components _ := true
  acceptors id := {
    permissive := permissive id
    persistent := persistent id }

variable [DecidableEq ι]

def erase (s : ComponentMap arity V) (id : ι) : ComponentMap arity V :=
  { s with components := Function.update s.components id false }

def put (s : ComponentMap arity V) (id : ι) (com : Acceptor (arity id) V) :
    ComponentMap arity V :=
  { s with acceptors := Function.update s.acceptors id com }

def tryCollect (s : ComponentMap arity V) (id : ι) (drained : Bool) : ComponentMap arity V :=
  if s.components id && (s.acceptors id).collectible drained then s.erase id else s

def invalidateComponent (s : ComponentMap arity V) (id : ι) : ComponentMap arity V :=
  if s.components id then
    let wasAlive := (s.acceptors id).active
    let s := s.put id ((s.acceptors id).deactivate .invalidation)
    if wasAlive then s.erase id
    else { s with invalidations := s.invalidations ++ [id] }
  else s

def invalidated (s : ComponentMap arity V) (id : ι) : Option (ComponentMap arity V) :=
  if id ∈ s.invalidations then some { s with invalidations := s.invalidations.erase id } else none

/-- The locality aborts if there is no such component. -/
def activateComponent (s : ComponentMap arity V) (id : ι) (drained : Bool) :
    Option (ComponentMap arity V) :=
  if s.components id then
    match s.invalidated id with
    | some s => some (s.erase id)
    | none => (s.acceptors id).activate.map fun com => (s.put id com).tryCollect id drained
  else none

/-- A value for a component that is not there is refused. -/
def passthru (s : ComponentMap arity V) (id : ι) (port : Fin (arity id)) (val : Option V)
    (drained : Bool) : Option (ComponentMap arity V) :=
  if s.components id then
    ((s.acceptors id).accept port val).map fun com => (s.put id com).tryCollect id drained
  else some s

inductive Call (arity : ι → ℕ) (V : Type*)
  | invalidateComponent (id : ι)
  | activateComponent (id : ι) (drained : Bool)
  | passthru (id : ι) (port : Fin (arity id)) (val : Option V) (drained : Bool)
  | tryCollect (id : ι) (drained : Bool)

def step (s : ComponentMap arity V) : Call arity V → Option (ComponentMap arity V)
  | .invalidateComponent id => some (s.invalidateComponent id)
  | .activateComponent id drained => s.activateComponent id drained
  | .passthru id port val drained => s.passthru id port val drained
  | .tryCollect id drained => some (s.tryCollect id drained)

def Call.target : Call arity V → ι
  | .invalidateComponent id => id
  | .activateComponent id _ => id
  | .passthru id _ _ _ => id
  | .tryCollect id _ => id

def Call.Activates (id : ι) : Call arity V → Prop
  | .activateComponent id' _ => id' = id
  | _ => False

/-- Null is accepted by a component that is not permissive. -/
def Call.Nullifies (permissive : ι → Bool) (id : ι) : Call arity V → Prop
  | .passthru id' _ none _ => id' = id ∧ permissive id = false
  | _ => False

def Call.Invalidates (permissive : ι → Bool) (id : ι) (call : Call arity V) : Prop :=
  call = .invalidateComponent id ∨ call.Nullifies permissive id

/-- A component that is invalidated before it is activated never runs, and its activation
erases it. -/
def NeverRuns (s : ComponentMap arity V) (permissive : ι → Bool) (id : ι)
    (calls : List (Call arity V)) : Prop :=
  ∀ before call after t, before ++ call :: after <+: calls →
    (∀ c ∈ before, ¬ c.Activates id) → call.Invalidates permissive id →
    Run (ofFun step) s (before ++ call :: after) t →
      (t.acceptors id).active = false ∧ (t.acceptors id).actions = [] ∧
        ((∃ c ∈ after, c.Activates id) → t.components id = false)

/-- A component that accepted null before its first activation was invalidated by the
locality, too. -/
def Noted (permissive : ι → Bool) (id : ι) (calls : List (Call arity V)) : Prop :=
  ∀ before call after, calls = before ++ call :: after →
    (∀ c ∈ before, ¬ c.Activates id) → call.Activates id →
    (∃ c ∈ before, c.Nullifies permissive id) → Call.invalidateComponent id ∈ before

section Calls

variable {s t : ComponentMap arity V} {id : ι} {call : Call arity V}

structure Dormant (s : ComponentMap arity V) (id : ι) : Prop where
  present : s.components id = true
  inactive : (s.acceptors id).active = false
  not_activated : (s.acceptors id).activated = false
  actions : (s.acceptors id).actions = []

@[simp] theorem put_acceptors_self (s : ComponentMap arity V) (com : Acceptor (arity id) V) :
    (s.put id com).acceptors id = com := Function.update_self _ _ _

theorem tryCollect_acceptors (s : ComponentMap arity V) (id : ι) (drained : Bool) :
    (s.tryCollect id drained).acceptors = s.acceptors := by
  unfold tryCollect
  split_ifs <;> rfl

theorem tryCollect_invalidations (s : ComponentMap arity V) (id : ι) (drained : Bool) :
    (s.tryCollect id drained).invalidations = s.invalidations := by
  unfold tryCollect
  split_ifs <;> rfl

theorem tryCollect_components_of_ne {id' : ι} (h : id ≠ id') (s : ComponentMap arity V)
    (drained : Bool) : (s.tryCollect id' drained).components id = s.components id := by
  unfold tryCollect
  split_ifs
  · exact Function.update_of_ne h _ _
  · rfl

theorem Dormant.tryCollect (h : Dormant s id) (id' : ι) (drained : Bool) :
    Dormant (s.tryCollect id' drained) id := by
  refine ⟨?_, ?_, ?_, ?_⟩
  · by_cases hid : id = id'
    · subst hid
      simp [ComponentMap.tryCollect, Acceptor.collectible, h.not_activated, h.present]
    · rw [tryCollect_components_of_ne hid]
      exact h.present
  · rw [tryCollect_acceptors]
    exact h.inactive
  · rw [tryCollect_acceptors]
    exact h.not_activated
  · rw [tryCollect_acceptors]
    exact h.actions

theorem step_of_ne (h : call.target ≠ id) (ht : s.step call = some t) :
    t.components id = s.components id ∧ t.acceptors id = s.acceptors id ∧
      (id ∈ t.invalidations ↔ id ∈ s.invalidations) := by
  cases call with
  | invalidateComponent id' =>
    cases ht
    have hne : id ≠ id' := Ne.symm h
    unfold ComponentMap.invalidateComponent
    dsimp only
    split_ifs
    · exact ⟨Function.update_of_ne hne _ _, Function.update_of_ne hne _ _, Iff.rfl⟩
    · refine ⟨rfl, Function.update_of_ne hne _ _, ?_⟩
      simp [put, hne]
    · exact ⟨rfl, rfl, Iff.rfl⟩
  | activateComponent id' drained =>
    have hne : id ≠ id' := Ne.symm h
    change s.activateComponent id' drained = some t at ht
    unfold ComponentMap.activateComponent invalidated at ht
    by_cases hi : id' ∈ s.invalidations
    · rw [if_pos hi] at ht
      split_ifs at ht
      cases ht
      exact ⟨Function.update_of_ne hne _ _, rfl,
        List.mem_erase_of_ne hne⟩
    · rw [if_neg hi] at ht
      split_ifs at ht
      obtain ⟨com, -, rfl⟩ := Option.map_eq_some_iff.mp ht
      rw [tryCollect_components_of_ne hne, tryCollect_acceptors, tryCollect_invalidations]
      exact ⟨rfl, Function.update_of_ne hne _ _, Iff.rfl⟩
  | passthru id' port val drained =>
    have hne : id ≠ id' := Ne.symm h
    change s.passthru id' port val drained = some t at ht
    unfold ComponentMap.passthru at ht
    split_ifs at ht
    · obtain ⟨com, -, rfl⟩ := Option.map_eq_some_iff.mp ht
      rw [tryCollect_components_of_ne hne, tryCollect_acceptors, tryCollect_invalidations]
      exact ⟨rfl, Function.update_of_ne hne _ _, Iff.rfl⟩
    · cases ht
      exact ⟨rfl, rfl, Iff.rfl⟩
  | tryCollect id' drained =>
    have hne : id ≠ id' := Ne.symm h
    cases ht
    rw [tryCollect_components_of_ne hne, tryCollect_acceptors, tryCollect_invalidations]
    exact ⟨rfl, rfl, Iff.rfl⟩

theorem Dormant.step (h : Dormant s id) (hcall : ¬ call.Activates id)
    (ht : s.step call = some t) :
    Dormant t id ∧
      (id ∈ t.invalidations ↔ id ∈ s.invalidations ∨ call = .invalidateComponent id) := by
  by_cases hid : call.target = id
  · subst hid
    cases call with
    | invalidateComponent id =>
      replace h : Dormant s id := h
      cases ht
      rw [Call.target, ComponentMap.invalidateComponent, if_pos h.present]
      simp only [h.inactive]
      refine ⟨⟨h.present, ?_, ?_, ?_⟩, by simp [put]⟩
      · rw [if_neg (by simp)]
        simp [put, Acceptor.deactivate]
      · simpa [put, Acceptor.deactivate] using h.not_activated
      · simpa [put, Acceptor.deactivate] using h.actions
    | activateComponent id drained => exact absurd rfl hcall
    | passthru id port val drained =>
      replace h : Dormant s id := h
      change s.passthru id port val drained = some t at ht
      unfold ComponentMap.passthru at ht
      rw [if_pos h.present] at ht
      obtain ⟨com, hc, rfl⟩ := Option.map_eq_some_iff.mp ht
      have hcom := Acceptor.accept_of_inactive h.inactive hc
      have hput : Dormant (s.put id com) id := by
        refine ⟨h.present, ?_, ?_, ?_⟩
        · rw [put_acceptors_self, hcom]
          exact h.inactive
        · rw [put_acceptors_self, hcom]
          exact h.not_activated
        · rw [put_acceptors_self, hcom]
          exact h.actions
      refine ⟨hput.tryCollect id drained, ?_⟩
      rw [tryCollect_invalidations]
      simp [put, Call.target]
    | tryCollect id drained =>
      cases ht
      refine ⟨h.tryCollect id drained, ?_⟩
      rw [tryCollect_invalidations]
      simp
  · obtain ⟨hc, ha, hi⟩ := step_of_ne hid ht
    refine ⟨⟨hc.trans h.present, ?_, ?_, ?_⟩, ?_⟩
    · rw [ha]
      exact h.inactive
    · rw [ha]
      exact h.not_activated
    · rw [ha]
      exact h.actions
    · rw [hi, or_iff_left]
      rintro rfl
      exact hid rfl

/-- The activation erases a component that was noted, and any other one is active or runs. -/
theorem Dormant.activate (h : Dormant s id) (hcall : call.Activates id)
    (ht : s.step call = some t) :
    (id ∈ s.invalidations → t.components id = false ∧ t.acceptors id = s.acceptors id) ∧
      (id ∉ s.invalidations →
        (t.acceptors id).active = true ∨ (t.acceptors id).actions ≠ []) := by
  cases call with
  | activateComponent id' drained =>
    obtain rfl : id' = id := hcall
    change s.activateComponent id' drained = some t at ht
    unfold ComponentMap.activateComponent invalidated at ht
    rw [if_pos h.present] at ht
    constructor
    · intro hi
      rw [if_pos hi] at ht
      cases ht
      exact ⟨Function.update_self _ _ _, rfl⟩
    · intro hi
      rw [if_neg hi] at ht
      obtain ⟨com, hc, rfl⟩ := Option.map_eq_some_iff.mp ht
      rw [tryCollect_acceptors, put_acceptors_self]
      unfold Acceptor.activate at hc
      rw [if_neg (by simp [h.inactive])] at hc
      cases hc
      exact Acceptor.stageReady_active (Or.inl rfl)
  | invalidateComponent => cases hcall
  | passthru => cases hcall
  | tryCollect => cases hcall

theorem step_of_erased (h : s.components id = false) (ht : s.step call = some t) :
    t.components id = false ∧ t.acceptors id = s.acceptors id := by
  by_cases hid : call.target = id
  · subst hid
    cases call with
    | invalidateComponent id =>
      have hs : s.components id = false := h
      cases ht
      rw [ComponentMap.invalidateComponent, if_neg (by simp [hs])]
      exact ⟨h, rfl⟩
    | activateComponent id drained =>
      have hs : s.components id = false := h
      change s.activateComponent id drained = some t at ht
      rw [ComponentMap.activateComponent, if_neg (by simp [hs])] at ht
      cases ht
    | passthru id port val drained =>
      have hs : s.components id = false := h
      change s.passthru id port val drained = some t at ht
      rw [ComponentMap.passthru, if_neg (by simp [hs])] at ht
      cases ht
      exact ⟨h, rfl⟩
    | tryCollect id drained =>
      have hs : s.components id = false := h
      cases ht
      rw [ComponentMap.tryCollect, if_neg (by simp [hs])]
      exact ⟨h, rfl⟩
  · obtain ⟨hc, ha, -⟩ := step_of_ne hid ht
    exact ⟨hc.trans h, ha⟩

end Calls

section Runs

variable {permissive persistent : ι → Bool} {id : ι}
variable {calls before after : List (Call arity V)} {s t : ComponentMap arity V}

omit [DecidableEq ι] in
theorem dormant_start (id : ι) : Dormant (start arity V permissive persistent) id :=
  ⟨rfl, rfl, rfl, rfl⟩

theorem dormant_of_run (h : Run (ofFun step) (start arity V permissive persistent) before s)
    (hb : ∀ c ∈ before, ¬ c.Activates id) :
    Dormant s id ∧ (id ∈ s.invalidations ↔ .invalidateComponent id ∈ before) := by
  induction h with
  | nil => exact ⟨dormant_start id, by simp [start]⟩
  | snoc hr hs ih =>
    obtain ⟨hd, hi⟩ := ih fun c hc => hb c (List.mem_append_left _ hc)
    obtain ⟨hd', hi'⟩ := hd.step (hb _ (by simp)) hs
    refine ⟨hd', hi'.trans ?_⟩
    rw [hi, List.mem_append, List.mem_singleton, eq_comm (b := Call.invalidateComponent id)]

theorem erased_of_run (h : Run (ofFun step) s after t) (hs : s.components id = false) :
    t.components id = false ∧ t.acceptors id = s.acceptors id := by
  induction h with
  | nil => exact ⟨hs, rfl⟩
  | snoc hr hst ih =>
    obtain ⟨hc, ha⟩ := ih
    obtain ⟨hc', ha'⟩ := step_of_erased hc hst
    exact ⟨hc', ha'.trans ha⟩

omit [DecidableEq ι] in
theorem exists_first_activation (h : ∃ c ∈ calls, c.Activates id) :
    ∃ before call after, calls = before ++ call :: after ∧
      (∀ c ∈ before, ¬ c.Activates id) ∧ call.Activates id := by
  classical
  induction calls with
  | nil => simp at h
  | cons c calls ih =>
    by_cases hc : c.Activates id
    · exact ⟨[], c, calls, rfl, by simp, hc⟩
    · obtain ⟨before, call, after, rfl, hb, ha⟩ := ih (by simpa [hc] using h)
      exact ⟨c :: before, call, after, rfl, by simpa [hc] using hb, ha⟩

theorem Noted.neverRuns (hn : Noted permissive id calls) :
    NeverRuns (start arity V permissive persistent) permissive id calls := by
  rintro before call after t ⟨rest, hrest⟩ hb hinv hrun
  have hnot : ¬ call.Activates id := by
    intro hact
    cases call with
    | activateComponent => exact hinv.elim (fun h => by cases h) fun h => h
    | invalidateComponent => cases hact
    | passthru => cases hact
    | tryCollect => cases hact
  by_cases hact : ∃ c ∈ after, c.Activates id
  · obtain ⟨b, c, a, rfl, hfirst, hc⟩ := exists_first_activation hact
    have hpre : ∀ c ∈ before ++ call :: b, ¬ c.Activates id := by
      intro d hd
      rcases List.mem_append.mp hd with hd | hd
      · exact hb d hd
      · rcases List.mem_cons.mp hd with rfl | hd
        · exact hnot
        · exact hfirst d hd
    have hmem : Call.invalidateComponent id ∈ before ++ call :: b := by
      rcases hinv with rfl | hnull
      · simp
      · refine hn (before ++ call :: b) c (a ++ rest) (by simp [← hrest]) hpre hc
          ⟨call, by simp, hnull⟩
    rw [show before ++ call :: (b ++ c :: a) = (before ++ call :: b) ++ ([c] ++ a) by simp] at hrun
    obtain ⟨u, hu, hrun⟩ := run_append_iff.mp hrun
    obtain ⟨v, hv, hrun⟩ := run_append_iff.mp hrun
    obtain ⟨hd, hi⟩ := dormant_of_run hu hpre
    obtain ⟨hcv, hav⟩ := (hd.activate hc (run_singleton_iff.mp hv)).1 (hi.mpr hmem)
    obtain ⟨hct, hat⟩ := erased_of_run hrun hcv
    rw [hat, hav]
    exact ⟨hd.inactive, hd.actions, fun _ => hct⟩
  · have hpre : ∀ c ∈ before ++ call :: after, ¬ c.Activates id := by
      intro d hd
      rcases List.mem_append.mp hd with hd | hd
      · exact hb d hd
      · rcases List.mem_cons.mp hd with rfl | hd
        · exact hnot
        · exact fun h => hact ⟨d, hd, h⟩
    obtain ⟨hd, -⟩ := dormant_of_run hrun hpre
    exact ⟨hd.inactive, hd.actions, fun h => absurd h hact⟩

theorem NeverRuns.noted (h : Run (ofFun step) (start arity V permissive persistent) calls t)
    (hn : NeverRuns (start arity V permissive persistent) permissive id calls) :
    Noted permissive id calls := by
  rintro before call after rfl hb hact ⟨c, hc, hnull⟩
  by_contra hmem
  rw [show before ++ call :: after = before ++ ([call] ++ after) by simp] at h
  obtain ⟨u, hu, hrun⟩ := run_append_iff.mp h
  obtain ⟨v, hv, -⟩ := run_append_iff.mp hrun
  obtain ⟨hd, hi⟩ := dormant_of_run hu hb
  have hbad := (hd.activate hact (run_singleton_iff.mp hv)).2 fun h => hmem (hi.mp h)
  obtain ⟨b, b', rfl⟩ := List.append_of_mem hc
  have hgood := hn b c (b' ++ [call]) v ⟨after, by simp⟩
    (fun d hd => hb d (List.mem_append_left _ hd)) (Or.inr hnull) (by simpa using hu.append hv)
  rcases hbad with hbad | hbad
  · rw [hgood.1] at hbad
    cases hbad
  · exact hbad hgood.2.1

/-- A component that is invalidated before it is activated never runs exactly if its first
activation, when it accepted null before, follows an invalidation by the locality. -/
theorem neverRuns_iff (h : Run (ofFun step) (start arity V permissive persistent) calls t) :
    NeverRuns (start arity V permissive persistent) permissive id calls ↔
      Noted permissive id calls :=
  ⟨fun hn => hn.noted h, Noted.neverRuns⟩

def nullFirst : List (Call (fun _ : Unit => 1) ℕ) :=
  [.passthru () 0 none true, .activateComponent () true]

/-- A component that was invalidated by null is activated. -/
theorem not_neverRuns_nullFirst :
    ¬ NeverRuns (start (fun _ => 1) ℕ (fun _ => false) fun _ => false) (fun _ => false) ()
      nullFirst := by
  intro hn
  obtain ⟨t, ht⟩ : ∃ t, Run (ofFun step) (start (fun _ => 1) ℕ (fun _ => false) fun _ => false)
      nullFirst t := ⟨_, run_of_exec rfl⟩
  have hsplit : nullFirst = [.passthru () 0 none true] ++ [.activateComponent () true] := rfl
  obtain ⟨u, hu, hst⟩ := run_append_iff.mp (hsplit ▸ ht)
  obtain ⟨hd, hi⟩ : Dormant u () ∧ (() ∈ u.invalidations ↔ _) :=
    dormant_of_run hu (by simp [Call.Activates])
  have hbad := (hd.activate (by rfl) (run_singleton_iff.mp hst)).2 (by simp [hi])
  have hgood := hn [] (.passthru () 0 none true) [.activateComponent () true] t List.prefix_rfl
    (by simp) (Or.inr ⟨rfl, rfl⟩) ht
  rcases hbad with hbad | hbad
  · rw [hgood.1] at hbad
    cases hbad
  · exact hbad hgood.2.1

/-- The locality invalidates a component that also accepts null. -/
theorem neverRuns_noted :
    NeverRuns (start (fun _ => 1) ℕ (fun _ => false) fun _ => false) (fun _ => false) ()
      (.invalidateComponent () :: nullFirst) := by
  refine (neverRuns_iff (run_of_exec rfl)).mpr ?_
  intro before call after h hb hact hnull
  cases before with
  | nil =>
    cases h
    cases hact
  | cons c before =>
    obtain ⟨rfl, -⟩ := List.cons.inj h
    exact List.mem_cons_self

end Runs

end ComponentMap

end Hypercomm.Components
