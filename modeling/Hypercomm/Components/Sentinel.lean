import Mathlib.Algebra.Group.Nat.Defs
import Mathlib.Data.List.Nodup
import Mathlib.Data.List.Perm.Basic
import Mathlib.Logic.Function.Basic
import Hypercomm.Transition.Run

/-! # Sentinels

A sentinel counts the expectations on components that are not met yet. When a member of a
group completes, the others are invalidated one after another, each of them leaving the
vector that is walked. Which members are reached depends on their positions.
-/

namespace Hypercomm.Sentinel

open Transition

/-- The memory of a vector and how much of it is used. -/
structure Group where
  slots : List ℕ
  size : ℕ

/-- Later elements move one place to the left, and the last one also stays where it was. -/
def Group.erase (g : Group) (id : ℕ) : Group :=
  if id ∈ g.slots.take g.size then
    { slots := (g.slots.take g.size).erase id ++ g.slots.drop (g.size - 1)
      size := g.size - 1 }
  else g

structure Component where
  active : Bool := false
  activated : Bool := false
  listeners : ℕ := 0

/-- A sentinel and the components of its locality. What was expected, which components have
completed, and the awakenings (whether the thread was suspended and how many expectations
were not met) are only logged. -/
structure State (Th : Type*) where
  components : ℕ → Option Component := fun _ => none
  nComponents : ℕ := 0
  invalidations : List ℕ := []
  groups : ℕ → Option ℕ := fun _ => none
  vectors : List Group := []
  nExpected : ℕ := 0
  sleeper : Option Th := none
  suspended : List Th := []
  awakened : List (Bool × ℕ) := []
  alls : List ℕ := []
  families : List (List ℕ) := []
  completed : List ℕ := []

namespace State

variable {Th : Type*} [DecidableEq Th]

def unmet (s : State Th) : ℕ :=
  s.alls.countP (fun id => decide (id ∉ s.completed)) +
    s.families.countP fun l => decide (∀ id ∈ l, id ∉ s.completed)

/-- Call the listener of the sentinel as often as it was added. -/
def notify (listener : State Th → Option (State Th)) : ℕ → State Th → Option (State Th)
  | 0, s => some s
  | n + 1, s => (listener s).bind (notify listener n)

def onInvalidation (id : ℕ) (s : State Th) : Option (State Th) :=
  (s.groups id).bind fun k => (s.vectors[k]?).map fun g =>
    { s with
      vectors := s.vectors.set k (g.erase id)
      groups := Function.update s.groups id none }

/-- The id is passed by reference, so that it is read again after the listeners were called. -/
def invalidateComponent (ref : State Th → ℕ) (s : State Th) : Option (State Th) :=
  match s.components (ref s) with
  | none => some s
  | some com =>
      let id := ref s
      (notify (onInvalidation id) com.listeners { s with
        components := Function.update s.components id
          (some { com with active := false, listeners := 0 }) }).map fun t =>
        if com.active then { t with components := Function.update t.components id none }
        else { t with invalidations := t.invalidations ++ [ref t] }

def peer (k i : ℕ) (s : State Th) : ℕ := ((s.vectors[k]?).bind fun g => g.slots[i]?).getD 0

/-- The bounds of the loop are those of the vector before its first step. -/
def walk (id k : ℕ) : List ℕ → State Th → Option (State Th)
  | [], s => some s
  | i :: is, s =>
      (if s.peer k i = id then some s else invalidateComponent (peer k i) s).bind (walk id k is)

def awaken (s : State Th) : State Th :=
  match s.sleeper with
  | none => s
  | some th => { s with
      suspended := s.suspended.erase th
      awakened := s.awakened ++ [(decide (th ∈ s.suspended), s.unmet)] }

/-- The counter has 64 bits. -/
def decrement (n : ℕ) : ℕ := if n = 0 then 2 ^ 64 - 1 else n - 1

def invalidatePeers (id : ℕ) (s : State Th) : Option (State Th) :=
  match s.groups id with
  | none => some s
  | some k => (walk id k (List.range ((s.vectors[k]?).elim 0 Group.size)) s).map fun t =>
      { t with groups := Function.update t.groups id none }

def onCompletion (id : ℕ) (s : State Th) : Option (State Th) :=
  (invalidatePeers id s).map fun t =>
    let t := { t with nExpected := decrement t.nExpected }
    if t.nExpected = 0 then t.awaken else t

def addListener (s : State Th) (id : ℕ) : Option (State Th) :=
  (s.components id).map fun com =>
    let com := { com with listeners := com.listeners + 1 }
    { s with components := Function.update s.components id (some com) }

def expectAll (s : State Th) (ids : List ℕ) : Option (State Th) :=
  (ids.foldlM (fun s id => addListener { s with nExpected := s.nExpected + 1 } id) s).map
    fun t => { t with alls := t.alls ++ ids }

def expectAny (s : State Th) (ids : List ℕ) : Option (State Th) :=
  (ids.foldlM addListener s).map fun t => { t with
    groups := fun id => if id ∈ ids then some t.vectors.length else t.groups id
    vectors := t.vectors ++ [⟨ids, ids.length⟩]
    nExpected := t.nExpected + 1
    families := t.families ++ [ids] }

def activateComponent (s : State Th) (id : ℕ) : Option (State Th) :=
  (s.components id).bind fun com =>
    if id ∈ s.invalidations then some { s with
      invalidations := s.invalidations.erase id
      components := Function.update s.components id none }
    else if com.active then none
    else
      let com := { com with active := true, activated := true }
      some { s with components := Function.update s.components id (some com) }

def complete (s : State Th) (id : ℕ) : Option (State Th) :=
  (s.components id).bind fun com =>
    if com.active then
      notify (onCompletion id) com.listeners { s with
        components := Function.update s.components id
          (some { com with active := false, listeners := 0 })
        completed := id :: s.completed }
    else none

def collect (s : State Th) (id : ℕ) : Option (State Th) :=
  (s.components id).bind fun com =>
    if com.activated && !com.active then
      some { s with components := Function.update s.components id none }
    else none

def suspend (s : State Th) (th : Th) : Option (State Th) :=
  if th ∈ s.suspended then none
  else if s.nExpected > 0 then some { s with
    sleeper := some th
    suspended := th :: s.suspended }
  else some s

inductive Event (Th : Type*)
  | emplaceComponent
  | expectAll (ids : List ℕ)
  | expectAny (ids : List ℕ)
  | activateComponent (id : ℕ)
  | complete (id : ℕ)
  | collect (id : ℕ)
  | suspend (th : Th)

def step (s : State Th) : Event Th → Option (State Th)
  | .emplaceComponent => some { s with
      components := Function.update s.components s.nComponents (some {})
      nComponents := s.nComponents + 1 }
  | .expectAll ids => s.expectAll ids
  | .expectAny ids => s.expectAny ids
  | .activateComponent id => s.activateComponent id
  | .complete id => s.complete id
  | .collect id => s.collect id
  | .suspend th => s.suspend th

/-- A component that is gone, or will be once it is activated. -/
def Down (s : State Th) (id : ℕ) : Prop :=
  ∀ com, s.components id = some com → com.active = false ∧ id ∈ s.invalidations

structure Barrier (s : State Th) : Prop where
  exclusive : ∀ l ∈ s.families, ∀ a ∈ l, a ∈ s.completed → ∀ b ∈ l, b ≠ a →
    b ∉ s.completed ∧ s.Down b
  count : s.nExpected = s.unmet
  asleep : s.suspended ≠ [] → s.unmet ≠ 0
  awakened : ∀ w ∈ s.awakened, w = (true, 0)

def Fresh (s : State Th) (ids : List ℕ) : Prop :=
  ids.Nodup ∧ ∀ id ∈ ids, id ∉ s.completed ∧ id ∉ s.alls ∧ ∀ l ∈ s.families, id ∉ l

def Apart (s : State Th) : Event Th → Prop
  | .expectAll ids => s.Fresh ids
  | .expectAny ids => s.Fresh ids
  | _ => True

/-- The positions from which every other member is reached. -/
def Reaching (id : ℕ) : List ℕ → Prop
  | [_] => True
  | [_, _] => True
  | [_, _, c] => c ≠ id
  | [_, b, _, _] => b = id
  | _ => False

/-- The group of the component is small, the component is at a place from which all other
members are reached, and these are active, except perhaps for the last one. -/
def Reaches (s : State Th) (id : ℕ) : Prop :=
  ∀ l ∈ s.families, id ∈ l → Reaching id l ∧
    ∀ b ∈ l.dropLast, b ≠ id → ∃ com, s.components b = some com ∧ com.active = true

def Wakes (s : State Th) : Prop :=
  s.nExpected = 1 → ∀ th, th ∈ s.suspended ↔ s.sleeper = some th

def Listening (s : State Th) (id : ℕ) : Prop :=
  ∃ com, s.components id = some com ∧ com.listeners ≠ 0

def Meets (s : State Th) : Event Th → Prop
  | .complete id => s.Listening id → s.Reaches id ∧ s.Wakes
  | e => s.Apart e

section Tracking

variable {s t u : State Th} {id : ℕ} {ids : List ℕ} {com : Component}

def Pending (s : State Th) (id : ℕ) : Prop :=
  id ∈ s.alls ∧ id ∉ s.completed ∨
    ∃ l ∈ s.families, id ∈ l ∧ ∀ a ∈ l, a ∉ s.completed

structure Tracked (s : State Th) : Prop where
  distinct : (s.alls ++ s.families.flatten).Nodup
  bound : ∀ id, s.nComponents ≤ id → s.components id = none ∧ ¬ s.Pending id ∧
    (∀ l ∈ s.families, id ∉ l) ∧ id ∉ s.invalidations
  waiting : ∀ id, s.Pending id → ∃ com, s.components id = some com ∧ com.listeners = 1
  idle : ∀ id com, s.components id = some com → ¬ s.Pending id → com.listeners = 0
  live : ∀ id com, s.components id = some com → id ∉ s.completed → com.activated = com.active
  noted : ∀ id ∈ s.invalidations, ¬ s.Pending id ∧ ∃ l ∈ s.families, id ∈ l
  groups : ∀ id k, s.groups id = some k ↔
    ∃ l, s.families[k]? = some l ∧ id ∈ l ∧ ∀ a ∈ l, a ∉ s.completed
  length : s.vectors.length = s.families.length
  vectors : ∀ (k : ℕ) l, s.families[k]? = some l → (∀ a ∈ l, a ∉ s.completed) →
    s.vectors[k]? = some ⟨l, l.length⟩
  exclusive : ∀ l ∈ s.families, ∀ a ∈ l, a ∈ s.completed → ∀ b ∈ l, b ≠ a →
    b ∉ s.completed ∧ s.Down b

structure Counted (s : State Th) : Prop where
  count : s.nExpected = s.unmet
  asleep : s.suspended ≠ [] → s.unmet ≠ 0
  nodup : s.suspended.Nodup
  awakened : ∀ w ∈ s.awakened, w = (true, 0)

omit [DecidableEq Th] in
theorem Tracked.barrier (h : Tracked s) (hc : Counted s) : Barrier s :=
  ⟨h.exclusive, hc.count, hc.asleep, hc.awakened⟩

omit [DecidableEq Th] in
theorem Tracked.not_mem_alls (h : Tracked s) {l : List ℕ} (hl : l ∈ s.families) (hid : id ∈ l) :
    id ∉ s.alls := by
  intro ha
  exact (List.nodup_append.mp h.distinct).2.2 id ha id (List.mem_flatten.mpr ⟨l, hl, hid⟩) rfl

omit [DecidableEq Th] in
theorem Tracked.index_eq (h : Tracked s) {k k' : ℕ} {l l' : List ℕ}
    (hk : s.families[k]? = some l) (hk' : s.families[k']? = some l') (hid : id ∈ l)
    (hid' : id ∈ l') : k = k' := by
  have hp := (List.nodup_flatten.mp (List.nodup_append.mp h.distinct).2.1).2
  rw [List.pairwise_iff_getElem] at hp
  obtain ⟨hlt, rfl⟩ := List.getElem?_eq_some_iff.mp hk
  obtain ⟨hlt', rfl⟩ := List.getElem?_eq_some_iff.mp hk'
  rcases Nat.lt_trichotomy k k' with hlt'' | rfl | hlt''
  · exact absurd hid' (hp k k' hlt hlt' hlt'' hid)
  · rfl
  · exact absurd hid (hp k' k hlt' hlt hlt'' hid')

omit [DecidableEq Th] in
theorem Tracked.group_eq (h : Tracked s) {l l' : List ℕ} (hl : l ∈ s.families)
    (hl' : l' ∈ s.families) (hid : id ∈ l) (hid' : id ∈ l') : l = l' := by
  obtain ⟨k, hk⟩ := List.getElem?_of_mem hl
  obtain ⟨k', hk'⟩ := List.getElem?_of_mem hl'
  obtain rfl := h.index_eq hk hk' hid hid'
  exact Option.some.inj (hk.symm.trans hk')

end Tracking

section Walk

variable {s u : State Th} {id k i b : ℕ} {r done : List ℕ} {v : Group} {com : Component}

/-- What the walk over a group has changed so far. -/
structure Walked (s u : State Th) (k : ℕ) (done : List ℕ) (v : Group) : Prop where
  frame : u = { s with
    components := u.components
    invalidations := u.invalidations
    groups := u.groups
    vectors := u.vectors }
  components : ∀ x ∉ done, u.components x = s.components x
  groups : ∀ x, u.groups x = if x ∈ done then none else s.groups x
  down : ∀ x ∈ done, ∀ com, u.components x = some com →
    com.active = false ∧ com.activated = false ∧ com.listeners = 0 ∧ x ∈ u.invalidations
  noted : ∀ x ∈ u.invalidations, x ∈ s.invalidations ∨ x ∈ done
  kept : ∀ x ∈ s.invalidations, x ∈ u.invalidations
  vectors : u.vectors = s.vectors.set k v
  inside : k < s.vectors.length

omit [DecidableEq Th] in
theorem Walked.start (h : s.vectors[k]? = some v) : Walked s s k [] v := by
  obtain ⟨hlt, rfl⟩ := List.getElem?_eq_some_iff.mp h
  refine ⟨rfl, fun _ _ => rfl, fun x => by simp, by simp, fun x hx => .inl hx, fun x hx => hx,
    ?_, hlt⟩
  rw [List.set_getElem_self]

omit [DecidableEq Th] in
theorem Walked.get (h : Walked s u k done v) : u.vectors[k]? = some v := by
  rw [h.vectors, List.getElem?_set_self h.inside]

omit [DecidableEq Th] in
theorem Walked.peer (h : Walked s u k done v) (hi : v.slots[i]? = some b) : u.peer k i = b := by
  simp [State.peer, h.get, hi]

omit [DecidableEq Th] in
theorem walk_skip (h : Walked s u k done v) (hi : v.slots[i]? = some id) :
    walk id k (i :: r) u = walk id k r u := by
  rw [walk, if_pos (h.peer hi), Option.bind_some]

omit [DecidableEq Th] in
theorem walk_again (h : Walked s u k done v) (hi : v.slots[i]? = some b) (hb : b ∈ done)
    (hne : b ≠ id) :
    ∃ u', walk id k (i :: r) u = walk id k r u' ∧ Walked s u' k done v := by
  rw [walk, h.peer hi, if_neg hne]
  unfold invalidateComponent
  rw [h.peer hi]
  cases hcom : u.components b with
  | none => exact ⟨u, rfl, h⟩
  | some com =>
    obtain ⟨hact, hactd, hl, hn⟩ := h.down b hb com hcom
    simp only [hl, notify, hact, Option.map_some, Option.bind_some, Bool.false_eq_true, if_false]
    refine ⟨_, rfl, ?_, ?_, h.groups, ?_, ?_, ?_, h.vectors, h.inside⟩
    · rw [h.frame]
    · intro x hx
      dsimp only
      rw [Function.update_of_ne (by rintro rfl; exact hx hb)]
      exact h.components x hx
    · intro x hx com' hcom'
      dsimp only at hcom' ⊢
      by_cases hxb : x = b
      · subst hxb
        rw [Function.update_self] at hcom'
        cases hcom'
        exact ⟨rfl, hactd, rfl, List.mem_append_left _ hn⟩
      · rw [Function.update_of_ne hxb] at hcom'
        obtain ⟨h1, h2, h3, h4⟩ := h.down x hx com' hcom'
        exact ⟨h1, h2, h3, List.mem_append_left _ h4⟩
    · intro x hx
      rcases List.mem_append.mp hx with hx | hx
      · exact h.noted x hx
      · obtain rfl : x = b := by simpa [State.peer, h.get, hi] using hx
        exact .inr hb
    · exact fun x hx => List.mem_append_left _ (h.kept x hx)

omit [DecidableEq Th] in
/-- A member that is invalidated leaves the vector. It is noted by its own id if it was not
active and its place is not taken by another one. -/
theorem walk_new (h : Walked s u k done v) (hi : v.slots[i]? = some b) (hb : b ∉ done)
    (hne : b ≠ id) (hcom : s.components b = some com) (hl : com.listeners = 1)
    (hact : com.activated = com.active) (hg : s.groups b = some k)
    (hread : com.active = true ∨ (v.erase b).slots[i]? = some b) :
    ∃ u', walk id k (i :: r) u = walk id k r u' ∧
      Walked s u' k (b :: done) (v.erase b) := by
  rw [walk, h.peer hi, if_neg hne]
  unfold invalidateComponent
  rw [h.peer hi, h.components b hb, hcom]
  have hg' : u.groups b = some k := by rw [h.groups, if_neg hb, hg]
  simp only [hl, notify, onInvalidation, hg', h.get, Option.bind_some, Option.map_some]
  have hvec : u.vectors.set k (v.erase b) = s.vectors.set k (v.erase b) := by
    rw [h.vectors, List.set_set]
  have hgroups : ∀ x, Function.update u.groups b none x =
      if x ∈ b :: done then none else s.groups x := by
    intro x
    by_cases hx : x = b
    · subst hx
      simp
    · rw [Function.update_of_ne hx, h.groups]
      simp [hx]
  cases hactive : com.active with
  | true =>
    rw [if_pos rfl]
    refine ⟨_, rfl, ?_, ?_, hgroups, ?_, ?_, h.kept, hvec, h.inside⟩
    · rw [h.frame]
    · intro x hx
      rw [List.mem_cons, not_or] at hx
      dsimp only
      rw [Function.update_of_ne hx.1, Function.update_of_ne hx.1, h.components x hx.2]
    · intro x hx com' hcom'
      dsimp only at hcom' ⊢
      by_cases hxb : x = b
      · rw [hxb, Function.update_self] at hcom'
        cases hcom'
      · rw [Function.update_of_ne hxb, Function.update_of_ne hxb] at hcom'
        exact h.down x ((List.mem_cons.mp hx).resolve_left hxb) com' hcom'
    · intro x hx
      exact (h.noted x hx).imp_right (List.mem_cons_of_mem b)
  | false =>
    rw [if_neg Bool.false_ne_true]
    have hslot : (v.erase b).slots[i]? = some b :=
      hread.resolve_left (by rw [hactive]; exact Bool.false_ne_true)
    refine ⟨_, rfl, ?_, ?_, hgroups, ?_, ?_, ?_, hvec, h.inside⟩
    · rw [h.frame]
    · intro x hx
      rw [List.mem_cons, not_or] at hx
      dsimp only
      rw [Function.update_of_ne hx.1, h.components x hx.2]
    · intro x hx com' hcom'
      dsimp only at hcom' ⊢
      by_cases hxb : x = b
      · subst hxb
        rw [Function.update_self] at hcom'
        cases hcom'
        refine ⟨rfl, hact.trans hactive, rfl, List.mem_append_right _ ?_⟩
        have hk : k < u.vectors.length := by rw [h.vectors, List.length_set]; exact h.inside
        simp [State.peer, List.getElem?_set_self hk, hslot]
      · rw [Function.update_of_ne hxb] at hcom'
        obtain ⟨h1, h2, h3, h4⟩ := h.down x ((List.mem_cons.mp hx).resolve_left hxb) com' hcom'
        exact ⟨h1, h2, h3, List.mem_append_left _ h4⟩
    · intro x hx
      rcases List.mem_append.mp hx with hx | hx
      · exact (h.noted x hx).imp_right (List.mem_cons_of_mem b)
      · refine .inr (List.mem_cons.mpr (.inl ?_))
        have hk : k < u.vectors.length := by rw [h.vectors, List.length_set]; exact h.inside
        simpa [State.peer, List.getElem?_set_self hk, hslot] using hx
    · exact fun x hx => List.mem_append_left _ (h.kept x hx)

omit [DecidableEq Th] in
/-- From such a position, all other members are invalidated. -/
theorem walk_of_reaching {l : List ℕ} (hr : Reaching id l) (hnd : l.Nodup) (hid : id ∈ l)
    (hv : s.vectors[k]? = some ⟨l, l.length⟩)
    (hm : ∀ b ∈ l, b ≠ id → ∃ com, s.components b = some com ∧ com.listeners = 1 ∧
      com.activated = com.active ∧ s.groups b = some k)
    (ha : ∀ b ∈ l.dropLast, b ≠ id → ∃ com, s.components b = some com ∧ com.active = true) :
    ∃ u done v, walk id k (List.range l.length) s = some u ∧ Walked s u k done v ∧
      ∀ x, x ∈ done ↔ x ∈ l ∧ x ≠ id := by
  have h0 := Walked.start hv
  have hnew : ∀ {u : State Th} {done v b i r}, Walked s u k done v → v.slots[i]? = some b →
      b ∈ l → b ≠ id → b ∉ done → (b ∈ l.dropLast ∨ (v.erase b).slots[i]? = some b) →
      ∃ u', walk id k (i :: r) u = walk id k r u' ∧
        Walked s u' k (b :: done) (v.erase b) := by
    intro u done v b i r h hi hb hne hd hread
    obtain ⟨com, hcom, hl, hact, hg⟩ := hm b hb hne
    refine walk_new h hi hd hne hcom hl hact hg (hread.imp_left fun hb' => ?_)
    obtain ⟨com', hcom', hactive⟩ := ha b hb' hne
    rw [hcom] at hcom'
    cases hcom'
    exact hactive
  match l, hr with
  | [a], _ =>
    obtain rfl := List.mem_singleton.mp hid
    exact ⟨s, [], _, walk_skip h0 rfl, h0, by simp⟩
  | [a, b], _ =>
    have hab : a ≠ b := by simpa using hnd
    rcases List.mem_pair.mp hid with rfl | rfl
    · obtain ⟨u, hu, h1⟩ := hnew (b := b) (i := 1) (r := []) h0 rfl (by simp) hab.symm (by simp)
        (.inr (by simp [Group.erase, hab.symm]))
      exact ⟨u, _, _, (walk_skip h0 rfl).trans hu, h1, by simp; grind⟩
    · obtain ⟨u, hu, h1⟩ := hnew (b := a) (i := 0) (r := [1]) h0 rfl (by simp) hab (by simp)
        (.inl (by simp))
      exact ⟨u, _, _, hu.trans (walk_skip h1 (by simp [Group.erase])), h1, by simp; grind⟩
  | [a, b, c], hc =>
    simp only [List.nodup_cons, List.mem_cons, List.not_mem_nil, or_false, not_or] at hnd
    obtain ⟨⟨hab, hac⟩, hbc, -⟩ := hnd
    rcases (by simpa using hid : id = a ∨ id = b ∨ id = c) with rfl | rfl | rfl
    · obtain ⟨u, hu, h1⟩ := hnew (b := b) (i := 1) (r := [2]) h0 rfl (by simp) (Ne.symm hab)
        (by simp) (.inl (by simp))
      have he : Group.erase ⟨[id, b, c], 3⟩ b = ⟨[id, c, c], 2⟩ := by
        simp [Group.erase, hab]
      rw [List.length_cons, List.length_cons, List.length_singleton, he] at h1
      obtain ⟨u', hu', h2⟩ := hnew (b := c) (i := 2) (r := []) h1 rfl (by simp) (Ne.symm hac)
        (by simp [Ne.symm hbc]) (.inr (by simp [Group.erase, hac]))
      exact ⟨u', _, _, (walk_skip h0 rfl).trans (hu.trans hu'), h2, by simp; grind⟩
    · obtain ⟨u, hu, h1⟩ := hnew (b := a) (i := 0) (r := [1, 2]) h0 rfl (by simp) hab
        (by simp) (.inl (by simp))
      have he : Group.erase ⟨[a, id, c], 3⟩ a = ⟨[id, c, c], 2⟩ := by
        simp [Group.erase]
      rw [List.length_cons, List.length_cons, List.length_singleton, he] at h1
      obtain ⟨u', hu', h2⟩ := hnew (b := c) (i := 1) (r := [2]) h1 rfl (by simp) (Ne.symm hbc)
        (by simp [Ne.symm hac]) (.inr (by simp [Group.erase, hbc]))
      have he' : Group.erase ⟨[id, c, c], 2⟩ c = ⟨[id, c, c], 1⟩ := by
        simp [Group.erase, hbc]
      rw [he'] at h2
      obtain ⟨u'', hu'', h3⟩ := walk_again (i := 2) (r := []) h2 rfl (by simp) (Ne.symm hbc)
      exact ⟨u'', _, _, hu.trans (hu'.trans hu''), h3, by simp; grind⟩
    · exact absurd rfl hc
  | [a, b, c, d], hb =>
    obtain rfl : b = id := hb
    simp only [List.nodup_cons, List.mem_cons, List.not_mem_nil, or_false, not_or] at hnd
    obtain ⟨⟨hab, hac, had⟩, ⟨hbc, hbd⟩, hcd, -⟩ := hnd
    obtain ⟨u, hu, h1⟩ := hnew (b := a) (i := 0) (r := [1, 2, 3]) h0 rfl (by simp) hab
      (by simp) (.inl (by simp))
    have he : Group.erase ⟨[a, b, c, d], 4⟩ a = ⟨[b, c, d, d], 3⟩ := by
      simp [Group.erase]
    rw [List.length_cons, List.length_cons, List.length_cons, List.length_singleton, he] at h1
    obtain ⟨u', hu', h2⟩ := hnew (b := c) (i := 1) (r := [2, 3]) h1 rfl (by simp)
      (Ne.symm hbc) (by simp [Ne.symm hac]) (.inl (by simp))
    have he' : Group.erase ⟨[b, c, d, d], 3⟩ c = ⟨[b, d, d, d], 2⟩ := by
      simp [Group.erase, hbc]
    rw [he'] at h2
    obtain ⟨u'', hu'', h3⟩ := hnew (b := d) (i := 2) (r := [3]) h2 rfl (by simp)
      (Ne.symm hbd) (by simp [Ne.symm had, Ne.symm hcd]) (.inr (by simp [Group.erase, hbd]))
    have he'' : Group.erase ⟨[b, d, d, d], 2⟩ d = ⟨[b, d, d, d], 1⟩ := by
      simp [Group.erase, hbd]
    rw [he''] at h3
    obtain ⟨w, hw, h4⟩ := walk_again (i := 3) (r := []) h3 rfl (by simp) (Ne.symm hbd)
    exact ⟨w, _, _, hu.trans (hu'.trans (hu''.trans hw)), h4, by simp; grind⟩

end Walk

section Completion

variable {s t u : State Th} {id : ℕ} {done : List ℕ} {com : Component}

def leave (s : State Th) (id : ℕ) (com : Component) : State Th :=
  { s with
    components := Function.update s.components id
      (some { com with active := false, listeners := 0 })
    completed := id :: s.completed }

/-- A component has met its expectation, and its peers are out of the way. -/
structure Settled (s u : State Th) (id : ℕ) (done : List ℕ) : Prop where
  frame : u = { s with
    components := u.components
    invalidations := u.invalidations
    groups := u.groups
    vectors := u.vectors
    completed := id :: s.completed }
  mem_done : ∀ x, x ∈ done ↔ x ≠ id ∧ ∃ l ∈ s.families, id ∈ l ∧ x ∈ l
  self : ∀ com, u.components id = some com → com.listeners = 0
  known : s.components id ≠ none
  components : ∀ x ∉ done, x ≠ id → u.components x = s.components x
  groups : ∀ x, u.groups x = if x = id ∨ x ∈ done then none else s.groups x
  down : ∀ x ∈ done, ∀ com, u.components x = some com →
    com.active = false ∧ com.activated = false ∧ com.listeners = 0 ∧ x ∈ u.invalidations
  noted : ∀ x ∈ u.invalidations, x ∈ s.invalidations ∨ x ∈ done
  kept : ∀ x ∈ s.invalidations, x ∈ u.invalidations
  length : u.vectors.length = s.vectors.length
  vectors : ∀ (k : ℕ) l, s.families[k]? = some l → id ∉ l → u.vectors[k]? = s.vectors[k]?

omit [DecidableEq Th] in
theorem Tracked.settled_all (h : Tracked s) (ha : id ∈ s.alls) (hcom : s.components id = some com) :
    invalidatePeers id (s.leave id com) = some (s.leave id com) ∧
      Settled s (s.leave id com) id [] := by
  have hno : ∀ l ∈ s.families, id ∉ l := fun l hl hid => h.not_mem_alls hl hid ha
  have hg : s.groups id = none := by
    cases hg : s.groups id with
    | none => rfl
    | some k =>
      obtain ⟨l, hl, hid, -⟩ := (h.groups id k).mp hg
      exact absurd hid (hno l (List.mem_of_getElem? hl))
  constructor
  · unfold invalidatePeers
    rw [show (s.leave id com).groups id = none from hg]
  · refine ⟨rfl, ?_, ?_, ?_, ?_, ?_, by simp, fun x hx => .inl hx, fun x hx => hx, rfl,
      fun _ _ _ _ => rfl⟩
    · intro x
      refine iff_of_false List.not_mem_nil ?_
      rintro ⟨-, l, hl, hid, -⟩
      exact hno l hl hid
    · intro com' hcom'
      simp only [leave, Function.update_self, Option.some.injEq] at hcom'
      rw [← hcom']
    · rw [hcom]
      exact Option.some_ne_none com
    · intro x _ hx
      exact Function.update_of_ne hx ..
    · intro x
      by_cases hx : x = id
      · rw [if_pos (.inl hx), hx]
        exact hg
      · rw [if_neg (by simp [hx])]
        rfl

omit [DecidableEq Th] in
theorem Tracked.settled_any (h : Tracked s) (hcom : s.components id = some com)
    {l : List ℕ} (hl : l ∈ s.families) (hid : id ∈ l) (hun : ∀ a ∈ l, a ∉ s.completed)
    (hr : s.Reaches id) :
    ∃ u done, invalidatePeers id (s.leave id com) = some u ∧ Settled s u id done := by
  obtain ⟨k, hk⟩ := List.getElem?_of_mem hl
  have hg : s.groups id = some k := (h.groups id k).mpr ⟨l, hk, hid, hun⟩
  have hv : (s.leave id com).vectors[k]? = some ⟨l, l.length⟩ := h.vectors k l hk hun
  obtain ⟨hreach, hact⟩ := hr l hl hid
  have hnd : l.Nodup :=
    (List.nodup_flatten.mp (List.nodup_append.mp h.distinct).2.1).1 l hl
  have hcomp : ∀ b, b ≠ id → (s.leave id com).components b = s.components b :=
    fun b hb => Function.update_of_ne hb ..
  obtain ⟨u, done, v, hu, hw, hdone⟩ := walk_of_reaching hreach hnd hid hv
    (by
      intro b hb hne
      obtain ⟨c, hc, hlc⟩ := h.waiting b (.inr ⟨l, hl, hb, hun⟩)
      exact ⟨c, by rw [hcomp b hne, hc], hlc, h.live b c hc (hun b hb),
        (h.groups b k).mpr ⟨l, hk, hb, hun⟩⟩)
    (by
      intro b hb hne
      rw [hcomp b hne]
      exact hact b hb hne)
  refine ⟨{ u with groups := Function.update u.groups id none }, done, ?_, ?_⟩
  · unfold invalidatePeers
    rw [show (s.leave id com).groups id = some k from hg]
    simp only [hv, Option.elim_some, hu, Option.map_some]
  · refine ⟨?_, ?_, ?_, ?_, ?_, ?_, hw.down, hw.noted, hw.kept, ?_, ?_⟩
    · rw [hw.frame]
      rfl
    · intro x
      rw [hdone x]
      constructor
      · rintro ⟨hx, hne⟩
        exact ⟨hne, l, hl, hid, hx⟩
      · rintro ⟨hne, l', hl', hid', hx⟩
        exact ⟨h.group_eq hl' hl hid' hid ▸ hx, hne⟩
    · intro com' hcom'
      have hself := hw.components id (fun hd => ((hdone id).mp hd).2 rfl)
      dsimp only at hcom'
      rw [hself] at hcom'
      simp only [leave, Function.update_self, Option.some.injEq] at hcom'
      rw [← hcom']
    · rw [hcom]
      exact Option.some_ne_none com
    · intro x hx hne
      exact (hw.components x hx).trans (hcomp x hne)
    · intro x
      by_cases hx : x = id
      · subst hx
        simp
      · dsimp only
        rw [Function.update_of_ne hx, hw.groups]
        simp only [hx, false_or]
        rfl
    · dsimp only
      rw [hw.vectors, List.length_set]
      rfl
    · intro k' l' hk' hid'
      have hne : k ≠ k' := by
        rintro rfl
        rw [hk] at hk'
        cases hk'
        exact hid' hid
      dsimp only
      rw [hw.vectors, List.getElem?_set_ne hne]
      rfl

omit [DecidableEq Th] in
theorem Settled.completed (h : Settled s u id done) : u.completed = id :: s.completed := by
  rw [h.frame]

omit [DecidableEq Th] in
theorem Settled.families (h : Settled s u id done) : u.families = s.families := by
  rw [h.frame]

omit [DecidableEq Th] in
theorem Settled.alls (h : Settled s u id done) : u.alls = s.alls := by
  rw [h.frame]

omit [DecidableEq Th] in
theorem Settled.unmet_iff (h : Settled s u id done) {l : List ℕ} :
    (∀ a ∈ l, a ∉ u.completed) ↔ id ∉ l ∧ ∀ a ∈ l, a ∉ s.completed := by
  rw [h.completed]
  simp only [List.mem_cons, not_or]
  constructor
  · intro hall
    exact ⟨fun hid => (hall id hid).1 rfl, fun a ha => (hall a ha).2⟩
  · rintro ⟨hid, hall⟩ a ha
    exact ⟨by rintro rfl; exact hid ha, hall a ha⟩

omit [DecidableEq Th] in
theorem Settled.pending_iff (h : Settled s u id done) (ht : Tracked s) {x : ℕ} :
    u.Pending x ↔ s.Pending x ∧ x ≠ id ∧ x ∉ done := by
  unfold Pending
  rw [h.alls, h.families, h.mem_done]
  simp only [h.unmet_iff]
  constructor
  · rintro (⟨ha, hc⟩ | ⟨l, hl, hx, hid, hun⟩)
    · rw [h.completed, List.mem_cons, not_or] at hc
      refine ⟨.inl ⟨ha, hc.2⟩, hc.1, ?_⟩
      rintro ⟨-, l, hl, -, hx⟩
      exact ht.not_mem_alls hl hx ha
    · refine ⟨.inr ⟨l, hl, hx, hun⟩, by rintro rfl; exact hid hx, ?_⟩
      rintro ⟨-, l', hl', hid', hx'⟩
      exact hid (ht.group_eq hl' hl hx' hx ▸ hid')
  · rintro ⟨⟨ha, hc⟩ | ⟨l, hl, hx, hun⟩, hne, hd⟩
    · refine .inl ⟨ha, ?_⟩
      rw [h.completed, List.mem_cons, not_or]
      exact ⟨hne, hc⟩
    · exact .inr ⟨l, hl, hx, fun hid => hd ⟨hne, l, hl, hid, hx⟩, hun⟩

omit [DecidableEq Th] in
theorem Settled.tracked (h : Settled s u id done) (ht : Tracked s) (hp : s.Pending id) :
    Tracked u := by
  have hdone : ∀ x ∈ done, s.Pending x ∧ x ≠ id := by
    intro x hx
    obtain ⟨hne, l, hl, hid, hxl⟩ := (h.mem_done x).mp hx
    rcases hp with ⟨ha, -⟩ | ⟨l', hl', hid', hun⟩
    · exact absurd ha (ht.not_mem_alls hl hid)
    · obtain rfl := ht.group_eq hl hl' hid hid'
      exact ⟨.inr ⟨l, hl, hxl, hun⟩, hne⟩
  have hnotdone : ∀ {x}, ¬ s.Pending x → x ≠ id ∧ x ∉ done := by
    intro x hx
    exact ⟨by rintro rfl; exact hx hp, fun hd => hx (hdone x hd).1⟩
  constructor
  · rw [h.alls, h.families]
    exact ht.distinct
  · intro x hx
    rw [h.frame] at hx
    obtain ⟨hc, hpx, hl, hn⟩ := ht.bound x hx
    obtain ⟨hne, hd⟩ := hnotdone hpx
    refine ⟨(h.components x hd hne).trans hc, ?_, ?_, ?_⟩
    · rw [h.pending_iff ht]
      exact fun hp' => hpx hp'.1
    · rw [h.families]
      exact hl
    · exact fun hin => (h.noted x hin).elim hn hd
  · intro x hx
    obtain ⟨hpx, hne, hd⟩ := (h.pending_iff ht).mp hx
    rw [h.components x hd hne]
    exact ht.waiting x hpx
  · intro x c hc hx
    by_cases hne : x = id
    · subst hne
      exact h.self c hc
    · by_cases hd : x ∈ done
      · exact (h.down x hd c hc).2.2.1
      · rw [h.components x hd hne] at hc
        exact ht.idle x c hc fun hpx => hx ((h.pending_iff ht).mpr ⟨hpx, hne, hd⟩)
  · intro x c hc hx
    rw [h.completed, List.mem_cons, not_or] at hx
    by_cases hd : x ∈ done
    · obtain ⟨h1, h2, -⟩ := h.down x hd c hc
      rw [h1, h2]
    · rw [h.components x hd hx.1] at hc
      exact ht.live x c hc hx.2
  · intro x hx
    rw [h.pending_iff ht, h.families]
    rcases h.noted x hx with hn | hd
    · exact ⟨fun hpx => (ht.noted x hn).1 hpx.1, (ht.noted x hn).2⟩
    · obtain ⟨-, l, hl, -, hxl⟩ := (h.mem_done x).mp hd
      exact ⟨fun hpx => hpx.2.2 hd, l, hl, hxl⟩
  · intro x k
    rw [h.groups, h.families]
    simp only [h.unmet_iff]
    split_ifs with hx
    · refine iff_of_false (by simp) ?_
      rintro ⟨l, hk, hxl, hid, hun⟩
      rcases hx with rfl | hx
      · exact hid hxl
      · obtain ⟨-, l', hl', hid', hx'⟩ := (h.mem_done x).mp hx
        exact hid (ht.group_eq hl' (List.mem_of_getElem? hk) hx' hxl ▸ hid')
    · rw [ht.groups]
      refine exists_congr fun l => and_congr_right fun hk => and_congr_right fun hxl => ?_
      rw [and_iff_right]
      intro hid
      exact hx (or_iff_not_imp_left.mpr fun hne =>
        (h.mem_done x).mpr ⟨hne, l, List.mem_of_getElem? hk, hid, hxl⟩)
  · rw [h.length, h.families]
    exact ht.length
  · intro k l hk hun
    rw [h.families] at hk
    obtain ⟨hid, hun⟩ := h.unmet_iff.mp hun
    rw [h.vectors k l hk hid]
    exact ht.vectors k l hk hun
  · intro l hl a ha hac b hb hne
    rw [h.families] at hl
    rw [h.completed] at hac ⊢
    rcases List.mem_cons.mp hac with rfl | hac
    · have hbd : b ∈ done := (h.mem_done b).mpr ⟨hne, l, hl, ha, hb⟩
      refine ⟨?_, fun c hc => ?_⟩
      · rw [List.mem_cons, not_or]
        refine ⟨hne, ?_⟩
        rcases (hdone b hbd).1 with ⟨-, hc⟩ | ⟨l', hl', hb', hun⟩
        · exact hc
        · exact hun b hb'
      · obtain ⟨h1, -, -, h4⟩ := h.down b hbd c hc
        exact ⟨h1, h4⟩
    · obtain ⟨hbc, hdown⟩ := ht.exclusive l hl a ha hac b hb hne
      have hnp : ¬ s.Pending b := by
        rintro (⟨hba, -⟩ | ⟨l', hl', hb', hun⟩)
        · exact ht.not_mem_alls hl hb hba
        · obtain rfl := ht.group_eq hl hl' hb hb'
          exact hun a ha hac
      obtain ⟨hbid, hbd⟩ := hnotdone hnp
      refine ⟨?_, fun c hc => ?_⟩
      · rw [List.mem_cons, not_or]
        exact ⟨hbid, hbc⟩
      · rw [h.components b hbd hbid] at hc
        obtain ⟨h1, h2⟩ := hdown c hc
        exact ⟨h1, h.kept b h2⟩

theorem countP_succ {α : Type*} {p q : α → Bool} {a : α} (l : List α) (k : ℕ)
    (hk : l[k]? = some a) (hp : p a = true) (hq : q a = false)
    (h : ∀ j ≠ k, ∀ x, l[j]? = some x → p x = q x) : l.countP p = l.countP q + 1 := by
  induction l generalizing k with
  | nil => cases hk
  | cons b l ih =>
    cases k with
    | zero =>
      obtain rfl : b = a := by simpa using hk
      have hrest : l.countP p = l.countP q := by
        apply List.countP_congr
        intro x hx
        obtain ⟨j, hj⟩ := List.getElem?_of_mem hx
        rw [h (j + 1) (Nat.succ_ne_zero j) x hj]
      rw [List.countP_cons_of_pos hp, List.countP_cons_of_neg (by simp [hq]), hrest]
    | succ k =>
      have hb := h 0 (Nat.succ_ne_zero k).symm b rfl
      have hrest := ih k hk fun j hj x hx => h (j + 1) (by simpa using hj) x hx
      rw [List.countP_cons, List.countP_cons, hb, hrest]
      omega

omit [DecidableEq Th] in
theorem Settled.unmet (h : Settled s u id done) (ht : Tracked s) (hp : s.Pending id) :
    s.unmet = u.unmet + 1 := by
  have hfam : ∀ l : List ℕ, decide (∀ a ∈ l, a ∉ u.completed) =
      (decide (id ∉ l) && decide (∀ a ∈ l, a ∉ s.completed)) := by
    intro l
    rw [← Bool.decide_and]
    exact decide_eq_decide.mpr h.unmet_iff
  have hall : ∀ x, decide (x ∉ u.completed) = (decide (x ≠ id) && decide (x ∉ s.completed)) := by
    intro x
    rw [← Bool.decide_and, h.completed]
    simp
  unfold State.unmet
  rw [h.alls, h.families]
  rcases hp with ⟨ha, hc⟩ | ⟨l, hl, hid, hun⟩
  · obtain ⟨k, hk⟩ := List.getElem?_of_mem ha
    have h1 := countP_succ (p := fun x => decide (x ∉ s.completed))
      (q := fun x => decide (x ∉ u.completed)) s.alls k hk (by simpa using hc)
      (by rw [hall]; simp) (by
        intro j hj x hx
        rw [hall]
        have hne : x ≠ id := by
          rintro rfl
          obtain ⟨hlt, he⟩ := List.getElem?_eq_some_iff.mp hk
          obtain ⟨hlt', he'⟩ := List.getElem?_eq_some_iff.mp hx
          exact hj ((List.nodup_append.mp ht.distinct).1.getElem_inj_iff.mp (he'.trans he.symm))
        simp [hne])
    have h2 : s.families.countP (fun l => decide (∀ a ∈ l, a ∉ s.completed)) =
        s.families.countP (fun l => decide (∀ a ∈ l, a ∉ u.completed)) := by
      apply List.countP_congr
      intro l hl
      rw [hfam]
      have hno : id ∉ l := fun hid => ht.not_mem_alls hl hid ha
      simp [hno]
    rw [h1, h2]
    omega
  · obtain ⟨k, hk⟩ := List.getElem?_of_mem hl
    have h1 := countP_succ (p := fun l => decide (∀ a ∈ l, a ∉ s.completed))
      (q := fun l => decide (∀ a ∈ l, a ∉ u.completed)) s.families k hk (by simpa using hun)
      (by rw [hfam]; simp [hid]) (by
        intro j hj l' hl'
        rw [hfam]
        have hno : id ∉ l' := fun hid' => hj (ht.index_eq hl' hk hid' hid)
        simp [hno])
    have h2 : s.alls.countP (fun x => decide (x ∉ s.completed)) =
        s.alls.countP (fun x => decide (x ∉ u.completed)) := by
      apply List.countP_congr
      intro x hx
      rw [hall]
      have hne : x ≠ id := by
        rintro rfl
        exact ht.not_mem_alls hl hid hx
      simp [hne]
    rw [h1, h2]
    omega

omit [DecidableEq Th] in
theorem Tracked.counter (h : Tracked s) (n : ℕ) (sleeper : Option Th) (suspended : List Th)
    (awakened : List (Bool × ℕ)) : Tracked { s with
      nExpected := n
      sleeper := sleeper
      suspended := suspended
      awakened := awakened } :=
  ⟨h.distinct, h.bound, h.waiting, h.idle, h.live, h.noted, h.groups, h.length, h.vectors,
    h.exclusive⟩

theorem Settled.counted (h : Settled s u id done) (ht : Tracked s) (hc : Counted s)
    (hp : s.Pending id) (hw : s.Wakes)
    (he : t = if decrement u.nExpected = 0 then
        State.awaken { u with nExpected := decrement u.nExpected }
      else { u with nExpected := decrement u.nExpected }) : Tracked t ∧ Counted t := by
  have hu := h.tracked ht hp
  have hun := h.unmet ht hp
  have hn : decrement u.nExpected = u.unmet := by
    have : u.nExpected = s.nExpected := by rw [h.frame]
    rw [this, hc.count, hun]
    simp [decrement]
  have hs : u.suspended = s.suspended := by rw [h.frame]
  have hsl : u.sleeper = s.sleeper := by rw [h.frame]
  have haw : u.awakened = s.awakened := by rw [h.frame]
  subst he
  rw [hn]
  split_ifs with hz
  · have hwake : ∀ th, th ∈ u.suspended ↔ u.sleeper = some th := by
      rw [hs, hsl]
      exact hw (by rw [hc.count, hun, hz])
    unfold State.awaken
    cases hth : u.sleeper with
    | none =>
      refine ⟨hu.counter _ _ _ _, rfl, fun hne => ?_, ?_, ?_⟩
      · obtain ⟨th, hin⟩ := List.exists_mem_of_ne_nil _ hne
        rw [hwake th, hth] at hin
        cases hin
      · exact hs ▸ hc.nodup
      · exact haw ▸ hc.awakened
    | some th =>
      have hnd : u.suspended.Nodup := hs ▸ hc.nodup
      refine ⟨hu.counter _ _ _ _, rfl, fun hne => ?_, hnd.erase th, ?_⟩
      · obtain ⟨th', hin⟩ := List.exists_mem_of_ne_nil _ hne
        obtain ⟨hne', hin⟩ := (hnd.mem_erase_iff).mp hin
        rw [hwake th', hth] at hin
        exact absurd (Option.some.inj hin).symm hne'
      · intro w hin
        rcases List.mem_append.mp hin with hin | hin
        · exact hc.awakened w (haw ▸ hin)
        · rw [List.mem_singleton.mp hin]
          have hth' : th ∈ u.suspended := (hwake th).mpr hth
          exact Prod.ext (decide_eq_true hth') hz
  · refine ⟨hu.counter _ _ _ _, rfl, fun _ => hz, ?_, ?_⟩
    · exact hs ▸ hc.nodup
    · exact haw ▸ hc.awakened

omit [DecidableEq Th] in
theorem Tracked.leave (ht : Tracked s) (hc : Counted s) (hcom : s.components id = some com)
    (hact : com.active = true) (hp : ¬ s.Pending id) :
    Tracked (s.leave id com) ∧ Counted (s.leave id com) := by
  have hall : id ∈ s.alls → id ∈ s.completed := by
    intro ha
    by_contra hn
    exact hp (.inl ⟨ha, hn⟩)
  have hfam : ∀ l ∈ s.families, id ∈ l → id ∈ s.completed := by
    intro l hl hid
    by_contra hn
    have hmet : ∃ a ∈ l, a ∈ s.completed := by
      by_contra hno
      exact hp (.inr ⟨l, hl, hid, fun a ha hac => hno ⟨a, ha, hac⟩⟩)
    obtain ⟨a, ha, hac⟩ := hmet
    have hne : id ≠ a := by
      rintro rfl
      exact hn hac
    have hdown := (ht.exclusive l hl a ha hac id hid hne).2 com hcom
    rw [hact] at hdown
    cases hdown.1
  have hmem : ∀ x, (x ∈ s.alls ∨ ∃ l ∈ s.families, x ∈ l) →
      (x ∈ id :: s.completed ↔ x ∈ s.completed) := by
    intro x hx
    rw [List.mem_cons, or_iff_right_iff_imp]
    rintro rfl
    exact hx.elim hall fun ⟨l, hl, hid⟩ => hfam l hl hid
  have hun : ∀ l ∈ s.families, (∀ a ∈ l, a ∉ id :: s.completed) ↔ ∀ a ∈ l, a ∉ s.completed :=
    fun l hl => forall₂_congr fun a ha => not_congr (hmem a (.inr ⟨l, hl, ha⟩))
  have hpend : ∀ x, (s.leave id com).Pending x ↔ s.Pending x := by
    intro x
    refine or_congr (and_congr_right fun ha => not_congr (hmem x (.inl ha))) ?_
    exact exists_congr fun l => and_congr_right fun hl => and_congr_right fun _ => hun l hl
  have hcomp : ∀ x, x ≠ id → (s.leave id com).components x = s.components x :=
    fun x hx => Function.update_of_ne hx ..
  have hunmet : (s.leave id com).unmet = s.unmet := by
    refine congr_arg₂ (· + ·) ?_ ?_
    · apply List.countP_congr
      intro x hx
      simp only [decide_eq_true_eq]
      exact not_congr (hmem x (.inl hx))
    · apply List.countP_congr
      intro l hl
      simp only [decide_eq_true_eq]
      exact hun l hl
  refine ⟨⟨ht.distinct, ?_, ?_, ?_, ?_, ?_, ?_, ht.length, ?_, ?_⟩, ⟨?_, ?_, hc.nodup, hc.awakened⟩⟩
  · intro x hx
    obtain ⟨hcx, hpx, hl, hn⟩ := ht.bound x hx
    refine ⟨?_, (hpend x).not.mpr hpx, hl, hn⟩
    rw [hcomp x (by rintro rfl; rw [hcom] at hcx; cases hcx), hcx]
  · intro x hx
    have hpx := (hpend x).mp hx
    rw [hcomp x (by rintro rfl; exact hp hpx)]
    exact ht.waiting x hpx
  · intro x c hcx hx
    by_cases hne : x = id
    · subst hne
      simp only [State.leave, Function.update_self, Option.some.injEq] at hcx
      rw [← hcx]
    · rw [hcomp x hne] at hcx
      exact ht.idle x c hcx fun hpx => hx ((hpend x).mpr hpx)
  · intro x c hcx hx
    obtain ⟨hne, hx⟩ := not_or.mp (List.mem_cons.not.mp hx)
    rw [hcomp x hne] at hcx
    exact ht.live x c hcx hx
  · intro x hx
    exact (ht.noted x hx).imp_left (hpend x).not.mpr
  · intro x k
    refine (ht.groups x k).trans (exists_congr fun l => and_congr_right fun hk => ?_)
    exact and_congr_right fun _ => (hun l (List.mem_of_getElem? hk)).symm
  · intro k l hk hl
    exact ht.vectors k l hk ((hun l (List.mem_of_getElem? hk)).mp hl)
  · intro l hl a ha hac b hb hne
    obtain ⟨hbc, hdown⟩ := ht.exclusive l hl a ha ((hmem a (.inr ⟨l, hl, ha⟩)).mp hac) b hb hne
    have hbid : b ≠ id := by
      rintro rfl
      exact hbc (hfam l hl hb)
    refine ⟨(hmem b (.inr ⟨l, hl, hb⟩)).not.mpr hbc, fun c hcb => ?_⟩
    rw [hcomp b hbid] at hcb
    exact hdown c hcb
  · rw [hunmet]
    exact hc.count
  · rw [hunmet]
    exact hc.asleep

/-- A component that completes meets its expectation, if it is waited for. -/
theorem Tracked.complete (ht : Tracked s) (hc : Counted s) (hm : s.Meets (.complete id))
    (h : s.complete id = some t) : Tracked t ∧ Counted t := by
  obtain ⟨com, hcom, h⟩ := Option.bind_eq_some_iff.mp h
  split_ifs at h with hact
  change notify (onCompletion id) com.listeners (s.leave id com) = some t at h
  by_cases hp : s.Pending id
  · obtain ⟨com', hcom', hl⟩ := ht.waiting id hp
    rw [hcom] at hcom'
    cases hcom'
    obtain ⟨hr, hw⟩ := hm ⟨com, hcom, by rw [hl]; exact Nat.one_ne_zero⟩
    have hsettled : ∃ u done, invalidatePeers id (s.leave id com) = some u ∧
        Settled s u id done := by
      rcases hp with ⟨ha, -⟩ | ⟨l, hl, hid, hun⟩
      · exact ⟨_, _, ht.settled_all ha hcom⟩
      · exact ht.settled_any hcom hl hid hun hr
    obtain ⟨u, done, hu, hset⟩ := hsettled
    rw [hl] at h
    simp only [notify, onCompletion, hu, Option.map_some, Option.bind_some,
      Option.some.injEq] at h
    exact hset.counted ht hc hp hw h.symm
  · rw [ht.idle id com hcom hp] at h
    obtain rfl := Option.some.inj h
    exact ht.leave hc hcom hact hp

end Completion

section Registration

variable {s t u : State Th} {id n : ℕ} {ids : List ℕ} {com : Component}

omit [DecidableEq Th] in
theorem foldlM_addListener (hnd : ids.Nodup)
    (h : ids.foldlM (fun s id => addListener { s with nExpected := s.nExpected + n } id) s =
      some t) :
    t = { s with components := t.components, nExpected := s.nExpected + n * ids.length } ∧
      (∀ x ∉ ids, t.components x = s.components x) ∧
      ∀ x ∈ ids, ∃ com, s.components x = some com ∧
        t.components x = some { com with listeners := com.listeners + 1 } := by
  induction ids generalizing s with
  | nil =>
    obtain rfl := Option.some.inj h
    exact ⟨rfl, fun _ _ => rfl, by simp⟩
  | cons id ids ih =>
    rw [List.nodup_cons] at hnd
    obtain ⟨r, hr, h⟩ := Option.bind_eq_some_iff.mp h
    obtain ⟨com, hcom, rfl⟩ := Option.map_eq_some_iff.mp hr
    obtain ⟨hframe, hother, hreg⟩ := ih hnd.2 h
    refine ⟨?_, ?_, ?_⟩
    · rw [hframe]
      simp only [List.length_cons, Nat.mul_succ, State.mk.injEq, true_and, and_true]
      omega
    · intro x hx
      rw [List.mem_cons, not_or] at hx
      rw [hother x hx.2]
      exact Function.update_of_ne hx.1 ..
    · intro x hx
      rcases List.mem_cons.mp hx with rfl | hx
      · refine ⟨com, hcom, ?_⟩
        rw [hother x hnd.1]
        exact Function.update_self ..
      · have hne : x ≠ id := fun he => hnd.1 (he ▸ hx)
        obtain ⟨c, hc, hc'⟩ := hreg x hx
        exact ⟨c, (Function.update_of_ne hne ..).symm.trans hc, hc'⟩

omit [DecidableEq Th] in
theorem Tracked.register (ht : Tracked s) (hf : s.Fresh ids)
    (hframe : u.completed = s.completed ∧ u.invalidations = s.invalidations ∧
      u.nComponents = s.nComponents)
    (hother : ∀ x ∉ ids, u.components x = s.components x)
    (hreg : ∀ x ∈ ids, ∃ com, s.components x = some com ∧
      u.components x = some { com with listeners := com.listeners + 1 })
    (hpend : ∀ x, u.Pending x ↔ s.Pending x ∨ x ∈ ids)
    (hfam : ∀ l, l ∈ s.families → l ∈ u.families)
    (hfam' : ∀ l ∈ u.families, l ∈ s.families ∨ l = ids)
    (hdistinct : (u.alls ++ u.families.flatten).Nodup)
    (hgroups : ∀ id k, u.groups id = some k ↔
      ∃ l, u.families[k]? = some l ∧ id ∈ l ∧ ∀ a ∈ l, a ∉ u.completed)
    (hlength : u.vectors.length = u.families.length)
    (hvectors : ∀ (k : ℕ) l, u.families[k]? = some l → (∀ a ∈ l, a ∉ u.completed) →
      u.vectors[k]? = some ⟨l, l.length⟩) : Tracked u := by
  obtain ⟨hcompleted, hinv, hn⟩ := hframe
  have hnp : ∀ x ∈ ids, ¬ s.Pending x := by
    rintro x hx (⟨ha, -⟩ | ⟨l, hl, hxl, -⟩)
    · exact (hf.2 x hx).2.1 ha
    · exact (hf.2 x hx).2.2 l hl hxl
  refine ⟨hdistinct, ?_, ?_, ?_, ?_, ?_, hgroups, hlength, hvectors, ?_⟩
  · intro x hx
    rw [hn] at hx
    obtain ⟨hc, hpx, hl, hnote⟩ := ht.bound x hx
    have hids : x ∉ ids := by
      intro hin
      obtain ⟨com, hcom, -⟩ := hreg x hin
      rw [hc] at hcom
      cases hcom
    refine ⟨(hother x hids).trans hc, fun h => ((hpend x).mp h).elim hpx hids, ?_, hinv ▸ hnote⟩
    intro l hlu hxl
    rcases hfam' l hlu with hls | rfl
    · exact hl l hls hxl
    · exact hids hxl
  · intro x hx
    by_cases hids : x ∈ ids
    · obtain ⟨com, hcom, hcom'⟩ := hreg x hids
      refine ⟨_, hcom', ?_⟩
      rw [ht.idle x com hcom (hnp x hids)]
    · rw [hother x hids]
      exact ht.waiting x (((hpend x).mp hx).resolve_right hids)
  · intro x c hc hx
    obtain ⟨hpx, hids⟩ := not_or.mp (fun h => hx ((hpend x).mpr h))
    rw [hother x hids] at hc
    exact ht.idle x c hc hpx
  · intro x c hc hx
    rw [hcompleted] at hx
    by_cases hids : x ∈ ids
    · obtain ⟨com, hcom, hcom'⟩ := hreg x hids
      rw [hcom'] at hc
      cases hc
      exact ht.live x com hcom hx
    · rw [hother x hids] at hc
      exact ht.live x c hc hx
  · intro x hx
    rw [hinv] at hx
    obtain ⟨hpx, l, hl, hxl⟩ := ht.noted x hx
    refine ⟨fun h => ((hpend x).mp h).elim hpx fun hids => ?_, l, hfam l hl, hxl⟩
    exact (hf.2 x hids).2.2 l hl hxl
  · intro l hl a ha hac b hb hne
    rw [hcompleted] at hac ⊢
    rcases hfam' l hl with hls | rfl
    · obtain ⟨hbc, hdown⟩ := ht.exclusive l hls a ha hac b hb hne
      have hids : b ∉ ids := fun hin => (hf.2 b hin).2.2 l hls hb
      refine ⟨hbc, fun c hc => ?_⟩
      rw [hother b hids] at hc
      rw [hinv]
      exact hdown c hc
    · exact absurd hac (hf.2 a ha).1

omit [DecidableEq Th] in
theorem Fresh.disjoint (hf : s.Fresh ids) (ht : Tracked s) :
    (s.alls ++ s.families.flatten ++ ids).Nodup := by
  refine List.nodup_append.mpr ⟨ht.distinct, hf.1, ?_⟩
  rintro x hx _ hy rfl
  rcases List.mem_append.mp hx with hx | hx
  · exact (hf.2 x hy).2.1 hx
  · obtain ⟨l, hl, hxl⟩ := List.mem_flatten.mp hx
    exact (hf.2 x hy).2.2 l hl hxl

omit [DecidableEq Th] in
theorem Counted.of_unmet (hc : Counted s) (hcount : t.nExpected = t.unmet)
    (hle : s.unmet ≤ t.unmet) (hs : t.suspended = s.suspended)
    (ha : t.awakened = s.awakened) : Counted t := by
  refine ⟨hcount, fun hne => ?_, hs ▸ hc.nodup, ha ▸ hc.awakened⟩
  have := hc.asleep (hs ▸ hne)
  omega

omit [DecidableEq Th] in
theorem Tracked.expectAll (ht : Tracked s) (hc : Counted s) (hf : s.Fresh ids)
    (h : s.expectAll ids = some t) : Tracked t ∧ Counted t := by
  obtain ⟨u, hu, rfl⟩ := Option.map_eq_some_iff.mp h
  obtain ⟨hframe, hother, hreg⟩ := foldlM_addListener hf.1 hu
  have hpend : ∀ x, Pending { u with alls := u.alls ++ ids } x ↔ s.Pending x ∨ x ∈ ids := by
    intro x
    unfold Pending
    rw [hframe]
    simp only [List.mem_append]
    constructor
    · rintro (⟨ha | ha, hx⟩ | hx)
      · exact .inl (.inl ⟨ha, hx⟩)
      · exact .inr ha
      · exact .inl (.inr hx)
    · rintro ((⟨ha, hx⟩ | hx) | hx)
      · exact .inl ⟨.inl ha, hx⟩
      · exact .inr hx
      · exact .inl ⟨.inr hx, (hf.2 x hx).1⟩
  have hunmet : State.unmet { u with alls := u.alls ++ ids } = s.unmet + ids.length := by
    have hids : ids.countP (fun x => decide (x ∉ s.completed)) = ids.length :=
      List.countP_eq_length.mpr fun x hx => decide_eq_true (hf.2 x hx).1
    unfold State.unmet
    rw [hframe]
    simp only [List.countP_append, hids]
    omega
  constructor
  · rw [hframe] at hpend hreg hother ⊢
    refine ht.register hf ⟨rfl, rfl, rfl⟩ hother hreg hpend (fun l hl => hl)
      (fun l hl => .inl hl) ?_ ht.groups ht.length ht.vectors
    refine List.Perm.nodup ?_ (hf.disjoint ht)
    rw [List.append_assoc, List.append_assoc]
    exact (List.perm_append_comm).append_left _
  · refine hc.of_unmet ?_ (by rw [hunmet]; omega) (by rw [hframe]) (by rw [hframe])
    rw [hunmet, ← hc.count]
    have hn : u.nExpected = s.nExpected + 1 * ids.length := by rw [hframe]
    rw [← Nat.one_mul ids.length]
    exact hn

omit [DecidableEq Th] in
theorem Tracked.expectAny (ht : Tracked s) (hc : Counted s) (hf : s.Fresh ids)
    (h : s.expectAny ids = some t) : Tracked t ∧ Counted t := by
  obtain ⟨u, hu, rfl⟩ := Option.map_eq_some_iff.mp h
  obtain ⟨hframe, hother, hreg⟩ := foldlM_addListener (n := 0) hf.1 hu
  rw [Nat.zero_mul, Nat.add_zero] at hframe
  have hun : ∀ a ∈ ids, a ∉ s.completed := fun a ha => (hf.2 a ha).1
  generalize ht' : ({ u with
    groups := fun id => if id ∈ ids then some u.vectors.length else u.groups id
    vectors := u.vectors ++ [⟨ids, ids.length⟩]
    nExpected := u.nExpected + 1
    families := u.families ++ [ids] } : State Th) = t
  have halls : t.alls = s.alls := by rw [← ht', hframe]
  have hfamilies : t.families = s.families ++ [ids] := by rw [← ht', hframe]
  have hcompleted : t.completed = s.completed := by rw [← ht', hframe]
  have hvec : t.vectors = s.vectors ++ [⟨ids, ids.length⟩] := by rw [← ht', hframe]
  have hgroups : ∀ x, t.groups x = if x ∈ ids then some s.vectors.length else s.groups x := by
    intro x
    rw [← ht', hframe]
  have hpend : ∀ x, t.Pending x ↔ s.Pending x ∨ x ∈ ids := by
    intro x
    unfold Pending
    rw [halls, hfamilies, hcompleted]
    simp only [List.mem_append, List.mem_singleton]
    constructor
    · rintro (hx | ⟨l, hl | rfl, hxl⟩)
      · exact .inl (.inl hx)
      · exact .inl (.inr ⟨l, hl, hxl⟩)
      · exact .inr hxl.1
    · rintro ((hx | ⟨l, hl, hxl⟩) | hx)
      · exact .inl hx
      · exact .inr ⟨l, .inl hl, hxl⟩
      · exact .inr ⟨ids, .inr rfl, hx, hun⟩
  have hunmet : t.unmet = s.unmet + 1 := by
    unfold State.unmet
    rw [halls, hfamilies, hcompleted, List.countP_append, List.countP_singleton,
      if_pos (decide_eq_true hun)]
    rfl
  -- a place in the longer list is an old one, or the last one
  have hplace : ∀ {α : Type} {xs : List α} {x y : α} {k : ℕ}, (xs ++ [x])[k]? = some y ↔
      xs[k]? = some y ∨ k = xs.length ∧ x = y := by
    intro α xs x y k
    rcases Nat.lt_trichotomy k xs.length with hlt | rfl | hlt
    · rw [List.getElem?_append_left hlt]
      simp [Nat.ne_of_lt hlt]
    · simp
    · rw [List.getElem?_append_right (Nat.le_of_lt hlt)]
      simp [Nat.ne_of_gt hlt, Nat.sub_ne_zero_of_lt hlt, Nat.le_of_lt hlt]
  constructor
  · refine ht.register hf ⟨hcompleted, by rw [← ht', hframe], by rw [← ht', hframe]⟩
      (by rw [← ht']; exact hother) (by rw [← ht']; exact hreg) hpend ?_ ?_ ?_ ?_ ?_ ?_
    · intro l hl
      rw [hfamilies]
      exact List.mem_append_left _ hl
    · intro l hl
      rw [hfamilies] at hl
      simpa using hl
    · rw [halls, hfamilies, List.flatten_append, List.flatten_singleton, ← List.append_assoc]
      exact hf.disjoint ht
    · intro x k
      rw [hgroups, hfamilies, hcompleted]
      simp only [hplace]
      split_ifs with hx
      · constructor
        · intro hk
          cases hk
          exact ⟨ids, .inr ⟨ht.length, rfl⟩, hx, hun⟩
        · rintro ⟨l, hk | ⟨rfl, rfl⟩, hxl, -⟩
          · exact absurd hxl ((hf.2 x hx).2.2 l (List.mem_of_getElem? hk))
          · rw [ht.length]
      · rw [ht.groups]
        refine exists_congr fun l => ?_
        constructor
        · rintro ⟨hk, hxl⟩
          exact ⟨.inl hk, hxl⟩
        · rintro ⟨hk | ⟨-, rfl⟩, hxl⟩
          · exact ⟨hk, hxl⟩
          · exact absurd hxl.1 hx
    · rw [hvec, hfamilies, List.length_append, List.length_append, ht.length]
      rfl
    · intro k l hk hl
      rw [hfamilies, hplace] at hk
      rw [hcompleted] at hl
      rw [hvec, hplace]
      rcases hk with hk | ⟨rfl, rfl⟩
      · exact .inl (ht.vectors k l hk hl)
      · exact .inr ⟨ht.length.symm, rfl⟩
  · refine hc.of_unmet ?_ (by omega) (by rw [← ht', hframe]) (by rw [← ht', hframe])
    rw [hunmet, ← hc.count, ← ht', hframe]

end Registration

section Runs

variable {s t : State Th} {id : ℕ} {com : Component}

omit [DecidableEq Th] in
theorem Tracked.update (ht : Tracked s) {components : ℕ → Option Component} {n : ℕ}
    {invalidations : List ℕ} (hn : s.nComponents ≤ n)
    (hbound : ∀ x, n ≤ x → components x = none)
    (hcom : ∀ x c, components x = some c → (∃ c', s.components x = some c' ∧
        c.listeners = c'.listeners ∧ (c'.activated = c'.active → c.activated = c.active) ∧
        (x ∈ s.invalidations → c.active = c'.active ∧ x ∈ invalidations)) ∨
      x = s.nComponents ∧ c = {})
    (hkept : ∀ x, s.Pending x → components x ≠ none)
    (hinv : ∀ x ∈ invalidations, x ∈ s.invalidations) :
    Tracked { s with
      components := components
      nComponents := n
      invalidations := invalidations } := by
  have hnew : ∀ x, s.Pending x → x ≠ s.nComponents := by
    rintro x hx rfl
    exact (ht.bound _ (Nat.le_refl _)).2.1 hx
  refine ⟨ht.distinct, ?_, ?_, ?_, ?_, ?_, ht.groups, ht.length, ht.vectors, ?_⟩
  · intro x hx
    obtain ⟨-, hpx, hl, hnote⟩ := ht.bound x (Nat.le_trans hn hx)
    exact ⟨hbound x hx, hpx, hl, fun h => hnote (hinv x h)⟩
  · intro x hx
    obtain ⟨c, hc⟩ := Option.ne_none_iff_exists'.mp (hkept x hx)
    rcases hcom x c hc with ⟨c', hc', hl, -⟩ | ⟨hxn, -⟩
    · obtain ⟨c'', hc'', hl'⟩ := ht.waiting x hx
      rw [hc'] at hc''
      cases hc''
      exact ⟨c, hc, hl.trans hl'⟩
    · exact absurd hxn (hnew x hx)
  · intro x c hc hx
    rcases hcom x c hc with ⟨c', hc', hl, -⟩ | ⟨-, rfl⟩
    · exact hl.trans (ht.idle x c' hc' hx)
    · rfl
  · intro x c hc hx
    rcases hcom x c hc with ⟨c', hc', -, hl, -⟩ | ⟨-, rfl⟩
    · exact hl (ht.live x c' hc' hx)
    · rfl
  · intro x hx
    exact ht.noted x (hinv x hx)
  · intro l hl a ha hac b hb hne
    obtain ⟨hbc, hdown⟩ := ht.exclusive l hl a ha hac b hb hne
    refine ⟨hbc, fun c hc => ?_⟩
    rcases hcom b c hc with ⟨c', hc', -, -, hnote⟩ | ⟨rfl, -⟩
    · obtain ⟨hact, hin⟩ := hdown c' hc'
      obtain ⟨he, hin'⟩ := hnote hin
      exact ⟨he.trans hact, hin'⟩
    · exact absurd hb ((ht.bound _ (Nat.le_refl _)).2.2.1 l hl)

omit [DecidableEq Th] in
theorem Pending.not_mem_completed (h : s.Pending id) : id ∉ s.completed := by
  rcases h with ⟨-, hc⟩ | ⟨l, -, hid, hun⟩
  · exact hc
  · exact hun id hid

omit [DecidableEq Th] in
theorem Tracked.remove (ht : Tracked s) (hcom : s.components id = some com)
    (hp : ¬ s.Pending id) {invalidations : List ℕ}
    (hinv : ∀ x, x ≠ id → (x ∈ invalidations ↔ x ∈ s.invalidations))
    (hinv' : id ∈ invalidations → id ∈ s.invalidations) :
    Tracked { s with
      components := Function.update s.components id none
      invalidations := invalidations } := by
  refine ht.update (Nat.le_refl _) ?_ ?_ ?_ ?_
  · intro x hx
    have hcx := (ht.bound x hx).1
    have hne : x ≠ id := by
      rintro rfl
      rw [hcom] at hcx
      cases hcx
    rw [Function.update_of_ne hne, hcx]
  · intro x c hcx
    have hne : x ≠ id := by
      rintro rfl
      rw [Function.update_self] at hcx
      cases hcx
    rw [Function.update_of_ne hne] at hcx
    exact .inl ⟨c, hcx, rfl, fun h => h, fun h => ⟨rfl, (hinv x hne).mpr h⟩⟩
  · intro x hx
    have hne : x ≠ id := by
      rintro rfl
      exact hp hx
    obtain ⟨c, hcx, -⟩ := ht.waiting x hx
    rw [Function.update_of_ne hne, hcx]
    exact Option.some_ne_none c
  · intro x hx
    by_cases hne : x = id
    · exact hne ▸ hinv' (hne ▸ hx)
    · exact (hinv x hne).mp hx

omit [DecidableEq Th] in
theorem Tracked.activate (ht : Tracked s) (hcom : s.components id = some com)
    (hnote : id ∉ s.invalidations) :
    Tracked { s with
      components := Function.update s.components id
        (some { com with active := true, activated := true }) } := by
  refine ht.update (Nat.le_refl _) ?_ ?_ ?_ fun x hx => hx
  · intro x hx
    have hcx := (ht.bound x hx).1
    have hne : x ≠ id := by
      rintro rfl
      rw [hcom] at hcx
      cases hcx
    rw [Function.update_of_ne hne, hcx]
  · intro x c hcx
    by_cases hne : x = id
    · subst hne
      rw [Function.update_self] at hcx
      cases hcx
      exact .inl ⟨com, hcom, rfl, fun _ => rfl, fun h => absurd h hnote⟩
    · rw [Function.update_of_ne hne] at hcx
      exact .inl ⟨c, hcx, rfl, fun h => h, fun h => ⟨rfl, h⟩⟩
  · intro x hx
    by_cases hne : x = id
    · rw [hne, Function.update_self]
      exact Option.some_ne_none _
    · obtain ⟨c, hcx, -⟩ := ht.waiting x hx
      rw [Function.update_of_ne hne, hcx]
      exact Option.some_ne_none c

theorem sound_step {e : Event Th} (h : Tracked s ∧ Counted s) (hm : s.Meets e)
    (hs : step s e = some t) : Tracked t ∧ Counted t := by
  obtain ⟨ht, hc⟩ := h
  cases e with
  | emplaceComponent =>
    obtain rfl := Option.some.inj hs
    refine ⟨ht.update (Nat.le_succ _) ?_ ?_ ?_ fun x hx => hx, ⟨hc.count, hc.asleep, hc.nodup,
      hc.awakened⟩⟩
    · intro x hx
      rw [Function.update_of_ne (Nat.ne_of_gt hx)]
      exact (ht.bound x (Nat.le_of_succ_le hx)).1
    · intro x c hcx
      by_cases hx : x = s.nComponents
      · subst hx
        rw [Function.update_self] at hcx
        exact .inr ⟨rfl, (Option.some.inj hcx).symm⟩
      · rw [Function.update_of_ne hx] at hcx
        exact .inl ⟨c, hcx, rfl, id, fun h => ⟨rfl, h⟩⟩
    · intro x hx
      have hne : x ≠ s.nComponents := by
        rintro rfl
        exact (ht.bound _ (Nat.le_refl _)).2.1 hx
      obtain ⟨c, hcx, -⟩ := ht.waiting x hx
      rw [Function.update_of_ne hne, hcx]
      exact Option.some_ne_none c
  | expectAll ids => exact ht.expectAll hc hm hs
  | expectAny ids => exact ht.expectAny hc hm hs
  | activateComponent id =>
    obtain ⟨com, hcom, hs⟩ := Option.bind_eq_some_iff.mp hs
    have hcounted : ∀ {components invalidations}, Counted { s with
        components := components
        invalidations := invalidations } :=
      ⟨hc.count, hc.asleep, hc.nodup, hc.awakened⟩
    split_ifs at hs with hnote
    · obtain rfl := Option.some.inj hs
      refine ⟨ht.remove hcom (ht.noted id hnote).1 (fun x hne => ?_) List.mem_of_mem_erase,
        hcounted⟩
      exact List.mem_erase_of_ne hne
    · obtain rfl := Option.some.inj hs
      exact ⟨ht.activate hcom hnote, hcounted⟩
  | complete id => exact ht.complete hc hm hs
  | collect id =>
    obtain ⟨com, hcom, hs⟩ := Option.bind_eq_some_iff.mp hs
    split_ifs at hs with hcollect
    obtain rfl := Option.some.inj hs
    refine ⟨ht.remove hcom ?_ (fun _ _ => Iff.rfl) fun h => h, ⟨hc.count, hc.asleep, hc.nodup,
      hc.awakened⟩⟩
    intro hp
    have hlive := ht.live id com hcom hp.not_mem_completed
    rw [hlive] at hcollect
    simp at hcollect
  | suspend th =>
    simp only [step, State.suspend] at hs
    split_ifs at hs with hin hpos
    · obtain rfl := Option.some.inj hs
      refine ⟨ht.counter _ _ _ _, hc.count, fun _ => ?_, List.nodup_cons.mpr ⟨hin, hc.nodup⟩,
        hc.awakened⟩
      have hcount := hc.count
      change s.unmet ≠ 0
      omega
    · obtain rfl := Option.some.inj hs
      exact ⟨ht, hc⟩

omit [DecidableEq Th] in
theorem sound_init : Tracked ({} : State Th) ∧ Counted ({} : State Th) := by
  have hp : ∀ id, ¬ Pending ({} : State Th) id := by simp [Pending]
  refine ⟨⟨by simp, ?_, ?_, by simp, by simp, by simp, by simp, rfl, by simp, by simp⟩,
    ⟨rfl, by simp, by simp, by simp⟩⟩
  · exact fun id _ => ⟨rfl, hp id, by simp, by simp⟩
  · exact fun id h => absurd h (hp id)

/-- The barrier holds if each member of a group that completes reaches the other members, and
the thread to be awakened is the one that sleeps. -/
theorem barrier_of_run {es : List (Event Th)}
    (h : Run (restrict (ofFun step) Meets) ({} : State Th) es s) : Barrier s := by
  have hall := h.invariant (I := fun s => Tracked s ∧ Counted s)
    (fun _ _ _ hi hs => sound_step hi hs.1 hs.2) sound_init
  exact hall.1.barrier hall.2

instance (s : State Th) (e : Event Th) : Decidable (s.Apart e) :=
  match e with
  | .emplaceComponent => isTrue trivial
  | .expectAll _ => inferInstanceAs (Decidable (_ ∧ _))
  | .expectAny _ => inferInstanceAs (Decidable (_ ∧ _))
  | .activateComponent _ => isTrue trivial
  | .complete _ => isTrue trivial
  | .collect _ => isTrue trivial
  | .suspend _ => isTrue trivial

def lastOfThree : List (Event ℕ) :=
  [.emplaceComponent, .emplaceComponent, .emplaceComponent, .expectAny [0, 1, 2],
    .activateComponent 0, .activateComponent 1, .activateComponent 2, .complete 2]

/-- The member in the middle stays alive. -/
theorem not_barrier_lastOfThree : ¬ ∀ (es : List (Event ℕ)) (s : State ℕ),
    Run (restrict (ofFun step) Apart) {} es s → Barrier s := by
  intro hall
  have hrun : ∃ s : State ℕ, Run (restrict (ofFun step) Apart) {} lastOfThree s ∧
      s.families = [[0, 1, 2]] ∧ s.completed = [2] ∧
      s.components 1 = some ⟨true, true, 1⟩ := by
    have h : Run (restrict (ofFun step) Apart) ({} : State ℕ) lastOfThree _ :=
      run_of_exec_restrict rfl
    exact ⟨_, h, rfl, rfl, rfl⟩
  obtain ⟨s, h, hl, hc, hcom⟩ := hrun
  have hb := (hall lastOfThree s h).exclusive [0, 1, 2] (by simp [hl]) 2 (by simp)
    (by simp [hc]) 1 (by simp) (by decide)
  cases (hb.2 _ hcom).1

def ofThree : List (Event ℕ) :=
  [.emplaceComponent, .emplaceComponent, .emplaceComponent, .expectAny [0, 1, 2],
    .activateComponent 0, .activateComponent 1, .suspend 7]

/-- The first of three completes, and the thread that waits for it is awakened. -/
theorem barrier_firstOfThree : ∃ s : State ℕ,
    Run (restrict (ofFun step) Meets) {} (ofThree ++ [.complete 0]) s ∧
    s.suspended = [] ∧ s.invalidations = [2] ∧ Barrier s := by
  have hstart : ∃ s t : State ℕ, Run (restrict (ofFun step) Apart) {} ofThree s ∧
      s.families = [[0, 1, 2]] ∧ s.components 1 = some ⟨true, true, 1⟩ ∧ s.suspended = [7] ∧
      s.sleeper = some 7 ∧ step s (.complete 0) = some t ∧ t.suspended = [] ∧
      t.invalidations = [2] := by
    have h : Run (restrict (ofFun step) Apart) ({} : State ℕ) ofThree _ :=
      run_of_exec_restrict rfl
    exact ⟨_, _, h, rfl, rfl, rfl, rfl, rfl, rfl, rfl⟩
  obtain ⟨s, t, h, hl, hcom, hs, hsl, ht, hst, hinv⟩ := hstart
  have hmeets : Run (restrict (ofFun step) Meets) {} ofThree s := by
    refine h.mono_restrict fun e he s hok => ?_
    cases e with
    | complete id => simp [ofThree] at he
    | _ => exact hok
  have h' := hmeets.snoc_restrict (.complete 0) (fun _ => ⟨?_, ?_⟩) ht
  · exact ⟨t, h', hst, hinv, barrier_of_run h'⟩
  · intro l hin _
    obtain rfl : l = [0, 1, 2] := by simpa [hl] using hin
    refine ⟨(by decide : (2 : ℕ) ≠ 0), fun b hb hne => ?_⟩
    obtain rfl : b = 1 := by
      simp only [List.dropLast, List.mem_cons, List.not_mem_nil, or_false] at hb
      exact hb.resolve_left hne
    exact ⟨_, hcom, rfl⟩
  · intro _ th
    rw [hs, hsl]
    simp [eq_comm]

end Runs

end State

end Hypercomm.Sentinel
