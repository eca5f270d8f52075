import Mathlib.Algebra.Order.BigOperators.Group.Finset
import Mathlib.Algebra.Order.Ring.Nat
import Mathlib.Data.List.Nodup
import Mathlib.Logic.Function.Basic
import Hypercomm.Transition.Run

/-! # Thread ids

Each PE has a pool of thread ids. A manager takes the id of a new thread from the pool of
its PE, its threads migrate with it, and the id of a thread that exits goes to the pool of
the PE where it exits. A manager that was packed returns no ids any more.
-/

namespace Hypercomm.Thread

open Transition

/-- A manager, with the ids of the threads that exist and notify it when they are freed. -/
structure Manager where
  pe : ℕ
  threads : List ℕ := []
  isMigrating : Bool := false
  alive : List ℕ := []

namespace Manager

/-- Frees are ignored while the manager migrates. -/
def onFree (m : Manager) (pool : List ℕ) (tid : ℕ) : Manager × List ℕ :=
  if m.isMigrating then (m, pool) else ({ m with threads := m.threads.erase tid }, tid :: pool)

/-- A thread is freed, and the manager is notified. -/
def free (m : Manager) (pool : List ℕ) (tid : ℕ) : Manager × List ℕ :=
  { m with alive := m.alive.erase tid }.onFree pool tid

/-- Measure or pack the manager. There is no behaviour if a recorded thread was freed. -/
def pup (m : Manager) : Option Manager :=
  if ∀ tid ∈ m.threads, tid ∈ m.alive then some { m with isMigrating := true } else none

def discard (m : Manager) (pool : List ℕ) : List ℕ :=
  (m.alive.foldl (fun p tid => p.1.free p.2 tid) (m, pool)).2

def unpack (pe : ℕ) (threads : List ℕ) : Manager :=
  { pe := pe, threads := threads, alive := threads }

end Manager

/-- The pools, with their back in front, the managers that run, and those that are packed and
in transit. -/
structure System where
  freeIds : ℕ → List ℕ
  managers : List Manager := []
  transit : List (List ℕ) := []

inductive Event
  | construct (pe : ℕ)
  | emplace (i : ℕ)
  | exit (i tid : ℕ)
  /-- the manager is measured or checkpointed, and goes on -/
  | pup (i : ℕ)
  | depart (i : ℕ)
  | arrive (j pe : ℕ)

namespace System

def setupIsomalloc (maxThreads : ℕ) : System :=
  { freeIds := fun pe => (List.range' (maxThreads * pe) maxThreads).reverse }

def setPool (s : System) (pe : ℕ) (pool : List ℕ) : System :=
  { s with freeIds := Function.update s.freeIds pe pool }

def setManager (s : System) (i : ℕ) (m : Manager) : System :=
  { s with managers := s.managers.set i m }

/-- It is fatal when the pool is empty. -/
def emplace (s : System) (i : ℕ) : Option System :=
  s.managers[i]?.bind fun m =>
    match s.freeIds m.pe with
    | [] => none
    | tid :: pool => some ((s.setPool m.pe pool).setManager i
        { m with threads := m.threads.insert tid, alive := tid :: m.alive })

def exit (s : System) (i tid : ℕ) : Option System :=
  s.managers[i]?.bind fun m =>
    if tid ∈ m.alive then
      some ((s.setPool m.pe (m.free (s.freeIds m.pe) tid).2).setManager i
        (m.free (s.freeIds m.pe) tid).1)
    else none

def pup (s : System) (i : ℕ) : Option System :=
  s.managers[i]?.bind fun m => m.pup.map (s.setManager i)

/-- A manager is packed and discarded. -/
def depart (s : System) (i : ℕ) : Option System :=
  s.managers[i]?.bind fun m => m.pup.map fun m =>
    { s.setPool m.pe (m.discard (s.freeIds m.pe)) with
      managers := s.managers.eraseIdx i
      transit := m.threads :: s.transit }

def arrive (s : System) (j pe : ℕ) : Option System :=
  s.transit[j]?.map fun threads =>
    { s with
      managers := .unpack pe threads :: s.managers
      transit := s.transit.eraseIdx j }

def step (numPes : ℕ) (s : System) : Event → Option System
  | .construct pe => if pe < numPes then some { s with managers := { pe } :: s.managers } else none
  | .emplace i => s.emplace i
  | .exit i tid => s.exit i tid
  | .pup i => s.pup i
  | .depart i => s.depart i
  | .arrive j pe => if pe < numPes then s.arrive j pe else none

def pooled (numPes : ℕ) (s : System) (id : ℕ) : ℕ :=
  ∑ pe ∈ Finset.range numPes, (s.freeIds pe).count id

def running (s : System) (id : ℕ) : ℕ := (s.managers.map fun m => m.alive.count id).sum

def inTransit (s : System) (id : ℕ) : ℕ := (s.transit.map (List.count id)).sum

/-- Every id is either in one pool or that of one thread. -/
def Conserved (maxThreads numPes : ℕ) (s : System) : Prop :=
  ∀ id < maxThreads * numPes, s.pooled numPes id + (s.running id + s.inTransit id) = 1

/-- No thread exits after its manager was measured or packed. -/
def Meets (s : System) : Event → Prop
  | .exit i _ => ∀ m, s.managers[i]? = some m → m.isMigrating = false
  | _ => True

structure Sound (maxThreads numPes : ℕ) (s : System) : Prop where
  conserved : Conserved maxThreads numPes s
  fresh : ∀ id ≥ maxThreads * numPes, s.pooled numPes id + (s.running id + s.inTransit id) = 0
  pe : ∀ m ∈ s.managers, m.pe < numPes
  threads : ∀ m ∈ s.managers, m.threads.Perm m.alive

section Count

variable {maxThreads numPes : ℕ} {s t : System} {i pe id : ℕ} {m : Manager}

theorem sum_map_set {α : Type*} {l : List α} {a : α} (f : α → ℕ) (h : l[i]? = some a) (b : α) :
    ((l.set i b).map f).sum + f a = (l.map f).sum + f b := by
  induction l generalizing i with
  | nil => cases h
  | cons c l ih =>
    cases i with
    | zero =>
      obtain rfl : c = a := by simpa using h
      simp only [List.set_cons_zero, List.map_cons, List.sum_cons]
      omega
    | succ i =>
      have hl := ih (i := i) (by simpa using h)
      simp only [List.set_cons_succ, List.map_cons, List.sum_cons]
      omega

theorem sum_map_eraseIdx {α : Type*} {l : List α} {a : α} (f : α → ℕ) (h : l[i]? = some a) :
    ((l.eraseIdx i).map f).sum + f a = (l.map f).sum := by
  induction l generalizing i with
  | nil => cases h
  | cons c l ih =>
    cases i with
    | zero =>
      obtain rfl : c = a := by simpa using h
      simp only [List.eraseIdx_cons_zero, List.map_cons, List.sum_cons]
      omega
    | succ i =>
      have hl := ih (i := i) (by simpa using h)
      simp only [List.eraseIdx_cons_succ, List.map_cons, List.sum_cons]
      omega

theorem pooled_setPool (s : System) (pool : List ℕ) (hpe : pe < numPes) (id : ℕ) :
    (s.setPool pe pool).pooled numPes id + (s.freeIds pe).count id =
      s.pooled numPes id + pool.count id := by
  have hmem : pe ∈ Finset.range numPes := Finset.mem_range.mpr hpe
  have hother : ∑ x ∈ (Finset.range numPes).erase pe,
      (Function.update s.freeIds pe pool x).count id =
      ∑ x ∈ (Finset.range numPes).erase pe, (s.freeIds x).count id := by
    apply Finset.sum_congr rfl
    intro x hx
    rw [Function.update_of_ne (Finset.ne_of_mem_erase hx)]
  unfold pooled setPool
  rw [← Finset.add_sum_erase _ _ hmem, ← Finset.add_sum_erase _ _ hmem, hother]
  dsimp only
  rw [Function.update_self]
  omega

@[simp] theorem running_setPool (id : ℕ) : (s.setPool pe pool).running id = s.running id := rfl

@[simp] theorem inTransit_setPool (id : ℕ) : (s.setPool pe pool).inTransit id = s.inTransit id :=
  rfl

@[simp] theorem pooled_setManager (id : ℕ) :
    (s.setManager i m).pooled numPes id = s.pooled numPes id := rfl

@[simp] theorem inTransit_setManager (id : ℕ) :
    (s.setManager i m).inTransit id = s.inTransit id := rfl

theorem running_setManager (h : s.managers[i]? = some m) (m' : Manager) (id : ℕ) :
    (s.setManager i m').running id + m.alive.count id = s.running id + m'.alive.count id :=
  sum_map_set (fun m => m.alive.count id) h m'

theorem setManager_forall {p : Manager → Prop} {m' : Manager} (h : ∀ m ∈ s.managers, p m)
    (h' : p m') : ∀ m ∈ (s.setManager i m').managers, p m := by
  intro m hm
  rcases List.mem_or_eq_of_mem_set hm with hm | rfl
  · exact h m hm
  · exact h'

theorem discard_of_isMigrating (h : m.isMigrating = true) (pool : List ℕ) :
    m.discard pool = pool := by
  have hfold : ∀ (l : List ℕ) (m : Manager), m.isMigrating = true →
      (l.foldl (fun p tid => p.1.free p.2 tid) (m, pool)).2 = pool := by
    intro l
    induction l with
    | nil => exact fun _ _ => rfl
    | cons tid l ih =>
      intro m h
      rw [List.foldl_cons]
      unfold Manager.free Manager.onFree
      rw [if_pos h]
      exact ih _ h
  exact hfold m.alive m h

theorem Sound.running_eq_zero (h : Sound maxThreads numPes s) (hpe : pe < numPes)
    (hid : id ∈ s.freeIds pe) : s.running id = 0 := by
  have hcount : 0 < (s.freeIds pe).count id := List.count_pos_iff.mpr hid
  have hle : (s.freeIds pe).count id ≤ s.pooled numPes id :=
    Finset.single_le_sum (f := fun pe => (s.freeIds pe).count id) (fun _ _ => Nat.zero_le _)
      (Finset.mem_range.mpr hpe)
  rcases Nat.lt_or_ge id (maxThreads * numPes) with hlt | hge
  · have := h.conserved id hlt
    omega
  · have := h.fresh id hge
    omega

theorem not_mem_alive (h : s.running id = 0) (hm : m ∈ s.managers) : id ∉ m.alive := by
  intro hin
  have hcount : 0 < m.alive.count id := List.count_pos_iff.mpr hin
  have hle := List.single_le_sum (l := s.managers.map fun m => m.alive.count id)
    (fun _ _ => Nat.zero_le _) _ (List.mem_map_of_mem hm)
  unfold running at h
  omega

theorem Sound.mono (h : Sound maxThreads numPes s)
    (hc : ∀ id, t.pooled numPes id + (t.running id + t.inTransit id) =
      s.pooled numPes id + (s.running id + s.inTransit id))
    (hpe : ∀ m ∈ t.managers, m.pe < numPes) (ht : ∀ m ∈ t.managers, m.threads.Perm m.alive) :
    Sound maxThreads numPes t := by
  refine ⟨fun id hid => ?_, fun id hid => ?_, hpe, ht⟩
  · rw [hc]
    exact h.conserved id hid
  · rw [hc]
    exact h.fresh id hid

end Count

section Steps

variable {maxThreads numPes : ℕ} {s t : System} {i j pe tid : ℕ} {m : Manager}

theorem Sound.emplace (h : Sound maxThreads numPes s) (ht : s.emplace i = some t) :
    Sound maxThreads numPes t := by
  obtain ⟨m, hm, ht⟩ := Option.bind_eq_some_iff.mp ht
  have hin := List.mem_of_getElem? hm
  split at ht
  · cases ht
  · rename_i tid pool hpool
    obtain rfl := Option.some.inj ht
    have hnot := not_mem_alive
      (h.running_eq_zero (h.pe m hin) (hpool ▸ List.mem_cons_self)) hin
    apply h.mono
    · intro id
      have hp := pooled_setPool s pool (h.pe m hin) id
      have hr := running_setManager (s := s.setPool m.pe pool) hm
        { m with threads := m.threads.insert tid, alive := tid :: m.alive } id
      rw [hpool, List.count_cons] at hp
      rw [List.count_cons, running_setPool] at hr
      rw [pooled_setManager, inTransit_setManager, inTransit_setPool]
      omega
    · exact setManager_forall h.pe (h.pe m hin)
    · apply setManager_forall h.threads
      have hperm := h.threads m hin
      rw [List.insert_of_not_mem fun hmem => hnot (hperm.mem_iff.mp hmem)]
      exact hperm.cons tid

theorem Sound.exit (h : Sound maxThreads numPes s) (hm : s.Meets (.exit i tid))
    (ht : s.exit i tid = some t) : Sound maxThreads numPes t := by
  obtain ⟨m, hget, ht⟩ := Option.bind_eq_some_iff.mp ht
  have hin := List.mem_of_getElem? hget
  have hmig : m.isMigrating = false := hm m hget
  have hfree : m.free (s.freeIds m.pe) tid =
      ({ m with alive := m.alive.erase tid, threads := m.threads.erase tid },
        tid :: s.freeIds m.pe) := if_neg (by simp [hmig])
  split_ifs at ht with halive
  rw [hfree] at ht
  obtain rfl := Option.some.inj ht
  apply h.mono
  · intro id
    have hp := pooled_setPool s (tid :: s.freeIds m.pe) (h.pe m hin) id
    have hr := running_setManager (s := s.setPool m.pe (tid :: s.freeIds m.pe)) hget
      { m with alive := m.alive.erase tid, threads := m.threads.erase tid } id
    have hc := (List.perm_cons_erase halive).count_eq id
    rw [List.count_cons] at hp hc
    rw [running_setPool] at hr
    rw [pooled_setManager, inTransit_setManager, inTransit_setPool]
    dsimp only at hr ⊢
    omega
  · exact setManager_forall h.pe (h.pe m hin)
  · exact setManager_forall h.threads ((h.threads m hin).erase tid)

theorem Sound.pup (h : Sound maxThreads numPes s) (ht : s.pup i = some t) :
    Sound maxThreads numPes t := by
  obtain ⟨m, hget, ht⟩ := Option.bind_eq_some_iff.mp ht
  obtain ⟨m', hpup, rfl⟩ := Option.map_eq_some_iff.mp ht
  have hin := List.mem_of_getElem? hget
  unfold Manager.pup at hpup
  split_ifs at hpup
  obtain rfl := Option.some.inj hpup
  apply h.mono
  · intro id
    have hr := running_setManager hget { m with isMigrating := true } id
    rw [pooled_setManager, inTransit_setManager]
    dsimp only at hr
    omega
  · exact setManager_forall h.pe (h.pe m hin)
  · exact setManager_forall h.threads (h.threads m hin)

theorem Sound.depart (h : Sound maxThreads numPes s) (ht : s.depart i = some t) :
    Sound maxThreads numPes t := by
  obtain ⟨m, hget, ht⟩ := Option.bind_eq_some_iff.mp ht
  obtain ⟨m', hpup, rfl⟩ := Option.map_eq_some_iff.mp ht
  have hin := List.mem_of_getElem? hget
  unfold Manager.pup at hpup
  split_ifs at hpup
  obtain rfl := Option.some.inj hpup
  apply h.mono
  · intro id
    have hpool : (s.setPool m.pe (s.freeIds m.pe)).pooled numPes id = s.pooled numPes id := by
      have := pooled_setPool s (s.freeIds m.pe) (h.pe m hin) id
      omega
    have hr := sum_map_eraseIdx (fun m => m.alive.count id) hget
    have hc := (h.threads m hin).count_eq id
    rw [discard_of_isMigrating rfl]
    change (s.setPool m.pe (s.freeIds m.pe)).pooled numPes id +
      (((s.managers.eraseIdx i).map fun m => m.alive.count id).sum +
        (m.threads.count id + s.inTransit id)) = _
    unfold running
    omega
  · exact fun m hm => h.pe m (List.mem_of_mem_eraseIdx hm)
  · exact fun m hm => h.threads m (List.mem_of_mem_eraseIdx hm)

theorem Sound.arrive (h : Sound maxThreads numPes s) (hpe : pe < numPes)
    (ht : s.arrive j pe = some t) : Sound maxThreads numPes t := by
  obtain ⟨threads, hget, rfl⟩ := Option.map_eq_some_iff.mp ht
  apply h.mono
  · intro id
    have hr := sum_map_eraseIdx (List.count id) hget
    change s.pooled numPes id + (threads.count id + s.running id +
      ((s.transit.eraseIdx j).map (List.count id)).sum) = _
    unfold inTransit
    omega
  · intro m hm
    rcases List.mem_cons.mp hm with rfl | hm
    · exact hpe
    · exact h.pe m hm
  · intro m hm
    rcases List.mem_cons.mp hm with rfl | hm
    · exact .refl _
    · exact h.threads m hm

theorem Sound.step {e : Event} (h : Sound maxThreads numPes s) (hm : s.Meets e)
    (ht : s.step numPes e = some t) : Sound maxThreads numPes t := by
  cases e with
  | construct pe =>
    simp only [System.step] at ht
    split_ifs at ht with hpe
    obtain rfl := Option.some.inj ht
    apply h.mono
    · intro id
      simp [running, pooled, inTransit]
    · intro m hm
      rcases List.mem_cons.mp hm with rfl | hm
      · exact hpe
      · exact h.pe m hm
    · intro m hm
      rcases List.mem_cons.mp hm with rfl | hm
      · exact .refl _
      · exact h.threads m hm
  | emplace i => exact h.emplace ht
  | exit i tid => exact h.exit hm ht
  | pup i => exact h.pup ht
  | depart i => exact h.depart ht
  | arrive j pe =>
    simp only [System.step] at ht
    split_ifs at ht with hpe
    exact h.arrive hpe ht

/-- The id of a thread is lost if its manager ignores that it is freed. -/
theorem not_conserved_of_not_meets {e : Event} (h : Sound maxThreads numPes s)
    (hm : ¬ s.Meets e) (ht : s.step numPes e = some t) : ¬ Conserved maxThreads numPes t := by
  cases e with
  | exit i tid =>
    obtain ⟨m, hget, ht⟩ := Option.bind_eq_some_iff.mp ht
    have hin := List.mem_of_getElem? hget
    have hmig : m.isMigrating = true := by
      by_contra hn
      refine hm fun m' hm' => ?_
      rw [hget, Option.some_inj] at hm'
      rw [← hm']
      exact Bool.not_eq_true _ ▸ hn
    have hfree : m.free (s.freeIds m.pe) tid =
        ({ m with alive := m.alive.erase tid }, s.freeIds m.pe) := if_pos hmig
    split_ifs at ht with halive
    rw [hfree] at ht
    obtain rfl := Option.some.inj ht
    have hp := pooled_setPool s (s.freeIds m.pe) (h.pe m hin) tid
    have hr := running_setManager (s := s.setPool m.pe (s.freeIds m.pe)) hget
      { m with alive := m.alive.erase tid } tid
    have hc := (List.perm_cons_erase halive).count_eq tid
    rw [List.count_cons_self] at hc
    rw [running_setPool] at hr
    dsimp only at hr
    intro hcons
    rcases Nat.lt_or_ge tid (maxThreads * numPes) with hlt | hge
    · have hafter := hcons tid hlt
      dsimp only at hafter
      have hbefore := h.conserved tid hlt
      rw [pooled_setManager, inTransit_setManager, inTransit_setPool] at hafter
      omega
    · have hbefore := h.fresh tid hge
      omega
  | _ => exact absurd trivial hm

end Steps

section Runs

variable {maxThreads numPes : ℕ}

theorem sound_setupIsomalloc (maxThreads numPes : ℕ) :
    Sound maxThreads numPes (setupIsomalloc maxThreads) := by
  have hcount : ∀ pe id, ((setupIsomalloc maxThreads).freeIds pe).count id =
      if maxThreads * pe ≤ id ∧ id < maxThreads * pe + maxThreads then 1 else 0 := by
    intro pe id
    simp only [setupIsomalloc, List.count_reverse]
    split_ifs with hid
    · exact List.count_eq_one_of_mem List.nodup_range' (List.mem_range'_1.mpr hid)
    · exact List.count_eq_zero_of_not_mem fun hmem => hid (List.mem_range'_1.mp hmem)
  refine ⟨fun id hid => ?_, fun id hid => ?_, by simp [setupIsomalloc], by simp [setupIsomalloc]⟩
  · have hpos : 0 < maxThreads := Nat.pos_of_ne_zero (by rintro rfl; simp at hid)
    have hpe : id / maxThreads < numPes := Nat.div_lt_of_lt_mul hid
    have hsum : (setupIsomalloc maxThreads).pooled numPes id =
        ((setupIsomalloc maxThreads).freeIds (id / maxThreads)).count id := by
      apply Finset.sum_eq_single_of_mem _ (Finset.mem_range.mpr hpe)
      intro pe _ hne
      rw [hcount, if_neg]
      rintro ⟨hle, hlt⟩
      exact hne (Nat.div_eq_of_lt_le (by rwa [Nat.mul_comm]) (by
        rw [Nat.mul_comm, Nat.mul_succ]
        exact hlt)).symm
    rw [hsum, hcount, if_pos]
    · rfl
    · exact ⟨Nat.mul_div_le id maxThreads, by
        rw [← Nat.mul_succ]
        exact Nat.lt_mul_div_succ id hpos⟩
  · have hsum : (setupIsomalloc maxThreads).pooled numPes id = 0 := by
      apply Finset.sum_eq_zero
      intro pe hpe
      rw [hcount, if_neg]
      rintro ⟨-, hlt⟩
      have hle : maxThreads * pe + maxThreads ≤ maxThreads * numPes := by
        rw [← Nat.mul_succ]
        exact Nat.mul_le_mul_left _ (Finset.mem_range.mp hpe)
      omega
    rw [hsum]
    rfl

/-- Ids are conserved throughout a run if and only if no thread exits after its manager was
measured or packed. -/
theorem conserved_throughout_iff {es : List Event} {s : System}
    (h : Run (ofFun (step numPes)) (setupIsomalloc maxThreads) es s) :
    Throughout (ofFun (step numPes)) (Conserved maxThreads numPes) (setupIsomalloc maxThreads) es ↔
      Run (restrict (ofFun (step numPes)) Meets) (setupIsomalloc maxThreads) es s := by
  apply h.throughout_iff (I := Sound maxThreads numPes)
  · intro s e t u ht hu
    exact Option.some.inj (ht.symm.trans hu)
  · intro s e t hs hm ht
    exact hs.step hm ht
  · intro s hs
    exact hs.conserved
  · intro s e t hs hm ht
    exact not_conserved_of_not_meets hs hm ht
  · exact sound_setupIsomalloc maxThreads numPes

def migration : List Event := [.construct 0, .emplace 0, .depart 0, .arrive 0 1, .exit 0 15]

theorem conserved_migration :
    Throughout (ofFun (step 2)) (Conserved 16 2) (setupIsomalloc 16) migration := by
  have h : Run (restrict (ofFun (step 2)) Meets) (setupIsomalloc 16) [.construct 0] _ :=
    Run.nil.snoc_restrict (Event.construct 0) trivial rfl
  have h := h.snoc_restrict (Event.emplace 0) trivial rfl
  have h := h.snoc_restrict (Event.depart 0) trivial rfl
  have h := h.snoc_restrict (Event.arrive 0 1) trivial rfl
  have h := h.snoc_restrict (Event.exit 0 15) (fun m hm => by cases hm; rfl) rfl
  exact (conserved_throughout_iff h.of_restrict).mpr h

/-- A manager is checkpointed and goes on, and then its thread exits. -/
def checkpoint : List Event := [.construct 0, .emplace 0, .pup 0, .exit 0 15]

/-- The id of the thread is lost. -/
theorem not_conserved_checkpoint : ¬ ∀ (es : List Event) (s : System),
    Run (ofFun (step 1)) (setupIsomalloc 16) es s → Conserved 16 1 s := by
  intro hall
  have h : Run (ofFun (step 1)) (setupIsomalloc 16) checkpoint _ := run_of_exec rfl
  have hc := hall checkpoint _ h 15 (by decide)
  revert hc
  decide

end Runs

end System

end Hypercomm.Thread
