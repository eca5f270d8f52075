import Mathlib.Algebra.GroupWithZero.Nat
import Mathlib.Data.Fin.VecNotation
import Mathlib.Data.List.FinRange
import Hypercomm.Tasking.Workgroup

/-! # The reductions of a workgroup

All tasks of a workgroup share the reduction stream of its array: the `k`-th
contributions of all elements are combined into the `k`-th reduction, whatever the
task that was active at each of them. The task of a result is recovered as the
bitwise and of the contributed ids.
-/

namespace Hypercomm.Tasking

open Transition

/-- The callback of a reduction: the entry method `workgroup::resume` of one element
or of all elements, or a callback that the caller gave. -/
inductive Callback (κ : Type*) where
  | resume (index : Option (BitVec 32)) (cid : ContinuationId)
  | other (cb : κ)
  deriving DecidableEq

variable {κ ρ Data : Type*} {n : ℕ}

/-- A message for the reduction stream: a tuple of the id of the active task, with
the reducer `bitvec_and_int`, and of the data with its own reducer. -/
structure Contribution (κ ρ Data : Type*) where
  tid : TaskId
  callback : Callback κ
  type : ρ
  data : Data

structure Contributor (κ ρ Data : Type*) where
  active : TaskId
  stream : List (Contribution κ ρ Data) := []

namespace Contributor

def reduce (el : Contributor κ ρ Data) (data : Data) (type : ρ) (cb : Callback κ) :
    Contributor κ ρ Data :=
  { el with stream := el.stream ++ [⟨el.active, cb, type, data⟩] }

def reduceTo (el : Contributor κ ρ Data) (cid : ContinuationId) (data : Data) (type : ρ)
    (index : BitVec 32) : Contributor κ ρ Data :=
  el.reduce data type (.resume (some index) cid)

def allReduce (el : Contributor κ ρ Data) (cid : ContinuationId) (data : Data) (type : ρ) :
    Contributor κ ρ Data :=
  el.reduce data type (.resume none cid)

def own (el : Contributor κ ρ Data) (tid : TaskId) : List (Contribution κ ρ Data) :=
  el.stream.filter (·.tid = tid)

theorem tid_of_mem_own {el : Contributor κ ρ Data} {tid : TaskId} {c : Contribution κ ρ Data}
    (h : c ∈ el.own tid) : c.tid = tid := by
  simpa using (List.mem_filter.mp h).2

end Contributor

/-- What a task does on an element. -/
inductive Call (κ ρ Data : Type*) where
  /-- a continuation or the constructor of a task starts to run -/
  | activate (tid : TaskId)
  | allReduce (cid : ContinuationId) (data : Data) (type : ρ)
  | reduceTo (cid : ContinuationId) (data : Data) (type : ρ) (index : BitVec 32)
  | reduce (data : Data) (type : ρ) (cb : Callback κ)

def Contributor.step (el : Contributor κ ρ Data) : Call κ ρ Data → Contributor κ ρ Data
  | .activate tid => { el with active := tid }
  | .allReduce cid data type => el.allReduce cid data type
  | .reduceTo cid data type index => el.reduceTo cid data type index
  | .reduce data type cb => el.reduce data type cb

abbrev WorkgroupArray (n : ℕ) (κ ρ Data : Type*) := Fin (n + 1) → Contributor κ ρ Data

/-- The reducer `bitvec_and_int` on task ids. -/
def bitvecAnd : List TaskId → TaskId
  | [] => ⟨BitVec.allOnes 32, BitVec.allOnes 32⟩
  | tid :: tids => ⟨tid.host &&& (bitvecAnd tids).host, tid.task &&& (bitvecAnd tids).task⟩

structure Reduction (κ Data : Type*) where
  tid : TaskId
  callback : Callback κ
  data : Data

/-- The message that `workgroup::resume(CkReductionMsg*)` makes of a result. -/
def Reduction.event (r : Reduction κ Data) : Option (Option (BitVec 32) × Event Data) :=
  match r.callback with
  | .resume index cid => some (index, .resume r.tid cid r.data)
  | .other _ => none

namespace WorkgroupArray

def step (s : WorkgroupArray n κ ρ Data) (a : Fin (n + 1) × Call κ ρ Data) :
    WorkgroupArray n κ ρ Data :=
  Function.update s a.1 ((s a.1).step a.2)

/-- The tasks run in any order, which may differ from element to element. -/
def Step (s : WorkgroupArray n κ ρ Data) (a : Fin (n + 1) × Call κ ρ Data)
    (t : WorkgroupArray n κ ρ Data) : Prop := t = s.step a

/-- The `k`-th reduction of the array combines the `k`-th contribution of every
element, in some order. The callback and the reducer are those of some element. -/
structure Reduces (combine : ρ → List Data → Data) (s : WorkgroupArray n κ ρ Data) (k : ℕ)
    (parts : Fin (n + 1) → Contribution κ ρ Data) (r : Reduction κ Data) : Prop where
  part : ∀ e, (s e).stream[k]? = some (parts e)
  callback : ∃ e, r.callback = (parts e).callback
  combined : ∃ order : List (Fin (n + 1)), order.Perm (List.finRange (n + 1)) ∧
    r.tid = bitvecAnd (order.map fun e => (parts e).tid) ∧
    ∃ e, r.data = combine (parts e).type (order.map fun e => (parts e).data)

/-- Every result has the id and a callback of a task, and on every element it combines
the same contribution of that task: the `j`-th. -/
def Separate (combine : ρ → List Data → Data) (s : WorkgroupArray n κ ρ Data) : Prop :=
  ∀ k parts r, Reduces combine s k parts r →
    ∃ (tid : TaskId) (j : ℕ), r.tid = tid ∧ (∃ e, r.callback = (parts e).callback) ∧
      ∀ e, ((s e).own tid)[j]? = some (parts e)

def Drained (s : WorkgroupArray n κ ρ Data) : Prop :=
  ∀ e e', (s e).stream.length = (s e').stream.length

/-- When a call contributes to a reduction, the elements that contributed to the
same reduction before did so for the task that is active now. -/
def Aligned (s : WorkgroupArray n κ ρ Data) (a : Fin (n + 1) × Call κ ρ Data) : Prop :=
  (∃ tid, a.2 = .activate tid) ∨
    ∀ e c, (s e).stream[(s a.1).stream.length]? = some c → c.tid = (s a.1).active

def Uniform (s : WorkgroupArray n κ ρ Data) : Prop :=
  ∀ (k : ℕ) e e' c c', (s e).stream[k]? = some c → (s e').stream[k]? = some c' → c.tid = c'.tid

variable {combine : ρ → List Data → Data} {s t : WorkgroupArray n κ ρ Data}
variable {a : Fin (n + 1) × Call κ ρ Data} {as : List (Fin (n + 1) × Call κ ρ Data)}

theorem stream_step (a : Fin (n + 1) × Call κ ρ Data) :
    (∃ tid, a.2 = .activate tid ∧ ∀ e, (s.step a e).stream = (s e).stream) ∨
    ∃ c : Contribution κ ρ Data, (∀ tid, a.2 ≠ .activate tid) ∧ c.tid = (s a.1).active ∧
      (s.step a a.1).stream = (s a.1).stream ++ [c] ∧
      ∀ e, e ≠ a.1 → (s.step a e).stream = (s e).stream := by
  obtain ⟨i, call⟩ := a
  have hne : ∀ e, e ≠ i → (s.step (i, call) e).stream = (s e).stream := by
    intro e h
    simp [step, h]
  have hself : s.step (i, call) i = (s i).step call := by simp [step]
  cases call with
  | activate tid =>
    refine .inl ⟨tid, rfl, fun e => ?_⟩
    rcases eq_or_ne e i with rfl | h
    · rw [hself]; rfl
    · exact hne e h
  | allReduce cid data type =>
    exact .inr ⟨⟨_, .resume none cid, type, data⟩, by simp, rfl, by rw [hself]; rfl, hne⟩
  | reduceTo cid data type index =>
    exact .inr ⟨⟨_, .resume (some index) cid, type, data⟩, by simp, rfl, by rw [hself]; rfl, hne⟩
  | reduce data type cb =>
    exact .inr ⟨⟨_, cb, type, data⟩, by simp, rfl, by rw [hself]; rfl, hne⟩

theorem stream_prefix (a : Fin (n + 1) × Call κ ρ Data) (e : Fin (n + 1)) :
    (s e).stream <+: (s.step a e).stream := by
  rcases stream_step (s := s) a with ⟨-, -, h⟩ | ⟨c, -, -, h, hne⟩
  · simp [h e]
  · rcases eq_or_ne e a.1 with rfl | he
    · rw [h]; exact List.prefix_append _ _
    · simp [hne e he]

theorem getElem?_step {k : ℕ} {e : Fin (n + 1)} {c : Contribution κ ρ Data}
    (h : (s e).stream[k]? = some c) : (s.step a e).stream[k]? = some c := by
  obtain ⟨l, hl⟩ := stream_prefix (s := s) a e
  rw [← hl, List.getElem?_append_left (List.getElem?_eq_some_iff.mp h).1, h]

theorem uniform_of_step (h : (s.step a).Uniform) : s.Uniform :=
  fun k e e' c c' hc hc' => h k e e' c c' (getElem?_step hc) (getElem?_step hc')

/-- In a state where reductions are uniform, a call keeps them so iff it is aligned. -/
theorem uniform_step_iff (h : s.Uniform) : (s.step a).Uniform ↔ s.Aligned a := by
  rcases stream_step (s := s) a with ⟨tid, ha, hs⟩ | ⟨c, ha, hc, hself, hne⟩
  · have : (s.step a).Uniform ↔ s.Uniform := by simp only [Uniform, hs]
    exact iff_of_true (this.mpr h) (.inl ⟨tid, ha⟩)
  · have hnew : (s.step a a.1).stream[(s a.1).stream.length]? = some c := by simp [hself]
    constructor
    · intro hu
      refine .inr fun e d hd => ?_
      rw [← hc]
      exact hu _ e a.1 d c (getElem?_step hd) hnew
    · rintro (⟨tid, h'⟩ | hal)
      · exact absurd h' (ha tid)
      -- a contribution is an old one, or the new one at the end of its stream
      have hcases : ∀ (k : ℕ) e d, (s.step a e).stream[k]? = some d →
          (s e).stream[k]? = some d ∨ k = (s a.1).stream.length ∧ e = a.1 ∧ d = c := by
        intro k e d hd
        rcases eq_or_ne e a.1 with rfl | he
        · rw [hself, List.getElem?_append] at hd
          split at hd
          · exact .inl hd
          · obtain ⟨hk, rfl⟩ : k - (s a.1).stream.length = 0 ∧ c = d := by
              simpa [List.getElem?_singleton] using hd
            exact .inr ⟨by omega, rfl, rfl⟩
        · exact .inl (by rwa [hne e he] at hd)
      intro k e e' d d' hd hd'
      rcases hcases k e d hd with hd | ⟨rfl, rfl, rfl⟩
      · rcases hcases k e' d' hd' with hd' | ⟨rfl, rfl, rfl⟩
        · exact h k e e' d d' hd hd'
        · rw [hal e d hd, hc]
      · rcases hcases _ e' d' hd' with hd' | ⟨-, rfl, rfl⟩
        · rw [hal e' d' hd', hc]
        · rfl

theorem bitvecAnd_of_forall_eq {tid : TaskId} {tids : List TaskId} (hne : tids ≠ [])
    (h : ∀ i ∈ tids, i = tid) : bitvecAnd tids = tid := by
  obtain ⟨m, rfl⟩ : ∃ m, tids = List.replicate m tid := ⟨_, List.eq_replicate_of_mem h⟩
  obtain ⟨m, rfl⟩ := Nat.exists_eq_succ_of_ne_zero (n := m) (by rintro rfl; exact hne rfl)
  clear hne h
  induction m with
  | zero => simp only [List.replicate, bitvecAnd, BitVec.and_allOnes]
  | succ m ih =>
    rw [List.replicate_succ, bitvecAnd, ih]
    simp

theorem getElem?_filter_countP {α : Type*} {p : α → Bool} {l : List α} {k : ℕ} {c : α}
    (h : l[k]? = some c) (hc : p c) : (l.filter p)[(l.take k).countP p]? = some c := by
  obtain ⟨hk, rfl⟩ := List.getElem?_eq_some_iff.mp h
  have hl : l = l.take k ++ l[k] :: l.drop (k + 1) := by simp
  conv_lhs => rw [hl]
  rw [List.filter_append, List.filter_cons_of_pos hc, List.countP_eq_length_filter]
  simp

theorem Uniform.take_tid_eq (h : s.Uniform) {k : ℕ} {e e' : Fin (n + 1)}
    (he : k ≤ (s e).stream.length) (he' : k ≤ (s e').stream.length) :
    ((s e).stream.take k).map (·.tid) = ((s e').stream.take k).map (·.tid) := by
  refine List.ext_getElem (by simp; omega) fun i hi hi' => ?_
  simp only [List.getElem_map, List.getElem_take]
  exact h i e e' _ _ (List.getElem?_eq_getElem _) (List.getElem?_eq_getElem _)

theorem uniform_of_map_tid_eq
    (h : ∀ e e', (s e).stream.map (·.tid) = (s e').stream.map (·.tid)) : s.Uniform := by
  intro k e e' c c' hc hc'
  have hk : ∀ e, ((s e).stream.map (·.tid))[k]? = (s e).stream[k]?.map (·.tid) := fun e => by simp
  have := (hk e).symm.trans ((congrArg (·[k]?) (h e e')).trans (hk e'))
  simpa [hc, hc'] using this

theorem Uniform.separate (combine : ρ → List Data → Data) (h : s.Uniform) : s.Separate combine := by
  intro k parts r hr
  have hlt : ∀ e, k < (s e).stream.length := fun e => (List.getElem?_eq_some_iff.mp (hr.part e)).1
  have htid : ∀ e, (parts e).tid = (parts 0).tid := fun e =>
    h k e 0 _ _ (hr.part e) (hr.part 0)
  refine ⟨(parts 0).tid, ((s 0).stream.take k).countP (·.tid = (parts 0).tid), ?_, hr.callback,
    fun e => ?_⟩
  · obtain ⟨order, hperm, hand, -⟩ := hr.combined
    rw [hand]
    refine bitvecAnd_of_forall_eq ?_ ?_
    · intro hnil
      have hlen := hperm.length_eq
      rw [List.map_eq_nil_iff.mp hnil] at hlen
      simp at hlen
    · simp only [List.mem_map, forall_exists_index, and_imp]
      rintro _ e - rfl
      exact htid e
  · have hcount : ∀ e, ((s e).stream.take k).countP (·.tid = (parts 0).tid) =
        (((s e).stream.take k).map (·.tid)).countP (· = (parts 0).tid) := fun e => by
      rw [List.countP_map]; rfl
    rw [hcount, h.take_tid_eq (hlt 0).le (hlt e).le, ← hcount]
    exact getElem?_filter_countP (hr.part e) (by simpa using htid e)

theorem Separate.event {k : ℕ} {parts : Fin (n + 1) → Contribution κ ρ Data}
    {r : Reduction κ Data} {index : Option (BitVec 32)} {event : Event Data}
    (h : s.Separate combine) (hr : Reduces combine s k parts r)
    (he : r.event = some (index, event)) :
    ∃ (tid : TaskId) (cid : ContinuationId) (e : Fin (n + 1)), event = .resume tid cid r.data ∧
      parts e ∈ (s e).own tid ∧ (parts e).callback = .resume index cid := by
  obtain ⟨tid, j, rfl, ⟨e, hcb⟩, hown⟩ := h k parts r hr
  cases hr' : r.callback with
  | other cb => simp [Reduction.event, hr'] at he
  | resume index' cid =>
    obtain ⟨rfl, rfl⟩ : index' = index ∧ Event.resume r.tid cid r.data = event := by
      simpa [Reduction.event, hr'] using he
    exact ⟨r.tid, cid, e, rfl, List.mem_of_getElem? (hown e), by rw [← hcb, hr']⟩

/-- Once all elements have contributed equally often, separate reductions are uniform:
the reduction of any two contributions is delivered. -/
theorem Separate.uniform (h : s.Separate combine) (hd : s.Drained) : s.Uniform := by
  intro k e e' c c' hc hc'
  have hlt : ∀ x, k < (s x).stream.length := fun x => by
    rw [hd x e]; exact (List.getElem?_eq_some_iff.mp hc).1
  let parts : Fin (n + 1) → Contribution κ ρ Data := fun x => (s x).stream.get ⟨k, hlt x⟩
  have hpart : ∀ x, (s x).stream[k]? = some (parts x) := fun x => List.getElem?_eq_getElem _
  obtain ⟨tid, j, -, -, hown⟩ := h k parts ⟨_, _, _⟩ ⟨hpart, ⟨0, rfl⟩, _, .refl _, rfl, 0, rfl⟩
  have htid : ∀ x, (parts x).tid = tid := fun x =>
    Contributor.tid_of_mem_own (List.mem_of_getElem? (hown x))
  rw [Option.some.inj (hc.symm.trans (hpart e)), Option.some.inj (hc'.symm.trans (hpart e')),
    htid, htid]

theorem uniform_of_run (h : Run (restrict Step Aligned) s as t) (hu : s.Uniform) : t.Uniform :=
  h.invariant (I := Uniform) (by rintro s a _ hi ⟨hal, rfl⟩; exact (uniform_step_iff hi).mpr hal) hu

theorem run_aligned_of_uniform (h : Run Step s as t) (hu : t.Uniform) :
    Run (restrict Step Aligned) s as t := by
  induction h with
  | nil => exact .nil
  | snoc _ hs ih =>
    obtain rfl := hs
    have hprev := uniform_of_step hu
    exact (ih hprev).snoc ⟨(uniform_step_iff hprev).mp hu, rfl⟩

/-- Reductions stay separate in every run in which no call contributes to a reduction
that another element contributed to for another task. Once the elements have
contributed equally often, they are separate in no other run. -/
theorem separate_of_aligned (combine : ρ → List Data → Data) (active : Fin (n + 1) → TaskId)
    (h : Run Step (fun e => ⟨active e, []⟩) as s) :
    (Run (restrict Step Aligned) (fun e => ⟨active e, []⟩) as s → s.Separate combine) ∧
    (s.Drained →
      (s.Separate combine ↔ Run (restrict Step Aligned) (fun e => ⟨active e, []⟩) as s)) := by
  have h0 : Uniform (fun e => ⟨active e, []⟩ : WorkgroupArray n κ ρ Data) := by
    intro k e e' c c' hc
    simp at hc
  have hsep : Run (restrict Step Aligned) (fun e => ⟨active e, []⟩) as s → s.Separate combine :=
    fun hr => (uniform_of_run hr h0).separate combine
  exact ⟨hsep, fun hd => ⟨fun hs => run_aligned_of_uniform h (hs.uniform hd), hsep⟩⟩

def runs (e : Fin 2) (tid : TaskId) (data : ℕ) : List (Fin 2 × Call Empty Unit ℕ) :=
  [(e, .activate tid), (e, .allReduce 1 data ())]

def idle : WorkgroupArray 1 Empty Unit ℕ := fun _ => ⟨⟨0, 0⟩, []⟩

theorem run_foldl (as : List (Fin (n + 1) × Call κ ρ Data)) :
    Run Step s as (as.foldl step s) := by
  induction as generalizing s with
  | nil => exact .nil
  | cons a as ih => exact .cons rfl ih

/-- Two tasks that contribute in the same order on both elements. -/
theorem separate_of_same_order :
    ((runs 0 ⟨0, 0⟩ 1 ++ runs 1 ⟨0, 0⟩ 2 ++ runs 1 ⟨0, 1⟩ 8 ++ runs 0 ⟨0, 1⟩ 4).foldl
      step idle).Separate fun _ => List.sum := by
  have hrun := run_foldl (s := idle)
    (runs 0 ⟨0, 0⟩ 1 ++ runs 1 ⟨0, 0⟩ 2 ++ runs 1 ⟨0, 1⟩ 8 ++ runs 0 ⟨0, 1⟩ 4)
  refine (separate_of_aligned (fun _ => List.sum) (fun _ => ⟨0, 0⟩) hrun).1 ?_
  refine run_aligned_of_uniform hrun (uniform_of_map_tid_eq ?_)
  decide

/-- Two tasks that contribute in opposite orders: the first reduction has the id of the
first task, and combines a contribution of either. -/
theorem mixed_of_opposite_orders :
    let as := runs 0 ⟨0, 0⟩ 1 ++ runs 0 ⟨0, 1⟩ 4 ++ runs 1 ⟨0, 1⟩ 8 ++ runs 1 ⟨0, 0⟩ 2
    Run Step idle as (as.foldl step idle) ∧
      ¬ (as.foldl step idle).Separate fun _ => List.sum := by
  refine ⟨run_foldl _, fun h => ?_⟩
  obtain ⟨tid, j, -, -, hown⟩ := h 0
    ![⟨⟨0, 0⟩, .resume none 1, (), 1⟩, ⟨⟨0, 1⟩, .resume none 1, (), 8⟩]
    ⟨⟨0, 0⟩, .resume none 1, 9⟩
    ⟨Fin.forall_fin_two.mpr ⟨rfl, rfl⟩, ⟨0, rfl⟩, [0, 1], by decide, by decide, 0, rfl⟩
  have h0 : (⟨0, 0⟩ : TaskId) = tid := Contributor.tid_of_mem_own (List.mem_of_getElem? (hown 0))
  have h1 : (⟨0, 1⟩ : TaskId) = tid := Contributor.tid_of_mem_own (List.mem_of_getElem? (hown 1))
  exact absurd (h0.trans h1.symm) (by decide)

end WorkgroupArray

end Hypercomm.Tasking
