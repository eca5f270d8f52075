import Mathlib.Data.List.Nodup
import Hypercomm.Core.Math

/-! # The registry of polymorphs

A type is enrolled under the number of types in the registry. Asking for the id of a type that is
not in the registry puts it there with the id zero, so that the types enrolled after it get other
ids than on a node where nobody asked.
-/

namespace Hypercomm.Serialization

section Map

variable {κ ν : Type*} [DecidableEq κ]

/-- `m[k] = v` for a map given by its entries. -/
def assign (m : List (κ × ν)) (k : κ) (v : ν) : List (κ × ν) :=
  match m.lookup k with
  | none => m ++ [(k, v)]
  | some _ => m.map fun e => if e.1 = k then (k, v) else e

theorem assign_of_lookup_eq_none {m : List (κ × ν)} {k : κ} {v : ν} (h : m.lookup k = none) :
    assign m k v = m ++ [(k, v)] := by
  rw [assign, h]

theorem lookup_zipIdx (es : List κ) (n : ℕ) (k : κ) :
    (es.zipIdx n).lookup k = if k ∈ es then some (n + es.idxOf k) else none := by
  induction es generalizing n with
  | nil => rfl
  | cons e es ih =>
    rw [List.zipIdx_cons, List.lookup_cons]
    rcases eq_or_ne k e with rfl | hne
    · simp
    · rw [beq_false_of_ne hne, ih, List.idxOf_cons_ne _ hne.symm]
      simp [hne, Nat.add_comm, Nat.add_left_comm]

omit [DecidableEq κ] in
theorem lookup_zipIdx_swap (es : List κ) (n i : ℕ) :
    ((es.zipIdx n).map Prod.swap).lookup (n + i) = es[i]? := by
  induction es generalizing n i with
  | nil => rfl
  | cons e es ih =>
    rw [List.zipIdx_cons, List.map_cons, Prod.swap_prod_mk, List.lookup_cons]
    cases i with
    | zero => simp
    | succ i =>
      have hne : (n + (i + 1) == n) = false := by simp
      rw [hne, List.getElem?_cons_succ, ← ih (n + 1) i, Nat.add_right_comm, Nat.add_assoc]

end Map

/-- What is enrolled, with allocators given by the type that they make. -/
structure Registry (τ : Type*) where
  types : List (τ × ℕ) := []
  allocs : List (ℕ × τ) := []

namespace Registry

inductive Abort where
  | enrolledMultipleTimes
  | allocatorNotFound
  | badFunctionCall

inductive Call (τ : Type*) where
  | enroll (type : τ)
  | identify (type : τ)
  | hashType (type : τ)

inductive Answer where
  | id (id : ℕ)
  | hash (code : HashCode)
  deriving DecidableEq

variable {τ : Type*} [DecidableEq τ] (checking : Bool) (hasher : ℕ → HashCode)

def enroll (index : τ) (r : Registry τ) : Except Abort (ℕ × Registry τ) :=
  let id := r.types.length
  if checking ∧ (r.types.lookup index).isSome then .error .enrolledMultipleTimes
  else .ok (id, ⟨assign r.types index id, assign r.allocs id index⟩)

def identify (index : τ) (r : Registry τ) : ℕ × Registry τ :=
  match r.types.lookup index with
  | some id => (id, r)
  -- looking up a key that the map does not have inserts it
  | none => (0, { r with types := assign r.types index 0 })

def hashType (type : τ) (r : Registry τ) : HashCode × Registry τ :=
  let (id, r) := r.identify type
  (hasher id, r)

def instantiate (id : ℕ) (r : Registry τ) : Except Abort τ :=
  match r.allocs.lookup id with
  | some alloc => .ok alloc
  | none => .error (if checking then .allocatorNotFound else .badFunctionCall)

def call : Call τ → Registry τ → Except Abort (Answer × Registry τ)
  | .enroll T, r => (r.enroll checking T).map fun (id, r) => (.id id, r)
  | .identify T, r => let (id, r) := r.identify T; .ok (.id id, r)
  | .hashType T, r => let (code, r) := r.hashType hasher T; .ok (.hash code, r)

def perform : List (Call τ) → Registry τ → Except Abort (List Answer × Registry τ)
  | [], r => .ok ([], r)
  | c :: cs, r => do
    let (answer, r) ← r.call checking hasher c
    let (answers, r) ← r.perform cs
    return (answer :: answers, r)

def enrollments (cs : List (Call τ)) : List τ :=
  cs.filterMap fun
    | .enroll T => some T
    | .identify _ => none
    | .hashType _ => none

def Call.IsLookup : Call τ → Prop
  | .enroll _ => False
  | .identify _ => True
  | .hashType _ => True

/-- Ids and hashes are asked for once their type is enrolled, or among the given types. -/
def Introduced : List τ → List (Call τ) → Prop
  | _, [] => True
  | es, .enroll T :: cs => Introduced (es ++ [T]) cs
  | es, .identify T :: cs => T ∈ es ∧ Introduced es cs
  | es, .hashType T :: cs => T ∈ es ∧ Introduced es cs

/-- The registry in which types were enrolled in order. -/
def ofTypes (es : List τ) : Registry τ := ⟨es.zipIdx, es.zipIdx.map Prod.swap⟩

def answer (es : List τ) : Call τ → Answer
  | .enroll T => .id (es.idxOf T)
  | .identify T => .id (es.idxOf T)
  | .hashType T => .hash (hasher (es.idxOf T))

variable {checking hasher} {es : List τ} {T U : τ} {cs cs' pre post : List (Call τ)} {c : Call τ}

omit [DecidableEq τ] in
@[simp] theorem enrollments_enroll : enrollments (.enroll T :: cs) = T :: enrollments cs := rfl

omit [DecidableEq τ] in
@[simp] theorem enrollments_identify : enrollments (.identify T :: cs) = enrollments cs := rfl

omit [DecidableEq τ] in
@[simp] theorem enrollments_hashType : enrollments (.hashType T :: cs) = enrollments cs := rfl

omit [DecidableEq τ] in
theorem enrollments_lookup (hc : c.IsLookup) :
    enrollments (pre ++ c :: post) = enrollments (pre ++ post) := by
  cases c with
  | enroll => exact hc.elim
  | identify => simp [enrollments]
  | hashType => simp [enrollments]

omit [DecidableEq τ] in
theorem Introduced.remove (h : Introduced es (pre ++ c :: post)) (hc : c.IsLookup) :
    Introduced es (pre ++ post) := by
  induction pre generalizing es with
  | nil =>
    cases c with
    | enroll => exact hc.elim
    | identify => exact h.2
    | hashType => exact h.2
  | cons d pre ih =>
    cases d with
    | enroll => exact ih h
    | identify => exact ⟨h.1, ih h.2⟩
    | hashType => exact ⟨h.1, ih h.2⟩

theorem identify_ofTypes (hT : T ∈ es) : (ofTypes es).identify T = (es.idxOf T, ofTypes es) := by
  unfold identify ofTypes
  simp [lookup_zipIdx, hT]

theorem instantiate_ofTypes (hT : T ∈ es) :
    (ofTypes es).instantiate checking (es.idxOf T) = .ok T := by
  have hlookup := lookup_zipIdx_swap es 0 (es.idxOf T)
  rw [Nat.zero_add, List.getElem?_idxOf hT] at hlookup
  unfold instantiate ofTypes
  rw [hlookup]

theorem enroll_ofTypes (hT : T ∉ es) :
    (ofTypes es).enroll checking T = .ok (es.length, ofTypes (es ++ [T])) := by
  have htypes : es.zipIdx.lookup T = none := by rw [lookup_zipIdx, if_neg hT]
  have hallocs : (es.zipIdx.map Prod.swap).lookup es.length = none := by
    have hlookup := lookup_zipIdx_swap es 0 es.length
    rwa [Nat.zero_add, List.getElem?_eq_none le_rfl] at hlookup
  unfold enroll ofTypes
  simp only [htypes]
  rw [List.length_zipIdx, assign_of_lookup_eq_none htypes, assign_of_lookup_eq_none hallocs]
  simp [List.zipIdx_append]

/-- When every type is enrolled once and before it is asked for, the ids are the positions in which
types were enrolled. -/
theorem perform_ofTypes (hnd : (es ++ enrollments cs).Nodup) (h : Introduced es cs) :
    (ofTypes es).perform checking hasher cs =
      .ok (cs.map (answer hasher (es ++ enrollments cs)), ofTypes (es ++ enrollments cs)) := by
  induction cs generalizing es with
  | nil => simp [perform, enrollments]
  | cons c cs ih =>
    unfold perform
    cases c with
    | enroll T =>
      have hT : T ∉ es := fun hmem =>
        List.disjoint_of_nodup_append hnd hmem List.mem_cons_self
      have hid : (es ++ T :: enrollments cs).idxOf T = es.length := by
        rw [List.idxOf_append_of_notMem hT, List.idxOf_cons_self, Nat.add_zero]
      have hsplit : es ++ T :: enrollments cs = es ++ [T] ++ enrollments cs := by simp
      rw [enrollments_enroll, List.map_cons, answer, hid]
      rw [enrollments_enroll, hsplit] at hnd
      rw [call, enroll_ofTypes hT, hsplit]
      simp only [Except.map, bind, Except.bind, ih hnd h]
      rfl
    | identify T =>
      have hid : (es ++ enrollments cs).idxOf T = es.idxOf T := List.idxOf_append_of_mem h.1
      rw [enrollments_identify] at hnd ⊢
      rw [List.map_cons, answer, hid, call, identify_ofTypes h.1]
      simp only [bind, Except.bind, ih hnd h.2]
      rfl
    | hashType T =>
      have hid : (es ++ enrollments cs).idxOf T = es.idxOf T := List.idxOf_append_of_mem h.1
      rw [enrollments_hashType] at hnd ⊢
      rw [List.map_cons, answer, hid, call, hashType, identify_ofTypes h.1]
      simp only [bind, Except.bind, ih hnd h.2]
      rfl

theorem perform_init (checking : Bool) (hasher : ℕ → HashCode) (hnd : (enrollments cs).Nodup)
    (h : Introduced [] cs) :
    Registry.perform checking hasher cs {} =
      .ok (cs.map (answer hasher (enrollments cs)), ofTypes (enrollments cs)) :=
  perform_ofTypes hnd h

/-- Asking for the id of a type changes no later answer just when the type is enrolled. -/
theorem identify_transparent_iff :
    (∀ cs, (((ofTypes es).identify T).2.perform checking hasher cs).map Prod.fst =
      ((ofTypes es).perform checking hasher cs).map Prod.fst) ↔ T ∈ es := by
  constructor
  · intro h
    by_contra hT
    have htypes : es.zipIdx.lookup T = none := by rw [lookup_zipIdx, if_neg hT]
    have hadded : (es.zipIdx ++ [(T, 0)]).lookup T = some 0 := by
      rw [List.lookup_append, htypes]
      simp
    -- the type is found when it is enrolled, or gets the next id
    have hask : ((ofTypes es).identify T).2 = ⟨es.zipIdx ++ [(T, 0)], (ofTypes es).allocs⟩ := by
      simp [identify, ofTypes, htypes, assign_of_lookup_eq_none htypes]
    have hne := h [.enroll T]
    rw [hask] at hne
    unfold perform at hne
    simp only [call, enroll_ofTypes hT] at hne
    simp only [enroll, hadded] at hne
    cases checking <;> simp [perform, bind, Except.bind, Except.map, pure, Except.pure] at hne
  · intro hT cs
    rw [identify_ofTypes hT]

omit [DecidableEq τ] in
theorem Introduced.mem (h : Introduced es cs) {i : ℕ} (hi : cs[i]? = some (.identify T)) :
    T ∈ es ++ enrollments cs := by
  induction cs generalizing es i with
  | nil => cases hi
  | cons c cs ih =>
    cases c with
    | enroll U =>
      cases i with
      | zero => cases hi
      | succ i =>
        have hmem := ih h hi
        rwa [List.append_assoc] at hmem
    | identify U =>
      cases i with
      | zero =>
        obtain rfl : U = T := by simpa using hi
        exact List.mem_append_left _ h.1
      | succ i => exact ih h.2 hi
    | hashType U =>
      cases i with
      | zero => cases hi
      | succ i => exact ih h.2 hi

/-- Ids tell types apart, make the types again, and are given whether or not others ask. -/
structure Identifies (checking : Bool) (hasher : ℕ → HashCode) (cs : List (Call τ))
    (answers : List Answer) (r : Registry τ) : Prop where
  distinct : ∀ (i j : ℕ) (T U : τ), cs[i]? = some (Call.identify T) →
    cs[j]? = some (Call.identify U) → answers[i]? = answers[j]? → T = U
  instantiates : ∀ T ∈ enrollments cs, r.instantiate checking (r.identify T).1 = .ok T
  transparent : ∀ pre c post, cs = pre ++ c :: post → c.IsLookup →
    ∃ r, Registry.perform checking hasher (pre ++ post) {} = .ok (answers.eraseIdx pre.length, r)

def Agree (checking : Bool) (hasher : ℕ → HashCode) (cs cs' : List (Call τ)) : Prop :=
  ∃ answers r answers' r', Registry.perform checking hasher cs {} = .ok (answers, r) ∧
    Registry.perform checking hasher cs' {} = .ok (answers', r') ∧
    Identifies checking hasher cs answers r ∧
    ∀ T ∈ enrollments cs, (r.identify T).1 = (r'.identify T).1

theorem identifies_of_introduced (hnd : (enrollments cs).Nodup) (h : Introduced [] cs) :
    Identifies checking hasher cs (cs.map (answer hasher (enrollments cs)))
      (ofTypes (enrollments cs)) := by
  constructor
  case distinct =>
    intro i j T U hi hj heq
    rw [List.getElem?_map, List.getElem?_map, hi, hj] at heq
    have hid : (enrollments cs).idxOf T = (enrollments cs).idxOf U := by
      simpa [answer] using heq
    exact (List.idxOf_inj (h.mem hi)).mp hid
  case instantiates =>
    intro T hT
    rw [identify_ofTypes hT]
    exact instantiate_ofTypes hT
  case transparent =>
    intro pre c post hcs hc
    subst hcs
    have hrun := perform_init checking hasher
      (enrollments_lookup hc ▸ hnd) (h.remove hc)
    rw [enrollments_lookup hc, hrun]
    refine ⟨_, congrArg (fun l => Except.ok (l, _)) ?_⟩
    simp [List.eraseIdx_append_of_length_le]

/-- In every sequence that enrolls types once, and each before it asks for its id, ids identify
types and are the same wherever the same types are enrolled. -/
theorem polymorph_ids (checking : Bool) (hasher : ℕ → HashCode) (cs cs' : List (Call τ))
    (hnd : (enrollments cs).Nodup) (hsame : enrollments cs' = enrollments cs)
    (h : Introduced [] cs) (h' : Introduced [] cs') :
    Agree checking hasher cs cs' ∧ ∀ answers r,
      Registry.perform checking hasher cs {} = .ok (answers, r) → ∀ T,
        (∀ later, ((r.identify T).2.perform checking hasher later).map Prod.fst =
          (r.perform checking hasher later).map Prod.fst) ↔ T ∈ enrollments cs := by
  have hrun := perform_init checking hasher hnd h
  have hrun' := perform_init checking hasher (hsame ▸ hnd) h'
  constructor
  · exact ⟨_, _, _, _, hrun, hrun', identifies_of_introduced hnd h, fun T _ => by rw [hsame]⟩
  · intro answers r hr T
    obtain ⟨-, rfl⟩ := Prod.mk.inj (Except.ok.inj (hrun.symm.trans hr))
    exact identify_transparent_iff

/-- A node that asks for ids and one that does not. -/
theorem polymorph_ids_two : Agree true (fun _ => 0) [.enroll 5, .identify 5, .enroll 7]
    [.enroll 5, .enroll 7] :=
  (polymorph_ids true (fun _ => 0) [.enroll 5, .identify 5, .enroll 7] [.enroll 5, .enroll 7]
    (by decide) rfl ⟨List.mem_cons_self, trivial⟩ trivial).1

/-- A type that was never enrolled has the id of the one that was enrolled first. -/
theorem not_polymorph_ids : ¬ ∀ (checking : Bool) (hasher : ℕ → HashCode) (cs cs' : List (Call ℕ)),
    (enrollments cs).Nodup → enrollments cs' = enrollments cs → Agree checking hasher cs cs' := by
  intro h
  obtain ⟨answers, r, -, -, hrun, -, hids, -⟩ := h true (fun _ => 0)
    [.enroll 1, .identify 1, .identify 2] [.enroll 1] (by decide) rfl
  have heval : Registry.perform true (fun _ => 0) [.enroll 1, .identify 1, .identify 2] {} =
      .ok ([.id 0, .id 0, .id 0], ⟨[(1, 0), (2, 0)], [(0, 1)]⟩) := rfl
  obtain ⟨rfl, -⟩ := Prod.mk.inj (Except.ok.inj (heval.symm.trans hrun))
  exact absurd (hids.distinct 1 2 1 2 rfl rfl rfl) (by decide)

end Registry

end Hypercomm.Serialization
