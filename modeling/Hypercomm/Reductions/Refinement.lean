import Hypercomm.Reductions.System

/-! # Reductions refine gathering

Each reduction over each section gathers the values of the members up the tree of the
section. A reducer is a waiting node, and the contributions in flight to a port or in
its queue are the messages in flight from the child of that port.
-/

namespace Hypercomm

open Transition Gather

variable {ι V κ : Type*} [DecidableEq ι]

def VectorSection.graph (S : VectorSection ι) : Gather.Graph ι where
  children x := if x ∈ S.members then S.upstream x else []
  parent x := if x ∈ S.members then (S.downstream x).head? else none

theorem VectorSection.graph_parent_eq_some_iff {S : VectorSection ι} {x c : ι} :
    S.graph.parent c = some x ↔ c ∈ S.members ∧ x ∈ S.downstream c := by
  by_cases h : c ∈ S.members
  · have hlen := S.downstream_length_le (x := c)
    match hd : S.downstream c with
    | [] => simp [VectorSection.graph, h, hd]
    | [d] => simp [VectorSection.graph, h, hd, eq_comm]
    | _ :: _ :: _ => simp [hd] at hlen
  · simp [VectorSection.graph, h]

namespace Reductions

variable (hashIdx : ι → HashCode) (sections : Set (VectorSection ι))

def portFor (S : VectorSection ι) (k : ReductionId) (c : ι) : ReductionPort ι :=
  ⟨S.hash hashIdx, k, c⟩

/-- The contributions for a port that are in flight or in its queue. -/
def copies (s : Reductions ι V κ) (x : ι) (port : ReductionPort ι) : Multiset (Multiset V) :=
  (s.inFlight.filter fun m => m.1 = x ∧ m.2.1 = port).map (·.2.2) +
    ((s.localities x).portQueue port).filterMap id

theorem copies_cons {s t : Reductions ι V κ} {x y : ι} {port port' : ReductionPort ι}
    {w : Multiset V} (hf : s.inFlight = (x, port, w) ::ₘ t.inFlight)
    (hq : (s.localities y).portQueue = (t.localities y).portQueue) :
    s.copies y port' = (if x = y ∧ port = port' then {w} else 0) + t.copies y port' := by
  by_cases hm : x = y ∧ port = port' <;> simp [copies, hf, hq, hm]

/-- The states of the reductions over the sections. -/
abbrev Gatherings (ι V : Type*) := VectorSection ι → ReductionId → Gather.State ι V

variable (as : List (ReductionEvent ι V κ)) (s : Reductions ι V κ) (A : Gatherings ι V)

structure ReducerInv (x : ι) (com : ComponentId) (r : Reducer (VectorSection ι) ι V κ) :
    Prop where
  which : r.imprintable ∈ sections
  mem : x ∈ r.imprintable.members
  created : com ≤ (s.localities x).componentAuthority
  active : r.active = true
  incoming : r.incoming = []
  nUstream : r.nUstream = (r.imprintable.upstream x).length + 1
  ports : r.ports = (r.imprintable.upstream x).map (portFor hashIdx r.imprintable r.count)
  output : ∃ cb, (contributed r.imprintable x as)[r.count]?.map Prod.snd = some cb ∧
    Locality.outputFor (r.imprintable.downstream x)
      (portFor hashIdx r.imprintable r.count x) cb = some r.output

/-- The localities and what is in flight correspond to the gatherings. -/
structure Corresponds : Prop where
  inv : ∀ S ∈ sections, ∀ k, Gather.Inv S.graph (A S k)
  count : ∀ S x, ((s.localities x).identities S).rednCount = (contributed S x as).length
  given : ∀ S ∈ sections, ∀ k x, (A S k).given x = (contributed S x as)[k]?.map Prod.fst
  reducer : ∀ x com r, (s.localities x).components com = some r →
    ReducerInv hashIdx sections as s x com r
  waiting : ∀ S ∈ sections, ∀ k x wait acc, (A S k).phase x = .waiting wait acc →
    ∃ com r, (s.localities x).components com = some r ∧ r.imprintable = S ∧ r.count = k
  unique : ∀ x com com' r r', (s.localities x).components com = some r →
    (s.localities x).components com' = some r' → r.imprintable = r'.imprintable →
    r.count = r'.count → com = com'
  entryPorts : ∀ x port com, (s.localities x).entryPorts port = some com ↔
    ∃ r, (s.localities x).components com = some r ∧ port ∈ r.ports
  portQueue : ∀ x port, (s.localities x).entryPorts port ≠ none →
    (s.localities x).portQueue port = []
  values : ∀ x port, none ∉ (s.localities x).portQueue port
  copies : ∀ S ∈ sections, ∀ x ∈ S.members, ∀ c ∈ S.upstream x, ∀ k,
    s.copies x (portFor hashIdx S k c) =
      if S.graph.parent c = some x then (A S k).flightFrom c else 0
  called : ∀ S ∈ sections, ∀ k,
    (((s.called.filter fun c => c.imprintable = S ∧ c.count = k).map (·.value) :
      List (Multiset V)) : Multiset (Multiset V)) = (A S k).results
  callback : ∀ c ∈ s.called, ∃ x ∈ c.imprintable.members, ∃ cb,
    c.imprintable.downstream x = [] ∧ c.output = .callback cb ∧
    (contributed c.imprintable x as)[c.count]?.map Prod.snd = some cb

variable {hashIdx sections as s A}

/-- A reducer is the waiting node of its reduction, once it is handed some more values. -/
def Progress (A : Gatherings ι V) (x : ι) (r : Reducer (VectorSection ι) ι V κ)
    (missing : List (Deliverable V)) : Prop :=
  ∃ wait, (A r.imprintable r.count).phase x = .waiting wait (combine (r.devs ++ missing)) ∧
    Multiset.card wait + (r.devs ++ missing).length = r.nUstream

/-- All reducers, but perhaps one, wait for what their nodes wait for. -/
def Waiting (A : Gatherings ι V) (s : Reductions ι V κ) (but : ι → ComponentId → Prop) : Prop :=
  ∀ x com r, (s.localities x).components com = some r → ¬ but x com →
    r.devs.length < r.nUstream ∧ Progress A x r []

variable {x : ι} {com : ComponentId} {r : Reducer (VectorSection ι) ι V κ} {dev : Deliverable V}

theorem ReducerInv.congr {t : Reductions ι V κ} (h : ReducerInv hashIdx sections as s x com r)
    (ha : (s.localities x).componentAuthority ≤ (t.localities x).componentAuthority)
    (devs : List (Deliverable V)) :
    ReducerInv hashIdx sections as t x com { r with devs } :=
  ⟨h.which, h.mem, h.created.trans ha, h.active, h.incoming, h.nUstream, h.ports, h.output⟩

theorem Corresponds.congr {t : Reductions ι V κ}
    (h : Corresponds hashIdx sections as s A) (devs : List (Deliverable V))
    (hr : (s.localities x).components com = some r)
    (hother : ∀ y, y ≠ x → t.localities y = s.localities y)
    (hx : t.localities x = { s.localities x with
      components := Function.update (s.localities x).components com (some { r with devs }) })
    (hf : t.inFlight = s.inFlight) (hc : t.called = s.called) :
    Corresponds hashIdx sections as t A := by
  have hold : ∀ y c q, (t.localities y).components c = some q →
      ∃ q', (s.localities y).components c = some q' ∧ ∃ devs, q = { q' with devs } := by
    intro y c q hq
    by_cases hyc : y = x ∧ c = com
    · obtain ⟨rfl, rfl⟩ := hyc
      exact ⟨r, hr, devs, by simpa [hx, eq_comm] using hq⟩
    · refine ⟨q, ?_, q.devs, rfl⟩
      rcases eq_or_ne y x with rfl | hy
      · have hcc : c ≠ com := fun hcc => hyc ⟨rfl, hcc⟩
        simpa [hx, hcc] using hq
      · rwa [hother y hy] at hq
  have hnew : ∀ y c q', (s.localities y).components c = some q' →
      ∃ q, (t.localities y).components c = some q ∧ ∃ devs, q = { q' with devs } := by
    intro y c q' hq
    by_cases hyc : y = x ∧ c = com
    · obtain ⟨rfl, rfl⟩ := hyc
      obtain rfl := Option.some.inj (hr.symm.trans hq)
      exact ⟨_, by rw [hx]; exact Function.update_self .., devs, rfl⟩
    · refine ⟨q', ?_, q'.devs, rfl⟩
      rcases eq_or_ne y x with rfl | hy
      · have hcc : c ≠ com := fun hcc => hyc ⟨rfl, hcc⟩
        simpa [hx, hcc] using hq
      · rwa [hother y hy]
  have hsame : ∀ y, (t.localities y).identities = (s.localities y).identities ∧
      (t.localities y).entryPorts = (s.localities y).entryPorts ∧
      (t.localities y).portQueue = (s.localities y).portQueue ∧
      (t.localities y).componentAuthority = (s.localities y).componentAuthority := by
    intro y
    rcases eq_or_ne y x with rfl | hy
    · simp [hx]
    · simp [hother y hy]
  constructor
  · exact h.inv
  · intro S y
    rw [(hsame y).1, h.count]
  · exact h.given
  · intro y c q hq
    obtain ⟨q', hq', devs', rfl⟩ := hold y c q hq
    exact (h.reducer y c q' hq').congr (hsame y).2.2.2.ge devs'
  · intro S hS k y wait acc hp
    obtain ⟨c, q', hq', rfl, rfl⟩ := h.waiting S hS k y wait acc hp
    obtain ⟨q, hq, devs', rfl⟩ := hnew y c q' hq'
    exact ⟨c, _, hq, rfl, rfl⟩
  · intro y c c' q₁ q₂ h₁ h₂ hi hk
    obtain ⟨q₁', h₁', devs₁, rfl⟩ := hold y c q₁ h₁
    obtain ⟨q₂', h₂', devs₂, rfl⟩ := hold y c' q₂ h₂
    exact h.unique y c c' q₁' q₂' h₁' h₂' hi hk
  · intro y port c
    rw [(hsame y).2.1, h.entryPorts]
    constructor
    · rintro ⟨q', hq', hp⟩
      obtain ⟨q, hq, devs', rfl⟩ := hnew y c q' hq'
      exact ⟨_, hq, hp⟩
    · rintro ⟨q, hq, hp⟩
      obtain ⟨q', hq', devs', rfl⟩ := hold y c q hq
      exact ⟨q', hq', hp⟩
  · intro y port hp
    rw [(hsame y).2.1] at hp
    rw [(hsame y).2.2.1, h.portQueue y port hp]
  · intro y port
    rw [(hsame y).2.2.1]
    exact h.values y port
  · intro S hS y hy c hc k
    rw [← h.copies S hS y hy c hc k, Reductions.copies, Reductions.copies, hf, (hsame y).2.2.1]
  · rw [hc]; exact h.called
  · rw [hc]; exact h.callback

theorem Corresponds.keep (h : Corresponds hashIdx sections as s A)
    (hw : Waiting A s fun y c => y = x ∧ c = com)
    (hr : (s.localities x).components com = some r) (hp : Progress A x r [dev])
    (hlt : r.devs.length + 1 < r.nUstream) :
    ∃ o, (s.localities x).passthru com dev = some o ∧
      Corresponds hashIdx sections as (s.commit x o) A ∧
      Waiting A (s.commit x o) fun _ _ => False := by
  refine ⟨_, Locality.passthru_missing hr (h.reducer x com r hr).active hlt, ?_, ?_⟩
  · exact h.congr (r.devs ++ [dev]) hr (fun y hy => by simp [commit, hy]) (by simp [commit]) rfl rfl
  · intro y c q hq _
    by_cases hyc : y = x ∧ c = com
    · obtain ⟨rfl, rfl⟩ := hyc
      obtain rfl : { r with devs := r.devs ++ [dev] } = q := by simpa [commit] using hq
      obtain ⟨wait, hphase, hcard⟩ := hp
      exact ⟨by simpa using hlt, wait, by simpa using hphase, by simpa using hcard⟩
    · refine hw y c q ?_ hyc
      rcases eq_or_ne y x with rfl | hy
      · have hcc : c ≠ com := fun hcc => hyc ⟨rfl, hcc⟩
        simpa [commit, hcc] using hq
      · simpa [commit, hy] using hq

def Gatherings.set (A : Gatherings ι V) (S : VectorSection ι) (k : ReductionId)
    (a : Gather.State ι V) : Gatherings ι V :=
  fun S' k' => if S' = S ∧ k' = k then a else A S' k'

@[simp] theorem Gatherings.set_self {S : VectorSection ι} {k : ReductionId}
    {a : Gather.State ι V} : A.set S k a S k = a := by
  simp [Gatherings.set]

theorem Gatherings.set_of_ne {S S' : VectorSection ι} {k k' : ReductionId}
    {a : Gather.State ι V} (h : ¬ (S' = S ∧ k' = k)) : A.set S k a S' k' = A S' k' := by
  simp [Gatherings.set, h]

/-- What a completed reducer sends: its result to the callback at a member without
parent, or a contribution to the parent. -/
theorem ReducerInv.commit_cases (h : ReducerInv hashIdx sections as s x com r)
    (l : Locality (VectorSection ι) ι V κ) (value : Multiset V) :
    (∃ cb, r.imprintable.downstream x = [] ∧
      (contributed r.imprintable x as)[r.count]?.map Prod.snd = some cb ∧
      s.commit x (l, [⟨r.imprintable, r.count, r.output, value⟩]) =
        { localities := Function.update s.localities x l
          inFlight := s.inFlight
          called := s.called ++ [⟨r.imprintable, r.count, .callback cb, value⟩] }) ∨
    ∃ d, r.imprintable.downstream x = [d] ∧
      s.commit x (l, [⟨r.imprintable, r.count, r.output, value⟩]) =
        { localities := Function.update s.localities x l
          inFlight := (d, portFor hashIdx r.imprintable r.count x, value) ::ₘ s.inFlight
          called := s.called } := by
  obtain ⟨cb, hcb, hout⟩ := h.output
  match hd : r.imprintable.downstream x with
  | [] =>
    have he : r.output = .callback cb := by simpa [Locality.outputFor, hd, eq_comm] using hout
    exact .inl ⟨cb, rfl, hcb, by simp [commit, send, he]⟩
  | [d] =>
    have he : r.output = .forward d (portFor hashIdx r.imprintable r.count x) := by
      simpa [Locality.outputFor, hd, eq_comm] using hout
    exact .inr ⟨d, rfl, by simp [commit, send, he]⟩
  | _ :: _ :: _ => simp [Locality.outputFor, hd] at hout

/-- The last value completes the reducer, and with it the node. -/
theorem Corresponds.last (hsep : Separated hashIdx sections)
    (h : Corresponds hashIdx sections as s A) (hw : Waiting A s fun y c => y = x ∧ c = com)
    (hr : (s.localities x).components com = some r) (hp : Progress A x r [dev])
    (hle : r.nUstream ≤ r.devs.length + 1) :
    ∃ A' o, (s.localities x).passthru com dev = some o ∧
      Corresponds hashIdx sections as (s.commit x o) A' ∧
      Waiting A' (s.commit x o) fun _ _ => False := by
  have hinv := h.reducer x com r hr
  obtain ⟨wait, hphase, hcard⟩ := hp
  obtain rfl : wait = 0 := by
    rw [← Multiset.card_eq_zero]
    simp at hcard; omega
  generalize hacc : combine (r.devs ++ [dev]) = acc at hphase
  set S := r.imprintable with hS
  set k := r.count with hk
  set l' : Locality (VectorSection ι) ι V κ := { s.localities x with
    components := Function.update (s.localities x).components com none
    entryPorts := fun port => if port ∈ r.ports then none else (s.localities x).entryPorts port }
    with hl'
  have hpass : (s.localities x).passthru com dev = some (l', [⟨S, k, r.output, acc⟩]) := by
    rw [Locality.passthru_last hr hinv.active hle, hacc]
  refine ⟨A.set S k ((A S k).complete S.graph x acc), _, hpass, ?_⟩
  -- the state after the step
  obtain ⟨t, ht⟩ : ∃ t, t = s.commit x (l', [⟨S, k, r.output, acc⟩]) := ⟨_, rfl⟩
  have hcases := hinv.commit_cases l' acc
  rw [← hS, ← hk, ← ht] at hcases
  rw [← ht]
  have hloc : t.localities = Function.update s.localities x l' := by
    rcases hcases with ⟨cb, -, -, rfl⟩ | ⟨d, -, rfl⟩ <;> rfl
  have hcomp : ∀ y c q, (t.localities y).components c = some q ↔
      (s.localities y).components c = some q ∧ ¬ (y = x ∧ c = com) := by
    intro y c q
    rw [hloc]
    rcases eq_or_ne y x with rfl | hy
    · rcases eq_or_ne c com with rfl | hc <;> simp [*]
    · simp [hy]
  have hsame : ∀ y, (t.localities y).identities = (s.localities y).identities ∧
      (t.localities y).portQueue = (s.localities y).portQueue ∧
      (t.localities y).componentAuthority = (s.localities y).componentAuthority := by
    intro y
    rw [hloc]
    rcases eq_or_ne y x with rfl | hy
    · simp [hl']
    · simp [hy]
  have hports : ∀ y port, (t.localities y).entryPorts port =
      if y = x ∧ port ∈ r.ports then none else (s.localities y).entryPorts port := by
    intro y port
    rw [hloc]
    rcases eq_or_ne y x with rfl | hy
    · simp [hl']
    · simp [hy]
  have hA : ∀ S' k' y, ¬ (S' = S ∧ k' = k ∧ y = x) →
      ((A.set S k ((A S k).complete S.graph x acc)) S' k').phase y = (A S' k').phase y := by
    intro S' k' y hne
    by_cases hSk : S' = S ∧ k' = k
    · obtain ⟨rfl, rfl⟩ := hSk
      have hy : y ≠ x := fun hy => hne ⟨rfl, rfl, hy⟩
      rw [Gatherings.set_self, complete_phase, Function.update_of_ne hy]
    · rw [Gatherings.set_of_ne hSk]
  have hstamp : ∀ c q, (s.localities x).components c = some q → c ≠ com →
      ¬ (q.imprintable = S ∧ q.count = k ∧ x = x) := fun c q hq hc hne =>
    hc (h.unique x c com q r hq hr hne.1 hne.2.1)
  refine ⟨⟨?_, ?_, ?_, ?_, ?_, ?_, ?_, ?_, ?_, ?_, ?_, ?_⟩, ?_⟩
  case refine_1 =>
    intro S' hS' k'
    by_cases hSk : S' = S ∧ k' = k
    · obtain ⟨rfl, rfl⟩ := hSk
      rw [Gatherings.set_self]
      exact (h.inv _ hS' _).complete hphase
    · rw [Gatherings.set_of_ne hSk]
      exact h.inv S' hS' k'
  case refine_2 =>
    intro S' y
    rw [(hsame y).1, h.count]
  case refine_3 =>
    intro S' hS' k' y
    rw [← h.given S' hS']
    by_cases hSk : S' = S ∧ k' = k
    · obtain ⟨rfl, rfl⟩ := hSk
      rw [Gatherings.set_self, complete_given]
    · rw [Gatherings.set_of_ne hSk]
  case refine_4 =>
    intro y c q hq
    obtain ⟨hq, -⟩ := (hcomp y c q).mp hq
    exact (h.reducer y c q hq).congr (hsame y).2.2.ge q.devs
  case refine_5 =>
    intro S' hS' k' y w a hp
    have hne : ¬ (S' = S ∧ k' = k ∧ y = x) := by
      rintro ⟨rfl, rfl, rfl⟩
      simp at hp
    rw [hA S' k' y hne] at hp
    obtain ⟨c, q, hq, rfl, rfl⟩ := h.waiting S' hS' k' y w a hp
    refine ⟨c, q, (hcomp y c q).mpr ⟨hq, ?_⟩, rfl, rfl⟩
    rintro ⟨rfl, rfl⟩
    obtain rfl := Option.some.inj (hr.symm.trans hq)
    exact hne ⟨rfl, rfl, rfl⟩
  case refine_6 =>
    intro y c c' q q' hq hq'
    exact h.unique y c c' q q' ((hcomp y c q).mp hq).1 ((hcomp y c' q').mp hq').1
  case refine_7 =>
    intro y port c
    rw [hports]
    constructor
    · intro hp
      split at hp
      · simp at hp
      · rename_i hnot
        obtain ⟨q, hq, hmem⟩ := (h.entryPorts y port c).mp hp
        refine ⟨q, (hcomp y c q).mpr ⟨hq, ?_⟩, hmem⟩
        rintro ⟨rfl, rfl⟩
        obtain rfl := Option.some.inj (hr.symm.trans hq)
        exact hnot ⟨rfl, hmem⟩
    · rintro ⟨q, hq, hmem⟩
      obtain ⟨hq, hne⟩ := (hcomp y c q).mp hq
      have hold := (h.entryPorts y port c).mpr ⟨q, hq, hmem⟩
      rw [if_neg, hold]
      rintro ⟨rfl, hport⟩
      have := (h.entryPorts y port com).mpr ⟨r, hr, hport⟩
      exact hne ⟨rfl, Option.some.inj (hold.symm.trans this)⟩
  case refine_8 =>
    intro y port hp
    rw [hports] at hp
    split at hp
    · simp at hp
    · rw [(hsame y).2.1, h.portQueue y port hp]
  case refine_9 =>
    intro y port
    rw [(hsame y).2.1]
    exact h.values y port
  case refine_13 =>
    intro y c q hq _
    obtain ⟨hq, hne⟩ := (hcomp y c q).mp hq
    obtain ⟨hlt, w, hp, hcard⟩ := hw y c q hq hne
    refine ⟨hlt, w, ?_, hcard⟩
    rw [hA, hp]
    rintro ⟨h1, h2, rfl⟩
    exact hstamp c q hq (fun hc => hne ⟨rfl, hc⟩) ⟨h1, h2, rfl⟩
  case refine_10 =>
    intro S' hS' y hy c hc k'
    have hold := h.copies S' hS' y hy c hc k'
    rcases hcases with ⟨cb, hd, -, rfl⟩ | ⟨d, hd, rfl⟩
    · have hpar : S.graph.parent x = none := by simp [VectorSection.graph, hd]
      rw [Reductions.copies, (hsame y).2.1]
      refine hold.trans ?_
      by_cases hSk : S' = S ∧ k' = k
      · obtain ⟨rfl, rfl⟩ := hSk
        simp [complete_flightFrom, hpar]
      · rw [Gatherings.set_of_ne hSk]
    · have hpar : S.graph.parent x = some d :=
        VectorSection.graph_parent_eq_some_iff.mpr ⟨hinv.mem, by simp [hd]⟩
      rw [copies_cons (t := s) rfl (hsame y).2.1, hold]
      by_cases hm : d = y ∧ portFor hashIdx S k x = portFor hashIdx S' k' c
      · obtain ⟨rfl, hport⟩ := hm
        obtain ⟨hhash, rfl, rfl⟩ := ReductionPort.mk.inj hport
        obtain rfl : S' = S := hsep.messages S' hS' S hinv.which hhash.symm d hy x hc hinv.mem
          (by simp [hd])
        rw [if_pos hpar, if_pos hpar, if_pos ⟨rfl, rfl⟩, Gatherings.set_self, complete_flightFrom,
          if_pos ⟨rfl, by simp [hpar]⟩]
      · rw [if_neg hm, zero_add]
        by_cases hSk : S' = S ∧ k' = k
        · obtain ⟨rfl, rfl⟩ := hSk
          split
          case isTrue hpc =>
            have hcx : c ≠ x := by
              rintro rfl
              exact hm ⟨Option.some.inj (hpar.symm.trans hpc), rfl⟩
            rw [Gatherings.set_self, complete_flightFrom, if_neg (fun h' => hcx h'.1), zero_add]
          case isFalse => rfl
        · rw [Gatherings.set_of_ne hSk]
  case refine_11 =>
    intro S' hS' k'
    have hold := h.called S' hS' k'
    rcases hcases with ⟨cb, hd, -, rfl⟩ | ⟨d, hd, rfl⟩
    · have hpar : S.graph.parent x = none := by simp [VectorSection.graph, hd]
      by_cases hSk : S' = S ∧ k' = k
      · obtain ⟨rfl, rfl⟩ := hSk
        rw [Gatherings.set_self, complete_results, if_pos hpar, ← hold]
        simp
      · rw [Gatherings.set_of_ne hSk, ← hold]
        have hne : ¬ (S = S' ∧ k = k') := fun h' => hSk ⟨h'.1.symm, h'.2.symm⟩
        simp [hne]
    · have hpar : S.graph.parent x = some d :=
        VectorSection.graph_parent_eq_some_iff.mpr ⟨hinv.mem, by simp [hd]⟩
      refine hold.trans ?_
      by_cases hSk : S' = S ∧ k' = k
      · obtain ⟨rfl, rfl⟩ := hSk
        rw [Gatherings.set_self, complete_results, if_neg (by simp [hpar]), zero_add]
      · rw [Gatherings.set_of_ne hSk]
  case refine_12 =>
    rcases hcases with ⟨cb, hd, hcb, rfl⟩ | ⟨d, hd, rfl⟩
    · intro c hc
      rcases List.mem_append.mp hc with hc | hc
      · exact h.callback c hc
      · obtain rfl := List.mem_singleton.mp hc
        exact ⟨x, hinv.mem, cb, hd, rfl, hcb⟩
    · exact h.callback

end Reductions

end Hypercomm
