import Mathlib.Algebra.GroupWithZero.Nat
import Mathlib.Data.Fintype.Basic
import Mathlib.Data.Fintype.Sigma
import Mathlib.Data.List.FinRange
import Mathlib.Data.Set.Finite.Lattice
import Mathlib.Order.Bounds.Basic
import Hypercomm.Components.Activation
import Hypercomm.Transition.Run

/-! # Components that feed each other

An output is connected to an input of another component, which accepts its values in calls made by
the action's component, or to a callback. When each input has one source and no component feeds
itself, what the components do depends on the values that arrive from outside on each port, and
not on the order in which the ports are served.
-/

namespace Hypercomm.Components

/-- What an output is connected to. -/
inductive Target (P κ : Type*) where
  | component (p : P)
  | callback (cb : κ)
  deriving DecidableEq

/-- Components with one input more than `inputs` says, their connections and what their actions do.
-/
structure Circuit (ι κ V σ : Type*) where
  inputs : ι → ℕ
  outputs : ι → ℕ
  dest : (c : ι) → Fin (outputs c) → Target (Σ c, Fin (inputs c + 1)) κ
  action : (c : ι) → σ → InSet (inputs c + 1) V → σ × (Fin (outputs c) → V)
  memory : ι → σ

namespace Circuit

variable {ι κ V σ : Type*}

abbrev Port (C : Circuit ι κ V σ) := Σ c, Fin (C.inputs c + 1)

def react (C : Circuit ι κ V σ) (c : ι) :
    σ → List (InSet (C.inputs c + 1) V) → σ × List (Fin (C.outputs c) → V)
  | m, [] => (m, [])
  | m, set :: sets =>
      let result := C.action c m set
      let results := C.react c result.1 sets
      (results.1, result.2 :: results.2)

/-- The components, with the values that are being relayed, the innermost first. -/
structure State (C : Circuit ι κ V σ) where
  components : (c : ι) → Acceptor (C.inputs c + 1) V
  memory : ι → σ
  calls : List (Target C.Port κ × V) := []
  called : κ → List V := fun _ => []

inductive Event (C : Circuit ι κ V σ) where
  /-- a value for an input arrives at the locality -/
  | receive (p : C.Port) (v : V)
  | relay

def start (C : Circuit ι κ V σ) : State C where
  components _ := { active := true, activated := true, persistent := true }
  memory := C.memory

def unspool (C : Circuit ι κ V σ) (c : ι) (result : Fin (C.outputs c) → V) :
    List (Target C.Port κ × V) :=
  (List.finRange (C.outputs c)).map fun o => (C.dest c o, result o)

variable [DecidableEq ι] [DecidableEq κ] {C : Circuit ι κ V σ}

/-- A component has accepted a value, and relays the results of its action if it ran. -/
def State.proceed (s : State C) (c : ι) (t : Acceptor (C.inputs c + 1) V)
    (rest : List (Target C.Port κ × V)) : State C :=
  let reaction := C.react c (s.memory c) (t.actions.drop (s.components c).actions.length)
  { s with
    components := Function.update s.components c t
    memory := Function.update s.memory c reaction.1
    calls := reaction.2.flatMap (C.unspool c) ++ rest }

/-- A value is received when no call is under way. -/
inductive Step (s : State C) : Event C → State C → Prop
  | receive (p : C.Port) (v : V) (h : s.calls = []) :
      Step s (.receive p v) { s with calls := [(.component p, v)] }
  | accept {p : C.Port} {v : V} {rest : List (Target C.Port κ × V)}
      {t : Acceptor (C.inputs p.1 + 1) V} (h : s.calls = (.component p, v) :: rest)
      (ht : (s.components p.1).accept p.2 (some v) = some t) :
      Step s .relay (s.proceed p.1 t rest)
  | callback {cb : κ} {v : V} {rest : List (Target C.Port κ × V)}
      (h : s.calls = (.callback cb, v) :: rest) :
      Step s .relay { s with
        calls := rest
        called := Function.update s.called cb (s.called cb ++ [v]) }

/-- Values from outside arrive on inputs that no output is connected to. -/
def IsOpen (_ : State C) : Event C → Prop
  | .receive p _ => ∀ c o, C.dest c o ≠ .component p
  | .relay => True

def inputsAt (es : List (Event C)) (tgt : Target C.Port κ) : List V :=
  es.filterMap fun
    | .receive p v => if .component p = tgt then some v else none
    | .relay => none

/-- No input has two sources, and no callback. -/
def OneSource (C : Circuit ι κ V σ) : Prop :=
  Function.Injective fun x : Σ c, Fin (C.outputs c) => C.dest x.1 x.2

def Ranked (C : Circuit ι κ V σ) (rank : ι → ℕ) : Prop :=
  ∀ c o p, C.dest c o = .component p → rank c < rank p.1

section React

variable {c c' : ι} {m : σ} {v : V} {tgt : Target C.Port κ}

omit [DecidableEq ι] [DecidableEq κ] in
theorem react_cons (set : InSet (C.inputs c + 1) V) (sets : List (InSet (C.inputs c + 1) V)) :
    C.react c m (set :: sets) =
      ((C.react c (C.action c m set).1 sets).1,
        (C.action c m set).2 :: (C.react c (C.action c m set).1 sets).2) := rfl

omit [DecidableEq ι] [DecidableEq κ] in
theorem react_append (sets sets' : List (InSet (C.inputs c + 1) V)) :
    C.react c m (sets ++ sets') =
      ((C.react c (C.react c m sets).1 sets').1,
        (C.react c m sets).2 ++ (C.react c (C.react c m sets).1 sets').2) := by
  induction sets generalizing m with
  | nil => rfl
  | cons set sets ih =>
    rw [List.cons_append, react_cons, react_cons, ih]
    rfl

def relayed (calls : List (Target C.Port κ × V)) (tgt : Target C.Port κ) : List V :=
  calls.filterMap fun call => if call.1 = tgt then some call.2 else none

theorem relayed_cons_self (calls : List (Target C.Port κ × V)) :
    relayed ((tgt, v) :: calls) tgt = v :: relayed calls tgt := by
  simp [relayed]

theorem relayed_cons_of_ne {tgt' : Target C.Port κ} (h : tgt' ≠ tgt)
    (calls : List (Target C.Port κ × V)) :
    relayed ((tgt', v) :: calls) tgt = relayed calls tgt := by
  simp [relayed, h]

theorem relayed_append (calls calls' : List (Target C.Port κ × V)) :
    relayed (calls ++ calls') tgt = relayed calls tgt ++ relayed calls' tgt :=
  List.filterMap_append

theorem relayed_eq_nil {calls : List (Target C.Port κ × V)} (h : ∀ call ∈ calls, call.1 ≠ tgt) :
    relayed calls tgt = [] := by
  rw [relayed, List.filterMap_eq_nil_iff]
  intro call hcall
  rw [if_neg (h call hcall)]

omit [DecidableEq ι] [DecidableEq κ] in
theorem mem_unspools {call : Target C.Port κ × V} {results : List (Fin (C.outputs c) → V)}
    (h : call ∈ results.flatMap (C.unspool c)) : ∃ o, call.1 = C.dest c o := by
  obtain ⟨result, -, hcall⟩ := List.mem_flatMap.mp h
  obtain ⟨o, -, rfl⟩ := List.mem_map.mp hcall
  exact ⟨o, rfl⟩

theorem relayed_unspool (hone : C.OneSource) (o : Fin (C.outputs c))
    (results : List (Fin (C.outputs c) → V)) :
    relayed (results.flatMap (C.unspool c)) (C.dest c o) = results.map (· o) := by
  induction results with
  | nil => rfl
  | cons result results ih =>
    have hresult : relayed (C.unspool c result) (C.dest c o) = [result o] := by
      have hinj : ∀ o', C.dest c o' = C.dest c o ↔ o' = o := by
        intro o'
        constructor
        · intro he
          exact eq_of_heq (Sigma.mk.inj (@hone ⟨c, o'⟩ ⟨c, o⟩ he)).2
        · rintro rfl
          rfl
      have hfilter : ∀ l : List (Fin (C.outputs c)),
          relayed (l.map fun o' => (C.dest c o', result o')) (C.dest c o) =
            (l.filter (· = o)).map result := by
        intro l
        induction l with
        | nil => rfl
        | cons o' l ih =>
          rw [List.map_cons]
          by_cases ho : o' = o
          · subst ho
            rw [relayed_cons_self, ih, List.filter_cons_of_pos (by simp), List.map_cons]
          · rw [relayed_cons_of_ne (fun he => ho ((hinj o').mp he)), ih,
              List.filter_cons_of_neg (by simpa using ho)]
      unfold unspool
      rw [hfilter, List.filter_eq,
        List.count_eq_one_of_mem (List.nodup_finRange _) (List.mem_finRange o)]
      rfl
    rw [List.flatMap_cons, relayed_append, hresult, ih]
    rfl

end React

section Flow

variable {rank : ι → ℕ} {es : List (Event C)} {e : Event C} {s t : State C}
variable {xs : (c : ι) → List (Fin (C.inputs c + 1) × V)} {tgt : Target C.Port κ}

def arrived (xs : (c : ι) → List (Fin (C.inputs c + 1) × V)) (s : State C) :
    Target C.Port κ → List V
  | .component p => valuesAt (xs p.1) p.2
  | .callback cb => s.called cb

/-- The results of the actions on the sets that are complete. -/
def produced (C : Circuit ι κ V σ) (c : ι) (o : Fin (C.outputs c))
    (ys : List (Fin (C.inputs c + 1) × V)) : List V :=
  (C.react c (C.memory c) (completeSets ys)).2.map (· o)

/-- Each component has run its action on the complete sets of the values that it accepted. What an
output has produced has arrived or is being relayed, and so has what came from outside. Among the
values that are being relayed, those from a component are behind all those that are for components
before it. -/
structure Flows (rank : ι → ℕ) (es : List (Event C)) (s : State C)
    (xs : (c : ι) → List (Fin (C.inputs c + 1) × V)) : Prop where
  buffers : ∀ c, ∃ m, Acceptor.Buffers (xs c) (complete (xs c)) m (s.components c)
  active : ∀ c, (s.components c).active = true
  persistent : ∀ c, (s.components c).persistent = true
  actions : ∀ c, (s.components c).actions = completeSets (xs c)
  memory : ∀ c, s.memory c = (C.react c (C.memory c) (completeSets (xs c))).1
  nested : s.calls.Pairwise fun a b =>
    ∀ p c o, a.1 = .component p → C.dest c o = b.1 → rank c < rank p.1
  produced : ∀ c o, arrived xs s (C.dest c o) ++ relayed s.calls (C.dest c o) =
    produced C c o (xs c)
  outside : ∀ tgt, (∀ c o, C.dest c o ≠ tgt) →
    arrived xs s tgt ++ relayed s.calls tgt = inputsAt es tgt

theorem Flows.start (rank : ι → ℕ) : Flows rank [] C.start fun _ => [] := by
  have hc : ∀ c, complete ([] : List (Fin (C.inputs c + 1) × V)) = 0 := fun c =>
    Nat.le_zero.mp (Nat.find_min' _ (by simp [isReady_setAt, valuesAt]))
  have harrived : ∀ tgt : Target C.Port κ, arrived (fun _ => []) C.start tgt = [] := by
    intro tgt
    cases tgt <;> rfl
  refine ⟨fun c => ⟨0, ?_⟩, fun _ => rfl, fun _ => rfl, fun c => completeSets_nil.symm,
    fun c => ?_, .nil, fun c o => ?_, fun tgt _ => ?_⟩
  · rw [hc]
    exact ⟨rfl, by simp [valuesAt], by simp, Nat.zero_le _⟩
  · rw [completeSets_nil]
    rfl
  · rw [harrived]
    unfold Circuit.produced
    rw [completeSets_nil]
    rfl
  · rw [harrived]
    rfl

theorem Flows.receive {p : C.Port} (h : Flows rank es s xs) (hs : s.calls = []) (v : V)
    (hopen : IsOpen s (.receive p v)) :
    Flows rank (es ++ [.receive p v]) { s with calls := [(.component p, v)] } xs := by
  have hold : ∀ tgt, relayed s.calls tgt = [] := fun tgt => by
    rw [hs]
    rfl
  refine ⟨h.buffers, h.active, h.persistent, h.actions, h.memory, List.pairwise_singleton _ _,
    fun c o => ?_, fun tgt htgt => ?_⟩
  · have hprod := h.produced c o
    rw [hold] at hprod
    rw [← hprod, relayed_cons_of_ne (Ne.symm (hopen c o))]
    rfl
  · have hout := h.outside tgt htgt
    rw [hold, List.append_nil] at hout
    have hinputs : inputsAt (es ++ [.receive p v]) tgt =
        inputsAt es tgt ++ relayed [(.component p, v)] tgt := by
      simp [inputsAt, relayed, List.filterMap_cons]
    rw [hinputs, ← hout]
    rfl

theorem Flows.callback {cb : κ} {v : V} {rest : List (Target C.Port κ × V)}
    (h : Flows rank es s xs) (hs : s.calls = (.callback cb, v) :: rest) :
    Flows rank es { s with
      calls := rest
      called := Function.update s.called cb (s.called cb ++ [v]) } xs := by
  have hkept : ∀ tgt, arrived xs { s with
      calls := rest
      called := Function.update s.called cb (s.called cb ++ [v]) } tgt ++ relayed rest tgt =
        arrived xs s tgt ++ relayed s.calls tgt := by
    intro tgt
    rw [hs]
    by_cases htgt : .callback cb = tgt
    · subst htgt
      rw [relayed_cons_self]
      simp [arrived]
    · rw [relayed_cons_of_ne htgt]
      cases tgt with
      | component p => rfl
      | callback cb' =>
        have hne : cb' ≠ cb := fun he => htgt (he ▸ rfl)
        simp [arrived, hne]
  refine ⟨h.buffers, h.active, h.persistent, h.actions, h.memory, ?_, fun c o => ?_,
    fun tgt htgt => ?_⟩
  · have hnested := h.nested
    rw [hs] at hnested
    exact hnested.of_cons
  · exact (hkept _).trans (h.produced c o)
  · exact (hkept _).trans (h.outside tgt htgt)

theorem Flows.accept {p : C.Port} {v : V} {rest : List (Target C.Port κ × V)}
    {t : Acceptor (C.inputs p.1 + 1) V} (h : Flows rank es s xs) (hrank : C.Ranked rank)
    (hone : C.OneSource) (hs : s.calls = (.component p, v) :: rest)
    (ht : (s.components p.1).accept p.2 (some v) = some t) :
    ∃ ys, Flows rank es (s.proceed p.1 t rest) ys := by
  obtain ⟨c, i⟩ := p
  obtain ⟨m, hb⟩ := h.buffers c
  obtain ⟨t', m', l, ht', hbt, hact, hpers, hl, hta⟩ :=
    hb.exists_stage (h.active c) (h.persistent c) i v
  obtain rfl := Option.some.inj (ht.symm.trans ht')
  have hdrop : t.actions.drop (s.components c).actions.length = l := by
    rw [hta, List.drop_left]
  obtain ⟨reaction, hreaction⟩ : ∃ reaction, reaction = C.react c (s.memory c) l := ⟨_, rfl⟩
  have hstate : s.proceed c t rest = { s with
      components := Function.update s.components c t
      memory := Function.update s.memory c reaction.1
      calls := reaction.2.flatMap (C.unspool c) ++ rest } := by
    unfold State.proceed
    rw [hdrop, hreaction]
  obtain ⟨ys, hys⟩ : ∃ ys, ys = Function.update xs c (xs c ++ [(i, v)]) := ⟨_, rfl⟩
  have hyc : ys c = xs c ++ [(i, v)] := by rw [hys, Function.update_self]
  have hyd : ∀ d, d ≠ c → ys d = xs d := fun d hd => by rw [hys, Function.update_of_ne hd]
  have hreact : C.react c (C.memory c) (completeSets (ys c)) =
      (reaction.1, (C.react c (C.memory c) (completeSets (xs c))).2 ++ reaction.2) := by
    rw [hyc, hl, react_append, ← h.memory c, hreaction]
  have hnested := h.nested
  rw [hs, List.pairwise_cons] at hnested
  obtain ⟨hbelow, hrest⟩ := hnested
  -- the calls that are left are not for what the component is connected to
  have hnone : ∀ o, relayed rest (C.dest c o) = [] := by
    intro o
    refine relayed_eq_nil fun call hcall he => ?_
    exact lt_irrefl _ (hbelow call hcall ⟨c, i⟩ c o rfl he.symm)
  have hsame : ∀ d o, d ≠ c → relayed (reaction.2.flatMap (C.unspool c)) (C.dest d o) = [] := by
    intro d o hd
    refine relayed_eq_nil fun call hcall he => hd ?_
    obtain ⟨o', ho'⟩ := mem_unspools hcall
    exact (Sigma.mk.inj (@hone ⟨c, o'⟩ ⟨d, o⟩ (ho'.symm.trans he))).1.symm
  have harrived : ∀ tgt, arrived ys (s.proceed c t rest) tgt ++ relayed rest tgt =
      arrived xs s tgt ++ relayed s.calls tgt := by
    intro tgt
    rw [hs]
    by_cases htgt : .component ⟨c, i⟩ = tgt
    · subst htgt
      rw [relayed_cons_self]
      simp [arrived, hyc, valuesAt]
    · rw [relayed_cons_of_ne htgt]
      cases tgt with
      | callback cb => rfl
      | component q =>
        obtain ⟨d, j⟩ := q
        by_cases hd : d = c
        · subst hd
          have hj : i ≠ j := fun he => htgt (he ▸ rfl)
          simp [arrived, hyc, valuesAt, hj]
        · simp [arrived, hyd d hd]
  have hcalls : ∀ tgt, relayed (s.proceed c t rest).calls tgt =
      relayed (reaction.2.flatMap (C.unspool c)) tgt ++ relayed rest tgt := by
    intro tgt
    rw [hstate]
    exact relayed_append _ _
  refine ⟨ys, fun d => ?_, fun d => ?_, fun d => ?_, fun d => ?_, fun d => ?_, ?_, fun d o => ?_,
    fun tgt htgt => ?_⟩
  · rw [hstate]
    rcases eq_or_ne d c with rfl | hd
    · rw [hyc]
      exact ⟨m', by simpa using hbt⟩
    · rw [hyd d hd]
      simpa [hd] using h.buffers d
  · rw [hstate]
    rcases eq_or_ne d c with rfl | hd
    · simpa using hact
    · simpa [hd] using h.active d
  · rw [hstate]
    rcases eq_or_ne d c with rfl | hd
    · simpa using hpers
    · simpa [hd] using h.persistent d
  · rw [hstate]
    rcases eq_or_ne d c with rfl | hd
    · rw [hyc, hl, ← h.actions d]
      simpa using hta
    · rw [hyd d hd]
      simpa [hd] using h.actions d
  · rw [hstate]
    rcases eq_or_ne d c with rfl | hd
    · rw [hreact]
      simp
    · rw [hyd d hd]
      simpa [hd] using h.memory d
  · rw [hstate]
    refine List.pairwise_append.mpr ⟨?_, hrest, ?_⟩
    · refine List.pairwise_of_forall_mem_list fun a ha b hb q d o hq hd => ?_
      obtain ⟨o', ho'⟩ := mem_unspools ha
      obtain ⟨o'', ho''⟩ := mem_unspools hb
      obtain rfl := (Sigma.mk.inj (@hone ⟨d, o⟩ ⟨c, o''⟩ (hd.trans ho''))).1
      exact hrank d o' q (ho'.symm.trans hq)
    · intro a ha b hb q d o hq hd
      obtain ⟨o', ho'⟩ := mem_unspools ha
      exact (hbelow b hb ⟨c, i⟩ d o rfl hd).trans (hrank c o' q (ho'.symm.trans hq))
  · rw [hcalls]
    rcases eq_or_ne d c with rfl | hd
    · have hprod := h.produced d o
      rw [← harrived, hnone, List.append_nil] at hprod
      rw [hnone, List.append_nil, relayed_unspool hone, hprod]
      unfold Circuit.produced
      rw [hreact, List.map_append]
    · rw [hsame d o hd, List.nil_append, harrived, hyd d hd]
      exact h.produced d o
  · rw [hcalls, relayed_eq_nil, List.nil_append, harrived]
    · exact h.outside tgt htgt
    · intro call hcall he
      obtain ⟨o, ho⟩ := mem_unspools hcall
      exact htgt c o (ho.symm.trans he)

theorem exists_flows (hrank : C.Ranked rank) (hone : C.OneSource)
    (h : Transition.Run (Transition.restrict Step IsOpen) C.start es s) :
    ∃ xs, Flows rank es s xs := by
  have hrelay : ∀ es : List (Event C), ∀ tgt, inputsAt (es ++ [.relay]) tgt = inputsAt es tgt := by
    intro es tgt
    simp [inputsAt]
  refine h.invariant_labels (I := fun es s => ∃ xs, Flows rank es s xs) ⟨_, .start rank⟩ ?_
  rintro es s e t ⟨xs, hf⟩ ⟨hopen, hs⟩
  cases hs with
  | receive p v hcalls => exact ⟨xs, hf.receive hcalls v hopen⟩
  | accept hcalls ht =>
    obtain ⟨ys, hys⟩ := hf.accept hrank hone hcalls ht
    exact ⟨ys, { hys with outside := fun tgt htgt => by rw [hrelay, hys.outside tgt htgt] }⟩
  | callback hcalls =>
    have hys := hf.callback hcalls
    exact ⟨xs, { hys with outside := fun tgt htgt => by rw [hrelay, hys.outside tgt htgt] }⟩

end Flow

section Determinacy

variable {rank : ι → ℕ} {es es' : List (Event C)} {s s' : State C}

omit [DecidableEq ι] [DecidableEq κ] in
theorem completeSets_congr {n : ℕ} {xs ys : List (Fin (n + 1) × V)}
    (h : ∀ i, valuesAt xs i = valuesAt ys i) : completeSets xs = completeSets ys := by
  have hset : setAt xs = setAt ys := by
    funext k i
    rw [setAt, setAt, h i]
  have hcomplete : complete xs = complete ys := by
    refine eq_of_forall_lt_iff fun k => ?_
    rw [← isReady_iff, ← isReady_iff, hset]
  rw [completeSets, completeSets, hset, hcomplete]

/-- The values that arrived from outside determine what the components have done, and what the
callbacks got, when no call is under way. -/
theorem Flows.determined (hrank : C.Ranked rank) {xs ys : (c : ι) → List (Fin (C.inputs c + 1) × V)}
    (hf : Flows rank es s xs) (hf' : Flows rank es' s' ys) (hs : s.calls = []) (hs' : s'.calls = [])
    (hin : ∀ tgt, inputsAt es tgt = inputsAt es' tgt) :
    (∀ c, (s.components c).actions = (s'.components c).actions) ∧ s.called = s'.called := by
  have hnil : ∀ tgt : Target C.Port κ, relayed ([] : List (Target C.Port κ × V)) tgt = [] :=
    fun _ => rfl
  have htarget : ∀ tgt, (∀ c o, C.dest c o = tgt → completeSets (xs c) = completeSets (ys c)) →
      arrived xs s tgt = arrived ys s' tgt := by
    intro tgt hsource
    by_cases hfed : ∃ c o, C.dest c o = tgt
    · obtain ⟨c, o, rfl⟩ := hfed
      have hp := hf.produced c o
      have hp' := hf'.produced c o
      rw [hs, hnil, List.append_nil] at hp
      rw [hs', hnil, List.append_nil] at hp'
      rw [hp, hp', Circuit.produced, Circuit.produced, hsource c o rfl]
    · push Not at hfed
      have ho := hf.outside tgt hfed
      have ho' := hf'.outside tgt hfed
      rw [hs, hnil, List.append_nil] at ho
      rw [hs', hnil, List.append_nil] at ho'
      rw [ho, ho', hin]
  have hsets : ∀ c, completeSets (xs c) = completeSets (ys c) := by
    intro c
    induction hn : rank c using Nat.strong_induction_on generalizing c with
    | _ n ih =>
      refine completeSets_congr fun i => htarget (.component ⟨c, i⟩) fun d o hd => ?_
      exact ih _ (hn ▸ hrank d o ⟨c, i⟩ hd) d rfl
  refine ⟨fun c => ?_, funext fun cb => htarget (.callback cb) fun c o _ => hsets c⟩
  rw [hf.actions c, hf'.actions c, hsets c]

end Determinacy

section Return

variable {rank : ι → ℕ} {s t : State C} {rest : List (Target C.Port κ × V)}

def ReturnsTo (s : State C) (rest : List (Target C.Port κ × V)) (t : State C) : Prop :=
  ∃ k, Transition.Run Step s (List.replicate k .relay) t ∧ t.calls = rest

theorem ReturnsTo.trans {u : State C} {calls : List (Target C.Port κ × V)}
    (h : ReturnsTo s calls t) (h' : ReturnsTo t rest u) : ReturnsTo s rest u := by
  obtain ⟨k, hk, -⟩ := h
  obtain ⟨l, hl, hu⟩ := h'
  refine ⟨k + l, ?_, hu⟩
  rw [← List.replicate_append_replicate]
  exact hk.append hl

theorem ReturnsTo.single (h : Step s .relay t) : ReturnsTo s t.calls t :=
  ⟨1, .single h, rfl⟩

theorem exists_returns_append {calls : List (Target C.Port κ × V)}
    (h : ∀ call ∈ calls, ∀ (s : State C) rest, s.calls = call :: rest → ∃ t, ReturnsTo s rest t)
    (hs : s.calls = calls ++ rest) : ∃ t, ReturnsTo s rest t := by
  induction calls generalizing s with
  | nil => exact ⟨s, 0, .nil, hs⟩
  | cons call calls ih =>
    obtain ⟨t, ht⟩ := h call List.mem_cons_self s (calls ++ rest) hs
    obtain ⟨u, hu⟩ := ih (fun call hcall => h call (List.mem_cons_of_mem _ hcall)) ht.choose_spec.2
    exact ⟨u, ht.trans hu⟩

theorem exists_accept {n : ℕ} (a : Acceptor n V) (i : Fin n) (v : V) :
    ∃ t, a.accept i (some v) = some t := ⟨_, rfl⟩

/-- A component is called before those that it feeds, so that its calls return. -/
theorem exists_returns_component {depth : ℕ} (hrank : C.Ranked rank) (hdepth : ∀ c, rank c ≤ depth)
    {p : C.Port} {v : V} (hs : s.calls = (.component p, v) :: rest) : ∃ t, ReturnsTo s rest t := by
  induction hn : depth - rank p.1 using Nat.strong_induction_on generalizing p v s rest with
  | _ n ih =>
    have hfed : ∀ results : List (Fin (C.outputs p.1) → V),
        ∀ call ∈ results.flatMap (C.unspool p.1), ∀ (s' : State C) rest',
          s'.calls = call :: rest' → ∃ t, ReturnsTo s' rest' t := by
      intro results call hcall s' rest' hs'
      obtain ⟨o, ho⟩ := mem_unspools hcall
      obtain ⟨tgt, w⟩ := call
      cases tgt with
      | callback cb => exact ⟨_, ReturnsTo.single (.callback hs')⟩
      | component q =>
        have hlt := hrank p.1 o q ho.symm
        have hq := hdepth q.1
        exact ih _ (by omega) hs' rfl
    obtain ⟨t, ht⟩ := exists_accept (s.components p.1) p.2 v
    obtain ⟨u, hu⟩ := exists_returns_append (s := s.proceed p.1 t rest) (hfed _) rfl
    exact ⟨u, (ReturnsTo.single (.accept hs ht)).trans hu⟩

/-- The calls under way return, and the values that arrived from outside on each port determine
what the components have done then and what the callbacks got, in whatever order the ports were
served. -/
theorem determinate [Finite ι] (hrank : C.Ranked rank) (hone : C.OneSource)
    {es es' : List (Event C)} {s s' : State C}
    (h : Transition.Run (Transition.restrict Step IsOpen) C.start es s)
    (h' : Transition.Run (Transition.restrict Step IsOpen) C.start es' s')
    (hin : ∀ tgt, inputsAt es tgt = inputsAt es' tgt) :
    (∃ t, ReturnsTo s [] t) ∧ ∀ t t', ReturnsTo s [] t → ReturnsTo s' [] t' →
      (∀ c, (t.components c).actions = (t'.components c).actions) ∧ t.called = t'.called := by
  have hopen : ∀ {s t : State C} {k : ℕ}, Transition.Run Step s (List.replicate k .relay) t →
      Transition.Run (Transition.restrict Step IsOpen) s (List.replicate k .relay) t := by
    intro s t k hrun
    induction k generalizing t with
    | zero =>
      obtain rfl := Transition.run_nil_iff.mp hrun
      exact .nil
    | succ k ih =>
      rw [List.replicate_succ'] at hrun ⊢
      obtain ⟨u, hu, hs⟩ := Transition.run_snoc_iff.mp hrun
      exact (ih hu).snoc ⟨trivial, hs⟩
  have hinputs : ∀ (es : List (Event C)) k tgt,
      inputsAt (es ++ List.replicate k .relay) tgt = inputsAt es tgt := by
    intro es k tgt
    simp [inputsAt]
  constructor
  · obtain ⟨depth, hdepth⟩ := (Set.finite_range rank).bddAbove
    have hle : ∀ c, rank c ≤ depth := fun c => hdepth ⟨c, rfl⟩
    refine exists_returns_append (fun call _ s rest hs => ?_) (List.append_nil s.calls).symm
    obtain ⟨tgt, v⟩ := call
    cases tgt with
    | callback cb => exact ⟨_, ReturnsTo.single (.callback hs)⟩
    | component p => exact exists_returns_component hrank hle hs
  · rintro t t' ⟨k, hk, ht⟩ ⟨k', hk', ht'⟩
    obtain ⟨xs, hf⟩ := exists_flows hrank hone (h.append (hopen hk))
    obtain ⟨ys, hf'⟩ := exists_flows hrank hone (h'.append (hopen hk'))
    refine hf.determined hrank hf' ht ht' fun tgt => ?_
    rw [hinputs, hinputs, hin]

def State.perform (s : State C) : Event C → Option (State C)
  | .receive p v =>
      if s.calls.isEmpty then some { s with calls := [(.component p, v)] } else none
  | .relay =>
      match s.calls with
      | [] => none
      | (.component p, v) :: rest =>
          ((s.components p.1).accept p.2 (some v)).map fun t => s.proceed p.1 t rest
      | (.callback cb, v) :: rest => some { s with
          calls := rest
          called := Function.update s.called cb (s.called cb ++ [v]) }

theorem Step.of_perform {e : Event C} (h : s.perform e = some t) : Step s e t := by
  cases e with
  | receive p v =>
    obtain ⟨hs, h⟩ := Option.ite_none_right_eq_some.mp h
    obtain rfl := Option.some.inj h
    exact .receive p v (List.isEmpty_iff.mp hs)
  | relay =>
    rcases hs : s.calls with _ | ⟨⟨p | cb, v⟩, rest⟩
    · simp [State.perform, hs] at h
    · simp only [State.perform, hs] at h
      obtain ⟨a, ha, rfl⟩ := Option.map_eq_some_iff.mp h
      exact .accept hs ha
    · simp only [State.perform, hs] at h
      obtain rfl := Option.some.inj h
      exact .callback hs

/-- The first component doubles its values for the second one, which keeps a sum. -/
def ledger : Circuit (Fin 2) Unit ℕ ℕ where
  inputs c := c
  outputs _ := 1
  dest c _ := if c = 0 then .component ⟨1, 0⟩ else .callback ()
  action c m set :=
    let total := ((List.finRange _).map fun i => (set i).getD 0).sum
    if c = 0 then (m, fun _ => 2 * total) else (m + total, fun _ => m + total)
  memory _ := 0

def early : List (Event ledger) :=
  [.receive ⟨0, 0⟩ 3, .relay, .relay, .receive ⟨0, 0⟩ 5, .relay, .relay, .receive ⟨1, 1⟩ 4, .relay,
    .relay, .receive ⟨1, 1⟩ 1, .relay]

def late : List (Event ledger) :=
  [.receive ⟨1, 1⟩ 4, .relay, .receive ⟨1, 1⟩ 1, .relay, .receive ⟨0, 0⟩ 3, .relay, .relay, .relay,
    .receive ⟨0, 0⟩ 5]

instance [Fintype ι] (s : State C) : DecidablePred (IsOpen s)
  | .receive p _ => inferInstanceAs (Decidable (∀ c o, C.dest c o ≠ .component p))
  | .relay => .isTrue trivial

theorem exists_run [Fintype ι] (es : List (Event C))
    (h : (Transition.exec (fun s e => if IsOpen s e then s.perform e else none) C.start
      es).isSome = true) :
    ∃ s, Transition.Run (Transition.restrict Step IsOpen) C.start es s := by
  obtain ⟨s, hs⟩ := Option.isSome_iff_exists.mp h
  exact ⟨s, (Transition.run_of_exec_restrict hs).mono fun _ _ _ ht => ⟨ht.1, .of_perform ht.2⟩⟩

theorem determinate_ledger : ∃ s s' : State ledger, (∃ t, ReturnsTo s [] t) ∧
    ∀ t t', ReturnsTo s [] t → ReturnsTo s' [] t' →
      (∀ c, (t.components c).actions = (t'.components c).actions) ∧ t.called = t'.called := by
  obtain ⟨s, hs⟩ := exists_run early (by decide +kernel)
  obtain ⟨s', hs'⟩ := exists_run late (by decide +kernel)
  have hrank : ledger.Ranked fun c => c := by
    unfold Ranked
    decide
  have hone : ledger.OneSource := by
    unfold OneSource Function.Injective
    decide
  have hin : ∀ tgt, inputsAt early tgt = inputsAt late tgt := by
    rintro (⟨c, i⟩ | cb)
    · revert c i
      decide
    · rfl
  exact ⟨s, s', determinate hrank hone hs hs' hin⟩

end Return

end Circuit

end Hypercomm.Components
