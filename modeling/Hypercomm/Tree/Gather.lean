import Mathlib.Data.Finset.Max
import Mathlib.Algebra.Order.Group.Multiset
import Mathlib.Logic.Function.Basic
import Hypercomm.Tree.Rooted

/-! # Gathering values up a graph

Every node is given one value. It waits for a message from each of its children, and
then sends what it has gathered to its parent, or yields it when it has none. Nodes may
be given their values, and messages may be taken, in any order.
-/

namespace Gather

/-- A node has not been given its value, waits for messages from some children, or
is done. -/
inductive Phase (ι V : Type*) where
  | idle
  | waiting (wait : Multiset ι) (acc : Multiset V)
  | done

/-- The messages in flight carry their sender. -/
structure State (ι V : Type*) where
  phase : ι → Phase ι V := fun _ => .idle
  given : ι → Option V := fun _ => none
  flight : Multiset (ι × Multiset V) := 0
  results : Multiset (Multiset V) := 0

variable {ι V : Type*} [DecidableEq ι]

/-- Who waits for whom, and who sends to whom. -/
structure Graph (ι : Type*) where
  children : ι → List ι
  parent : ι → Option ι

namespace State

def issue (G : Graph ι) (x : ι) (own : V) (s : State ι V) : State ι V :=
  { s with
    phase := Function.update s.phase x (.waiting (G.children x) {own})
    given := Function.update s.given x (some own) }

def take (x : ι) (wait : Multiset ι) (acc : Multiset V) (rest : Multiset (ι × Multiset V))
    (s : State ι V) : State ι V :=
  { s with
    phase := Function.update s.phase x (.waiting wait acc)
    flight := rest }

def complete (G : Graph ι) (x : ι) (acc : Multiset V) (s : State ι V) : State ι V :=
  match G.parent x with
  | some _ => { s with
      phase := Function.update s.phase x .done
      flight := (x, acc) ::ₘ s.flight }
  | none => { s with
      phase := Function.update s.phase x .done
      results := acc ::ₘ s.results }

inductive Step (G : Graph ι) (s : State ι V) : State ι V → Prop
  | issue (x : ι) (own : V) (hx : s.phase x = .idle) : Step G s (s.issue G x own)
  | take (x c : ι) (v acc : Multiset V) (wait : Multiset ι) (rest : Multiset (ι × Multiset V))
      (hx : s.phase x = .waiting (c ::ₘ wait) acc) (hc : G.parent c = some x)
      (hv : s.flight = (c, v) ::ₘ rest) :
      Step G s (s.take x wait (acc + v) rest)
  | complete (x : ι) (acc : Multiset V) (hx : s.phase x = .waiting 0 acc) :
      Step G s (s.complete G x acc)

def flightFrom (s : State ι V) (c : ι) : Multiset (Multiset V) :=
  (s.flight.filter (·.1 = c)).map Prod.snd

/-- The message of a child has been sent to the node and taken. -/
def Consumed (G : Graph ι) (s : State ι V) (x c : ι) : Prop :=
  G.parent c = some x ∧ s.phase c = .done ∧ s.flightFrom c = 0

end State

/-- What a node gathers: its own value and what its children gather. -/
inductive Gathered (G : Graph ι) (given : ι → Option V) : ι → Multiset V → Prop
  | mk (x : ι) (own : V) (f : ι → Multiset V) (hx : given x = some own)
      (hf : ∀ c ∈ G.children x, Gathered G given c (f c)) :
      Gathered G given x (own ::ₘ (G.children x : Multiset ι).bind f)

/-- What the phase of a node says about its children. -/
def PhaseInv (G : Graph ι) (s : State ι V) (x : ι) : Phase ι V → Prop
  | .idle => s.given x = none ∧ ∀ c ∈ G.children x, ¬ s.Consumed G x c
  | .waiting wait acc => wait ≤ G.children x ∧
      (∀ c ∈ G.children x, c ∉ wait ↔ s.Consumed G x c) ∧
      ∃ own f, s.given x = some own ∧
        (∀ c ∈ G.children x, c ∉ wait → Gathered G s.given c (f c)) ∧
        acc = own ::ₘ ((G.children x : Multiset ι) - wait).bind f
  | .done => (∃ own, s.given x = some own) ∧ ∀ c ∈ G.children x, s.Consumed G x c

structure Inv (G : Graph ι) (s : State ι V) : Prop where
  phase : ∀ x, PhaseInv G s x (s.phase x)
  sent : ∀ c v, (c, v) ∈ s.flight → s.phase c = .done ∧ (∃ x, G.parent c = some x) ∧
    Gathered G s.given c v
  once : ∀ c, (s.flightFrom c).card ≤ 1
  yields : ∀ v ∈ s.results, ∃ x, Gathered G s.given x v
  /-- a node without parent, if it is the only one that was given a value -/
  root : ∀ r, G.parent r = none → (∀ x, x ≠ r → G.parent x = none → s.phase x = .idle) →
    (s.phase r ≠ .done ∧ s.results = 0) ∨
      (s.phase r = .done ∧ ∃ v, s.results = {v} ∧ Gathered G s.given r v)

variable {G : Graph ι} {s t : State ι V} {x c r : ι} {v acc : Multiset V} {wait : Multiset ι}

omit [DecidableEq ι] in
theorem Gathered.mono {given given' : ι → Option V}
    (hm : ∀ y own, given y = some own → given' y = some own) (h : Gathered G given x v) :
    Gathered G given' x v := by
  induction h with
  | mk x own f hx _ ih => exact .mk x own f (hm x own hx) ih

/-- The phase of a node says the same in a state that agrees on what it has consumed. -/
theorem PhaseInv.mono {p : Phase ι V} (h : PhaseInv G s x p)
    (hg : ∀ y own, s.given y = some own → t.given y = some own) (hx : t.given x = s.given x)
    (hc : ∀ c ∈ G.children x, t.Consumed G x c ↔ s.Consumed G x c) : PhaseInv G t x p := by
  cases p with
  | idle => exact ⟨hx.trans h.1, fun c hmem => by rw [hc c hmem]; exact h.2 c hmem⟩
  | waiting wait acc =>
    obtain ⟨hle, hw, own, f, hown, hf, hacc⟩ := h
    refine ⟨hle, fun c hmem => by rw [hc c hmem]; exact hw c hmem, own, f, hg x own hown, ?_, hacc⟩
    exact fun c hmem hnot => (hf c hmem hnot).mono hg
  | done =>
    obtain ⟨⟨own, hown⟩, hall⟩ := h
    exact ⟨⟨own, hg x own hown⟩, fun c hmem => by rw [hc c hmem]; exact hall c hmem⟩

theorem take_flightFrom (x : ι) (wait : Multiset ι) (acc : Multiset V)
    {rest : Multiset (ι × Multiset V)} (d : ι) (hv : s.flight = (c, v) ::ₘ rest) :
    s.flightFrom d = (if c = d then {v} else 0) + (s.take x wait acc rest).flightFrom d := by
  by_cases hd : c = d <;> simp [State.flightFrom, State.take, hv, hd]

@[simp] theorem complete_given (acc : Multiset V) : (s.complete G x acc).given = s.given := by
  unfold State.complete; split <;> rfl

@[simp] theorem complete_phase (acc : Multiset V) :
    (s.complete G x acc).phase = Function.update s.phase x .done := by
  unfold State.complete; split <;> rfl

theorem complete_flightFrom (acc : Multiset V) : (s.complete G x acc).flightFrom c =
    (if c = x ∧ G.parent x ≠ none then {acc} else 0) + s.flightFrom c := by
  unfold State.complete
  cases hpar : G.parent x with
  | none => simp [State.flightFrom]
  | some p => by_cases hd : x = c <;> simp [State.flightFrom, hd, eq_comm (a := c)]

theorem complete_results (acc : Multiset V) : (s.complete G x acc).results =
    (if G.parent x = none then {acc} else 0) + s.results := by
  unfold State.complete
  cases hpar : G.parent x <;> simp

theorem inv_initial : Inv G ({} : State ι V) where
  phase x := ⟨rfl, fun c _ h => by simp [State.Consumed] at h⟩
  sent c v h := by simp at h
  once c := by simp [State.flightFrom]
  yields v h := by simp at h
  root r _ _ := .inl ⟨by simp, rfl⟩

theorem Inv.issue (own : V) (h : Inv G s) (hx : s.phase x = .idle) : Inv G (s.issue G x own) := by
  have hgx : s.given x = none := by
    have := h.phase x
    rw [hx] at this
    exact this.1
  have hg : ∀ y o, s.given y = some o → (s.issue G x own).given y = some o := by
    intro y o hy
    have : y ≠ x := by rintro rfl; simp [hgx] at hy
    simpa [State.issue, this] using hy
  have hc : ∀ y c, (s.issue G x own).Consumed G y c ↔ s.Consumed G y c := by
    intro y c
    rcases eq_or_ne c x with rfl | hne
    · simp [State.Consumed, State.issue, hx]
    · simp [State.Consumed, State.issue, hne, State.flightFrom]
  constructor
  · intro y
    rcases eq_or_ne y x with rfl | hne
    · have hidle := h.phase y
      rw [hx] at hidle
      have hp : (s.issue G y own).phase y = .waiting (G.children y) {own} := by simp [State.issue]
      rw [hp]
      refine ⟨le_rfl, fun c hmem => ?_, own, fun _ => 0, by simp [State.issue], ?_, by simp⟩
      · exact iff_of_false (not_not.mpr hmem) fun h' => hidle.2 c hmem ((hc y c).mp h')
      · exact fun c hmem hnot => absurd hmem hnot
    · have hp : (s.issue G x own).phase y = s.phase y := by simp [State.issue, hne]
      rw [hp]
      exact (h.phase y).mono hg (by simp [State.issue, hne]) fun c _ => hc y c
  · intro c v hv
    obtain ⟨hdone, hpar, hgath⟩ := h.sent c v hv
    have hne : c ≠ x := by rintro rfl; simp [hx] at hdone
    exact ⟨by simpa [State.issue, hne] using hdone, hpar, hgath.mono hg⟩
  · exact h.once
  · intro w hw
    obtain ⟨y, hy⟩ := h.yields w hw
    exact ⟨y, hy.mono hg⟩
  · intro r hr hother
    have hroot := h.root r hr fun y hy hpar => by
      rcases eq_or_ne y x with rfl | hne
      · exact hx
      · simpa [State.issue, hne] using hother y hy hpar
    rcases eq_or_ne r x with rfl | hne
    · refine .inl ⟨by simp [State.issue], ?_⟩
      rcases hroot with ⟨-, hres⟩ | ⟨hdone, -⟩
      · exact hres
      · simp [hx] at hdone
    · rcases hroot with ⟨hnd, hres⟩ | ⟨hdone, w, hres, hgath⟩
      · exact .inl ⟨by simpa [State.issue, hne] using hnd, hres⟩
      · exact .inr ⟨by simpa [State.issue, hne] using hdone, w, hres, hgath.mono hg⟩

theorem Inv.take (hnd : (G.children x).Nodup) {rest : Multiset (ι × Multiset V)} (h : Inv G s)
    (hx : s.phase x = .waiting (c ::ₘ wait) acc) (hc : G.parent c = some x)
    (hv : s.flight = (c, v) ::ₘ rest) : Inv G (s.take x wait (acc + v) rest) := by
  obtain ⟨hdone, -, hgath⟩ := h.sent c v (by simp [hv])
  have hne : c ≠ x := by rintro rfl; simp [hx] at hdone
  have hphase : ∀ y, y ≠ x → (s.take x wait (acc + v) rest).phase y = s.phase y := fun y hy => by
    simp [State.take, hy]
  have hfrom := fun d => take_flightFrom x wait (acc + v) d hv
  have hempty : (s.take x wait (acc + v) rest).flightFrom c = 0 := by
    have := h.once c
    rw [hfrom, if_pos rfl] at this
    simpa using this
  have hconsumed : ∀ y d, d ≠ c ∨ y ≠ x →
      ((s.take x wait (acc + v) rest).Consumed G y d ↔ s.Consumed G y d) := by
    intro y d hor
    rcases eq_or_ne d c with rfl | hd
    · have hy : G.parent d ≠ some y := by
        rw [hc]
        exact fun h' => (hor.resolve_left (not_not.mpr rfl)) (Option.some.inj h').symm
      exact iff_of_false (fun h' => hy h'.1) fun h' => hy h'.1
    · rw [State.Consumed, State.Consumed, hfrom d, if_neg hd.symm, zero_add]
      rcases eq_or_ne d x with rfl | hdx
      · simp [State.take, hx]
      · rw [hphase d hdx]
  constructor
  · intro y
    rcases eq_or_ne y x with rfl | hy
    · have hwait := h.phase y
      rw [hx] at hwait
      obtain ⟨hle, hw, own, f, hown, hf, hacc⟩ := hwait
      obtain ⟨R, hR⟩ := Multiset.le_iff_exists_add.mp hle
      have hnd' : ((c ::ₘ wait) + R).Nodup := hR ▸ (Multiset.coe_nodup.mpr hnd)
      have hcR : c ∉ wait + R := by
        rw [Multiset.cons_add] at hnd'
        exact (Multiset.nodup_cons.mp hnd').1
      have hp : (s.take y wait (acc + v) rest).phase y = .waiting wait (acc + v) := by
        simp [State.take]
      rw [hp]
      refine ⟨(Multiset.le_cons_self _ _).trans hle, fun d hd => ?_, own,
        Function.update f c v, hown, fun d hd hdw => ?_, ?_⟩
      · rcases eq_or_ne d c with rfl | hdc
        · refine iff_of_true (fun h' => hcR (Multiset.mem_add.mpr (.inl h'))) ⟨hc, ?_, hempty⟩
          rw [hphase d hne, hdone]
        · rw [hconsumed y d (.inl hdc), ← hw d hd]
          simp [hdc]
      · rcases eq_or_ne d c with rfl | hdc
        · rw [Function.update_self]; exact hgath
        · rw [Function.update_of_ne hdc]; exact hf d hd (by simp [hdc, hdw])
      · have h1 : (G.children y : Multiset ι) - (c ::ₘ wait) = R := by
          rw [hR, add_tsub_cancel_left]
        have h2 : (G.children y : Multiset ι) - wait = c ::ₘ R := by
          rw [hR, Multiset.cons_add, ← Multiset.add_cons, add_tsub_cancel_left]
        have h3 : R.bind (Function.update f c v) = R.bind f := Multiset.bind_congr fun d hd => by
          have : d ≠ c := by rintro rfl; exact hcR (Multiset.mem_add.mpr (.inr hd))
          simp [this]
        rw [hacc, h1, h2, Multiset.cons_bind, h3, Function.update_self, Multiset.cons_add,
          add_comm v]
    · rw [hphase y hy]
      exact (h.phase y).mono (fun _ _ h' => h') rfl fun d _ => hconsumed y d (.inr hy)
  · intro d w hw
    obtain ⟨hd, hpar, hg⟩ := h.sent d w (by rw [hv]; exact Multiset.mem_cons_of_mem hw)
    have hdx : d ≠ x := by rintro rfl; simp [hx] at hd
    exact ⟨by rw [hphase d hdx, hd], hpar, hg⟩
  · intro d
    have := h.once d
    rw [hfrom, Multiset.card_add] at this
    omega
  · exact h.yields
  · intro r hr hother
    have hxr : x = r ∨ G.parent x ≠ none := by
      by_contra hcon
      push Not at hcon
      have := hother x hcon.1 hcon.2
      simp [State.take] at this
    have hroot := h.root r hr fun y hy hpar => by
      have hyx : y ≠ x := by
        rintro rfl
        rcases hxr with h' | h'
        · exact hy h'
        · exact h' hpar
      rw [← hphase y hyx]
      exact hother y hy hpar
    rcases eq_or_ne r x with rfl | hrx
    · refine .inl ⟨by simp [State.take], ?_⟩
      rcases hroot with ⟨-, hres⟩ | ⟨hd, -⟩
      · exact hres
      · simp [hx] at hd
    · rw [hphase r hrx]
      exact hroot

theorem Inv.gathered (h : Inv G s) (hx : s.phase x = .waiting 0 acc) :
    Gathered G s.given x acc ∧ ∀ c ∈ G.children x, s.Consumed G x c := by
  have hwait := h.phase x
  rw [hx] at hwait
  obtain ⟨-, hw, own, f, hown, hf, hacc⟩ := hwait
  rw [hacc, tsub_zero]
  exact ⟨.mk x own f hown fun c hc => hf c hc (Multiset.notMem_zero c),
    fun c hc => (hw c hc).mp (Multiset.notMem_zero c)⟩

theorem Inv.complete (h : Inv G s) (hx : s.phase x = .waiting 0 acc) :
    Inv G (s.complete G x acc) := by
  obtain ⟨hgath, hall⟩ := h.gathered hx
  have hown : ∃ own, s.given x = some own := by
    have hwait := h.phase x
    rw [hx] at hwait
    obtain ⟨-, -, own, -, hown, -⟩ := hwait
    exact ⟨own, hown⟩
  have hgiven := complete_given (G := G) (s := s) (x := x) acc
  have hphase := complete_phase (G := G) (s := s) (x := x) acc
  have hne : ∀ d, s.phase d = .done → d ≠ x := by rintro d hd rfl; simp [hx] at hd
  have hnone : s.flightFrom x = 0 := by
    refine Multiset.eq_zero_of_forall_notMem fun w hw => ?_
    simp only [State.flightFrom, Multiset.mem_map, Multiset.mem_filter] at hw
    obtain ⟨⟨d, w'⟩, ⟨hmem, rfl⟩, -⟩ := hw
    exact hne _ (h.sent _ _ hmem).1 rfl
  have hfrom := fun d => complete_flightFrom (G := G) (s := s) (x := x) (c := d) acc
  have hconsumed : ∀ y d, (s.complete G x acc).Consumed G y d ↔ s.Consumed G y d := by
    intro y d
    rw [State.Consumed, State.Consumed, hfrom, hphase]
    rcases eq_or_ne d x with rfl | hd
    · by_cases hpar : G.parent d = some y <;> simp [hpar, hx]
    · simp [hd]
  constructor
  · intro y
    rw [hphase]
    rcases eq_or_ne y x with rfl | hy
    · rw [Function.update_self]
      exact ⟨by rwa [hgiven], fun c hc => (hconsumed y c).mpr (hall c hc)⟩
    · rw [Function.update_of_ne hy]
      exact (h.phase y).mono (fun z o => by rw [hgiven]; exact id) (by rw [hgiven])
        fun c _ => hconsumed y c
  · intro d w hw
    rw [hphase, hgiven]
    have hold : (d, w) ∈ s.flight → Function.update s.phase x .done d = .done ∧
        (∃ p, G.parent d = some p) ∧ Gathered G s.given d w := fun hmem => by
      obtain ⟨hd, hrest⟩ := h.sent d w hmem
      exact ⟨by rw [Function.update_of_ne (hne d hd), hd], hrest⟩
    cases hpar : G.parent x with
    | none =>
      rw [State.complete, hpar] at hw
      exact hold hw
    | some p =>
      rw [State.complete, hpar] at hw
      rcases Multiset.mem_cons.mp hw with hw | hw
      · obtain ⟨rfl, rfl⟩ := Prod.mk.inj hw
        exact ⟨Function.update_self .., ⟨p, hpar⟩, hgath⟩
      · exact hold hw
  · intro d
    rw [hfrom]
    rcases eq_or_ne d x with rfl | hd
    · rw [hnone]; split <;> simp
    · simpa [hd] using h.once d
  · intro w hw
    rw [complete_results] at hw
    rw [hgiven]
    rcases Multiset.mem_add.mp hw with hw | hw
    · split at hw
      · rw [Multiset.mem_singleton.mp hw]
        exact ⟨x, hgath⟩
      · simp at hw
    · exact h.yields w hw
  · intro r hr hother
    rw [hphase] at hother ⊢
    rw [hgiven]
    rcases eq_or_ne r x with rfl | hrx
    · have hroot := h.root r hr fun y hy hpar => by
        rw [← hother y hy hpar, Function.update_of_ne hy]
      rcases hroot with ⟨-, hres⟩ | ⟨hd, -⟩
      · exact .inr ⟨Function.update_self .., acc, by simp [State.complete, hr, hres], hgath⟩
      · exact absurd rfl (hne r hd)
    · have hpar : G.parent x ≠ none := fun h' => by
        have := hother x hrx.symm h'
        simp at this
      obtain ⟨p, hp⟩ := Option.ne_none_iff_exists'.mp hpar
      have hres : (s.complete G x acc).results = s.results := by simp [State.complete, hp]
      rw [hres, Function.update_of_ne hrx]
      refine h.root r hr fun y hy hy' => ?_
      have hyx : y ≠ x := by rintro rfl; exact hpar hy'
      rw [← hother y hy hy', Function.update_of_ne hyx]

theorem Inv.step (hnd : ∀ x, (G.children x).Nodup) (h : Inv G s) (hs : State.Step G s t) :
    Inv G t := by
  cases hs with
  | issue x own hx => exact h.issue own hx
  | take x c v acc wait rest hx hc hv => exact h.take (hnd x) hx hc hv
  | complete x acc hx => exact h.complete hx

theorem Inv.idle_of_given (h : Inv G s) (hx : s.given x = none) : s.phase x = .idle := by
  have hp := h.phase x
  cases hphase : s.phase x with
  | idle => rfl
  | waiting wait acc =>
    rw [hphase] at hp
    obtain ⟨-, -, own, -, hown, -⟩ := hp
    simp [hx] at hown
  | done =>
    rw [hphase] at hp
    obtain ⟨⟨own, hown⟩, -⟩ := hp
    simp [hx] at hown

theorem exists_cons_of_flightFrom (h : v ∈ s.flightFrom c) :
    ∃ rest, s.flight = (c, v) ::ₘ rest := by
  simp only [State.flightFrom, Multiset.mem_map, Multiset.mem_filter] at h
  obtain ⟨⟨d, w⟩, ⟨hmem, rfl⟩, rfl⟩ := h
  exact Multiset.exists_cons_of_mem hmem

theorem Inv.takes (hnd : ∀ x, (G.children x).Nodup) (ups : List ι)
    (msgs : ι → Option (Multiset V)) (h : Inv G s) (hups : ups.Nodup)
    (hx : s.phase x = .waiting wait acc)
    (hmsgs : ∀ c ∈ ups, ∀ w, msgs c = some w →
      c ∈ wait ∧ G.parent c = some x ∧ s.flightFrom c = {w}) :
    ∃ t wait', Inv G t ∧ t.given = s.given ∧ t.results = s.results ∧
      t.phase = Function.update s.phase x (.waiting wait' (acc + (ups.filterMap msgs).sum)) ∧
      Multiset.card wait' + (ups.filterMap msgs).length = Multiset.card wait ∧
      ∀ c, t.flightFrom c = if c ∈ ups ∧ msgs c ≠ none then 0 else s.flightFrom c := by
  induction ups generalizing s wait acc with
  | nil => exact ⟨s, wait, h, rfl, rfl, by simp [← hx], by simp, by simp⟩
  | cons c ups ih =>
    obtain ⟨hc, hups⟩ := List.nodup_cons.mp hups
    cases hmc : msgs c with
    | none =>
      obtain ⟨t, wait', ht, hg, hr, hp, hcard, hf⟩ := ih h hups hx fun d hd =>
        hmsgs d (List.mem_cons_of_mem _ hd)
      refine ⟨t, wait', ht, hg, hr, by simpa [hmc] using hp, by simpa [hmc] using hcard, ?_⟩
      intro d
      rw [hf]
      rcases eq_or_ne d c with rfl | hdc <;> simp [*]
    | some w =>
      obtain ⟨hcw, hpar, hfc⟩ := hmsgs c (by simp) w hmc
      obtain ⟨wait₁, rfl⟩ := Multiset.exists_cons_of_mem hcw
      obtain ⟨rest, hrest⟩ := exists_cons_of_flightFrom (s := s) (c := c) (v := w) (by simp [hfc])
      have hfrom := fun d => take_flightFrom x wait₁ (acc + w) d hrest
      have hempty : (s.take x wait₁ (acc + w) rest).flightFrom c = 0 := by
        have hcf := hfrom c
        rw [hfc, if_pos rfl] at hcf
        exact (add_eq_left.mp hcf.symm)
      have hother : ∀ d, d ≠ c → (s.take x wait₁ (acc + w) rest).flightFrom d = s.flightFrom d :=
        fun d hd => by rw [hfrom d, if_neg hd.symm, zero_add]
      have htake : (s.take x wait₁ (acc + w) rest).phase x = .waiting wait₁ (acc + w) := by
        simp [State.take]
      obtain ⟨t, wait', ht, hg, hr, hp, hcard, hf⟩ := ih (h.take (hnd x) hx hpar hrest) hups
        htake fun d hd w' hw' => by
          have hdc : d ≠ c := by rintro rfl; exact hc hd
          obtain ⟨hdw, hdp, hdf⟩ := hmsgs d (List.mem_cons_of_mem _ hd) w' hw'
          exact ⟨by simpa [hdc] using hdw, hdp, by rw [hother d hdc, hdf]⟩
      refine ⟨t, wait', ht, hg, hr, ?_, ?_, ?_⟩
      · rw [hp]; simp [State.take, hmc, add_assoc]
      · simp [hmc] at hcard ⊢; omega
      · intro d
        rw [hf]
        rcases eq_or_ne d c with rfl | hdc
        · simp [hc, hmc, hempty]
        · simp [hdc, hother d hdc]

omit [DecidableEq ι] in
theorem Gathered.mem_given {a : V} {given : ι → Option V} (h : Gathered G given x v) (ha : a ∈ v) :
    ∃ y, given y = some a := by
  induction h with
  | mk x own f hx _ ih =>
    rcases Multiset.mem_cons.mp ha with rfl | ha
    · exact ⟨x, hx⟩
    · obtain ⟨c, hc, hac⟩ := Multiset.mem_bind.mp ha
      exact ih c hc hac

section Tree

variable {T : RankedTree ι}

omit [DecidableEq ι] in
theorem Gathered.map_some {given : ι → Option V} (hnd : T.nodes.Nodup)
    (hG : ∀ x ∈ T.nodes, G.children x = T.children x) (h : Gathered G given x v)
    (hx : x ∈ T.nodes) : v.map some = (T.below x).map given := by
  induction h with
  | mk x own f hown _ ih =>
    rw [hG x hx] at ih ⊢
    rw [RankedTree.below_eq hnd hx, Multiset.map_cons, Multiset.map_cons, Multiset.map_bind,
      Multiset.map_bind, hown]
    congr 1
    exact Multiset.bind_congr fun c hc => ih c hc ((T.mem_children_iff x hx c).mp hc).1

/-- Once all nodes of a tree were given a value, no message is in flight and every
waiting node lacks a message, all nodes are done. -/
theorem Inv.done_of_quiet (h : Inv G s)
    (hG : ∀ x ∈ T.nodes, G.children x = T.children x ∧ G.parent x = T.parent x)
    (hidle : ∀ x ∈ T.nodes, s.phase x ≠ .idle)
    (hwait : ∀ x ∈ T.nodes, ∀ acc, s.phase x ≠ .waiting 0 acc) (hflight : s.flight = 0) :
    ∀ x ∈ T.nodes, s.phase x = .done := by
  by_contra hcon
  push Not at hcon
  obtain ⟨z, hz, hzd⟩ := hcon
  classical
  obtain ⟨x, hxm, hmax⟩ := Finset.exists_max_image
    (T.nodes.toFinset.filter fun x => s.phase x ≠ .done) T.rank ⟨z, by simp [hz, hzd]⟩
  simp only [Finset.mem_filter, List.mem_toFinset] at hxm hmax
  obtain ⟨hx, hxd⟩ := hxm
  have hchild : ∀ c ∈ G.children x, s.Consumed G x c := by
    intro c hc
    rw [(hG x hx).1] at hc
    obtain ⟨hcn, hcp⟩ := (T.mem_children_iff x hx c).mp hc
    refine ⟨by rw [(hG c hcn).2, hcp], ?_, by simp [State.flightFrom, hflight]⟩
    by_contra hcd
    have := hmax c ⟨hcn, hcd⟩
    have := (RankedTree.exists_parent_of_some hcn hcp).2
    omega
  have hphase := h.phase x
  cases hp : s.phase x with
  | idle => exact hidle x hx hp
  | done => exact hxd hp
  | waiting wait acc =>
    rw [hp] at hphase
    obtain ⟨hle, hw, -⟩ := hphase
    have hzero : wait = 0 := Multiset.eq_zero_of_forall_notMem fun c hc =>
      (hw c (Multiset.mem_of_le hle hc)).mpr (hchild c (Multiset.mem_of_le hle hc)) hc
    exact hwait x hx acc (hzero ▸ hp)

end Tree

end Gather
