import Hypercomm.Messaging.Forwarding
import Hypercomm.Messaging.Routing

/-! # Messages for destroyed elements reach living ones

When the requests of the elements arrive in order, an element was redirected before the
one it is redirected to was redirected itself, unless that redirection is about to end.
Once all requests have arrived the records of all home PEs therefore end, at living
elements or at indices that have nothing to redirect to.
-/

namespace Hypercomm.Forwarding

open Interceptor (Branch Stop Location Network Whereabouts Survey)
open Interceptor.Network (Located Settled Routed Wired)

variable {Idx Msg : Type*}

section Lifecycles

variable {l : Lifecycles Idx} {record : Idx → Option Idx} {made : Idx → ℕ} {home : Idx → ℕ}
variable {n : ℕ} {idx src dst parent : Idx}

/-- The destination of a record was redirected later, or its redirection is about to end. -/
def Lifecycles.Rises (l : Lifecycles Idx) (record : Idx → Option Idx) (made : Idx → ℕ) : Prop :=
  ∀ x y z n, record x = some y → l.Redirects record made n y z → n ≤ made x →
    l.EndsBetween n y (made x)

variable [DecidableEq Idx]

theorem Lifecycles.Rises.regElement (h : l.Rises record made) (idx : Idx) :
    (l.regElement idx).Rises record made := by
  intro x y z n hx hn hle
  rw [redirects_regElement] at hn
  exact (h x y z n hx hn hle).mono fun k hk _ => mem_regElement.mpr (.inl hk)

theorem Follows.rises_disassociate (h : Follows home l record made) (hr : l.Rises record made)
    (idx parent : Idx) (children : Bool) :
    (l.disassociate idx parent children).Rises record made := by
  cases children with
  | false => exact hr
  | true =>
    intro x y z n hx hn hle
    rcases redirects_disassociate.mp hn with hn | ⟨rfl, -, -⟩
    · exact (hr x y z n hx hn hle).mono fun k hk _ => mem_disassociate.mpr (.inl hk)
    · exact absurd (h.made_lt x (by simp [hx])) (by omega)

theorem Follows.rises_arrived_stop (h : Follows home l record made) (hr : l.Rises record made)
    (hq : (n, .stopForwarding idx) ∈ l.inFlight)
    (ho : ∀ m y, (m, .forward idx y) ∈ l.inFlight → n < m) :
    (l.arrived n (.stopForwarding idx)).Rises (Function.update record idx none) made := by
  intro x y z m hx hm hle
  have hne : x ≠ idx := by rintro rfl; simp at hx
  obtain ⟨hred, hlt⟩ := (redirects_stop h hq ho).mp hm
  exact (hr x y z m (by simpa [hne] using hx) hred hle).mono fun k =>
    mem_arrived_stop h hq ho hlt

theorem Follows.rises_arrived_forward (h : Follows home l record made) (hr : l.Rises record made)
    (hq : (n, .forward src dst) ∈ l.inFlight)
    (ho : ∀ m x, (m, .stopForwarding x) ∈ l.inFlight → home x = home src → n < m) :
    (l.arrived n (.forward src dst)).Rises (Function.update record src (some dst))
      (Function.update made src n) := by
  have hstop : ∀ {k x}, (k, .stopForwarding x) ∈ l.inFlight →
      (k, .stopForwarding x) ∈ (l.arrived n (.forward src dst)).inFlight := by
    refine fun hk => (mem_arrived h.distinct hq).mpr ⟨hk, ?_⟩
    rintro rfl
    exact absurd (eq_of_mem h.distinct hk hq) (by simp)
  intro x y z m hx hm hle
  rw [redirects_forward h hq ho] at hm
  rcases eq_or_ne x src with rfl | hne
  · -- the forward in flight knew of this redirection
    obtain rfl : dst = y := by simpa using hx
    rw [Function.update_self] at hle ⊢
    exact (h.detours x dst z n m hq hm hle).mono fun k hk _ => hstop hk
  · rw [Function.update_of_ne hne] at hx hle ⊢
    exact (hr x y z m hx hm hle).mono fun k hk _ => hstop hk

end Lifecycles

section Record

open Interceptor.Branch

variable [DecidableEq Idx] {mine : ℕ} {home : Idx → ℕ} {b t : Branch Idx Msg} {src dst : Idx}

theorem record_of_forward (h : b.forward mine home src dst = .ok t) (hh : home src = mine)
    (hr : b.record src = none) : t.record = Function.update b.record src (some dst) := by
  simp only [Branch.forward, hh, if_true, hr] at h
  split at h
  · next r hq =>
    obtain rfl := Except.ok.inj h
    have hs := sends_resyncQueue (P := fun _ => True) (fun _ => trivial)
      (fun _ _ _ => trivial) hq
    rw [← record_cons]
    exact congrArg (fun l i => List.lookup i l) hs.fwdReqs
  · cases h

theorem record_of_deliver {idx : Idx} {msg : Msg} {immediate : Bool}
    (h : b.deliver mine home idx msg immediate = some t) : t.record = b.record := by
  have hs := sends_deliver (P := fun _ => True) (fun _ => trivial) (fun _ _ _ => trivial) h
  exact congrArg (fun l i => List.lookup i l) hs.fwdReqs

end Record

section Run

variable [DecidableEq Idx] {numPes : ℕ} {home : Idx → ℕ} {s t : State Idx Msg}
variable {b : Branch Idx Msg} {pe : ℕ} {idx : Idx}

theorem State.record_setBranch (hr : b.record = (s.branches pe).record) :
    (s.setBranch pe b).record home = s.record home := by
  ext1 x
  simp only [State.record, State.setBranch]
  rcases eq_or_ne (home x) pe with rfl | hne
  · rw [Function.update_self, hr]
  · rw [Function.update_of_ne hne]

theorem State.record_setBranch_update {v : Option Idx}
    (hr : b.record = Function.update (s.branches (home idx)).record idx v) :
    (s.setBranch (home idx) b).record home = Function.update (s.record home) idx v := by
  ext1 x
  simp only [State.record, State.setBranch]
  rcases eq_or_ne (home x) (home idx) with he | hne
  · rw [he, Function.update_self, hr, Function.update_apply, Function.update_apply]
    simp [State.record, he]
  · have hx : x ≠ idx := fun he => hne (he ▸ rfl)
    rw [Function.update_of_ne hne, Function.update_of_ne hx]
    rfl

/-- The records and the requests in flight follow the lifecycles, and the records rise. -/
def Traced (home : Idx → ℕ) (s : State Idx Msg) : Prop :=
  ∃ made, Follows home s.toLifecycles (s.record home) made ∧
    s.toLifecycles.Rises (s.record home) made

variable [DecidableEq Msg] {e : Event Idx Msg}

omit [DecidableEq Msg] in
theorem traced_init : Traced home ({} : State Idx Msg) := by
  refine ⟨fun _ => 0, follows_init, ?_⟩
  intro x y z n hx
  simp [State.record, Branch.record] at hx

theorem Traced.step (ht : Traced home s) (ho : Ordered home s e) (h : Step home s e t) :
    Traced home t := by
  obtain ⟨made, hf, hr⟩ := ht
  obtain ⟨hp, hs⟩ := h
  have hkeep {pe : ℕ} {b : Branch Idx Msg} (hb : b.record = (s.branches pe).record) :
      Traced home (s.setBranch pe b) := by
    refine ⟨made, ?_, ?_⟩
    · rw [State.record_setBranch hb]; exact hf
    · rw [State.record_setBranch hb]; exact hr
  cases e with
  | create idx =>
    obtain rfl := Except.ok.inj hs
    exact ⟨made, hf.regElement idx, hr.regElement idx⟩
  | destroy idx parent children =>
    obtain rfl := Except.ok.inj hs
    refine ⟨made, ?_, hf.rises_disassociate hr idx parent children⟩
    cases children with
    | false => exact hf.disassociate_false hp.1 parent
    | true => exact hf.disassociate_true hp.1 hp.2.1 hp.2.2
  | arrive n r =>
    cases r with
    | forward src dst =>
      simp only [Forwarding.step, Request.subject, Request.apply] at hs
      cases hb : (s.branches (home src)).forward (home src) home src dst with
      | error _ => rw [hb] at hs; cases hs
      | ok b =>
        rw [hb] at hs
        obtain rfl := Except.ok.inj hs
        have hrec := State.record_setBranch_update
          (s := { s with toLifecycles := s.arrived n (.forward src dst) })
          (record_of_forward hb rfl (hf.record_eq_none hp ho))
        refine ⟨Function.update made src n, ?_, ?_⟩
        · rw [hrec]; exact hf.arrived_forward hp ho
        · rw [hrec]; exact hf.rises_arrived_forward hr hp ho
    | stopForwarding idx =>
      obtain rfl := Except.ok.inj hs
      have hb : ((s.branches (home idx)).stopForwarding (home idx) home idx).record =
          Function.update (s.branches (home idx)).record idx none :=
        record_stopForwarding_self rfl
      have hrec := State.record_setBranch_update
        (s := { s with toLifecycles := s.arrived n (.stopForwarding idx) }) hb
      refine ⟨made, ?_, ?_⟩
      · rw [Request.subject, hrec]; exact hf.arrived_stop hp ho
      · rw [Request.subject, hrec]; exact hf.rises_arrived_stop hr hp ho
  | deliver pe idx msg immediate =>
    simp only [Forwarding.step, Interceptor.step] at hs
    cases hb : Branch.deliver pe home { s.branches pe with
        given := (s.branches pe).given ++ [msg] } idx msg immediate with
    | none => rw [hb] at hs; cases hs
    | some b =>
      rw [hb] at hs
      obtain rfl := Except.ok.inj hs
      have hrec := record_of_deliver hb
      exact hkeep hrec
  | handle pe idx msg =>
    simp only [Forwarding.step, Interceptor.step] at hs
    cases hb : Branch.deliver pe home { s.branches pe with
        pushed := (s.branches pe).pushed.erase (idx, msg) } idx msg true with
    | none => rw [hb] at hs; cases hs
    | some b =>
      rw [hb] at hs
      obtain rfl := Except.ok.inj hs
      have hrec := record_of_deliver hb
      exact hkeep hrec
  | locate pe idx l =>
    obtain rfl := Except.ok.inj hs
    exact hkeep rfl

omit [DecidableEq Msg] [DecidableEq Idx] in
/-- At rest a destination that was redirected itself was redirected later. -/
theorem made_lt_made {l : Lifecycles Idx} {record : Idx → Option Idx} {made : Idx → ℕ}
    (hr : l.Rises record made) (hrest : l.inFlight = []) {x y : Idx} (hx : record x = some y)
    (hy : record y ≠ none) : made x < made y := by
  obtain ⟨z, hz⟩ := Option.ne_none_iff_exists'.mp hy
  by_contra hle
  obtain ⟨k, -, -, hk⟩ := hr x y z (made y) hx (.inr ⟨hz, rfl⟩) (by omega)
  simp [hrest] at hk

/-- Once the requests of an ordered history have arrived and the location managers know
where the living elements are, each message reaches the end of the records of its index,
which was not destroyed with children: it is received there or, when no element lives at
that index, buffered at its home PE. -/
theorem living_reached {es : List (Event Idx Msg)} {w : Whereabouts Idx} {n : Network Idx Msg}
    (hh : ∀ i, home i < numPes)
    (h : Transition.Run (Transition.restrict (Step home) (Ordered home)) {} es s)
    (hrest : s.inFlight = []) (hn : n.branches = s.branches)
    (hhost : ∀ idx, w.host idx ≠ none ↔ s.alive idx = true) (hl : Located numPes home w n)
    (hnamed : ∀ pe < numPes, (n.branches pe).Named (· < numPes))
    (haddr : ∀ x ∈ n.inFlight, x.1 < numPes) :
    ∃ v : Survey Idx, v.toWhereabouts = w ∧ v.maxDepth = s.issued ∧
      (∀ idx, Transition.Leads (n.record home) idx (v.dest idx)) ∧
      (∀ idx, s.leftChildren (v.dest idx) = false) ∧
      (∀ idx, s.alive idx = true → v.dest idx = idx) ∧
      ∀ es' m, Transition.Run (Transition.restrict (Network.Step numPes home)
        fun _ e => e.Carries) n es' m → Routed numPes home v n es' m := by
  have hi : Inv home s := h.invariant (fun _ _ _ hi hs => hi.step hs.1 hs.2) inv_init
  obtain ⟨made, hf, hr⟩ : Traced home s :=
    h.invariant (fun _ _ _ ht hs => ht.step hs.1 hs.2) traced_init
  have hrec : n.record home = s.record home := by
    funext idx
    simp only [Network.record, State.record, hn]
  have hnone : ∀ idx, s.record home idx = none ↔ s.leftChildren idx = false := by
    intro idx
    have := hf.record_ne_none_iff (x := idx) (by simp [hrest])
    rw [← not_iff_not, ← ne_eq, this, Bool.not_eq_false]
  have halive : ∀ idx, s.alive idx = true → s.record home idx = none := fun idx ha =>
    (hnone idx).mpr (hf.living idx ha)
  have hends : ∀ idx, ∃ dest, Transition.Leads (s.record home) idx dest :=
    Transition.exists_leads_of_rising made (n := s.issued) hf.made_lt
      fun x y hx hy => made_lt_made hr hrest hx hy
  choose dest hdest using hends
  let v : Survey Idx := { w with
    dest := dest
    depth := fun idx => if s.record home idx = none then 0 else s.issued - made idx
    maxDepth := s.issued }
  have hv : Settled numPes home v n := by
    refine ⟨hl, fun idx hh => ?_, fun idx => ?_, fun idx next hx => ?_, fun idx => ?_⟩
    · rw [hrec]
      exact halive idx ((hhost idx).mp hh)
    · rw [hrec]
      exact hdest idx
    · rw [hrec] at hx
      have hlt := hf.made_lt idx (by simp [hx])
      simp only [v, hx, reduceCtorEq, if_false]
      split
      · omega
      · next hy =>
        have := made_lt_made hr hrest hx hy
        omega
    · simp only [v]
      split <;> omega
  have hw : Wired numPes home n := by
    refine ⟨hnamed, fun pe _ p hp => ?_, haddr⟩
    rw [hn] at hp
    exact hi.records pe p.1 (Branch.record_ne_none_iff.mpr ⟨p, hp, rfl⟩)
  refine ⟨v, rfl, rfl, hv.ends, fun idx => ?_, fun idx ha => ?_, fun es' m hm =>
    hv.routed hh hw hm⟩
  · exact (hnone _).mp (hdest idx).end_eq_none
  · exact (hdest idx).unique (.stop (halive idx ha))

def second : Whereabouts ℕ where
  host idx := if idx = 2 then some 1 else none
  lag _ _ := 0
  maxLag := 0

def redirected : State ℕ ℕ where
  alive := Function.update (Function.update (Function.update (fun _ => false) 1 true) 2 true) 1
    false
  leftChildren := Function.update (Function.update (Function.update (fun _ => false) 1 false) 2
    false) 1 true
  issued := 3
  branches := Function.update (Function.update (fun _ => {}) 0
    { fwdReqs := [(1, 2)], location := Function.update (fun _ => .unknown) 2 (.cached (some 1)) }) 1
    { location := Function.update (fun _ => .unknown) 2 .here }

theorem run_redirected :
    Transition.Run (Transition.restrict (Step fun _ => 0) (Ordered fun _ => 0))
      ({} : State ℕ ℕ) [.create 1, .create 2, .arrive 0 (.stopForwarding 1),
        .arrive 1 (.stopForwarding 2), .destroy 1 2 true, .arrive 2 (.forward 1 2),
        .locate 0 2 (.cached (some 1)), .locate 1 2 .here] redirected := by
  have hm {n : ℕ} {r : Request ℕ} {l : List (ℕ × Request ℕ)} (h : l.elem (n, r) = true) :
      (n, r) ∈ l := List.mem_of_elem_eq_true h
  refine .snoc (.snoc (.snoc (.snoc (.snoc (.snoc (.snoc (.snoc .nil
      ⟨trivial, rfl, rfl⟩) ⟨trivial, rfl, rfl⟩)
      ⟨fun m y h => by simp [Lifecycles.regElement, Lifecycles.issue] at h, hm rfl, rfl⟩)
      ⟨fun m y h => by
        simp [Lifecycles.regElement, Lifecycles.issue, Lifecycles.arrived, State.setBranch] at h,
        hm rfl, rfl⟩)
      ⟨trivial, ⟨rfl, rfl, by decide⟩, rfl⟩)
      ⟨fun m y h => by
        simp [Lifecycles.regElement, Lifecycles.issue, Lifecycles.arrived, State.setBranch,
          Lifecycles.disassociate] at h, hm rfl, rfl⟩)
      ⟨trivial, (fun h => by cases h), rfl⟩) ⟨trivial, (fun h => by cases h), ?_⟩
  apply congrArg Except.ok
  simp [State.setBranch, redirected, Branch.stopForwarding, Lifecycles.regElement,
    Lifecycles.issue, Lifecycles.arrived, Lifecycles.disassociate]

theorem located_redirected : Located 2 (fun _ => 0) second
    ({ branches := redirected.branches } : Network ℕ ℕ) := by
  have hloc : ∀ pe < 2, ∀ idx, (redirected.branches pe).location idx =
      if idx = 2 then (if pe = 0 then .cached (some 1) else .here) else .unknown := by
    intro pe hpe idx
    obtain rfl | rfl : pe = 0 ∨ pe = 1 := by omega
    all_goals rcases eq_or_ne idx 2 with rfl | hne <;> simp_all [redirected]
  constructor
  · intro pe hpe idx
    rw [hloc pe hpe]
    obtain rfl | rfl : pe = 0 ∨ pe = 1 := by omega
    all_goals
      simp only [second]
      split <;> simp
  · intro idx pe hh hne
    rw [hloc 0 (by decide)]
    simp only [second] at hh
    split at hh <;> simp_all
  · intro idx pe hh hc
    rw [hloc 0 (by decide)] at hc
    simp only [second] at hh
    split at hh <;> simp_all
  · intro pe hpe idx q hne hc
    rw [hloc pe hpe] at hc
    split at hc <;> simp_all
  · intro pe idx
    simp [second]

theorem host_second (idx : ℕ) : second.host idx ≠ none ↔ redirected.alive idx = true := by
  rcases eq_or_ne idx 1 with rfl | h1
  · simp [second, redirected]
  · rcases eq_or_ne idx 2 with rfl | h2
    · simp [second, redirected]
    · simp [second, redirected, h1, h2]

theorem named_redirected : ∀ pe < 2, (redirected.branches pe).Named (· < 2) := by
  intro pe hpe i q hq
  obtain rfl | rfl : pe = 0 ∨ pe = 1 := by omega
  · rcases eq_or_ne i 2 with rfl | hne
    · obtain rfl : 1 = q := by simpa [redirected] using hq
      decide
    · simp [redirected, hne] at hq
  · rcases eq_or_ne i 2 with rfl | hne
    · simp [redirected] at hq
    · simp [redirected, hne] at hq

/-- A message for the element that was destroyed reaches its parent. -/
theorem living_reached_of_destroyed : ∃ (m : Network ℕ ℕ) (v : Survey ℕ),
    (m.branches 1).received = [(2, 42)] ∧
    Routed 2 (fun _ => 0) v { branches := redirected.branches }
      [.on 1 (.deliver 1 42 false), .arrive 0 1 42, .arrive 1 2 42] m := by
  obtain ⟨v, -, -, -, -, -, hall⟩ := living_reached (n := { branches := redirected.branches })
    (fun _ => by decide) run_redirected rfl rfl host_second located_redirected
    named_redirected (by simp)
  have hm : Transition.Run (Transition.restrict (Network.Step 2 fun _ => 0) fun _ e => e.Carries)
      ({ branches := redirected.branches } : Network ℕ ℕ)
      [.on 1 (.deliver 1 42 false), .arrive 0 1 42, .arrive 1 2 42] _ :=
    .snoc (.snoc (.snoc .nil ⟨trivial, ⟨by decide, trivial, trivial⟩, rfl⟩)
      ⟨trivial, List.mem_of_elem_eq_true rfl, rfl⟩) ⟨trivial, List.mem_of_elem_eq_true rfl, rfl⟩
  exact ⟨_, v, rfl, hall _ _ hm⟩

end Run

end Hypercomm.Forwarding
