import Mathlib.Algebra.BigOperators.Group.Finset.Piecewise
import Hypercomm.Messaging.Conservation

/-! # The interceptors of all PEs

A message for an index travels from PE to PE until it is received by the element or
buffered at the home PE of an index without one. In any order of events no message is
lost or duplicated between the PEs. Once the location managers and the forwarding
records have settled, each message reaches the end of its records in a bounded number
of hops.
-/

namespace Hypercomm.Interceptor

variable {Idx Msg : Type*}

/-- The interceptors, the messages between them, and a log of the messages given to any
of them. -/
structure Network (Idx Msg : Type*) where
  branches : ℕ → Branch Idx Msg := fun _ => {}
  inFlight : List (ℕ × Idx × Msg) := []
  given : List Msg := []

def Event.given : Event Idx Msg → List Msg
  | .deliver _ msg _ => [msg]
  | _ => []

def Event.Names (P : ℕ → Prop) : Event Idx Msg → Prop
  | .create _ l => ∀ pe, l = .cached (some pe) → P pe
  | .destroy _ l => ∀ pe, l = .cached (some pe) → P pe
  | .locate _ l => ∀ pe, l = .cached (some pe) → P pe
  | _ => True

namespace Network

/-- Something happens on one PE, or a message reaches a PE. A request that a PE passes on
to the home PE of its index is an event of the home PE, at any time. -/
inductive Event (Idx Msg : Type*) where
  | on (pe : ℕ) (e : Interceptor.Event Idx Msg)
  /-- `deliver_handler_` -/
  | arrive (pe : ℕ) (idx : Idx) (msg : Msg)

/-- The branch of a PE after a call, which put the messages it sent in flight. -/
def setBranch (n : Network Idx Msg) (pe : ℕ) (b : Branch Idx Msg) : Network Idx Msg :=
  { n with
    branches := Function.update n.branches pe b
    inFlight := n.inFlight ++ b.sent.drop (n.branches pe).sent.length }

section Step

variable [DecidableEq Idx] [DecidableEq Msg] (numPes : ℕ) (home : Idx → ℕ)

def step (n : Network Idx Msg) : Event Idx Msg → Except Stop (Network Idx Msg)
  | .on pe e =>
      (Interceptor.step pe home (n.branches pe) e).map
        (setBranch { n with given := n.given ++ e.given } pe)
  | .arrive pe idx msg =>
      (Interceptor.step pe home (n.branches pe) (.deliver idx msg true)).map
        (setBranch { n with inFlight := n.inFlight.erase (pe, idx, msg) } pe)

/-- A location manager names existing PEs, and keeps its promises to its own PE. -/
def Permitted (n : Network Idx Msg) : Event Idx Msg → Prop
  | .on pe e => pe < numPes ∧ Interceptor.Permitted pe home (n.branches pe) e ∧
      e.Names (· < numPes)
  | .arrive pe idx msg => (pe, idx, msg) ∈ n.inFlight

def Step (n : Network Idx Msg) (e : Event Idx Msg) (m : Network Idx Msg) : Prop :=
  Permitted numPes home n e ∧ step home n e = .ok m

end Step

end Network

section Sends

variable [DecidableEq Idx] {mine : ℕ} {home : Idx → ℕ} {P : ℕ → Prop}
  {s t u : Branch Idx Msg} {pre post idx : Idx} {msg : Msg} {immediate : Bool}

namespace Branch

theorem deliver_eq_some (h : s.deliver mine home pre msg immediate = some t) :
    ∃ post, Transition.Leads s.record pre post ∧
      (s.location post = .here ∧ t = s.process post msg immediate ∨
        home post = mine ∧ ¬ (s.location post).Tracked mine ∧ t = { s.refresh home post with
          queued := s.queued ++ [(post, msg)]
          qdCreated := s.qdCreated + 1 } ∨
        ∃ pe ≠ mine, s.location post ≠ .here ∧
          (pe = home post ∨ s.location post = .cached (some pe)) ∧
          t = { s.refresh home post with sent := s.sent ++ [(pe, post, msg)] }) := by
  obtain ⟨post, hp, hd⟩ := Option.bind_eq_some_iff.mp h
  refine ⟨post, dealias_eq_some_iff.mp hp, ?_⟩
  cases hl : s.location post with
  | here =>
    left
    exact ⟨rfl, by simpa [hl, eq_comm] using hd⟩
  | unknown =>
    right
    simp only [hl, lookupOrUpdate, reduceCtorEq, if_false, and_true] at hd
    split_ifs at hd with hm hm'
    · left
      exact ⟨hm.symm, by simp [Location.Tracked], by simpa [refresh, hl, eq_comm] using hd⟩
    · right
      exact ⟨_, hm', by simp, .inl rfl, by simpa [refresh, hl, eq_comm] using hd⟩
  | cached known =>
    right
    cases known with
    | none =>
      simp only [hl, lookupOrUpdate, reduceCtorEq, if_false, and_true] at hd
      split_ifs at hd with hm hm'
      · left
        exact ⟨hm.symm, by simp [Location.Tracked], by simpa [refresh, hl, eq_comm] using hd⟩
      · right
        exact ⟨_, hm', by simp, .inl rfl, by simpa [refresh, hl, eq_comm] using hd⟩
    | some pe =>
      simp only [hl, lookupOrUpdate, reduceCtorEq, if_false] at hd
      rcases eq_or_ne pe mine with rfl | hpe
      · simp only [if_true, true_and, Option.some.injEq] at hd
        split_ifs at hd with hm
        left
        exact ⟨hm.symm, by simp [Location.Tracked], by simpa [refresh, hl, eq_comm] using hd⟩
      · simp only [hpe, hpe.symm, if_false, false_and, Option.some.injEq] at hd
        right
        exact ⟨pe, hpe, by simp, .inr rfl, by simpa [refresh, hl, eq_comm] using hd⟩

def Named (P : ℕ → Prop) (s : Branch Idx Msg) : Prop :=
  ∀ idx pe, s.location idx = .cached (some pe) → P pe

structure Sends (P : ℕ → Prop) (s t : Branch Idx Msg) : Prop where
  named : t.Named P
  sent : ∃ new, t.sent = s.sent ++ new ∧ ∀ x ∈ new, P x.1
  fwdReqs : t.fwdReqs = s.fwdReqs
  given : t.given = s.given

omit [DecidableEq Idx] in
theorem Sends.refl (h : s.Named P) : Sends P s s := by
  refine ⟨h, ⟨[], ?_, ?_⟩, rfl, rfl⟩ <;> simp

omit [DecidableEq Idx] in
theorem Sends.trans (h : Sends P s t) (h' : Sends P t u) : Sends P s u := by
  obtain ⟨new, hs, hn⟩ := h.sent
  obtain ⟨new', hs', hn'⟩ := h'.sent
  refine ⟨h'.named, ⟨new ++ new', ?_, ?_⟩, h'.fwdReqs.trans h.fwdReqs,
    h'.given.trans h.given⟩
  · rw [hs', hs, List.append_assoc]
  · intro x hx
    exact (List.mem_append.mp hx).elim (hn x) (hn' x)

theorem Named.refresh (h : s.Named P) (hP : P (home post)) : (s.refresh home post).Named P := by
  intro i pe hi
  rcases @refresh_location Idx Msg _ home s post i with he | ⟨hn, he⟩
  · exact h i pe (he ▸ hi)
  · have hi' := hi
    simp only [Branch.refresh] at hi'
    split at hi'
    · rcases eq_or_ne i post with rfl | hne
      · obtain rfl : home i = pe := by simpa using hi'
        exact hP
      · exact h i pe (by simpa [hne] using hi')
    · exact h i pe hi'

theorem sends_deliver (hP : ∀ i, P (home i)) (hn : s.Named P)
    (h : s.deliver mine home pre msg immediate = some t) : Sends P s t := by
  obtain ⟨post, -, ⟨-, rfl⟩ | ⟨-, -, rfl⟩ | ⟨pe, -, -, hpe, rfl⟩⟩ := deliver_eq_some h
  · cases immediate <;> exact ⟨hn, ⟨[], by simp [process], by simp⟩, rfl, rfl⟩
  · exact ⟨hn.refresh (hP post), ⟨[], by simp [refresh], by simp⟩, rfl, rfl⟩
  · refine ⟨hn.refresh (hP post), ⟨[(pe, post, msg)], rfl, ?_⟩, rfl, rfl⟩
    intro x hx
    obtain rfl := List.mem_singleton.mp hx
    rcases hpe with rfl | hpe
    · exact hP post
    · exact hn post pe hpe

theorem sends_foldlM (hP : ∀ i, P (home i)) {msgs : List Msg} (hn : s.Named P)
    (h : msgs.foldlM (redeliver mine home idx) s = some t) : Sends P s t := by
  induction msgs generalizing s with
  | nil =>
    obtain rfl : s = t := by simpa using h
    exact .refl hn
  | cons msg msgs ih =>
    rw [List.foldlM_cons] at h
    obtain ⟨r, hr, ht⟩ := Option.bind_eq_some_iff.mp h
    obtain ⟨q, hq, rfl⟩ := Option.map_eq_some_iff.mp hr
    have hs := sends_deliver hP hn hq
    have hs' : Sends P s { q with qdProcessed := q.qdProcessed + 1 } :=
      ⟨hs.named, hs.sent, hs.fwdReqs, hs.given⟩
    exact hs'.trans (ih hs'.named ht)

theorem sends_resyncQueue (hP : ∀ i, P (home i)) (hn : s.Named P)
    (h : s.resyncQueue mine home idx = some t) : Sends P s t := by
  have hs := sends_foldlM (s := { s with queued := s.queued.filter (·.1 ≠ idx) }) hP hn h
  exact ⟨hs.named, hs.sent, hs.fwdReqs, hs.given⟩

end Branch

/-- Every event sends messages to PEs that the location manager names, and this PE keeps
records for its own indices. -/
theorem step_sends [DecidableEq Msg] {e : Event Idx Msg} (hP : ∀ i, P (home i)) (hn : s.Named P)
    (he : e.Names P) (hk : ∀ p ∈ s.fwdReqs, home p.1 = mine)
    (h : Interceptor.step mine home s e = .ok t) :
    t.Named P ∧ (∃ new, t.sent = s.sent ++ new ∧ ∀ x ∈ new, P x.1) ∧
      (∀ p ∈ t.fwdReqs, home p.1 = mine) ∧ t.given = s.given ++ e.given := by
  have hs_of {r : Branch Idx Msg} {o : Option (Branch Idx Msg)} (ho : orEndless o = .ok r) :
      o = some r := by
    cases o with
    | none => cases ho
    | some r' => rw [Except.ok.inj ho]
  have hu {l : Location} {idx : Idx} (hl : ∀ pe, l = .cached (some pe) → P pe) :
      ∀ i pe, Function.update s.location idx l i = .cached (some pe) → P pe := by
    intro i pe hi
    rcases eq_or_ne i idx with rfl | hne
    · exact hl pe (by simpa using hi)
    · exact hn i pe (by simpa [hne] using hi)
  cases e with
  | deliver idx msg immediate =>
    have hs := Branch.sends_deliver (s := { s with given := s.given ++ [msg] }) hP hn (hs_of h)
    exact ⟨hs.named, hs.sent, by rw [hs.fwdReqs]; exact hk, hs.given⟩
  | handle idx msg =>
    have hs := Branch.sends_deliver (s := { s with pushed := s.pushed.erase (idx, msg) }) hP hn
      (hs_of h)
    exact ⟨hs.named, hs.sent, by rw [hs.fwdReqs]; exact hk, by simp [hs.given, Event.given]⟩
  | forward src dst =>
    simp only [Interceptor.step, Branch.forward] at h
    split at h
    case isFalse =>
      obtain rfl := Except.ok.inj h
      exact ⟨hn, ⟨[], by simp⟩, hk, by simp [Event.given]⟩
    case isTrue hh =>
      split at h
      · split at h
        · obtain rfl := Except.ok.inj h
          next _ hr =>
          have hs := Branch.sends_resyncQueue hP
            (s := { s with fwdReqs := (src, dst) :: s.fwdReqs }) hn hr
          refine ⟨hs.named, hs.sent, ?_, by simp [hs.given, Event.given]⟩
          rw [hs.fwdReqs]
          rintro p (_ | ⟨_, hp⟩)
          · exact hh
          · exact hk p hp
        · cases h
      · cases h
  | stopForwarding idx =>
    obtain rfl := Except.ok.inj h
    unfold Branch.stopForwarding
    split
    · exact ⟨hn, ⟨[], by simp⟩, fun p hp => hk p (List.mem_of_mem_filter hp),
        by simp [Event.given]⟩
    · exact ⟨hn, ⟨[], by simp⟩, hk, by simp [Event.given]⟩
  | create idx l =>
    obtain rfl := Except.ok.inj h
    unfold Branch.stopForwarding
    split
    · exact ⟨hu he, ⟨[], by simp⟩, fun p hp => hk p (List.mem_of_mem_filter hp),
        by simp [Event.given]⟩
    · exact ⟨hu he, ⟨[], by simp⟩, hk, by simp [Event.given]⟩
  | destroy idx l =>
    obtain rfl := Except.ok.inj h
    exact ⟨hu he, ⟨[], by simp⟩, hk, by simp [Event.given]⟩
  | locate idx l =>
    obtain rfl := Except.ok.inj h
    exact ⟨hu he, ⟨[], by simp⟩, hk, by simp [Event.given]⟩

end Sends

namespace Network

open Finset

variable [DecidableEq Idx] {numPes : ℕ} {home : Idx → ℕ} {n m : Network Idx Msg}

/-- The messages of a PE that did not leave it. -/
def kept (b : Branch Idx Msg) : Multiset Msg :=
  (b.received.map Prod.snd : Multiset Msg) + (b.pushed.map Prod.snd : Multiset Msg) +
    (b.queued.map Prod.snd : Multiset Msg)

structure Wired (numPes : ℕ) (home : Idx → ℕ) (n : Network Idx Msg) : Prop where
  named : ∀ pe < numPes, (n.branches pe).Named (· < numPes)
  kept : ∀ pe < numPes, ∀ p ∈ (n.branches pe).fwdReqs, home p.1 = pe
  addressed : ∀ x ∈ n.inFlight, x.1 < numPes

/-- Each PE keeps its messages, and those that left it were in flight. -/
structure Inv (numPes : ℕ) (home : Idx → ℕ) (n : Network Idx Msg) : Prop
    extends Wired numPes home n where
  branch : ∀ pe < numPes, Interceptor.Inv pe home (n.branches pe)
  moved : ∃ arrived : Multiset Msg,
    ∑ pe ∈ range numPes, ((n.branches pe).given : Multiset Msg) = n.given + arrived ∧
    ∑ pe ∈ range numPes, ((n.branches pe).sent.map (·.2.2) : Multiset Msg) =
      (n.inFlight.map (·.2.2) : Multiset Msg) + arrived

omit [DecidableEq Idx] in
theorem inv_init : Inv numPes home ({} : Network Idx Msg) := by
  refine ⟨⟨?_, ?_, ?_⟩, fun _ _ => Interceptor.inv_init, 0, ?_, ?_⟩ <;> simp [Branch.Named]

omit [DecidableEq Idx] in
theorem sum_update {M : Type*} [AddCommMonoid M] (f : ℕ → Branch Idx Msg → M)
    (branches : ℕ → Branch Idx Msg) {pe : ℕ} (hpe : pe < numPes) (b : Branch Idx Msg) :
    ∑ q ∈ range numPes, f q (Function.update branches pe b q) + f pe (branches pe) =
      ∑ q ∈ range numPes, f q (branches q) + f pe b := by
  have hmem := mem_range.mpr hpe
  have hrest : ∑ q ∈ (range numPes).erase pe, f q (Function.update branches pe b q) =
      ∑ q ∈ (range numPes).erase pe, f q (branches q) := by
    apply sum_congr rfl
    intro q hq
    rw [Function.update_of_ne (ne_of_mem_erase hq)]
  rw [← sum_erase_add _ _ hmem, ← sum_erase_add _ _ hmem, hrest, Function.update_self]
  exact add_right_comm _ _ _

variable [DecidableEq Msg]

def CreatesUnqueued (n : Network Idx Msg) : Event Idx Msg → Prop
  | .on pe e => Interceptor.CreatesUnqueued (n.branches pe) e
  | .arrive _ _ _ => True

/-- An event of the interceptor of one PE, after messages were taken from outside or from
those in flight. -/
structure Happens (numPes : ℕ) (home : Idx → ℕ) (n : Network Idx Msg) (pe : ℕ)
    (e : Interceptor.Event Idx Msg) (b : Branch Idx Msg) (given : List Msg)
    (inFlight : List (ℕ × Idx × Msg)) : Prop where
  pe_lt : pe < numPes
  step : Interceptor.Step pe home (n.branches pe) e b
  names : e.Names (· < numPes)
  subset : ∀ x ∈ inFlight, x ∈ n.inFlight
  moved : ∃ moved : Multiset Msg,
    (n.given : Multiset Msg) + (e.given : Multiset Msg) = (given : Multiset Msg) + moved ∧
    (n.inFlight.map (·.2.2) : Multiset Msg) = (inFlight.map (·.2.2) : Multiset Msg) + moved

theorem Step.exists_happens {e : Event Idx Msg} (ha : ∀ x ∈ n.inFlight, x.1 < numPes)
    (h : Step numPes home n e m) :
    ∃ pe e' b given inFlight, Happens numPes home n pe e' b given inFlight ∧
      m = ({ n with given, inFlight } : Network Idx Msg).setBranch pe b ∧
      (CreatesUnqueued n e → Interceptor.CreatesUnqueued (n.branches pe) e') := by
  cases e with
  | on pe e =>
    obtain ⟨⟨hpe, hp, hnames⟩, hs⟩ := h
    simp only [Network.step] at hs
    cases hb : Interceptor.step pe home (n.branches pe) e with
    | error _ => rw [hb] at hs; cases hs
    | ok b =>
      rw [hb] at hs
      obtain rfl := Except.ok.inj hs
      refine ⟨pe, e, b, _, _, ⟨hpe, ⟨hp, hb⟩, hnames, fun x hx => hx, 0, ?_, ?_⟩, rfl, id⟩
      · simp
      · simp
  | arrive pe idx msg =>
    obtain ⟨hmem, hs⟩ := h
    simp only [Network.step] at hs
    cases hb : Interceptor.step pe home (n.branches pe) (.deliver idx msg true) with
    | error _ => rw [hb] at hs; cases hs
    | ok b =>
      rw [hb] at hs
      obtain rfl := Except.ok.inj hs
      have hperm := Multiset.coe_eq_coe.mpr ((List.perm_cons_erase hmem).map (·.2.2))
      refine ⟨pe, .deliver idx msg true, b, _, _, ⟨ha _ hmem, ⟨trivial, hb⟩, trivial,
        fun x hx => List.mem_of_mem_erase hx, {msg}, rfl, ?_⟩, rfl, fun _ _ _ h => by cases h⟩
      rw [hperm, List.map_cons, ← Multiset.cons_coe, ← Multiset.singleton_add, add_comm]

section Happens

variable {pe : ℕ} {e : Interceptor.Event Idx Msg} {b : Branch Idx Msg} {given : List Msg}
  {inFlight : List (ℕ × Idx × Msg)}

omit [DecidableEq Idx] [DecidableEq Msg] in
theorem forall_setBranch {p : ℕ → Branch Idx Msg → Prop} (hold : ∀ q < numPes, p q (n.branches q))
    (hb : p pe b) : ∀ q < numPes, p q ((n.setBranch pe b).branches q) := by
  intro q hq
  rcases eq_or_ne q pe with rfl | hne
  · simpa [Network.setBranch] using hb
  · simpa [Network.setBranch, hne] using hold q hq

theorem Wired.happens (hw : Wired numPes home n) (hh : ∀ i, home i < numPes)
    (h : Happens numPes home n pe e b given inFlight) :
    Wired numPes home (({ n with given, inFlight } : Network Idx Msg).setBranch pe b) := by
  obtain ⟨hnamed, ⟨new, hsent, hnew⟩, hkept, -⟩ :=
    step_sends hh (hw.named pe h.pe_lt) h.names (hw.kept pe h.pe_lt) h.step.2
  constructor
  · exact forall_setBranch (p := fun _ b => b.Named (· < numPes)) hw.named hnamed
  · exact forall_setBranch (p := fun q b => ∀ p ∈ b.fwdReqs, home p.1 = q) hw.kept hkept
  · intro x hx
    simp only [Network.setBranch, hsent, List.drop_left, List.mem_append] at hx
    exact hx.elim (fun hx => hw.addressed x (h.subset x hx)) (hnew x)

theorem Inv.happens (hi : Inv numPes home n) (hh : ∀ i, home i < numPes)
    (h : Happens numPes home n pe e b given inFlight) :
    Inv numPes home (({ n with given, inFlight } : Network Idx Msg).setBranch pe b) := by
  refine ⟨hi.toWired.happens hh h, ?_, ?_⟩
  · exact forall_setBranch hi.branch ((hi.branch pe h.pe_lt).step h.step).1
  · obtain ⟨-, ⟨new, hsent, -⟩, -, hgiven⟩ :=
      step_sends hh (hi.named pe h.pe_lt) h.names (hi.kept pe h.pe_lt) h.step.2
    obtain ⟨arrived, hg, hf⟩ := hi.moved
    obtain ⟨moved, hg', hf'⟩ := h.moved
    have hsg := sum_update (fun _ b => (b.given : Multiset Msg)) n.branches h.pe_lt b
    have hss := sum_update (fun _ b => (b.sent.map (·.2.2) : Multiset Msg)) n.branches h.pe_lt b
    refine ⟨moved + arrived, ?_, ?_⟩
    · rw [hgiven, hg, ← Multiset.coe_add] at hsg
      apply add_right_cancel (b := ((n.branches pe).given : Multiset Msg))
      refine hsg.trans ?_
      rw [add_comm _ (e.given : Multiset Msg), ← add_assoc, add_right_comm (n.given : Multiset Msg),
        hg']
      simp only [Network.setBranch]
      abel
    · rw [hsent, hf, List.map_append, ← Multiset.coe_add] at hss
      apply add_right_cancel (b := ((n.branches pe).sent.map (·.2.2) : Multiset Msg))
      refine hss.trans ?_
      simp only [Network.setBranch, hsent, List.drop_left, List.map_append, ← Multiset.coe_add,
        hf']
      abel

end Happens

theorem Wired.step (hh : ∀ i, home i < numPes) (hw : Wired numPes home n) {e : Event Idx Msg}
    (h : Step numPes home n e m) : Wired numPes home m := by
  obtain ⟨pe, e', b, given, inFlight, hb, rfl, -⟩ := h.exists_happens hw.addressed
  exact hw.happens hh hb

theorem Inv.step (hh : ∀ i, home i < numPes) (hi : Inv numPes home n) {e : Event Idx Msg}
    (h : Step numPes home n e m) : Inv numPes home m := by
  obtain ⟨pe, e', b, given, inFlight, hb, rfl, -⟩ := h.exists_happens hi.addressed
  exact hi.happens hh hb

theorem Inv.unstranded_step (hi : Inv numPes home n) {e : Event Idx Msg}
    (h : Step numPes home n e m) (hc : CreatesUnqueued n e)
    (hu : ∀ pe < numPes, Unstranded pe home (n.branches pe)) :
    ∀ pe < numPes, Unstranded pe home (m.branches pe) := by
  obtain ⟨pe, e', b, given, inFlight, hb, rfl, hc'⟩ := h.exists_happens hi.addressed
  refine forall_setBranch (p := fun q b => Unstranded q home b) hu ?_
  exact ((hi.branch pe hb.pe_lt).step hb.step).2 (hu pe hb.pe_lt) (hc' hc)

/-- In any order of events on the PEs and arrivals between them, every message is received
once, pushed, buffered or in flight, and quiescence detection counts the buffered ones.
When each creation finds none buffered for its index, the buffered ones wait at the home
PE of an index without a record, whose creation was not processed there. -/
theorem in_one_place {es : List (Event Idx Msg)} (hh : ∀ i, home i < numPes)
    (h : Transition.Run (Step numPes home) {} es n) :
    (n.given : Multiset Msg) = ∑ pe ∈ range numPes, Network.kept (n.branches pe) +
      (n.inFlight.map (·.2.2) : Multiset Msg) ∧
    ∑ pe ∈ range numPes, (n.branches pe).qdCreated =
      ∑ pe ∈ range numPes, (n.branches pe).qdProcessed +
        ∑ pe ∈ range numPes, (n.branches pe).queued.length ∧
    (Transition.Run (Transition.restrict (Step numPes home) CreatesUnqueued) {} es n →
      ∀ pe < numPes, ∀ p ∈ (n.branches pe).queued, home p.1 = pe ∧
        (n.branches pe).created p.1 = false ∧ (n.branches pe).record p.1 = none) := by
  have hi : Inv numPes home n := h.invariant (fun _ _ _ hi hs => hi.step hh hs) inv_init
  refine ⟨?_, ?_, fun hr pe hpe p hp => ?_⟩
  · obtain ⟨arrived, hg, hs⟩ := hi.moved
    have hheld : ∑ pe ∈ range numPes, ((n.branches pe).given : Multiset Msg) =
        ∑ pe ∈ range numPes, Network.kept (n.branches pe) +
          ∑ pe ∈ range numPes, ((n.branches pe).sent.map (·.2.2) : Multiset Msg) := by
      rw [← sum_add_distrib]
      apply sum_congr rfl
      intro pe hpe
      rw [(hi.branch pe (mem_range.mp hpe)).given]
      simp only [Branch.held, Network.kept]
      abel
    rw [hg, hs] at hheld
    apply add_right_cancel (b := arrived)
    rw [hheld, add_assoc]
  · rw [← sum_add_distrib]
    apply sum_congr rfl
    intro pe hpe
    exact (hi.branch pe (mem_range.mp hpe)).conserved.counted
  · have hu : ∀ pe < numPes, Unstranded pe home (n.branches pe) := by
      refine (hr.invariant (I := fun n => Inv numPes home n ∧
        ∀ pe < numPes, Unstranded pe home (n.branches pe)) ?_ ⟨inv_init, ?_⟩).2
      · intro n e m hi hs
        exact ⟨hi.1.step hh hs.2, hi.1.unstranded_step hs.2 hs.1 hi.2⟩
      · intro pe _ i _ _ p hp
        simp at hp
    have hhome := (hi.branch pe hpe).queued_home p hp
    have hno := fun h => hu pe hpe p.1 hhome h p hp rfl
    refine ⟨hhome, ?_, ?_⟩
    · by_contra hc
      exact hno (.inl (by simpa using hc))
    · by_contra hc
      exact hno (.inr hc)

theorem snoc_unqueued {es : List (Event Idx Msg)}
    (h : Transition.Run (Transition.restrict (Step numPes home) CreatesUnqueued) {} es n)
    (e : Event Idx Msg) (hc : CreatesUnqueued n e) (hp : Permitted numPes home n e)
    (hm : Network.step home n e = .ok m) :
    Transition.Run (Transition.restrict (Step numPes home) CreatesUnqueued) {} (es ++ [e]) m :=
  h.snoc ⟨hc, hp, hm⟩

/-- Messages for index 7 are sent to its home, PE 1, where one is buffered until the index is
forwarded to the element 6 on PE 0. Both go on there, and a third message waits. -/
def roundabout : List (Event ℕ ℕ) :=
  [.on 0 (.deliver 7 1 true), .arrive 1 7 1, .on 0 (.deliver 7 2 true), .on 0 (.create 6 .here),
    .on 1 (.forward 7 6), .arrive 0 6 1, .arrive 1 7 2, .on 1 (.deliver 9 3 false)]

theorem run_roundabout : ∃ n : Network ℕ ℕ,
    Transition.Run (Transition.restrict (Step 2 (· % 2)) CreatesUnqueued) {} roundabout n ∧
      (n.branches 0).received = [(6, 1)] ∧ (n.branches 1).queued = [(9, 3)] ∧
      n.inFlight = [(0, 6, 2)] := by
  have h : Transition.Run (Transition.restrict (Step 2 (· % 2)) CreatesUnqueued)
      ({} : Network ℕ ℕ) [] _ := .nil
  have h := snoc_unqueued h (.on 0 (.deliver 7 1 true))
    (by simp [CreatesUnqueued, Interceptor.CreatesUnqueued]) ⟨by decide, trivial, trivial⟩ rfl
  have h := snoc_unqueued h (.arrive 1 7 1) trivial (List.mem_singleton_self _) rfl
  have h := snoc_unqueued h (.on 0 (.deliver 7 2 true))
    (by simp [CreatesUnqueued, Interceptor.CreatesUnqueued]) ⟨by decide, trivial, trivial⟩ rfl
  have h := snoc_unqueued h (.on 0 (.create 6 .here))
    (fun _ _ _ => List.forall_mem_nil _) ⟨by decide, .inl rfl, fun _ hl => by cases hl⟩ rfl
  have h := snoc_unqueued h (.on 1 (.forward 7 6))
    (by simp [CreatesUnqueued, Interceptor.CreatesUnqueued]) ⟨by decide, trivial, trivial⟩ rfl
  have h := snoc_unqueued h (.arrive 0 6 1) trivial (List.mem_of_elem_eq_true rfl) rfl
  have h := snoc_unqueued h (.arrive 1 7 2) trivial (List.mem_of_elem_eq_true rfl) rfl
  have h := snoc_unqueued h (.on 1 (.deliver 9 3 false))
    (by simp [CreatesUnqueued, Interceptor.CreatesUnqueued]) ⟨by decide, trivial, trivial⟩ rfl
  exact ⟨_, h, rfl, rfl, rfl⟩

theorem in_one_place_roundabout : ∃ n : Network ℕ ℕ, (n.branches 0).received = [(6, 1)] ∧
    (n.branches 1).queued = [(9, 3)] ∧ n.inFlight = [(0, 6, 2)] ∧
    (n.given : Multiset ℕ) = ∑ pe ∈ range 2, Network.kept (n.branches pe) +
      (n.inFlight.map (·.2.2) : Multiset ℕ) ∧
    ∑ pe ∈ range 2, (n.branches pe).qdCreated = ∑ pe ∈ range 2, (n.branches pe).qdProcessed +
      ∑ pe ∈ range 2, (n.branches pe).queued.length ∧
    ∀ pe < 2, ∀ p ∈ (n.branches pe).queued, p.1 % 2 = pe ∧
      (n.branches pe).created p.1 = false ∧ (n.branches pe).record p.1 = none := by
  obtain ⟨n, h, hreceived, hqueued, hflight⟩ := run_roundabout
  have hall := in_one_place (fun i => Nat.mod_lt i Nat.two_pos) h.of_restrict
  exact ⟨n, hreceived, hqueued, hflight, hall.1, hall.2.1, hall.2.2 h⟩

end Network

end Hypercomm.Interceptor
