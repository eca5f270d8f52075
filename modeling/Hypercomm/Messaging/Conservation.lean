import Mathlib.Algebra.Order.Group.Multiset
import Mathlib.Tactic.Abel
import Mathlib.Tactic.Push
import Hypercomm.Messaging.Interceptor

/-! # The interceptor loses nothing

Every message given to an interceptor is in one place. A message may stay stranded
at the home PE of an index in one way only: it was buffered before the creation of
the element was processed there.
-/

namespace Hypercomm.Interceptor

variable {Idx Msg : Type*} [DecidableEq Idx] {mine : ℕ} {home : Idx → ℕ}

namespace Branch

variable {s t u : Branch Idx Msg} {pre post idx i : Idx} {msg : Msg} {immediate : Bool}

theorem record_ne_none_iff : s.record idx ≠ none ↔ ∃ p ∈ s.fwdReqs, p.1 = idx := by
  simp only [record, ne_eq, List.lookup_eq_none_iff, bne_iff_ne]
  push Not
  simp only [eq_comm]

theorem dealias_eq_some_iff : s.dealias pre = some post ↔ Transition.Leads s.record pre post := by
  unfold dealias
  rw [← List.length_map (f := Prod.fst)]
  refine Transition.follow_eq_some_iff fun i hi => ?_
  obtain ⟨p, hp, rfl⟩ := record_ne_none_iff.mp hi
  exact List.mem_map_of_mem hp

/-- Every message this PE was given and still answers for, or passed on. -/
def held (s : Branch Idx Msg) : Multiset Msg :=
  (s.received.map Prod.snd : Multiset Msg) + (s.pushed.map Prod.snd : Multiset Msg) +
    (s.sent.map (·.2.2) : Multiset Msg) + (s.queued.map Prod.snd : Multiset Msg)

/-- What quiescence detection counts beyond the buffered messages. -/
def excess (s : Branch Idx Msg) : ℤ := s.qdCreated - s.qdProcessed - s.queued.length

structure Moves (mine : ℕ) (home : Idx → ℕ) (s t : Branch Idx Msg) (msgs : Multiset Msg) :
    Prop where
  held : t.held = msgs + s.held
  given : t.given = s.given
  created : t.created = s.created
  fwdReqs : t.fwdReqs = s.fwdReqs
  sent : ∀ p ∈ t.sent, p ∈ s.sent ∨ p.1 ≠ mine
  queued : ∀ p ∈ t.queued, p ∈ s.queued ∨
    home p.1 = mine ∧ s.record p.1 = none ∧ ¬ (s.location p.1).Tracked mine
  location : ∀ i, t.location i = s.location i ∨
    s.location i = .cached none ∧ t.location i = .cached (some (home i))

theorem Moves.refl : Moves mine home s s 0 := by
  constructor <;> simp +contextual

theorem Moves.trans {m m' : Multiset Msg} (h : Moves mine home s t m)
    (h' : Moves mine home t u m') : Moves mine home s u (m' + m) where
  held := by rw [h'.held, h.held, add_assoc]
  given := h'.given.trans h.given
  created := h'.created.trans h.created
  fwdReqs := h'.fwdReqs.trans h.fwdReqs
  sent p hp := (h'.sent p hp).elim (h.sent p) .inr
  queued p hp := by
    rcases h'.queued p hp with hp | ⟨hh, hr, hl⟩
    · exact h.queued p hp
    · refine .inr ⟨hh, by simpa [record, h.fwdReqs] using hr, ?_⟩
      rcases h.location p.1 with he | ⟨he, -⟩
      · rwa [he] at hl
      · simp [he, Location.Tracked]
  location i := by
    rcases h.location i with he | ⟨hn, he⟩ <;> rcases h'.location i with he' | ⟨hn', he'⟩
    · exact .inl (he'.trans he)
    · exact .inr ⟨he ▸ hn', he'⟩
    · exact .inr ⟨hn, he'.trans he⟩
    · simp [he] at hn'

def refresh (home : Idx → ℕ) (s : Branch Idx Msg) (idx : Idx) : Branch Idx Msg :=
  { s with
    location := if s.location idx = .cached none then
      Function.update s.location idx (.cached (some (home idx))) else s.location }

theorem deliver_of_leads (msg : Msg) (immediate : Bool)
    (hc : ∀ i, s.location i = .cached (some mine) → home i = mine)
    (h : Transition.Leads s.record pre post) :
    s.location post = .here ∧
        s.deliver mine home pre msg immediate = some (s.process post msg immediate) ∨
      home post = mine ∧ ¬ (s.location post).Tracked mine ∧
        s.deliver mine home pre msg immediate = some { s.refresh home post with
          queued := s.queued ++ [(post, msg)]
          qdCreated := s.qdCreated + 1 } ∨
      ∃ pe ≠ mine, s.deliver mine home pre msg immediate = some { s.refresh home post with
        sent := s.sent ++ [(pe, post, msg)] } := by
  rw [← dealias_eq_some_iff] at h
  cases hl : s.location post with
  | here => exact .inl ⟨rfl, by simp [deliver, h, hl]⟩
  | unknown =>
    rcases eq_or_ne (home post) mine with hm | hm
    · refine .inr (.inl ⟨hm, by simp [Location.Tracked], ?_⟩)
      simp [deliver, h, hl, lookupOrUpdate, refresh, hm]
    · refine .inr (.inr ⟨home post, hm, ?_⟩)
      simp [deliver, h, hl, lookupOrUpdate, refresh, hm, hm.symm]
  | cached pe =>
    cases pe with
    | none =>
      rcases eq_or_ne (home post) mine with hm | hm
      · refine .inr (.inl ⟨hm, by simp [Location.Tracked], ?_⟩)
        simp [deliver, h, hl, lookupOrUpdate, refresh, hm]
      · refine .inr (.inr ⟨home post, hm, ?_⟩)
        simp [deliver, h, hl, lookupOrUpdate, refresh, hm, hm.symm]
    | some pe =>
      rcases eq_or_ne pe mine with rfl | hm
      · have hm := hc post hl
        refine .inr (.inl ⟨hm, by simp [Location.Tracked], ?_⟩)
        simp [deliver, h, hl, lookupOrUpdate, refresh, hm]
      · refine .inr (.inr ⟨pe, hm, ?_⟩)
        simp [deliver, h, hl, lookupOrUpdate, refresh, hm, hm.symm]

theorem refresh_location (i : Idx) : (s.refresh home post).location i = s.location i ∨
    s.location i = .cached none ∧ (s.refresh home post).location i = .cached (some (home i)) := by
  simp only [refresh]
  split
  case isTrue h =>
    rcases eq_or_ne i post with rfl | hi
    · exact .inr ⟨h, by simp⟩
    · exact .inl (by simp [hi])
  case isFalse => exact .inl rfl

theorem moves_process : Moves mine home s (s.process post msg immediate) {msg} := by
  cases immediate <;>
    refine ⟨?_, rfl, rfl, rfl, fun _ => .inl, fun _ => .inl, fun _ => .inl rfl⟩ <;>
    simp only [process, held, List.map_append, List.map_cons, List.map_nil, ← Multiset.coe_add,
      Multiset.coe_singleton, if_true, Bool.false_eq_true, if_false] <;> abel

theorem moves_buffer (hh : home post = mine) (hr : s.record post = none)
    (hl : ¬ (s.location post).Tracked mine) :
    Moves mine home s { s.refresh home post with
      queued := s.queued ++ [(post, msg)]
      qdCreated := s.qdCreated + 1 } {msg} where
  held := by
    simp only [refresh, held, List.map_append, List.map_cons, List.map_nil, ← Multiset.coe_add,
      Multiset.coe_singleton]
    abel
  given := rfl
  created := rfl
  fwdReqs := rfl
  sent _ := .inl
  queued p hp := by
    rcases List.mem_append.mp hp with hp | hp
    · exact .inl hp
    · obtain rfl := List.mem_singleton.mp hp
      exact .inr ⟨hh, hr, hl⟩
  location := refresh_location

theorem moves_send {pe : ℕ} (hpe : pe ≠ mine) :
    Moves mine home s { s.refresh home post with sent := s.sent ++ [(pe, post, msg)] } {msg} where
  held := by
    simp only [refresh, held, List.map_append, List.map_cons, List.map_nil, ← Multiset.coe_add,
      Multiset.coe_singleton]
    abel
  given := rfl
  created := rfl
  fwdReqs := rfl
  sent p hp := by
    rcases List.mem_append.mp hp with hp | hp
    · exact .inl hp
    · obtain rfl := List.mem_singleton.mp hp
      exact .inr hpe
  queued _ := .inl
  location := refresh_location

theorem exists_deliver (msg : Msg) (immediate : Bool)
    (hc : ∀ i, s.location i = .cached (some mine) → home i = mine)
    (h : Transition.Leads s.record pre post) :
    ∃ t, s.deliver mine home pre msg immediate = some t ∧ Moves mine home s t {msg} ∧
      t.excess = s.excess ∧ t.qdProcessed = s.qdProcessed := by
  rcases deliver_of_leads msg immediate hc h with
    ⟨-, he⟩ | ⟨hh, hl, he⟩ | ⟨pe, hpe, he⟩
  · refine ⟨_, he, moves_process, ?_, ?_⟩ <;> unfold process <;> split <;> rfl
  · exact ⟨_, he, moves_buffer hh h.end_eq_none hl, by simp [excess, refresh]; omega, rfl⟩
  · exact ⟨_, he, moves_send hpe, rfl, rfl⟩

theorem deliver_eq_none (mine : ℕ) (home : Idx → ℕ) (msg : Msg) (immediate : Bool)
    (h : ¬ ∃ post, Transition.Leads s.record pre post) :
    s.deliver mine home pre msg immediate = none := by
  have : s.dealias pre = none := by
    by_contra hn
    obtain ⟨post, hp⟩ := Option.ne_none_iff_exists'.mp hn
    exact h ⟨post, dealias_eq_some_iff.mp hp⟩
  simp [deliver, this]

theorem Moves.contract {m : Multiset Msg} (h : Moves mine home s t m)
    (hc : ∀ i, s.location i = .cached (some mine) → home i = mine) (i : Idx)
    (hi : t.location i = .cached (some mine)) : home i = mine := by
  rcases h.location i with he | ⟨-, he⟩
  · exact hc i (he ▸ hi)
  · simpa [he] using hi

theorem exists_redeliver (hc : ∀ i, s.location i = .cached (some mine) → home i = mine)
    (h : Transition.Leads s.record idx post) (msgs : List Msg) :
    ∃ t, msgs.foldlM (redeliver mine home idx) s = some t ∧ Moves mine home s t msgs ∧
      t.excess = s.excess - msgs.length := by
  induction msgs generalizing s with
  | nil => exact ⟨s, rfl, .refl, by simp⟩
  | cons msg msgs ih =>
    obtain ⟨r, hr, hm, he, hp⟩ := exists_deliver msg true hc h
    set r' : Branch Idx Msg := { r with qdProcessed := r.qdProcessed + 1 } with hr'
    have hm' : Moves mine home s r' {msg} :=
      ⟨hm.held, hm.given, hm.created, hm.fwdReqs, hm.sent, hm.queued, hm.location⟩
    have he' : r'.excess = s.excess - 1 := by
      rw [← he]; simp only [hr', excess]; omega
    obtain ⟨t, ht, hmt, het⟩ := ih (hm'.contract hc)
      (by rwa [show r'.record = s.record from congrArg (fun l i => List.lookup i l) hm'.fwdReqs])
    refine ⟨t, ?_, ?_, ?_⟩
    · simp [List.foldlM_cons, redeliver, hr, ← hr', ht]
    · rw [← Multiset.cons_coe, ← Multiset.singleton_add, add_comm]
      exact hm'.trans hmt
    · rw [het, he', List.length_cons]; omega

theorem redeliver_eq_none (h : ¬ ∃ post, Transition.Leads s.record idx post) {msgs : List Msg}
    (hm : msgs ≠ []) : msgs.foldlM (redeliver mine home idx) s = none := by
  obtain ⟨msg, msgs, rfl⟩ := List.exists_cons_of_ne_nil hm
  simp [List.foldlM_cons, redeliver, deliver_eq_none mine home _ true h]

theorem filter_append_perm_queued (idx : Idx) :
    (s.queued.filter (·.1 = idx) ++ s.queued.filter (·.1 ≠ idx)).Perm s.queued := by
  simpa using List.filter_append_perm (fun p : Idx × Msg => decide (p.1 = idx)) s.queued

theorem exists_resyncQueue (hc : ∀ i, s.location i = .cached (some mine) → home i = mine)
    (h : Transition.Leads s.record idx post) :
    ∃ t, s.resyncQueue mine home idx = some t ∧ t.held = s.held ∧ t.excess = s.excess ∧
      ∃ m, Moves mine home { s with queued := s.queued.filter (·.1 ≠ idx) } t m := by
  obtain ⟨t, ht, hm, he⟩ := exists_redeliver
    (s := { s with queued := s.queued.filter (·.1 ≠ idx) }) hc h
    ((s.queued.filter (·.1 = idx)).map Prod.snd)
  have hp := filter_append_perm_queued (s := s) idx
  refine ⟨t, ht, ?_, ?_, _, hm⟩
  · have hq := Multiset.coe_eq_coe.mpr (hp.map Prod.snd)
    rw [List.map_append, ← Multiset.coe_add] at hq
    rw [hm.held]
    simp only [held, ← hq]
    abel
  · have hq := hp.length_eq
    rw [List.length_append] at hq
    rw [he, List.length_map]
    simp only [excess]
    omega

theorem resyncQueue_of_unqueued (mine : ℕ) (home : Idx → ℕ) (h : ∀ p ∈ s.queued, p.1 ≠ idx) :
    s.resyncQueue mine home idx = some s := by
  have h0 : s.queued.filter (·.1 = idx) = [] := by simpa [List.filter_eq_nil_iff] using h
  have h1 : s.queued.filter (·.1 ≠ idx) = s.queued := by simpa [List.filter_eq_self] using h
  unfold resyncQueue
  rw [h0, h1]
  rfl

theorem resyncQueue_eq_none (mine : ℕ) (home : Idx → ℕ)
    (h : ¬ ∃ post, Transition.Leads s.record idx post) {p : Idx × Msg} (hp : p ∈ s.queued)
    (hi : p.1 = idx) : s.resyncQueue mine home idx = none := by
  refine redeliver_eq_none (s := { s with queued := s.queued.filter (·.1 ≠ idx) }) h fun h0 => ?_
  have hmem : p ∈ s.queued.filter (·.1 = idx) := by simp [hp, hi]
  rw [List.map_eq_nil_iff.mp h0] at hmem
  simp at hmem

end Branch

section Run

variable {s t : Branch Idx Msg} {e : Event Idx Msg}

open Branch

/-- Every message given to this PE is held once, or was sent to another PE. -/
structure Conserved (mine : ℕ) (s : Branch Idx Msg) : Prop where
  given : (s.given : Multiset Msg) = s.held
  counted : s.qdCreated = s.qdProcessed + s.queued.length
  elsewhere : ∀ p ∈ s.sent, p.1 ≠ mine

/-- At the home PE of an index, nothing stays buffered for an element created or
forwarded. -/
def Unstranded (mine : ℕ) (home : Idx → ℕ) (s : Branch Idx Msg) : Prop :=
  ∀ i, home i = mine → s.created i = true ∨ s.record i ≠ none → ∀ p ∈ s.queued, p.1 ≠ i

def CreatesUnqueued (s : Branch Idx Msg) (e : Event Idx Msg) : Prop :=
  ∀ idx l, e = .create idx l → ∀ p ∈ s.queued, p.1 ≠ idx

/-- The messages that the event delivers follow records that end somewhere. -/
def Returns (mine : ℕ) (home : Idx → ℕ) (s : Branch Idx Msg) : Event Idx Msg → Prop
  | .deliver idx _ _ => ∃ post, Transition.Leads s.record idx post
  | .handle idx _ => ∃ post, Transition.Leads s.record idx post
  | .forward src dst => home src = mine → s.record src = none → (∃ p ∈ s.queued, p.1 = src) →
      ∃ post, Transition.Leads (record { s with fwdReqs := (src, dst) :: s.fwdReqs }) src post
  | _ => True

/-- What the environment promises, and where messages are buffered and sent. -/
structure Tidy (mine : ℕ) (home : Idx → ℕ) (s : Branch Idx Msg) : Prop where
  contract : ∀ i, s.location i = .cached (some mine) → home i = mine
  tracked : ∀ i, home i = mine → s.created i = true → (s.location i).Tracked mine
  queued_home : ∀ p ∈ s.queued, home p.1 = mine
  elsewhere : ∀ p ∈ s.sent, p.1 ≠ mine

structure Inv (mine : ℕ) (home : Idx → ℕ) (s : Branch Idx Msg) : Prop
    extends Tidy mine home s where
  given : (s.given : Multiset Msg) = s.held
  counted : s.excess = 0

omit [DecidableEq Idx] in
theorem inv_init : Inv mine home ({} : Branch Idx Msg) := by
  refine ⟨⟨?_, ?_, ?_, ?_⟩, rfl, rfl⟩ <;> simp

omit [DecidableEq Idx] in
theorem Inv.conserved (hi : Inv mine home s) : Conserved mine s :=
  ⟨hi.given, by have := hi.counted; simp only [excess] at this; omega, hi.elsewhere⟩

theorem Tidy.moves (h : Tidy mine home s) {m : Multiset Msg} (hm : Moves mine home s t m) :
    Tidy mine home t where
  contract := hm.contract h.contract
  tracked i hh hc := by
    have ht := h.tracked i hh (hm.created ▸ hc)
    rcases hm.location i with he | ⟨he, -⟩
    · rwa [he]
    · simp [he, Location.Tracked] at ht
  queued_home p hp := (hm.queued p hp).elim (h.queued_home p) And.left
  elsewhere p hp := (hm.sent p hp).elim (h.elsewhere p) id

theorem Unstranded.moves (hu : Unstranded mine home s) (h : Tidy mine home s) {m : Multiset Msg}
    (hm : Moves mine home s t m) : Unstranded mine home t := by
  rintro _ hh hi p hp rfl
  have hrec : t.record p.1 = s.record p.1 := by simp only [record, hm.fwdReqs]
  rcases hm.queued p hp with hq | ⟨-, hr, hl⟩
  · exact hu p.1 hh (by rwa [hm.created, hrec] at hi) p hq rfl
  · rcases hi with hc | hc
    · exact hl (h.tracked p.1 hh (hm.created ▸ hc))
    · exact hc (hrec.trans hr)

theorem Tidy.inv (h : Tidy mine home s) {m : Multiset Msg} (hm : Moves mine home s t m)
    (hg : (s.given : Multiset Msg) = m + s.held) (he : t.excess = 0) : Inv mine home t :=
  { h.moves hm with
    given := by rw [hm.given, hg, hm.held]
    counted := he }

theorem inv_stopForwarding (hi : Inv mine home s) (idx : Idx) :
    Inv mine home (s.stopForwarding mine home idx) := by
  unfold stopForwarding
  split
  · exact ⟨⟨hi.contract, hi.tracked, hi.queued_home, hi.elsewhere⟩, hi.given, hi.counted⟩
  · exact hi

theorem record_stopForwarding {i : Idx} (h : (s.stopForwarding mine home idx).record i ≠ none) :
    s.record i ≠ none := by
  unfold stopForwarding at h
  split at h
  · rw [record_ne_none_iff] at h ⊢
    obtain ⟨p, hp, rfl⟩ := h
    exact ⟨p, List.mem_of_mem_filter hp, rfl⟩
  · exact h

variable [DecidableEq Msg]

def Outcome (mine : ℕ) (home : Idx → ℕ) (s : Branch Idx Msg) (e : Event Idx Msg) : Prop :=
  (Returns mine home s e ∧ (step mine home s e = .error .duplicateForwardingRequest ∨
    ∃ t, step mine home s e = .ok t ∧ Inv mine home t ∧
      (Unstranded mine home s → CreatesUnqueued s e → Unstranded mine home t))) ∨
  (¬ Returns mine home s e ∧ step mine home s e = .error .endless)

theorem Inv.outcome_deliver (hi : Inv mine home s) (idx : Idx) (msg : Msg) (immediate : Bool) :
    Outcome mine home s (.deliver idx msg immediate) := by
  set s₁ : Branch Idx Msg := { s with given := s.given ++ [msg] } with hs₁
  have h₁ : Tidy mine home s₁ := ⟨hi.contract, hi.tracked, hi.queued_home, hi.elsewhere⟩
  by_cases h : ∃ post, Transition.Leads s.record idx post
  · obtain ⟨post, hp⟩ := h
    obtain ⟨t, ht, hm, he, -⟩ := exists_deliver (s := s₁) msg immediate hi.contract hp
    refine .inl ⟨⟨post, hp⟩, .inr ⟨t, by simp [step, ← hs₁, ht, orEndless], h₁.inv hm ?_ ?_, ?_⟩⟩
    · have hg : (s₁.given : Multiset Msg) = s.given + {msg} := by
        rw [hs₁, ← Multiset.coe_singleton, Multiset.coe_add]
      rw [hg, hi.given, add_comm]
      rfl
    · exact he.trans hi.counted
    · exact fun hu _ => Unstranded.moves (s := s₁) hu h₁ hm
  · have hn := deliver_eq_none (s := s₁) mine home msg immediate h
    exact .inr ⟨h, by simp [step, ← hs₁, hn, orEndless]⟩

theorem Inv.outcome_handle (hi : Inv mine home s) {idx : Idx} {msg : Msg}
    (hmem : (idx, msg) ∈ s.pushed) : Outcome mine home s (.handle idx msg) := by
  set s₁ : Branch Idx Msg := { s with pushed := s.pushed.erase (idx, msg) } with hs₁
  have h₁ : Tidy mine home s₁ := ⟨hi.contract, hi.tracked, hi.queued_home, hi.elsewhere⟩
  by_cases h : ∃ post, Transition.Leads s.record idx post
  · obtain ⟨post, hp⟩ := h
    obtain ⟨t, ht, hm, he, -⟩ := exists_deliver (s := s₁) msg true hi.contract hp
    refine .inl ⟨⟨post, hp⟩, .inr ⟨t, by simp [step, ← hs₁, ht, orEndless], h₁.inv hm ?_ ?_, ?_⟩⟩
    · have hperm := Multiset.coe_eq_coe.mpr ((List.perm_cons_erase hmem).map Prod.snd)
      rw [List.map_cons, ← Multiset.cons_coe, ← Multiset.singleton_add] at hperm
      have hg : (s₁.given : Multiset Msg) = s.given := rfl
      rw [hg, hi.given]
      simp only [hs₁, held, hperm]
      abel
    · exact he.trans hi.counted
    · exact fun hu _ => Unstranded.moves (s := s₁) hu h₁ hm
  · have hn := deliver_eq_none (s := s₁) mine home msg true h
    exact .inr ⟨h, by simp [step, ← hs₁, hn, orEndless]⟩

/-- A new record takes its messages out of the queue, and none comes back to it. -/
theorem Inv.outcome_forward (hi : Inv mine home s) (src dst : Idx) :
    Outcome mine home s (.forward src dst) := by
  by_cases hh : home src = mine
  · cases hr : s.record src with
    | some d =>
      exact .inl ⟨fun _ h => by simp [hr] at h, .inl (by simp [step, Branch.forward, hh, hr])⟩
    | none =>
      set s₁ : Branch Idx Msg := { s with fwdReqs := (src, dst) :: s.fwdReqs } with hs₁
      have hrec : ∀ i ≠ src, s₁.record i = s.record i := fun i hi => by
        simp [hs₁, record, List.lookup_cons, beq_eq_false_iff_ne.mpr hi]
      by_cases hq : ∃ p ∈ s.queued, p.1 = src
      · by_cases h : ∃ post, Transition.Leads s₁.record src post
        · obtain ⟨post, hp⟩ := h
          obtain ⟨t, ht, hheld, he, m, hm⟩ := exists_resyncQueue (s := s₁) hi.contract hp
          set s₂ : Branch Idx Msg := { s₁ with queued := s₁.queued.filter (·.1 ≠ src) } with hs₂
          have h₂ : Tidy mine home s₂ := ⟨hi.contract, hi.tracked,
            fun p hp => hi.queued_home p (List.mem_of_mem_filter hp), hi.elsewhere⟩
          refine .inl ⟨fun _ _ _ => ⟨post, hp⟩, .inr ⟨t, ?_, ?_, fun hu _ => ?_⟩⟩
          · simp [step, Branch.forward, hh, hr, ← hs₁, ht]
          · exact { h₂.moves hm with
              given := by rw [hm.given, hheld]; exact hi.given
              counted := he.trans hi.counted }
          · refine Unstranded.moves (s := s₂) ?_ h₂ hm
            rintro i hhi hci p hp rfl
            obtain ⟨hp, hne⟩ := List.mem_filter.mp hp
            have hne : p.1 ≠ src := by simpa using hne
            exact hu p.1 hhi (hci.imp_right fun h => by rwa [← hrec p.1 hne]) p hp rfl
        · obtain ⟨p, hp, hps⟩ := hq
          have hn := resyncQueue_eq_none (s := s₁) mine home h hp hps
          refine .inr ⟨fun hret => h (hret hh hr ⟨p, hp, hps⟩), ?_⟩
          simp [step, Branch.forward, hh, hr, ← hs₁, hn]
      · have hq' : ∀ p ∈ s₁.queued, p.1 ≠ src := fun p hp hps => hq ⟨p, hp, hps⟩
        have ht := resyncQueue_of_unqueued mine home hq'
        refine .inl ⟨fun _ _ h => absurd h hq, .inr ⟨s₁, ?_, ?_, fun hu _ => ?_⟩⟩
        · simp [step, Branch.forward, hh, hr, ← hs₁, ht]
        · exact ⟨⟨hi.contract, hi.tracked, hi.queued_home, hi.elsewhere⟩, hi.given, hi.counted⟩
        · rintro i hhi hci p hp rfl
          have hne := hq' p hp
          exact hu p.1 hhi (hci.imp_right fun h => by rwa [← hrec p.1 hne]) p hp rfl
  · exact .inl ⟨fun h => absurd h hh,
      .inr ⟨s, by simp [step, Branch.forward, hh], hi, fun hu _ => hu⟩⟩

omit [DecidableEq Msg] in
theorem Unstranded.stopForwarding (hu : Unstranded mine home s) (idx : Idx) :
    Unstranded mine home (s.stopForwarding mine home idx) := by
  intro i hh hi
  have hq : (s.stopForwarding mine home idx).queued = s.queued ∧
      (s.stopForwarding mine home idx).created = s.created := by
    unfold Branch.stopForwarding; split <;> exact ⟨rfl, rfl⟩
  rw [hq.1]
  exact hu i hh (hi.imp (fun h => hq.2 ▸ h) record_stopForwarding)

theorem Inv.outcome_create (hi : Inv mine home s) {idx : Idx} {l : Location}
    (hp : l = .here ∨ home idx = mine ∧ l.Tracked mine) :
    Outcome mine home s (.create idx l) := by
  set s₁ : Branch Idx Msg := { s with
    location := Function.update s.location idx l
    created := Function.update s.created idx true } with hs₁
  have hl : l.Tracked mine := hp.elim .inl And.right
  have h₁ : Inv mine home s₁ := by
    refine ⟨⟨fun i hc => ?_, fun i hh hc => ?_, hi.queued_home, hi.elsewhere⟩, hi.given,
      hi.counted⟩
    · rcases eq_or_ne i idx with rfl | hne
      · have hc : l = .cached (some mine) := by simpa [hs₁] using hc
        rcases hl with rfl | ⟨pe, hpe, rfl⟩ <;> simp_all
      · exact hi.contract i (by simpa [hs₁, hne] using hc)
    · rcases eq_or_ne i idx with rfl | hne
      · simpa [hs₁] using hl
      · simpa [hs₁, hne] using hi.tracked i hh (by simpa [hs₁, hne] using hc)
  refine .inl ⟨trivial, .inr ⟨_, rfl, inv_stopForwarding h₁ idx, fun hu hc => ?_⟩⟩
  refine Unstranded.stopForwarding (s := s₁) (fun i hh hci p hq hpi => ?_) idx
  rcases eq_or_ne i idx with rfl | hne
  · exact hc i l rfl p hq hpi
  · exact hu i hh (hci.imp_left fun h => by simpa [hs₁, hne] using h) p hq hpi

omit [DecidableEq Msg] in
theorem Inv.setLocation (hi : Inv mine home s) {idx : Idx} {l : Location} {c : Idx → Bool}
    (hl : l = .cached (some mine) → home idx = mine)
    (hc : ∀ i, c i = true → s.created i = true)
    (ht : home idx = mine → c idx = true → l.Tracked mine) :
    Inv mine home { s with location := Function.update s.location idx l, created := c } ∧
      (Unstranded mine home s → Unstranded mine home { s with
        location := Function.update s.location idx l
        created := c }) := by
  refine ⟨⟨⟨fun i he => ?_, fun i hh hci => ?_, hi.queued_home, hi.elsewhere⟩, hi.given,
    hi.counted⟩, fun hu i hh hci => hu i hh (hci.imp_left (hc i))⟩
  · rcases eq_or_ne i idx with rfl | hne
    · exact hl (by simpa using he)
    · exact hi.contract i (by simpa [hne] using he)
  · rcases eq_or_ne i idx with rfl | hne
    · simpa using ht hh hci
    · simpa [hne] using hi.tracked i hh (hc i hci)

theorem Inv.outcome (hi : Inv mine home s) (hp : Permitted mine home s e) :
    Outcome mine home s e := by
  cases e with
  | deliver idx msg immediate => exact hi.outcome_deliver idx msg immediate
  | handle idx msg => exact hi.outcome_handle hp
  | forward src dst => exact hi.outcome_forward src dst
  | stopForwarding idx =>
    exact .inl ⟨trivial,
      .inr ⟨_, rfl, inv_stopForwarding hi idx, fun hu _ => hu.stopForwarding idx⟩⟩
  | create idx l => exact hi.outcome_create hp
  | destroy idx l =>
    obtain ⟨h₁, hu⟩ := hi.setLocation (c := Function.update s.created idx false) hp.2
      (fun i h => by
        rcases eq_or_ne i idx with rfl | hne
        · simp at h
        · simpa [hne] using h)
      (by simp)
    exact .inl ⟨trivial, .inr ⟨_, rfl, h₁, fun h _ => hu h⟩⟩
  | locate idx l =>
    obtain ⟨h₁, hu⟩ := hi.setLocation (c := s.created) hp.1 (fun _ => id) hp.2
    exact .inl ⟨trivial, .inr ⟨_, rfl, h₁, fun h _ => hu h⟩⟩

theorem Inv.step (hi : Inv mine home s) (h : Step mine home s e t) :
    Inv mine home t ∧
      (Unstranded mine home s → CreatesUnqueued s e → Unstranded mine home t) := by
  rcases hi.outcome h.1 with ⟨-, he | ⟨u, hu, hiu⟩⟩ | ⟨-, he⟩
  · simp [h.2] at he
  · obtain rfl : t = u := by simpa [h.2] using hu
    exact hiu
  · simp [h.2] at he

theorem Inv.endless_iff (hi : Inv mine home s) (hp : Permitted mine home s e) :
    Interceptor.step mine home s e = .error .endless ↔ ¬ Returns mine home s e := by
  rcases hi.outcome hp with ⟨hr, he | ⟨u, hu, -⟩⟩ | ⟨hr, he⟩
  · exact iff_of_false (by simp [he]) (not_not.mpr hr)
  · exact iff_of_false (by simp [hu]) (not_not.mpr hr)
  · exact iff_of_true he hr

/-- A creation that finds a message buffered for its index leaves it there. -/
theorem Inv.stranded (hi : Inv mine home s) (h : Step mine home s e t)
    (hc : ¬ CreatesUnqueued s e) : ¬ Unstranded mine home t := by
  unfold CreatesUnqueued at hc
  push Not at hc
  obtain ⟨idx, l, rfl, p, hp, rfl⟩ := hc
  obtain rfl : _ = t := Except.ok.inj h.2
  have hh := hi.queued_home p hp
  intro hu
  refine hu p.1 hh (.inl ?_) p ?_ rfl
  · simp [Branch.stopForwarding, hh]
  · simpa [Branch.stopForwarding, hh] using hp

/-- A run conserves the messages given to the PE, strands none exactly when each
creation finds none buffered for its index, and a call fails to return exactly when
the records of the index it delivers to lead nowhere. -/
theorem conserved_and_unstranded_iff {es : List (Event Idx Msg)}
    (h : Transition.Run (Step mine home) {} es s) :
    Conserved mine s ∧
    (Transition.Throughout (Step mine home) (Unstranded mine home) {} es ↔
      Transition.Run (Transition.restrict (Step mine home) CreatesUnqueued) {} es s) ∧
    ∀ e, Permitted mine home s e →
      (Interceptor.step mine home s e = .error .endless ↔ ¬ Returns mine home s e) := by
  have hinv : Inv mine home s := h.invariant (fun _ _ _ hi hs => (hi.step hs).1) inv_init
  refine ⟨hinv.conserved, ?_, fun e hp => hinv.endless_iff hp⟩
  refine Transition.Run.throughout_iff (I := fun s => Inv mine home s ∧ Unstranded mine home s)
    ?_ ?_ (fun _ hi => hi.2) ?_ ⟨inv_init, fun _ _ _ p hp => absurd hp (by simp)⟩ h
  · intro s a t u hs hs'
    exact Except.ok.inj (hs.2.symm.trans hs'.2)
  · intro s a t hi hok hs
    exact ⟨(hi.1.step hs).1, (hi.1.step hs).2 hi.2 hok⟩
  · exact fun s a t hi hok hs => hi.1.stranded hs hok

theorem snoc_unqueued {es : List (Event Idx Msg)}
    (h : Transition.Run (Transition.restrict (Step mine home) CreatesUnqueued) {} es s)
    (e : Event Idx Msg) (hc : CreatesUnqueued s e) (hp : Permitted mine home s e)
    (ht : Interceptor.step mine home s e = .ok t) :
    Transition.Run (Transition.restrict (Step mine home) CreatesUnqueued) {} (es ++ [e]) t :=
  h.snoc ⟨hc, hp, ht⟩

/-- Two messages for index 6 are buffered until it is forwarded to the element 8, which receives
them and a third one. A message for an index of another home PE is sent there. -/
def redirected : List (Event ℕ ℕ) :=
  [.deliver 6 1 true, .deliver 6 2 false, .create 8 .here, .forward 6 8, .deliver 6 3 false,
    .handle 8 3, .deliver 7 4 true, .deliver 10 5 true, .destroy 8 .unknown]

theorem unstranded_redirected : ∃ s : Branch ℕ ℕ, s.received = [(8, 1), (8, 2), (8, 3)] ∧
    s.sent = [(1, 7, 4)] ∧ s.queued = [(10, 5)] ∧ Conserved 0 s ∧
    Transition.Throughout (Step 0 (· % 2)) (Unstranded 0 (· % 2)) {} redirected := by
  have h : Transition.Run (Transition.restrict (Step 0 (· % 2)) CreatesUnqueued)
      ({} : Branch ℕ ℕ) [] _ := .nil
  have h := snoc_unqueued h (.deliver 6 1 true) (by simp [CreatesUnqueued]) trivial rfl
  have h := snoc_unqueued h (.deliver 6 2 false) (by simp [CreatesUnqueued]) trivial rfl
  have h := snoc_unqueued h (.create 8 .here) (by simp [CreatesUnqueued]) (.inl rfl) rfl
  have h := snoc_unqueued h (.forward 6 8) (by simp [CreatesUnqueued]) trivial rfl
  have h := snoc_unqueued h (.deliver 6 3 false) (by simp [CreatesUnqueued]) trivial rfl
  have h := snoc_unqueued h (.handle 8 3) (by simp [CreatesUnqueued])
    (List.mem_singleton_self _) rfl
  have h := snoc_unqueued h (.deliver 7 4 true) (by simp [CreatesUnqueued]) trivial rfl
  have h := snoc_unqueued h (.deliver 10 5 true) (by simp [CreatesUnqueued]) trivial rfl
  have h := snoc_unqueued h (.destroy 8 .unknown) (by simp [CreatesUnqueued])
    ⟨by decide, fun hl => by cases hl⟩ rfl
  have hall := conserved_and_unstranded_iff h.of_restrict
  exact ⟨_, rfl, rfl, rfl, hall.1, hall.2.1.mpr h⟩

/-- A message that arrives at its home PE before the element is created stays buffered
after the creation. -/
theorem stranded_by_creation : ¬ ∀ (mine : ℕ) (home : ℕ → ℕ) (es : List (Event ℕ ℕ))
    (s : Branch ℕ ℕ), Transition.Run (Step mine home) {} es s → Unstranded mine home s := by
  intro h
  have hr : Transition.Run (Step 0 fun _ => 0) ({} : Branch ℕ ℕ)
      [.deliver 7 1 true, .create 7 .here] _ :=
    .snoc (.snoc .nil ⟨trivial, rfl⟩) ⟨.inl rfl, rfl⟩
  exact h 0 (fun _ => 0) _ _ hr 7 rfl (.inl rfl) (7, 1) (by decide) rfl

end Run

end Hypercomm.Interceptor
