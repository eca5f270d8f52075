import Hypercomm.Futures.Basic

/-! # Handing off a value

A future is set once and requested once, and the messages for its port arrive in any
order. The value is in one place at a time until the callback of the request gets it.
-/

namespace Hypercomm.Futures

open Transition

variable {ι V κ : Type*}

namespace State

inductive HandOff (ι V : Type*) where
  | set (v : V)
  | request
  | deliver (m : Message ι V)

/-- A future is set once, and a second request of the same locality is fatal. -/
inductive HandStep [DecidableEq ι] (f : Future ι) (me : ι) (k : κ) (s : State ι V κ) :
    HandOff ι V → State ι V κ → Prop
  | set {v : V} : s.values f = none → HandStep f me k s (.set v) (s.set f v)
  | request {t : State ι V κ} : s.requestFuture me f (.other k) = some t →
      HandStep f me k s .request t
  | deliver {m : Message ι V} {n : Multiset (Message ι V)} {t : State ι V κ} :
      s.network f = m ::ₘ n →
      handle { s with network := Function.update s.network f n } f m = some t →
      HandStep f me k s (.deliver m) t

/-- Where the value of a future is. -/
inductive Place (V : Type*) where
  | unset
  | sent (v : V)
  | queued (v : V)
  | forwarded (v : V)
  | obtained (v : V)

inductive Request where
  | idle
  | opening
  | opened
  deriving DecidableEq

namespace Place

def value? : Place V → Option V
  | unset => none
  | sent v => some v
  | queued v => some v
  | forwarded v => some v
  | obtained v => some v

def queue : Place V → List V
  | queued v => [v]
  | _ => []

def messages (f : Future ι) (me : ι) : Place V → Multiset (Message ι V)
  | sent v => {.value f.source v}
  | forwarded v => {.value me v}
  | _ => 0

def result (k : κ) : Place V → List (κ × V)
  | obtained v => [(k, v)]
  | _ => []

/-- How many messages the value still needs. -/
def rank : Place V → ℕ
  | unset => 3
  | sent _ => 2
  | queued _ => 1
  | forwarded _ => 1
  | obtained _ => 0

end Place

namespace Request

def messages (f : Future ι) (me : ι) : Request → Multiset (Message ι V)
  | opening => {.opener f.source me}
  | _ => 0

def rank : Request → ℕ
  | idle => 2
  | opening => 1
  | opened => 0

end Request

/-- The value can be in a place only before or after the source has opened the port. -/
def Possible (f : Future ι) (me : ι) (q : Request) : Place V → Prop
  | .queued _ => q ≠ .opened
  | .forwarded _ => q = .opened ∧ me ≠ f.source
  | .obtained _ => q = .opened
  | _ => True

/-- The value is in one place, and nowhere else. -/
structure Holds (f : Future ι) (me : ι) (k : κ) (before : List (κ × V)) (p : Place V)
    (q : Request) (s : State ι V κ) : Prop where
  possible : Possible f me q p
  remote : q = .opening → me ≠ f.source
  network : s.network f = q.messages f me + p.messages f me
  values : s.values f = p.value?
  queue : s.portQueue f.source f = p.queue
  no_queue : ∀ e, e ≠ f.source → s.portQueue e f = []
  closed : q ≠ .opened → s.entryPorts f.source f = none
  opened : q = .opened → me ≠ f.source → s.entryPorts f.source f = some (.forward me)
  idle : q = .idle → s.entryPorts me f = none
  requested : q ≠ .idle → s.entryPorts me f = some (.other k)
  obtained : s.obtained = before ++ p.result k

section Steps

variable [DecidableEq ι] {f : Future ι} {me : ι} {k : κ} {before : List (κ × V)}
variable {s t : State ι V κ} {p : Place V} {q : Request} {v : V}

theorem Holds.set (h : Holds f me k before p q s) (hv : s.values f = none) :
    Holds f me k before (.sent v) q (s.set f v) ∧ p.rank = 3 := by
  have hp : p = .unset := by
    rw [h.values] at hv
    cases p <;> first | rfl | cases hv
  subst hp
  refine ⟨⟨trivial, h.remote, ?_, ?_, h.queue, h.no_queue, h.closed, h.opened, h.idle,
    h.requested, h.obtained⟩, rfl⟩
  · have hn : (s.set f v).network f = .value f.source v ::ₘ s.network f := by
      simp [State.set, post]
    rw [hn, h.network]
    simp [Place.messages, ← Multiset.singleton_add, Multiset.add_comm]
  · simp [State.set, post, Place.value?]

theorem receive_of_closed {elt : ι} (h : s.entryPorts elt f = none) :
    s.receive elt f v = s.setQueue elt f (s.portQueue elt f ++ [v]) := by
  rw [receive, h]

theorem receive_of_open {elt : ι} {cb : Callback ι κ} (h : s.entryPorts elt f = some cb) :
    s.receive elt f v = s.send f cb v := by
  rw [receive, h]

theorem Holds.deliver_sent (h : Holds f me k before (.sent v) q s) :
    ∃ p', Holds f me k before p' q (receive
      { s with network := Function.update s.network f (q.messages f me) } f.source f v) ∧
      p'.rank < 2 := by
  by_cases hq : q = .opened
  · subst hq
    by_cases hme : me = f.source
    · refine ⟨.obtained v, ?_, Nat.zero_lt_two⟩
      have hport := h.requested (by decide)
      rw [hme] at hport
      rw [receive_of_open (by exact hport)]
      refine ⟨rfl, h.remote, ?_, h.values, h.queue, h.no_queue, h.closed, h.opened, h.idle,
        h.requested, ?_⟩
      · simp [send, Place.messages]
      · simp [send, h.obtained, Place.result]
    · refine ⟨.forwarded v, ?_, Nat.one_lt_two⟩
      rw [receive_of_open (by exact h.opened rfl hme)]
      refine ⟨⟨rfl, hme⟩, h.remote, ?_, h.values, h.queue, h.no_queue, h.closed, h.opened,
        h.idle, h.requested, h.obtained⟩
      simp [send, post, Place.messages, Request.messages]
  · refine ⟨.queued v, ?_, Nat.one_lt_two⟩
    rw [receive_of_closed (by exact h.closed hq)]
    refine ⟨hq, h.remote, ?_, h.values, ?_, fun e he => ?_, h.closed, h.opened, h.idle,
      h.requested, h.obtained⟩
    · simp [setQueue, Place.messages]
    · simp [setQueue_portQueue, h.queue, Place.queue]
    · simp [setQueue_portQueue, he, h.no_queue e he]

theorem Holds.deliver_forwarded (h : Holds f me k before (.forwarded v) q s) :
    Holds f me k before (.obtained v) q (receive
      { s with network := Function.update s.network f (q.messages f me) } me f v) := by
  obtain ⟨hq, hme⟩ := h.possible
  rw [receive_of_open (by exact h.requested (by rw [hq]; decide))]
  refine ⟨hq, h.remote, ?_, h.values, h.queue, h.no_queue, h.closed, h.opened, h.idle,
    h.requested, ?_⟩
  · simp [send, Place.messages]
  · simp [send, h.obtained, Place.result]

structure Opened (elt : ι) (f : Future ι) (cb : Callback ι κ) (s t : State ι V κ) : Prop where
  entryPorts : ∀ e, t.entryPorts e f = if e = elt then some cb else s.entryPorts e f
  portQueue : ∀ e, t.portQueue e f = if e = elt then [] else s.portQueue e f
  values : t.values = s.values
  network : t.network = s.network
  obtained : t.obtained = s.obtained

theorem exists_opened {elt : ι} {cb : Callback ι κ} (ht : s.openPort elt f cb = some t) :
    ∃ u, Opened elt f cb s u ∧ s.entryPorts elt f = none ∧
      t = (s.portQueue elt f).foldl (fun s v => s.send f cb v) u := by
  unfold openPort at ht
  split at ht
  · cases ht
  · rename_i hclosed
    refine ⟨(s.setEntry elt f cb).setQueue elt f [], ⟨fun e => ?_, fun e => ?_, rfl, rfl, rfl⟩,
      hclosed, (Option.some.inj ht).symm⟩
    · have he : ((s.setEntry elt f cb).setQueue elt f []).entryPorts e f =
          (s.setEntry elt f cb).entryPorts e f := rfl
      rw [he, setEntry_entryPorts]
      simp
    · rw [setQueue_portQueue]
      simp [setEntry]

theorem Holds.opened_source {u w : State ι V κ} {cb : Callback ι κ} {p' : Place V}
    (h : Holds f me k before p q s) (hu : Opened f.source f cb s u)
    (hports : w.entryPorts = u.entryPorts) (hqueue : w.portQueue = u.portQueue)
    (hcb : me = f.source ∧ cb = .other k ∨ me ≠ f.source ∧ cb = .forward me ∧ q ≠ .idle)
    (hp : Possible f me .opened p') (hq : p'.queue = []) (hv : w.values f = p'.value?)
    (hn : w.network f = p'.messages f me) (ho : w.obtained = before ++ p'.result k) :
    Holds f me k before p' .opened w := by
  refine ⟨hp, fun hc => (by cases hc), by simpa [Request.messages] using hn, hv, ?_,
    fun e he => ?_, fun hc => absurd rfl hc, fun _ hme => ?_, fun hc => (by cases hc),
    fun _ => ?_, ho⟩
  · rw [hqueue, hu.portQueue, if_pos rfl, hq]
  · rw [hqueue, hu.portQueue, if_neg he]
    exact h.no_queue e he
  · rw [hports, hu.entryPorts, if_pos rfl]
    rcases hcb with ⟨hc, -⟩ | ⟨-, hc, -⟩
    · exact absurd hc hme
    · rw [hc]
  · rw [hports, hu.entryPorts]
    rcases hcb with ⟨hme, hc⟩ | ⟨hme, -, hi⟩
    · rw [if_pos hme, hc]
    · rw [if_neg hme]
      exact h.requested hi

theorem Holds.deliver_opener (h : Holds f me k before p .opening s)
    (ht : openPort { s with network := Function.update s.network f (p.messages f me) } f.source f
      (.forward me) = some t) :
    ∃ p', Holds f me k before p' .opened t ∧ p'.rank ≤ p.rank := by
  have hme := h.remote rfl
  obtain ⟨u, hu, -, rfl⟩ := exists_opened ht
  have hcb : me = f.source ∧ (.forward me : Callback ι κ) = .other k ∨
      me ≠ f.source ∧ (.forward me : Callback ι κ) = .forward me ∧ Request.opening ≠ .idle :=
    .inr ⟨hme, rfl, by decide⟩
  have hu' : Opened f.source f (.forward me) s
      { u with network := Function.update u.network f (s.network f) } :=
    ⟨hu.entryPorts, hu.portQueue, hu.values, by rw [hu.network]; simp, hu.obtained⟩
  have hvals : u.values f = p.value? := by
    rw [hu.values]
    exact h.values
  have hnet : u.network f = p.messages f me := by
    rw [hu.network]
    simp
  have hobt : u.obtained = before ++ p.result k := hu.obtained.trans h.obtained
  have hqueue : (portQueue { s with
      network := Function.update s.network f (p.messages f me) } f.source f) = p.queue := h.queue
  rw [hqueue]
  cases p with
  | unset => exact ⟨.unset, h.opened_source hu' rfl rfl hcb trivial rfl hvals hnet hobt, le_rfl⟩
  | sent v => exact ⟨.sent v, h.opened_source hu' rfl rfl hcb trivial rfl hvals hnet hobt, le_rfl⟩
  | queued v =>
    refine ⟨.forwarded v, h.opened_source (w := u.send f (.forward me) v) hu' rfl rfl hcb
      ⟨rfl, hme⟩ rfl hvals ?_ hobt, le_rfl⟩
    simp [send, hnet, Place.messages]
  | forwarded v => cases h.possible.1
  | obtained v => cases h.possible

theorem Holds.request (h : Holds f me k before p q s)
    (ht : s.requestFuture me f (.other k) = some t) :
    ∃ p' q', Holds f me k before p' q' t ∧ p'.rank + q'.rank < p.rank + q.rank := by
  obtain ⟨r, hr, rfl⟩ := Option.map_eq_some_iff.mp ht
  obtain ⟨u, hu, hclosed, rfl⟩ := exists_opened hr
  obtain rfl : q = .idle := by
    by_contra hq
    rw [h.requested hq] at hclosed
    cases hclosed
  have hvals : u.values f = p.value? := by
    rw [hu.values]
    exact h.values
  have hnet : u.network f = p.messages f me := by
    rw [hu.network, h.network]
    simp [Request.messages]
  have hobt : u.obtained = before ++ p.result k := hu.obtained.trans h.obtained
  by_cases hme : f.source = me
  · subst hme
    have hcb : f.source = f.source ∧ (.other k : Callback ι κ) = .other k ∨
        f.source ≠ f.source ∧ (.other k : Callback ι κ) = .forward f.source ∧
          Request.idle ≠ .idle := .inl ⟨rfl, rfl⟩
    have hlt : ∀ p : Place V, p.rank + Request.opened.rank < p.rank + Request.idle.rank :=
      fun p => Nat.lt_add_of_pos_right Nat.zero_lt_two
    rw [if_pos rfl, h.queue]
    cases p with
    | unset =>
      exact ⟨.unset, .opened, h.opened_source hu rfl rfl hcb trivial rfl hvals hnet hobt, hlt _⟩
    | sent v =>
      exact ⟨.sent v, .opened, h.opened_source hu rfl rfl hcb trivial rfl hvals hnet hobt, hlt _⟩
    | queued v =>
      refine ⟨.obtained v, .opened, h.opened_source (w := u.send f (.other k) v) hu rfl rfl hcb
        rfl rfl hvals hnet ?_, Nat.zero_lt_succ _⟩
      simp [send, hobt, Place.result]
    | forwarded v => cases h.possible.1
    | obtained v => cases h.possible
  · have hq : s.portQueue me f = [] := h.no_queue me (Ne.symm hme)
    refine ⟨p, .opening, ?_, Nat.lt_succ_self _⟩
    rw [if_neg hme, hq, List.foldl_nil]
    refine ⟨?_, fun _ => Ne.symm hme, ?_, hvals, ?_, fun e he => ?_, fun _ => ?_,
      fun hc => (by cases hc), fun hc => (by cases hc), fun _ => ?_, hobt⟩
    · cases p with
      | queued v => exact fun hc => by cases hc
      | forwarded v => cases h.possible.1
      | obtained v => cases h.possible
      | unset => trivial
      | sent v => trivial
    · simp [Request.messages, hnet, ← Multiset.singleton_add]
    · refine (hu.portQueue f.source).trans ?_
      rw [if_neg hme]
      exact h.queue
    · refine (hu.portQueue e).trans ?_
      split_ifs
      · rfl
      · exact h.no_queue e he
    · refine (hu.entryPorts f.source).trans ?_
      rw [if_neg hme]
      exact h.closed (by decide)
    · exact (hu.entryPorts me).trans (if_pos rfl)

omit [DecidableEq ι] in
theorem Holds.message {m : Message ι V} {n : Multiset (Message ι V)}
    (h : Holds f me k before p q s) (hn : s.network f = m ::ₘ n) :
    q = .opening ∧ m = .opener f.source me ∧ n = p.messages f me ∨
      p.messages f me = {m} ∧ n = q.messages f me := by
  rw [h.network] at hn
  have hm : m ∈ q.messages f me + p.messages f me := by
    rw [hn]
    exact Multiset.mem_cons_self m n
  rcases Multiset.mem_add.mp hm with hm | hm
  · left
    cases q with
    | idle => cases hm
    | opened => cases hm
    | opening =>
      obtain rfl := Multiset.mem_singleton.mp hm
      refine ⟨rfl, rfl, ?_⟩
      rw [Request.messages, Multiset.singleton_add] at hn
      exact ((Multiset.cons_inj_right _).mp hn).symm
  · right
    have hp : p.messages f me = {m} := by
      cases p with
      | sent v => rw [Multiset.mem_singleton.mp hm]; rfl
      | forwarded v => rw [Multiset.mem_singleton.mp hm]; rfl
      | unset => cases hm
      | queued v => cases hm
      | obtained v => cases hm
    rw [hp, Multiset.add_comm, Multiset.singleton_add] at hn
    exact ⟨hp, ((Multiset.cons_inj_right _).mp hn).symm⟩

/-- Each step moves the value or the request on. -/
theorem Holds.step {e : HandOff ι V} (h : Holds f me k before p q s)
    (ht : HandStep f me k s e t) :
    ∃ p' q', Holds f me k before p' q' t ∧ p'.rank + q'.rank < p.rank + q.rank := by
  cases ht with
  | @set v hv =>
    obtain ⟨hset, hr⟩ := h.set hv
    refine ⟨.sent v, q, hset, ?_⟩
    rw [hr]
    exact Nat.add_lt_add_right (by decide : 2 < 3) _
  | request ht => exact h.request ht
  | @deliver m n _ hn ht =>
    rcases h.message hn with ⟨rfl, rfl, rfl⟩ | ⟨hp, rfl⟩
    · obtain ⟨p', hp', hle⟩ := h.deliver_opener ht
      exact ⟨p', .opened, hp', Nat.lt_succ_of_le hle⟩
    · cases p with
      | sent v =>
        obtain rfl : .value f.source v = m := Multiset.singleton_inj.mp hp
        obtain ⟨p', hp', hlt⟩ := h.deliver_sent
        obtain rfl := Option.some.inj ht
        exact ⟨p', q, hp', Nat.add_lt_add_right hlt _⟩
      | forwarded v =>
        obtain rfl : .value me v = m := Multiset.singleton_inj.mp hp
        obtain rfl := Option.some.inj ht
        exact ⟨.obtained v, q, h.deliver_forwarded, Nat.add_lt_add_right Nat.zero_lt_one _⟩
      | unset => exact absurd hp (Multiset.singleton_ne_zero m).symm
      | queued v => exact absurd hp (Multiset.singleton_ne_zero m).symm
      | obtained v => exact absurd hp (Multiset.singleton_ne_zero m).symm

theorem Holds.exists_deliver {m : Message ι V} (h : Holds f me k before p q s)
    (hm : m ∈ s.network f) : ∃ t, HandStep f me k s (.deliver m) t := by
  obtain ⟨n, hn⟩ := Multiset.exists_cons_of_mem hm
  rcases h.message hn with ⟨rfl, rfl, rfl⟩ | ⟨hp, rfl⟩
  · exact ⟨_, .deliver hn (openPort_of_closed (by exact h.closed (by decide)) _)⟩
  · cases p with
    | sent v =>
      obtain rfl : .value f.source v = m := Multiset.singleton_inj.mp hp
      exact ⟨_, .deliver hn rfl⟩
    | forwarded v =>
      obtain rfl : .value me v = m := Multiset.singleton_inj.mp hp
      exact ⟨_, .deliver hn rfl⟩
    | unset => exact absurd hp (Multiset.singleton_ne_zero m).symm
    | queued v => exact absurd hp (Multiset.singleton_ne_zero m).symm
    | obtained v => exact absurd hp (Multiset.singleton_ne_zero m).symm

theorem openPort_keeps {elt e : ι} {cb : Callback ι κ} (ht : s.openPort elt f cb = some t) :
    t.values = s.values ∧ (e = elt ∨ s.entryPorts e f ≠ none → t.entryPorts e f ≠ none) := by
  obtain ⟨u, hu, -, rfl⟩ := exists_opened ht
  rw [foldl_send_values, foldl_send_entryPorts, hu.entryPorts]
  refine ⟨hu.values, fun h => ?_⟩
  split_ifs with he
  · simp
  · exact h.resolve_left he

theorem handStep_keeps {e : HandOff ι V} (ht : HandStep f me k s e t) :
    ((∃ w, e = .set w ∧ s.values f = none ∧ t.values f = some w) ∨
      (∀ w, e ≠ .set w) ∧ t.values f = s.values f) ∧
      (e = .request ∨ s.entryPorts me f ≠ none → t.entryPorts me f ≠ none) := by
  cases ht with
  | @set v hv =>
    refine ⟨.inl ⟨v, rfl, hv, by simp [State.set, post]⟩, fun h => ?_⟩
    rcases h with h | h
    · cases h
    · exact h
  | request ht =>
    obtain ⟨r, hr, rfl⟩ := Option.map_eq_some_iff.mp ht
    obtain ⟨hv, he⟩ := openPort_keeps (e := me) hr
    refine ⟨.inr ⟨fun w hw => (by cases hw), ?_⟩, fun _ => ?_⟩
    · split_ifs
      · rw [hv]
      · exact congrFun hv f
    · split_ifs
      · exact he (.inl rfl)
      · exact he (.inl rfl)
  | @deliver m n _ hn ht =>
    cases m with
    | value elt v =>
      obtain rfl := Option.some.inj ht
      refine ⟨.inr ⟨fun w hw => (by cases hw), ?_⟩, fun h => ?_⟩
      · unfold receive
        split
        · rfl
        · rw [send_values]
      · rw [receive_entryPorts]
        rcases h with h | h
        · cases h
        · exact h
    | opener elt fwd =>
      obtain ⟨hv, he⟩ := openPort_keeps (e := me) ht
      refine ⟨.inr ⟨fun w hw => (by cases hw), congrFun hv f⟩, fun h => he (.inr ?_)⟩
      rcases h with h | h
      · cases h
      · exact h

end Steps

section Runs

variable [DecidableEq ι] {f : Future ι} {me : ι} {k : κ} {s₀ s t : State ι V κ}
variable {es : List (HandOff ι V)}

structure Made (s : State ι V κ) (f : Future ι) : Prop where
  entryPorts : ∀ e, s.entryPorts e f = none
  portQueue : ∀ e, s.portQueue e f = []
  network : s.network f = 0
  values : s.values f = none

omit [DecidableEq ι] in
theorem Made.holds (h : Made s f) (me : ι) (k : κ) :
    Holds f me k s.obtained .unset .idle s where
  possible := trivial
  remote hc := by cases hc
  network := h.network
  values := h.values
  queue := h.portQueue _
  no_queue e _ := h.portQueue e
  closed _ := h.entryPorts _
  opened hc := by cases hc
  idle _ := h.entryPorts _
  requested hc := absurd rfl hc
  obtained := (List.append_nil _).symm

/-- Every step uses up a rank. -/
theorem Made.run (h0 : Made s₀ f) (h : Run (HandStep f me k) s₀ es s) :
    ∃ p q, Holds f me k s₀.obtained p q s ∧ es.length + (p.rank + q.rank) ≤ 5 ∧
      (.request ∈ es → q ≠ .idle) ∧ ∀ v, .set v ∈ es → p.value? = some v := by
  have hrun : (∃ p q, Holds f me k s₀.obtained p q s ∧ es.length + (p.rank + q.rank) ≤ 5) ∧
      (.request ∈ es → s.entryPorts me f ≠ none) ∧
        ∀ v, .set v ∈ es → s.values f = some v := by
    induction h with
    | nil => exact ⟨⟨.unset, .idle, h0.holds me k, le_rfl⟩, by simp, by simp⟩
    | @snoc s t es e _ hs ih =>
      obtain ⟨⟨p, q, hpq, hle⟩, hreq, hset⟩ := ih
      obtain ⟨p', q', hpq', hlt⟩ := hpq.step hs
      obtain ⟨hv, hp⟩ := handStep_keeps hs
      refine ⟨⟨p', q', hpq', ?_⟩, fun hm => ?_, fun v hm => ?_⟩
      · rw [List.length_append, List.length_singleton]
        omega
      · rcases List.mem_append.mp hm with hm | hm
        · exact hp (.inr (hreq hm))
        · exact hp (.inl (List.mem_singleton.mp hm).symm)
      · rcases List.mem_append.mp hm with hm | hm
        · rcases hv with ⟨w, -, hn, -⟩ | ⟨-, hv⟩
          · rw [hset v hm] at hn
            cases hn
          · exact hv.trans (hset v hm)
        · rcases hv with ⟨w, rfl, -, hv⟩ | ⟨hne, -⟩
          · obtain rfl := HandOff.set.inj (List.mem_singleton.mp hm)
            exact hv
          · exact absurd (List.mem_singleton.mp hm).symm (hne v)
  obtain ⟨⟨p, q, hpq, hle⟩, hreq, hset⟩ := hrun
  refine ⟨p, q, hpq, hle, fun hm hi => hreq hm (hpq.idle hi), fun v hm => ?_⟩
  rw [← hpq.values]
  exact hset v hm

/-- The callback of the request gets the value of the future at most once, and no queue has the
value after that. It has got it when both happened and no message is left, which is after at
most five steps. -/
theorem handed_off (h0 : Made s₀ f) (h : Run (HandStep f me k) s₀ es s) :
    es.length ≤ 5 ∧
    (s.obtained = s₀.obtained ∨ ∃ v, s.values f = some v ∧
      s.obtained = s₀.obtained ++ [(k, v)] ∧ ∀ e, s.portQueue e f = []) ∧
    ∀ v, .set v ∈ es → .request ∈ es → (∀ m t, ¬ HandStep f me k s (.deliver m) t) →
      s.obtained = s₀.obtained ++ [(k, v)] ∧ ∀ e, s.portQueue e f = [] := by
  obtain ⟨p, q, hpq, hle, hreq, hset⟩ := h0.run h
  have hqueues : p.queue = [] → ∀ e, s.portQueue e f = [] := by
    intro hp e
    by_cases he : e = f.source
    · rw [he, hpq.queue, hp]
    · exact hpq.no_queue e he
  refine ⟨by omega, ?_, fun v hv hr hend => ?_⟩
  · cases p with
    | obtained v => exact .inr ⟨v, hpq.values, hpq.obtained, hqueues rfl⟩
    | unset => exact .inl (hpq.obtained.trans (List.append_nil _))
    | sent v => exact .inl (hpq.obtained.trans (List.append_nil _))
    | queued v => exact .inl (hpq.obtained.trans (List.append_nil _))
    | forwarded v => exact .inl (hpq.obtained.trans (List.append_nil _))
  · have hzero : s.network f = 0 := by
      by_contra hne
      obtain ⟨m, hm⟩ := Multiset.exists_mem_of_ne_zero hne
      obtain ⟨t, ht⟩ := hpq.exists_deliver hm
      exact hend m t ht
    rw [hpq.network] at hzero
    have hnone : ∀ m, m ∉ q.messages f me + p.messages f me := by
      rw [hzero]
      exact Multiset.notMem_zero
    have hq0 : q.messages f me = 0 :=
      Multiset.eq_zero_of_forall_notMem fun m hm => hnone m (Multiset.mem_add.mpr (.inl hm))
    have hp0 : p.messages f me = 0 :=
      Multiset.eq_zero_of_forall_notMem fun m hm => hnone m (Multiset.mem_add.mpr (.inr hm))
    have hopened : q = .opened := by
      cases q with
      | idle => exact absurd rfl (hreq hr)
      | opening => exact absurd hq0 (Multiset.singleton_ne_zero _)
      | opened => rfl
    have hval := hset v hv
    cases p with
    | obtained w =>
      obtain rfl : w = v := Option.some.inj hval
      exact ⟨hpq.obtained, hqueues rfl⟩
    | unset => cases hval
    | sent w => exact absurd hp0 (Multiset.singleton_ne_zero _)
    | queued w => exact absurd hopened hpq.possible
    | forwarded w => exact absurd hp0 (Multiset.singleton_ne_zero _)

/-- The value overtakes the request, and is forwarded. -/
theorem handed_off_overtaken :
    ∃ es s, Run (HandStep ⟨0, 1⟩ 1 ()) ({} : State ℕ ℕ Unit) es s ∧
      s.obtained = [((), 7)] ∧ ∀ e, s.portQueue e ⟨0, 1⟩ = [] := by
  have h1 : Run (HandStep ⟨0, 1⟩ 1 ()) ({} : State ℕ ℕ Unit) [.request] _ :=
    .single (.request rfl)
  have h2 := h1.snoc (.set (v := 7) rfl)
  have h3 := h2.snoc (.deliver (m := .value 0 7) (n := {.opener 0 1}) rfl rfl)
  have h4 := h3.snoc (.deliver (m := .opener 0 1) (n := 0) rfl rfl)
  have h5 := h4.snoc (.deliver (m := .value 1 7) (n := 0) rfl rfl)
  have h0 : Made ({} : State ℕ ℕ Unit) ⟨0, 1⟩ := ⟨fun _ => rfl, fun _ => rfl, rfl, rfl⟩
  obtain ⟨-, -, h⟩ := handed_off h0 h5
  exact ⟨_, _, h5, h 7 (by simp) (by simp) (by
    intro m t ht
    cases ht with
    | deliver hn => exact absurd hn (Multiset.cons_ne_zero).symm)⟩

end Runs

end State

end Hypercomm.Futures
