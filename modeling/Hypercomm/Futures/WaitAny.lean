import Mathlib.Data.List.Nodup
import Hypercomm.Futures.Basic

/-! # Waiting for any of several futures

`wait_any` opens the ports of the futures that it requests, up to the first that is
ready, and leaves them open. A value for such a port that comes after the first is sent
to the source of its future, whose port forwards it back.
-/

namespace Hypercomm.Futures

open Transition

variable {ι V κ : Type*}

/-- The futures that `wait_any` requests: up to the first that is ready. -/
def requested (ready : Future ι → Bool) : List (Future ι) → List (Future ι)
  | [] => []
  | f :: fs => if ready f then [f] else f :: requested ready fs

namespace State

def Closed (s : State ι V κ) (f : Future ι) : Prop := ∀ e, s.entryPorts e f = none

variable [DecidableEq ι]

structure Waiting (s : State ι V κ) (f : Future ι) (v : V) : Prop where
  closed : s.Closed f
  network : s.network f = 0
  portQueue : ∀ e, s.portQueue e f = if e = f.source then [v] else []

/-- A future that nobody requests: its value is not set, on its way to the source, or there. -/
inductive Untouched (s : State ι V κ) (f : Future ι) : Prop
  | unset : s.Closed f → s.values f = none → s.network f = 0 → (∀ e, s.portQueue e f = []) →
      Untouched s f
  | sent {v : V} : s.Closed f → s.values f = some v → s.network f = {.value f.source v} →
      (∀ e, s.portQueue e f = []) → Untouched s f
  | waiting {v : V} : s.values f = some v → s.Waiting f v → Untouched s f

/-- The ports of a future that is requested from `me`. -/
structure Ports (me : ι) (s : State ι V κ) (f : Future ι) (opened : Bool) : Prop where
  mine : s.entryPorts me f = some (.waitAny f)
  source : f.source ≠ me → s.entryPorts f.source f = if opened then some (.forward me) else none

/-- A future that is requested from `me`, with a bound on the messages for it that are
delivered before its value is taken: the source has yet to open its port, or forwards the
value, or the value was taken. -/
inductive Requested (me : ι) (s : State ι V κ) (f : Future ι) : ℕ → Prop
  | opening {q l : List V} : f.source ≠ me → Ports me s f false →
      s.network f = .opener f.source me ::ₘ (l.map (.value f.source) : List (Message ι V)) →
      s.portQueue f.source f = q → s.portQueue me f = [] →
      q ++ l = (s.values f).toList → (∀ w, s.target ≠ some (f, w)) →
      Requested me s f (3 - q.length)
  | opened {l : List V} {e : ι} : Ports me s f true →
      s.network f = (l.map (.value e) : List (Message ι V)) →
      s.portQueue f.source f = [] → s.portQueue me f = [] → (e = f.source ∨ e = me) →
      (l = [] → e = f.source) → l = (s.values f).toList → (∀ w, s.target ≠ some (f, w)) →
      Requested me s f (if e = f.source then 2 else 1)
  | taken {v : V} : Ports me s f true → s.network f = 0 → s.portQueue f.source f = [] →
      s.portQueue me f = [] → s.values f = some v → s.target = some (f, v) →
      Requested me s f 0

section Steps

variable {me e : ι} {s t : State ι V κ} {f g : Future ι} {ev : Event ι V} {n : ℕ}

theorem Untouched.of_same (h : Untouched s f) (hs : Same s t f) : Untouched t f := by
  have hc : s.Closed f → t.Closed f := fun hc e => (hs.entryPorts e).trans (hc e)
  cases h with
  | unset hclosed hv hn hq =>
    exact .unset (hc hclosed) (hs.values.trans hv) (hs.network.trans hn)
      fun e => (hs.portQueue e).trans (hq e)
  | sent hclosed hv hn hq =>
    exact .sent (hc hclosed) (hs.values.trans hv) (hs.network.trans hn)
      fun e => (hs.portQueue e).trans (hq e)
  | waiting hv hw =>
    exact .waiting (hs.values.trans hv) ⟨hc hw.closed, hs.network.trans hw.network,
      fun e => (hs.portQueue e).trans (hw.portQueue e)⟩

omit [DecidableEq ι] in
theorem Ports.of_same {o : Bool} (h : Ports me s f o) (hs : Same s t f) : Ports me t f o where
  mine := (hs.entryPorts me).trans h.mine
  source hne := (hs.entryPorts f.source).trans (h.source hne)

theorem Requested.of_same (h : Requested me s f n) (hs : Same s t f)
    (ht : ∀ w, t.target = some (f, w) ↔ s.target = some (f, w)) : Requested me t f n := by
  cases h with
  | opening hne hp hn hq hm hv htar =>
    exact .opening hne (hp.of_same hs) (hs.network.trans hn) ((hs.portQueue _).trans hq)
      ((hs.portQueue _).trans hm) (by rw [hs.values, hv]) fun w hw => htar w ((ht w).mp hw)
  | opened hp hn hq hm he hnil hv htar =>
    exact .opened (hp.of_same hs) (hs.network.trans hn) ((hs.portQueue _).trans hq)
      ((hs.portQueue _).trans hm) he hnil (by rw [hs.values, hv]) fun w hw => htar w ((ht w).mp hw)
  | taken hp hn hq hm hv htar =>
    exact .taken (hp.of_same hs) (hs.network.trans hn) ((hs.portQueue _).trans hq)
      ((hs.portQueue _).trans hm) (hs.values.trans hv) ((ht _).mpr htar)

omit [DecidableEq ι] in
theorem Targets.other (h : Targets g s t) (hne : f ≠ g) (w : V) :
    t.target = some (f, w) ↔ s.target = some (f, w) := by
  rcases h with h | ⟨hs, w', ht⟩
  · rw [h]
  · simp [hs, ht, Ne.symm hne]

def delivers (f : Future ι) : Event ι V → Bool
  | .set _ _ => false
  | .deliver g _ => g = f

def pending (s : State ι V κ) (f : Future ι) : ℕ :=
  match s.values f with
  | none => 1
  | some _ => (s.network f).card

theorem untouched_set {v : V} (h : Untouched s f) (hv : s.values f = none) :
    Untouched (s.set f v) f := by
  cases h with
  | unset hclosed _ hn hq =>
    exact .sent (v := v) hclosed (by simp [State.set, post]) (by simp [State.set, post, hn]) hq
  | sent _ hv' => simp [hv] at hv'
  | waiting hv' => simp [hv] at hv'

theorem untouched_deliver {m : Message ι V} {n : Multiset (Message ι V)} (h : Untouched s f)
    (hn : s.network f = m ::ₘ n)
    (ht : handle { s with network := Function.update s.network f n } f m = some t) :
    ∃ v, s.values f = some v ∧ t.values f = some v ∧ t.Waiting f v := by
  cases h with
  | unset _ _ hn' => simp [hn'] at hn
  | @sent v hclosed hv hn' hq =>
    rw [hn', Multiset.singleton_eq_cons_iff] at hn
    obtain ⟨rfl, rfl⟩ := hn
    obtain rfl := Option.some.inj ht
    have hentry : s.entryPorts f.source f = none := hclosed f.source
    unfold receive
    simp only [hentry, hq]
    refine ⟨v, hv, hv, hclosed, by simp [setQueue], fun e => ?_⟩
    rw [setQueue_portQueue]
    by_cases he : e = f.source <;> simp [he, hq]
  | waiting _ hw => simp [hw.network] at hn

theorem untouched_step (h : Untouched s f) (hs : s.Matching) (ht : Step s ev t) :
    Untouched t f ∧ t.pending f + (if delivers f ev then 1 else 0) ≤ s.pending f := by
  by_cases hf : f = ev.future
  · cases ht with
    | @set g v hv =>
      obtain rfl : f = g := hf
      refine ⟨untouched_set h hv, ?_⟩
      cases h with
      | unset _ _ hn => simp [pending, delivers, State.set, post, hv, hn]
      | sent _ hv' => simp [hv] at hv'
      | waiting hv' => simp [hv] at hv'
    | @deliver g m n _ hn ht =>
      obtain rfl : f = g := hf
      obtain ⟨v, hv, hv', hw⟩ := untouched_deliver h hn ht
      exact ⟨.waiting hv' hw, by simp [pending, delivers, hv, hv', hw.network, hn]⟩
  · have hsame := same_step hs hf ht
    have hd : delivers f ev = false := by
      cases ev with
      | set g v => rfl
      | deliver g m => simpa [delivers, Event.future, eq_comm] using hf
    refine ⟨h.of_same hsame, ?_⟩
    simp [hd, pending, hsame.values, hsame.network]

theorem requested_set {v : V} (h : Requested me s f n) (hv : s.values f = none) :
    Requested me (s.set f v) f n := by
  cases h with
  | @opening queued flight hne hp hn hq hm hval htar =>
    rw [hv] at hval
    obtain ⟨rfl, rfl⟩ := List.append_eq_nil_iff.mp hval
    refine .opening (q := []) (l := [v]) hne ⟨hp.mine, hp.source⟩ ?_ hq hm
      (by simp [State.set, post]) htar
    simp only [State.set, post, Function.update_self, hn]
    exact Multiset.cons_swap ..
  | @opened flight e hp hn hq hm he hnil hval htar =>
    rw [hv] at hval
    obtain rfl : flight = [] := hval
    obtain rfl : e = f.source := hnil rfl
    refine .opened (l := [v]) ⟨hp.mine, hp.source⟩ ?_ hq hm he (fun _ => rfl)
      (by simp [State.set, post]) htar
    simp [State.set, post, hn]
  | taken _ _ _ _ hv' => simp [hv] at hv'

theorem requested_receive {v : V} (hp : Ports me s f true) (hn : s.network f = {.value e v})
    (hq : s.portQueue f.source f = []) (hm : s.portQueue me f = [])
    (he : e = f.source ∨ e = me) (hv : s.values f = some v) (htar : ∀ w, s.target ≠ some (f, w))
    (ht : t = receive { s with network := Function.update s.network f 0 } e f v) :
    ∃ n', Requested me t f n' ∧ (t.target = none → n' + 1 ≤ if e = f.source then 2 else 1) := by
  by_cases hme : e = me
  · subst hme
    have hr : t = send { s with network := Function.update s.network f 0 } f (.waitAny f) v := by
      rw [ht]
      unfold receive
      simp only [hp.mine]
    cases htarget : s.target with
    | none =>
      have hr : t = { s with
          network := Function.update s.network f 0
          target := some (f, v) } := by
        simpa [send, htarget] using hr
      subst hr
      exact ⟨0, .taken ⟨hp.mine, hp.source⟩ (by simp) hq hm hv rfl, fun h => by cases h⟩
    | some p =>
      have hr : t = post { s with network := Function.update s.network f 0 } f
          (.value f.source v) := by
        simpa [send, htarget] using hr
      subst hr
      refine ⟨_, .opened (l := [v]) ⟨hp.mine, hp.source⟩ ?_ hq hm (.inl rfl) (fun _ => rfl)
        (by simp [post, hv]) htar, fun h => ?_⟩
      · simp [post]
      · simp [post, htarget] at h
  · obtain rfl : e = f.source := he.resolve_right hme
    have hr : t = post { s with network := Function.update s.network f 0 } f (.value me v) := by
      rw [ht]
      unfold receive
      simp only [hp.source hme, if_true]
      rfl
    subst hr
    refine ⟨_, .opened (l := [v]) (e := me) ⟨hp.mine, hp.source⟩ ?_ hq hm (.inr rfl)
      (fun h => by cases h) (by simp [post, hv]) htar, fun _ => ?_⟩
    · simp [post]
    · simp [Ne.symm hme]

theorem requested_open {queued flight : List V} (hne : f.source ≠ me) (hp : Ports me s f false)
    (hn : s.network f = (flight.map (.value f.source) : List (Message ι V)))
    (hq : s.portQueue f.source f = queued) (hm : s.portQueue me f = [])
    (hval : queued ++ flight = (s.values f).toList) (htar : ∀ w, s.target ≠ some (f, w))
    (ht : s.openPort f.source f (.forward me) = some t) :
    ∃ n', Requested me t f n' ∧ n' + 1 ≤ 3 - queued.length := by
  have hclosed : s.entryPorts f.source f = none := by simpa using hp.source hne
  unfold openPort at ht
  simp only [hclosed, hq, Option.some.injEq] at ht
  have hports : Ports me t f true := by
    constructor
    · rw [← ht, foldl_send_entryPorts]
      change (s.setEntry f.source f (.forward me)).entryPorts me f = _
      simp [setEntry_entryPorts, Ne.symm hne, hp.mine]
    · intro _
      rw [← ht, foldl_send_entryPorts]
      change (s.setEntry f.source f (.forward me)).entryPorts f.source f = _
      simp [setEntry_entryPorts]
  match queued with
  | [] =>
    subst ht
    refine ⟨_, .opened (l := flight) hports hn ?_ ?_ (.inl rfl) (fun _ => rfl) hval htar, ?_⟩
    · simp [setQueue_portQueue]
    · simp [setQueue_portQueue, Ne.symm hne]
      exact hm
    · simp
  | [v] =>
    obtain ⟨rfl, hv⟩ : flight = [] ∧ s.values f = some v := by
      cases hs : s.values f with
      | none => simp [hs] at hval
      | some w => simp_all
    have hn : s.network f = 0 := hn
    subst ht
    refine ⟨_, .opened (l := [v]) (e := me) hports ?_ ?_ ?_ (.inr rfl) (fun h => by cases h)
      ?_ htar, ?_⟩
    · simp [send, post, setQueue, setEntry, hn]
    · simp [send, post, setQueue]
    · simpa [send, post, setQueue, setEntry, Ne.symm hne] using hm
    · simp [send, post, setQueue, setEntry, hv]
    · simp [Ne.symm hne]
  | _ :: _ :: _ => cases hv : s.values f <;> simp [hv] at hval

theorem requested_deliver {m : Message ι V} {k : Multiset (Message ι V)}
    (h : Requested me s f n) (hk : s.network f = m ::ₘ k)
    (ht : handle { s with network := Function.update s.network f k } f m = some t) :
    ∃ n', Requested me t f n' ∧ (t.target = none → n' + 1 ≤ n) := by
  cases h with
  | @opening queued flight hne hp hn hq hm hval htar =>
    rw [hn, Multiset.cons_eq_cons] at hk
    rcases hk with ⟨rfl, rfl⟩ | ⟨-, cs, hcs, rfl⟩
    · obtain ⟨n', hr, hle⟩ := requested_open
        (s := { s with network := Function.update s.network f _ })
        hne ⟨hp.mine, hp.source⟩ (Function.update_self ..) hq hm hval htar ht
      exact ⟨n', hr, fun _ => hle⟩
    · have hmem : m ∈ flight.map (.value f.source : V → Message ι V) := by
        rw [← Multiset.mem_coe, hcs]
        exact Multiset.mem_cons_self ..
      obtain ⟨v, hv, rfl⟩ := List.mem_map.mp hmem
      obtain ⟨rfl, rfl⟩ : queued = [] ∧ flight = [v] := by
        cases hs : s.values f with
        | none => simp_all
        | some w =>
          cases queued with
          | nil => simp_all
          | cons q qs => simp_all
      obtain rfl : cs = 0 := by simpa using hcs
      have hclosed : s.entryPorts f.source f = none := by simpa using hp.source hne
      have hr : t = setQueue { s with
          network := Function.update s.network f (.opener f.source me ::ₘ 0) } f.source f [v] := by
        rw [← Option.some.inj ht]
        unfold receive
        simp only [hclosed, hq, List.nil_append]
      subst hr
      refine ⟨_, .opening (q := [v]) (l := []) hne ⟨hp.mine, hp.source⟩ ?_ ?_ ?_ hval
        htar, fun _ => le_rfl⟩
      · simp [setQueue]
      · simp [setQueue_portQueue]
      · simpa [setQueue, Ne.symm hne] using hm
  | @opened flight e hp hn hq hm he hnil hval htar =>
    cases hv : s.values f with
    | none =>
      obtain rfl : flight = [] := by simpa [hv] using hval
      simp [hn] at hk
    | some v =>
      obtain rfl : flight = [v] := by simpa [hv] using hval
      have hn : s.network f = {.value e v} := hn
      rw [hn, Multiset.singleton_eq_cons_iff] at hk
      obtain ⟨rfl, rfl⟩ := hk
      obtain rfl := Option.some.inj ht
      exact requested_receive hp hn hq hm he hv htar rfl
  | taken _ hn => simp [hn] at hk

theorem requested_step (h : Requested me s f n) (hs : s.Matching) (ht : Step s ev t) :
    ∃ n', Requested me t f n' ∧
      (t.target = none → n' + (if delivers f ev then 1 else 0) ≤ n) := by
  by_cases hf : f = ev.future
  · cases ht with
    | @set g v hv =>
      obtain rfl : f = g := hf
      exact ⟨n, requested_set h hv, fun _ => by simp [delivers]⟩
    | @deliver g m k _ hk ht =>
      obtain rfl : f = g := hf
      simpa [delivers] using requested_deliver h hk ht
  · have hd : delivers f ev = false := by
      cases ev with
      | set g v => rfl
      | deliver g m => simpa [delivers, Event.future, eq_comm] using hf
    refine ⟨n, h.of_same (same_step hs hf ht) ((target_step hs ht).other hf),
      fun _ => ?_⟩
    simp [hd]

/-- The value of an untouched future is on its way, or queued at the source. -/
theorem Untouched.spec (h : Untouched s f) : ∃ queued flight : List V, s.Closed f ∧
    s.network f = (flight.map (.value f.source) : List (Message ι V)) ∧
    (∀ e, s.portQueue e f = if e = f.source then queued else []) ∧
    queued ++ flight = (s.values f).toList := by
  cases h with
  | unset hclosed hv hn hq => exact ⟨[], [], hclosed, by simp [hn], by simp [hq], by simp [hv]⟩
  | @sent v hclosed hv hn hq =>
    exact ⟨[], [v], hclosed, by simp [hn], by simp [hq], by simp [hv]⟩
  | @waiting v hv hw =>
    exact ⟨[v], [], hw.closed, by simp [hw.network], hw.portQueue, by simp [hv]⟩

theorem requestFuture_local (h : Untouched s f) (htar : s.target = none) (hme : f.source = me)
    (ho : s.openPort me f (.waitAny f) = some t) :
    ∃ n ≤ 3, Requested me t f n ∧ (t.target = none ↔ ¬ s.ready me f) := by
  subst hme
  obtain ⟨queued, flight, hclosed, hn, hq, hval⟩ := h.spec
  unfold openPort at ho
  simp only [hclosed f.source, hq, if_true, Option.some.injEq] at ho
  have hports : Ports f.source t f true := by
    constructor
    · rw [← ho, foldl_send_entryPorts]
      change (s.setEntry f.source f (.waitAny f)).entryPorts f.source f = _
      simp [setEntry_entryPorts]
    · exact fun h => absurd rfl h
  have hready : s.ready f.source f = !queued.isEmpty := by
    unfold ready
    rw [hq, if_pos rfl]
  match queued with
  | [] =>
    subst ho
    refine ⟨_, ?_, .opened (l := flight) hports hn ?_ ?_ (.inl rfl) (fun _ => rfl) hval ?_, ?_⟩
    · simp
    · simp [setQueue_portQueue]
    · simp [setQueue_portQueue]
    · simp [setQueue, setEntry, htar]
    · simp [setQueue, setEntry, htar, hready]
  | [v] =>
    obtain ⟨rfl, hv⟩ : flight = [] ∧ s.values f = some v := by
      cases hs : s.values f with
      | none => simp [hs] at hval
      | some w => simp_all
    subst ho
    refine ⟨_, ?_, .taken (v := v) hports ?_ ?_ ?_ ?_ ?_, ?_⟩
    · simp
    · simpa [send, setQueue, setEntry, htar] using hn
    · simp [send, setQueue, setEntry, htar]
    · simp [send, setQueue, setEntry, htar]
    · simpa [send, setQueue, setEntry, htar] using hv
    · simp [send, setQueue, setEntry, htar]
    · simp [send, setQueue, setEntry, htar, hready]
  | _ :: _ :: _ => cases hv : s.values f <;> simp [hv] at hval

theorem requestFuture_remote (h : Untouched s f) (htar : s.target = none) (hme : f.source ≠ me)
    (ho : s.openPort me f (.waitAny f) = some t) :
    ∃ n ≤ 3, Requested me (t.post f (.opener f.source me)) f n ∧
      (t.target = none ↔ ¬ s.ready me f) := by
  obtain ⟨queued, flight, hclosed, hn, hq, hval⟩ := h.spec
  have hm : s.portQueue me f = [] := by simp [hq, Ne.symm hme]
  unfold openPort at ho
  simp only [hclosed me, hm, List.foldl_nil, Option.some.injEq] at ho
  subst ho
  refine ⟨_, Nat.sub_le .., .opening (q := queued) (l := flight) hme ⟨?_, ?_⟩ ?_ ?_ ?_
    hval ?_, ?_⟩
  · simp [post, setQueue, setEntry_entryPorts]
  · intro _
    simp [post, setQueue, setEntry_entryPorts, hme, hclosed f.source]
  · simp [post, setQueue, setEntry, hn]
  · simp [post, setQueue, setEntry, hme, hq]
  · simp [post, setQueue]
  · simp [post, setQueue, setEntry, htar]
  · simp [setQueue, setEntry, htar, ready, hm]

theorem same_requestFuture {cb : Callback ι κ} (hcb : Matches cb f) (hne : g ≠ f)
    (hr : s.requestFuture me f cb = some t) : Same s t g := by
  obtain ⟨u, ho, rfl⟩ := Option.map_eq_some_iff.mp hr
  have hsame := same_openPort hne hcb ho
  split
  · exact hsame
  · exact hsame.trans (same_post hne)

theorem matching_requestFuture {cb : Callback ι κ} (hs : s.Matching) (hcb : Matches cb f)
    (hr : s.requestFuture me f cb = some t) : t.Matching := by
  obtain ⟨u, ho, rfl⟩ := Option.map_eq_some_iff.mp hr
  have hu := matching_openPort hs hcb ho
  split
  · exact hu
  · exact hu

theorem target_requestFuture {cb : Callback ι κ} (hcb : Matches cb f)
    (hr : s.requestFuture me f cb = some t) : Targets f s t := by
  obtain ⟨u, ho, rfl⟩ := Option.map_eq_some_iff.mp hr
  have hu := target_openPort hcb ho
  split
  · exact hu
  · exact hu

theorem callers_requestFuture {done : List (Future ι)} (hs : s.Callers done)
    (hr : s.requestFuture me f (.waitAny f) = some t) : t.Callers (done ++ [f]) := by
  obtain ⟨u, ho, rfl⟩ := Option.map_eq_some_iff.mp hr
  have hs : s.Callers (done ++ [f]) := fun e g fut he => List.mem_append_left _ (hs e g fut he)
  have hu := callers_openPort hs (fun _ => by simp) ho
  split
  · exact hu
  · exact hu

omit [DecidableEq ι] in
theorem matches_waitAny : Matches (.waitAny f : Callback ι κ) f := by
  intro fut hf
  cases hf
  rfl

theorem requestFuture_untouched (h : Untouched s f) (htar : s.target = none)
    (hr : s.requestFuture me f (.waitAny f) = some t) :
    ∃ n ≤ 3, Requested me t f n ∧ (t.target = none ↔ ¬ s.ready me f) := by
  obtain ⟨u, ho, rfl⟩ := Option.map_eq_some_iff.mp hr
  split
  · exact requestFuture_local h htar ‹_› ho
  · exact requestFuture_remote h htar ‹_› ho

theorem requestFuture_isSome_iff {cb : Callback ι κ} :
    (s.requestFuture me f cb).isSome ↔ s.entryPorts me f = none := by
  unfold requestFuture openPort
  cases s.entryPorts me f <;> simp

end Steps

/-- Some of the futures of a list are requested, and the others are untouched. -/
structure Requesting (me : ι) (futures done : List (Future ι)) (s : State ι V κ) : Prop where
  matching : s.Matching
  callers : s.Callers done
  target : ∀ c w, s.target = some (c, w) → c ∈ done
  requested : ∀ f ∈ futures, f ∈ done → ∃ n ≤ 3, Requested me s f n
  untouched : ∀ f ∈ futures, f ∉ done → Untouched s f

section Loop

variable {me : ι} {s t : State ι V κ} {f : Future ι} {futures done fs : List (Future ι)}
variable {ready : Future ι → Bool}

theorem Requested.entryPorts {n : ℕ} (h : Requested me s f n) :
    s.entryPorts me f = some (.waitAny f) := by
  cases h with
  | opening _ hp => exact hp.mine
  | opened hp => exact hp.mine
  | taken hp => exact hp.mine

theorem Requesting.entryPorts_iff (h : Requesting me futures done s) (hf : f ∈ futures) :
    s.entryPorts me f = none ↔ f ∉ done := by
  constructor
  · intro he hd
    obtain ⟨n, -, hr⟩ := h.requested f hf hd
    rw [hr.entryPorts] at he
    cases he
  · intro hd
    obtain ⟨_, _, hclosed, _⟩ := (h.untouched f hf hd).spec
    exact hclosed me

theorem Requesting.request (h : Requesting me futures done s) (hf : f ∈ futures)
    (htar : s.target = none) (hr : s.requestFuture me f (.waitAny f) = some t) :
    Requesting me futures (done ++ [f]) t ∧ (t.target = none ↔ ¬ s.ready me f) := by
  have hd : f ∉ done := (h.entryPorts_iff hf).mp (requestFuture_isSome_iff.mp (by rw [hr]; rfl))
  obtain ⟨n, hn, hreq, ht⟩ := requestFuture_untouched (h.untouched f hf hd) htar hr
  refine ⟨⟨matching_requestFuture h.matching matches_waitAny hr, ?_, ?_, ?_, ?_⟩, ht⟩
  · exact callers_requestFuture h.callers hr
  · intro c w hw
    rcases target_requestFuture matches_waitAny hr with heq | ⟨-, w', hw'⟩
    · rw [heq, htar] at hw
      cases hw
    · rw [hw'] at hw
      cases hw
      simp
  · intro g hg hgd
    by_cases hgf : g = f
    · subst hgf
      exact ⟨n, hn, hreq⟩
    · obtain ⟨m, hm, hreqg⟩ := h.requested g hg (by simpa [hgf] using hgd)
      exact ⟨m, hm, hreqg.of_same (same_requestFuture matches_waitAny hgf hr)
        ((target_requestFuture matches_waitAny hr).other hgf)⟩
  · intro g hg hgd
    have hgf : g ≠ f := by
      rintro rfl
      simp at hgd
    apply (h.untouched g hg (by simpa [hgf] using hgd)).of_same
    exact same_requestFuture matches_waitAny hgf hr

theorem ready_request (hready : ∀ f ∈ futures, f ∉ done → s.ready me f = ready f)
    (hr : s.requestFuture me f (.waitAny f) = some t) :
    ∀ g ∈ futures, g ∉ done ++ [f] → t.ready me g = ready g := by
  intro g hg hgd
  have hgf : g ≠ f := by
    rintro rfl
    simp at hgd
  rw [← hready g hg (by simpa [hgf] using hgd)]
  unfold State.ready
  rw [(same_requestFuture matches_waitAny hgf hr).portQueue me]

theorem Requesting.waitAny (h : Requesting me futures done s) (hfs : ∀ f ∈ fs, f ∈ futures)
    (htar : s.target = none) (hready : ∀ f ∈ futures, f ∉ done → s.ready me f = ready f)
    (hw : State.waitAny me fs s = some t) :
    Requesting me futures (done ++ Futures.requested ready fs) t ∧
      (t.target = none → Futures.requested ready fs = fs) := by
  induction fs generalizing s done with
  | nil =>
    obtain rfl := Option.some.inj hw
    simpa [Futures.requested] using h
  | cons f fs ih =>
    obtain ⟨u, hr, hw⟩ := Option.bind_eq_some_iff.mp hw
    have hf := hfs f List.mem_cons_self
    have hd : f ∉ done := (h.entryPorts_iff hf).mp (requestFuture_isSome_iff.mp (by rw [hr]; rfl))
    obtain ⟨hu, ht⟩ := h.request hf htar hr
    rw [hready f hf hd] at hw ht
    cases hp : ready f with
    | true =>
      rw [hp, if_pos rfl] at hw
      obtain rfl := Option.some.inj hw
      have hreq : Futures.requested ready (f :: fs) = [f] := if_pos hp
      rw [hreq]
      exact ⟨hu, fun hn => absurd hp (ht.mp hn)⟩
    | false =>
      rw [hp, if_neg (by simp)] at hw
      have hreq : Futures.requested ready (f :: fs) = f :: Futures.requested ready fs :=
        if_neg (by simp [hp])
      obtain ⟨hreqs, htarget⟩ := ih hu (fun g hg => hfs g (List.mem_cons_of_mem _ hg))
        (ht.mpr (by simp [hp])) (ready_request hready hr) hw
      rw [hreq]
      refine ⟨by simpa using hreqs, fun hn => ?_⟩
      rw [htarget hn]

/-- No port is opened twice exactly when the futures that are requested are distinct. -/
theorem Requesting.waitAny_isSome_iff (h : Requesting me futures done s)
    (hfs : ∀ f ∈ fs, f ∈ futures) (htar : s.target = none)
    (hready : ∀ f ∈ futures, f ∉ done → s.ready me f = ready f) :
    (State.waitAny me fs s).isSome ↔ (Futures.requested ready fs).Nodup ∧
      ∀ f ∈ Futures.requested ready fs, f ∉ done := by
  induction fs generalizing s done with
  | nil => simp [State.waitAny, Futures.requested]
  | cons f fs ih =>
    have hf := hfs f List.mem_cons_self
    have hhead : f ∈ Futures.requested ready (f :: fs) := by
      unfold Futures.requested
      split <;> simp
    cases hr : s.requestFuture me f (.waitAny f) with
    | none =>
      have hd : f ∈ done := by
        by_contra hd
        have hsome : (s.requestFuture me f (.waitAny f)).isSome :=
          requestFuture_isSome_iff.mpr ((h.entryPorts_iff hf).mpr hd)
        rw [hr] at hsome
        cases hsome
      constructor
      · intro hw
        simp [State.waitAny, hr] at hw
      · rintro ⟨-, hall⟩
        exact absurd hd (hall f hhead)
    | some u =>
      have hd : f ∉ done := (h.entryPorts_iff hf).mp (requestFuture_isSome_iff.mp (by rw [hr]; rfl))
      obtain ⟨hu, ht⟩ := h.request hf htar hr
      have hstep : State.waitAny me (f :: fs) s =
          if s.ready me f then some u else State.waitAny me fs u := by
        simp [State.waitAny, hr]
      rw [hstep, hready f hf hd]
      rw [hready f hf hd] at ht
      cases hp : ready f with
      | true => simp [Futures.requested, hp, hd]
      | false =>
        have hih := ih hu (fun g hg => hfs g (List.mem_cons_of_mem _ hg))
          (ht.mpr (by simp [hp])) (ready_request hready hr)
        rw [if_neg (by simp), hih]
        simp only [Futures.requested, hp, Bool.false_eq_true, if_false, List.nodup_cons,
          List.forall_mem_cons, List.mem_append, List.mem_singleton, not_or]
        constructor
        · rintro ⟨hnd, hall⟩
          exact ⟨⟨fun hm => (hall f hm).2 rfl, hnd⟩, hd, fun g hg => (hall g hg).1⟩
        · rintro ⟨⟨hnf, hnd⟩, -, hall⟩
          refine ⟨hnd, fun g hg => ⟨hall g hg, ?_⟩⟩
          rintro rfl
          exact hnf hg

end Loop

/-- A later request of a future takes its value. -/
def Obtains (s : State ι V κ) (elt : ι) (f : Future ι) (v : V) : Prop :=
  ∀ k, ∃ t es u, s.requestFuture elt f (.other k) = some t ∧ Run Step t es u ∧
    u.obtained = s.obtained ++ [(k, v)]

/-- After finitely many messages a value waits at the source of its future, for a later
request. -/
def EndsUp (s : State ι V κ) (f : Future ι) (v : V) : Prop :=
  ∃ n, ∀ es t, Run Step s es t → es.countP (delivers f) ≤ n ∧
    (t.network f = 0 → t.Waiting f v ∧ ∀ elt, t.Obtains elt f v)

/-- No callback of `wait_any` is left from an earlier call, and nobody requests the futures. -/
structure Initial (s : State ι V κ) (futures : List (Future ι)) : Prop where
  target : s.target = none
  entryPorts : ∀ e f fut, s.entryPorts e f ≠ some (.waitAny fut)
  untouched : ∀ f ∈ futures, Untouched s f

section Runs

variable {me : ι} {s t u : State ι V κ} {f c : Future ι} {futures done : List (Future ι)}
variable {es : List (Event ι V)} {ev : Event ι V} {v w : V} {n : ℕ}

theorem obtains_of_waiting (h : s.Waiting f v) (elt : ι) : s.Obtains elt f v := by
  intro k
  by_cases he : f.source = elt
  · subst he
    have hreq : s.requestFuture f.source f (.other k) = some (send
        ((s.setEntry f.source f (.other k)).setQueue f.source f []) f (.other k) v) := by
      simp [requestFuture, openPort_of_closed (h.closed f.source), h.portQueue]
    exact ⟨_, [], _, hreq, .nil, by simp [send, setQueue, setEntry]⟩
  · set s₁ := (s.setEntry elt f (.other k)).setQueue elt f [] with hs₁
    have hreq : s.requestFuture elt f (.other k) = some (s₁.post f (.opener f.source elt)) := by
      simp [requestFuture, openPort_of_closed (h.closed elt), h.portQueue, he, Ne.symm he, hs₁]
    set s₂ := (s₁.setEntry f.source f (.forward elt)).setQueue f.source f [] with hs₂
    have hopen : Step (s₁.post f (.opener f.source elt)) (.deliver f (.opener f.source elt))
        (s₂.post f (.value elt v)) := by
      apply Step.deliver (n := 0)
      · simp [hs₁, setQueue, setEntry, h.network]
      · have hclosed : s₁.entryPorts f.source f = none := by
          change (s.setEntry elt f (.other k)).entryPorts f.source f = none
          simp [setEntry_entryPorts, he, h.closed f.source]
        have hqueue : s₁.portQueue f.source f = [v] := by
          simp [hs₁, setQueue_portQueue, he]
          simp [setEntry, h.portQueue]
        have hnet : Function.update (s₁.post f (.opener f.source elt)).network f 0 =
            s₁.network := by
          simp [post, hs₁, setQueue, setEntry, ← h.network]
        rw [hnet]
        have hopen := openPort_of_closed hclosed (.forward elt)
        rw [hqueue] at hopen
        exact hopen
    have hvalue : Step (s₂.post f (.value elt v)) (.deliver f (.value elt v))
        (s₂.send f (.other k) v) := by
      apply Step.deliver (n := 0)
      · simp [hs₁, hs₂, setQueue, setEntry, h.network]
      · have hentry : s₂.entryPorts elt f = some (.other k) := by
          change (s₁.setEntry f.source f (.forward elt)).entryPorts elt f = _
          rw [setEntry_entryPorts, if_neg (by simp [Ne.symm he])]
          change (s.setEntry elt f (.other k)).entryPorts elt f = _
          simp [setEntry_entryPorts]
        have hnet : Function.update (s₂.post f (.value elt v)).network f 0 = s₂.network := by
          simp [post, hs₂, hs₁, setQueue, setEntry, ← h.network]
        rw [hnet]
        change some (s₂.receive elt f v) = _
        unfold receive
        rw [hentry]
    refine ⟨_, _, _, hreq, .cons hopen (.single hvalue), ?_⟩
    simp [send, hs₁, hs₂, setQueue, setEntry]

theorem handle_values {m : Message ι V} (h : s.handle f m = some t) : t.values = s.values := by
  cases m with
  | value elt v =>
    obtain rfl := Option.some.inj h
    unfold receive
    split
    · rfl
    · exact send_values
  | opener elt fwd =>
    have h : s.openPort elt f (.forward fwd) = some t := h
    unfold openPort at h
    split at h
    · cases h
    · obtain rfl := Option.some.inj h
      exact foldl_send_values

theorem values_step (h : s.values f = some v) (ht : Step s ev t) : t.values f = some v := by
  cases ht with
  | @set g v' hg =>
    have hne : f ≠ g := by
      rintro rfl
      rw [h] at hg
      cases hg
    simpa [State.set, post, hne] using h
  | deliver hn ht =>
    rw [handle_values ht]
    exact h

theorem target_some_step (hs : s.Matching) (h : s.target = some (c, w)) (ht : Step s ev t) :
    t.target = some (c, w) := by
  rcases target_step hs ht with ht | ⟨hn, -⟩
  · rw [ht, h]
  · rw [h] at hn
    cases hn

theorem untouched_run (h : Untouched s f) (hs : s.Matching) (hr : Run Step s es t) :
    Untouched t f ∧ t.Matching ∧ t.pending f + es.countP (delivers f) ≤ s.pending f := by
  induction hr with
  | nil => exact ⟨h, hs, by simp⟩
  | snoc _ hstep ih =>
    obtain ⟨hu, hm, hle⟩ := ih
    obtain ⟨hu', hle'⟩ := untouched_step hu hm hstep
    refine ⟨hu', matching_step hm hstep, ?_⟩
    rw [List.countP_append, List.countP_singleton]
    omega

theorem requested_run (h : Requested me s f n) (hs : s.Matching) (hr : Run Step s es t) :
    ∃ m, Requested me t f m ∧ t.Matching ∧
      (t.target = none → m + es.countP (delivers f) ≤ n) := by
  induction hr with
  | nil => exact ⟨n, h, hs, fun _ => by simp⟩
  | @snoc t u es ev _ hstep ih =>
    obtain ⟨m, hm, hmatch, hle⟩ := ih
    obtain ⟨m', hm', hle'⟩ := requested_step hm hmatch hstep
    refine ⟨m', hm', matching_step hmatch hstep, fun hu => ?_⟩
    have ht : t.target = none := by
      rcases target_step hmatch hstep with heq | ⟨hn, -⟩
      · rw [← heq, hu]
      · exact hn
    have := hle ht
    have := hle' hu
    rw [List.countP_append, List.countP_singleton]
    omega

theorem target_some_run (hs : s.Matching) (htar : s.target = some (c, w)) (hr : Run Step s es t) :
    t.Matching ∧ t.target = some (c, w) :=
  hr.invariant (I := fun t => t.Matching ∧ t.target = some (c, w))
    (fun _ _ _ h ht => ⟨matching_step h.1 ht, target_some_step h.1 h.2 ht⟩) ⟨hs, htar⟩

theorem values_run (h : s.values f = some v) (hr : Run Step s es t) : t.values f = some v :=
  hr.invariant (I := fun t => t.values f = some v) (fun _ _ _ h ht => values_step h ht) h

theorem endsUp_of_untouched (h : Untouched s f) (hs : s.Matching) (hv : s.values f = some v) :
    s.EndsUp f v := by
  refine ⟨s.pending f, fun es t hr => ?_⟩
  obtain ⟨hu, -, hle⟩ := untouched_run h hs hr
  have hvt : t.values f = some v := values_run hv hr
  refine ⟨by omega, fun hn => ?_⟩
  have hw : t.Waiting f v := by
    cases hu with
    | unset _ hv' => simp [hvt] at hv'
    | sent _ _ hn' => simp [hn] at hn'
    | waiting hv' hw =>
      obtain rfl := Option.some.inj (hvt.symm.trans hv')
      exact hw
  exact ⟨hw, obtains_of_waiting hw⟩

theorem exists_delivery (h : Requested me s f n) (hv : s.values f = some v)
    (htar : ∀ w, s.target ≠ some (f, w)) : ∃ m t, Step s (.deliver f m) t := by
  cases h with
  | @opening queued flight hne hp hn hq hm hval _ =>
    have hclosed : s.entryPorts f.source f = none := by simpa using hp.source hne
    have hopen := fun M => openPort_of_closed
      (s := { s with network := Function.update s.network f M }) hclosed (.forward me)
    exact ⟨_, _, .deliver hn (hopen _)⟩
  | @opened flight e hp hn hq hm he hnil hval _ =>
    obtain rfl : flight = [v] := by simpa [hv] using hval
    have hn : s.network f = .value e v ::ₘ 0 := hn
    exact ⟨_, _, .deliver hn rfl⟩
  | taken _ _ _ _ _ ht => exact absurd ht (htar _)

/-- The value of a future that was requested, and that is not the result, never rests. -/
theorem not_endsUp_of_requested (h : Requested me s f n) (hs : s.Matching)
    (hv : s.values f = some v) (htar : s.target = some (c, w)) (hne : f ≠ c) :
    ¬ s.EndsUp f v := by
  rintro ⟨N, hN⟩
  have hruns : ∀ k, ∃ es t, Run Step s es t ∧ es.countP (delivers f) = k := by
    intro k
    induction k with
    | zero => exact ⟨[], s, .nil, rfl⟩
    | succ k ih =>
      obtain ⟨es, t, hr, hk⟩ := ih
      obtain ⟨m, hm, hmatch, -⟩ := requested_run h hs hr
      have hvt : t.values f = some v := values_run hv hr
      have htt := target_some_run hs htar hr
      obtain ⟨msg, u, hstep⟩ := exists_delivery hm hvt (by simp [htt.2, Ne.symm hne])
      refine ⟨_, u, hr.snoc hstep, ?_⟩
      simp [hk, delivers]
  obtain ⟨es, t, hr, hk⟩ := hruns (N + 1)
  have := (hN es t hr).1
  omega

theorem callers_run (hs : s.Callers done) (htar : ∀ c w, s.target = some (c, w) → c ∈ done)
    (hm : s.Matching) (hr : Run Step s es t) : ∀ c w, t.target = some (c, w) → c ∈ done := by
  have hall := hr.invariant
    (I := fun t => t.Callers done ∧ t.Matching ∧ ∀ c w, t.target = some (c, w) → c ∈ done)
    (fun t ev u h hstep => by
      obtain ⟨hc, hm, ht⟩ := h
      obtain ⟨hc', htar'⟩ := callers_step hc hstep
      refine ⟨hc', matching_step hm hstep, fun c w hw => ?_⟩
      rcases htar' with heq | hmem
      · exact ht c w (heq ▸ hw)
      · rcases target_step hm hstep with heq | ⟨-, w', hw'⟩
        · exact ht c w (heq ▸ hw)
        · rw [hw'] at hw
          cases hw
          exact hmem) ⟨hs, hm, htar⟩
  exact hall.2.2

theorem values_of_target (h : Requested me s f n) (ht : s.target = some (f, w)) :
    s.values f = some w := by
  cases h with
  | opening _ _ _ _ _ _ htar => exact absurd ht (htar w)
  | opened _ _ _ _ _ _ _ htar => exact absurd ht (htar w)
  | taken _ _ _ _ hv htar =>
    rw [htar] at ht
    cases ht
    exact hv

theorem values_of_network (h : Requested me s f n) (ht : s.target = none)
    (hn : s.network f = 0) : s.values f = none := by
  cases h with
  | opening _ _ hn' =>
    rw [hn] at hn'
    exact (Multiset.cons_ne_zero hn'.symm).elim
  | opened _ hn' _ _ _ _ hval =>
    rw [hn, eq_comm, Multiset.coe_eq_zero, List.map_eq_nil_iff] at hn'
    rw [hn'] at hval
    cases hv : s.values f with
    | none => rfl
    | some v =>
      rw [hv] at hval
      cases hval
  | taken _ _ _ _ _ htar => simp [ht] at htar

omit [DecidableEq ι] in
theorem mem_of_mem_requested {ready : Future ι → Bool}
    (h : f ∈ Futures.requested ready futures) : f ∈ futures := by
  induction futures with
  | nil => cases h
  | cons g gs ih =>
    unfold Futures.requested at h
    split at h
    · rw [List.mem_singleton.mp h]
      exact List.mem_cons_self
    · rcases List.mem_cons.mp h with rfl | h
      · exact List.mem_cons_self
      · exact List.mem_cons_of_mem _ (ih h)

theorem Initial.requesting (h : Initial s futures) : Requesting me futures [] s where
  matching e f cb he fut hcb := absurd (hcb ▸ he) (h.entryPorts e f fut)
  callers e f fut he := absurd he (h.entryPorts e f fut)
  target c w ht := by simp [h.target] at ht
  requested f _ hf := by cases hf
  untouched f hf _ := h.untouched f hf

/-- `wait_any` opens no port twice exactly when the futures that it requests are distinct.
Until it returns, at most three messages are delivered for each of its futures, and when none
is left no value was set. It returns the value of one of its futures, and the values of the
others end up at their sources exactly when no other future that it requested has a value. -/
theorem wait_any_iff (h0 : Initial s futures) :
    ((State.waitAny me futures s).isSome ↔ (Futures.requested (s.ready me) futures).Nodup) ∧
      ∀ s₁ es t, State.waitAny me futures s = some s₁ → Run Step s₁ es t →
        (t.target = none → ∀ f ∈ futures, es.countP (delivers f) ≤ 3 ∧
          (t.network f = 0 → t.values f = none)) ∧
        ∀ c w, t.target = some (c, w) → (c ∈ futures ∧ t.values c = some w) ∧
          ((∀ f ∈ futures, f ≠ c → ∀ v, t.values f = some v → t.EndsUp f v) ↔
            ∀ f ∈ Futures.requested (s.ready me) futures, f ≠ c → t.values f = none) := by
  have hreq0 : Requesting me futures [] s := h0.requesting
  have hready : ∀ f ∈ futures, f ∉ ([] : List (Future ι)) → s.ready me f = s.ready me f :=
    fun _ _ _ => rfl
  constructor
  · rw [hreq0.waitAny_isSome_iff (fun f hf => hf) h0.target hready]
    simp
  · intro s₁ es t hw hr
    obtain ⟨h1, htar1⟩ := hreq0.waitAny (fun f hf => hf) h0.target hready hw
    rw [List.nil_append] at h1
    set done := Futures.requested (s.ready me) futures with hdone
    constructor
    · intro ht f hf
      have hs1 : s₁.target = none := by
        by_contra hne
        obtain ⟨⟨c, w⟩, hc⟩ := Option.ne_none_iff_exists'.mp hne
        have := (target_some_run h1.matching hc hr).2
        rw [ht] at this
        cases this
      have hd : f ∈ done := by
        rw [htar1 hs1]
        exact hf
      obtain ⟨n, hn, hreq⟩ := h1.requested f hf hd
      obtain ⟨m, hm, -, hle⟩ := requested_run hreq h1.matching hr
      have := hle ht
      exact ⟨by omega, values_of_network hm ht⟩
    · intro c w ht
      have hc : c ∈ done := callers_run h1.callers h1.target h1.matching hr c w ht
      have hcf : c ∈ futures := mem_of_mem_requested hc
      obtain ⟨n, -, hreq⟩ := h1.requested c hcf hc
      obtain ⟨m, hm, hmatch, -⟩ := requested_run hreq h1.matching hr
      refine ⟨⟨hcf, values_of_target hm ht⟩, ?_⟩
      constructor
      · intro hall f hf hne
        have hff : f ∈ futures := mem_of_mem_requested hf
        obtain ⟨n, -, hreq⟩ := h1.requested f hff hf
        obtain ⟨m, hm, -, -⟩ := requested_run hreq h1.matching hr
        cases hv : t.values f with
        | none => rfl
        | some v => exact absurd (hall f hff hne v hv) (not_endsUp_of_requested hm hmatch hv ht hne)
      · intro hall f hf hne v hv
        have hd : f ∉ done := by
          intro hd
          rw [hall f hd hne] at hv
          cases hv
        obtain ⟨hu, -, -⟩ := untouched_run (h1.untouched f hf hd) h1.matching hr
        exact endsUp_of_untouched hu hmatch hv

end Runs

section Two

def first : Future ℕ := ⟨0, 0⟩

def second : Future ℕ := ⟨0, 1⟩

theorem initial_two : Initial ({} : State ℕ ℕ Unit) [first, second] where
  target := rfl
  entryPorts _ _ _ h := by cases h
  untouched _ _ := .unset (fun _ => rfl) rfl rfl fun _ => rfl

def firstArrives : List (Event ℕ ℕ) := [] ++ [.set first 1] ++ [.deliver first (.value 0 1)]

theorem run_two : ∃ s₁ t, State.waitAny 0 [first, second] ({} : State ℕ ℕ Unit) = some s₁ ∧
    Run Step s₁ firstArrives t ∧ t.target = some (first, 1) ∧ t.values second = none :=
  ⟨_, _, rfl, .snoc (.snoc .nil (.set rfl)) (.deliver (n := 0) rfl rfl), rfl, rfl⟩

theorem wait_any_two : ∃ s₁ t, State.waitAny 0 [first, second] ({} : State ℕ ℕ Unit) = some s₁ ∧
    Run Step s₁ firstArrives t ∧ t.target = some (first, 1) ∧ t.values first = some 1 := by
  obtain ⟨s₁, t, hw, hr, ht, -⟩ := run_two
  exact ⟨s₁, t, hw, hr, ht, (((wait_any_iff initial_two).2 s₁ _ t hw hr).2 first 1 ht).1.2⟩

/-- The value of the second future goes to locality 0 again and again. -/
theorem not_endsUp_two : ∃ s₁ t, State.waitAny 0 [first, second] ({} : State ℕ ℕ Unit) = some s₁ ∧
    Run Step s₁ (firstArrives ++ [.set second 2]) t ∧ t.target = some (first, 1) ∧
    t.values second = some 2 ∧ ¬ t.EndsUp second 2 := by
  obtain ⟨s₁, t, hw, hr, ht, hv⟩ := run_two
  have hr' : Run Step s₁ (firstArrives ++ [.set second 2]) (t.set second 2) := hr.snoc (.set hv)
  have hv' : (t.set second 2).values second = some 2 := by simp [State.set, post]
  obtain ⟨h1, -⟩ := initial_two.requesting.waitAny (fun f hf => hf) rfl (fun _ _ _ => rfl) hw
  obtain ⟨n, -, hreq⟩ := h1.requested second (by simp) (by decide)
  obtain ⟨m, hm, hmatch, -⟩ := requested_run hreq h1.matching hr'
  exact ⟨s₁, _, hw, hr', ht, hv', not_endsUp_of_requested hm hmatch hv' ht (by decide)⟩

end Two

end State

end Hypercomm.Futures
