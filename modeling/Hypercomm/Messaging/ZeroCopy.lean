import Mathlib.Data.List.Nodup
import Mathlib.Data.List.Perm.Subperm
import Mathlib.Logic.Function.Basic
import Hypercomm.Transition.Run

/-! # Matching buffers

A zero-copy message names the buffers of its sender. Each of them is received into a buffer
that was posted for the endpoint, or waits for one if the endpoint is in manual mode. The
queue that a buffer is added to never holds one that could have been matched.
-/

namespace Hypercomm.ZeroCopy

open Transition

section Queue

variable {α : Type*}

def takeFirst (p : α → Bool) : List α → Option (α × List α)
  | [] => none
  | a :: l => if p a then some (a, l) else (takeFirst p l).map fun x => (x.1, a :: x.2)

variable {p : α → Bool} {l l' : List α} {a : α}

theorem takeFirst_eq_none : takeFirst p l = none ↔ ∀ a ∈ l, p a = false := by
  induction l with
  | nil => simp [takeFirst]
  | cons b l ih =>
    unfold takeFirst
    cases hb : p b with
    | true => simp [hb]
    | false => simp [hb, ih]

theorem takeFirst_eq_some (h : takeFirst p l = some (a, l')) :
    p a = true ∧ l.Perm (a :: l') := by
  induction l generalizing l' with
  | nil => cases h
  | cons b l ih =>
    unfold takeFirst at h
    split_ifs at h with hb
    · cases h
      exact ⟨hb, .rfl⟩
    · obtain ⟨x, hx, he⟩ := Option.map_eq_some_iff.mp h
      cases he
      obtain ⟨hp, hperm⟩ := ih hx
      exact ⟨hp, (hperm.cons b).trans (.swap x.1 b x.2)⟩

end Queue

/-- A buffer of a sender, by its message and its position there. -/
structure Source (C : Type*) where
  msg : ℕ
  pos : ℕ
  cnt : ℕ
  data : C

structure Buffer where
  id : ℕ
  size : ℕ

/-- What `CkNcpyBuffer::get` has begun. -/
structure Transfer (C : Type*) where
  src : Source C
  dest : Buffer

structure ZeroCopyValue (ε C : Type*) where
  ep : ε
  buffers : List (Source C)
  values : List (Option ℕ) := []
  nReceived : ℕ := 0

namespace ZeroCopyValue

variable {ε C : Type*}

def ready (val : ZeroCopyValue ε C) : Bool :=
  val.nReceived != 0 && val.nReceived == val.buffers.length

/-- A buffer is known by its address. -/
def receive (val : ZeroCopyValue ε C) (which : Source C) (value : ℕ) :
    Option (ZeroCopyValue ε C) :=
  match val.buffers.findIdx? fun other => other.msg == which.msg && other.pos == which.pos with
  | none => none
  | some pos =>
      let values := if val.values.isEmpty then List.replicate val.buffers.length none
        else val.values
      some { val with
        values := values.set pos (some value)
        nReceived := val.nReceived + 1 }

end ZeroCopyValue

/-- The buffers of a locality. The queues of all endpoints are kept in one list, each entry
with its endpoint, and the messages in the order of their arrival. What a handler is given
and the transfers that have finished are logged. -/
structure Locality (ε C : Type*) where
  buffers : List (ε × Buffer) := []
  outstanding : List (ε × Source C) := []
  manual : List ε := []
  messages : List (ZeroCopyValue ε C) := []
  memory : ℕ → Option C := fun _ => none
  nBuffers : ℕ := 0
  inFlight : List (Transfer C) := []
  finished : List (Transfer C) := []
  qdCreated : ℕ := 0
  qdProcessed : ℕ := 0
  handled : List (ℕ × List (Option C)) := []

namespace Locality

variable {ε C : Type*} [DecidableEq ε]

def manualMode (s : Locality ε C) (ep : ε) : Locality ε C :=
  { s with manual := if ep ∈ s.manual then s.manual else ep :: s.manual }

def get (s : Locality ε C) (src : Source C) (dest : Buffer) : Locality ε C :=
  { s with inFlight := ⟨src, dest⟩ :: s.inFlight }

/-- A posted buffer fulfills the first outstanding source that fits, or is saved. -/
def postBuffer (s : Locality ε C) (ep : ε) (size : ℕ) : Locality ε C :=
  let buffer : Buffer := ⟨s.nBuffers, size⟩
  let s := { s with nBuffers := s.nBuffers + 1 }
  match takeFirst (fun o => decide (o.1 = ep) && decide (o.2.cnt ≤ size)) s.outstanding with
  | none => { s with buffers := s.buffers ++ [(ep, buffer)] }
  | some (o, rest) => get { s with
      outstanding := rest
      qdProcessed := s.qdProcessed + 1 } o.2 buffer

/-- A source takes the first posted buffer that is large enough. Without one it waits, or
gets a new buffer if the endpoint is not in manual mode. -/
def pollBuffer (s : Locality ε C) (ep : ε) (src : Source C) : Locality ε C :=
  match takeFirst (fun b => decide (b.1 = ep) && decide (src.cnt ≤ b.2.size)) s.buffers with
  | some (b, rest) => get { s with buffers := rest } src b.2
  | none =>
      if ep ∈ s.manual then { s with
        outstanding := s.outstanding ++ [(ep, src)]
        qdCreated := s.qdCreated + 1 }
      else get { s with nBuffers := s.nBuffers + 1 } src ⟨s.nBuffers, src.cnt⟩

def sources (msg : ℕ) (bufs : List (ℕ × C)) : List (Source C) :=
  bufs.mapIdx fun pos b => ⟨msg, pos, b.1, b.2⟩

/-- A message is marked as zero-copy if it has a deferred buffer, and only then. -/
def receiveValue (s : Locality ε C) (ep : ε) (bufs : List (ℕ × C)) : Option (Locality ε C) :=
  if bufs.isEmpty then none
  else
    let srcs := sources s.messages.length bufs
    some (srcs.foldl (fun s src => s.pollBuffer ep src) { s with
      messages := s.messages ++ [{
        ep := ep
        buffers := srcs }] })

/-- A transfer has finished, and its message is handled once it is ready. -/
def action (s : Locality ε C) (t : Transfer C) : Option (Locality ε C) :=
  let memory := Function.update s.memory t.dest.id (some t.src.data)
  (s.messages[t.src.msg]?).bind fun val =>
    (val.receive t.src t.dest.id).map fun val =>
      { s with
        memory := memory
        messages := s.messages.set t.src.msg val
        finished := t :: s.finished
        handled := if val.ready then
            s.handled ++ [(t.src.msg, val.values.map fun v => v.bind memory)]
          else s.handled }

inductive Event (ε C : Type*)
  | manualMode (ep : ε)
  | postBuffer (ep : ε) (size : ℕ)
  | receiveValue (ep : ε) (bufs : List (ℕ × C))
  | finish (k : ℕ)

/-- The transfers finish in any order. -/
def step (s : Locality ε C) : Event ε C → Option (Locality ε C)
  | .manualMode ep => some (s.manualMode ep)
  | .postBuffer ep size => some (s.postBuffer ep size)
  | .receiveValue ep bufs => s.receiveValue ep bufs
  | .finish k => (s.inFlight[k]?).bind fun t =>
      action { s with inFlight := s.inFlight.eraseIdx k } t

def transfers (s : Locality ε C) : List (Transfer C) := s.inFlight ++ s.finished

def arrived (s : Locality ε C) : List (Source C) := s.messages.flatMap ZeroCopyValue.buffers

def ids (s : Locality ε C) : List ℕ := s.buffers.map (·.2.id) ++ s.transfers.map (·.dest.id)

structure Matched (s : Locality ε C) : Prop where
  apart : ∀ b ∈ s.buffers, ∀ o ∈ s.outstanding, b.1 = o.1 → b.2.size < o.2.cnt
  fits : ∀ t ∈ s.transfers, t.src.cnt ≤ t.dest.size
  dests : s.ids.Nodup
  sources : (s.outstanding.map Prod.snd ++ s.transfers.map Transfer.src).Perm s.arrived
  distinct : s.arrived.Nodup
  qd : s.qdCreated = s.qdProcessed + s.outstanding.length
  once : (s.handled.map Prod.fst).Nodup
  handled : ∀ m, m ∈ s.handled.map Prod.fst ↔ ∃ val, s.messages[m]? = some val ∧
    ∀ src ∈ val.buffers, src ∈ s.finished.map Transfer.src
  contents : ∀ h ∈ s.handled, ∃ val, s.messages[h.1]? = some val ∧
    h.2 = val.buffers.map fun src => some src.data

section Balance

variable {s t : Locality ε C} {pending : List (Source C)} {src : Source C} {ep : ε}

/-- The queues are balanced, up to sources of the last message that were not polled yet. -/
structure Balanced (pending : List (Source C)) (s : Locality ε C) : Prop where
  apart : ∀ b ∈ s.buffers, ∀ o ∈ s.outstanding, b.1 = o.1 → b.2.size < o.2.cnt
  fits : ∀ t ∈ s.transfers, t.src.cnt ≤ t.dest.size
  dests : s.ids.Nodup
  fresh : ∀ id ∈ s.ids, id < s.nBuffers
  sources : (s.outstanding.map Prod.snd ++ s.transfers.map Transfer.src ++ pending).Perm s.arrived
  qd : s.qdCreated = s.qdProcessed + s.outstanding.length

structure Untouched (s t : Locality ε C) : Prop where
  messages : t.messages = s.messages
  memory : t.memory = s.memory
  finished : t.finished = s.finished
  handled : t.handled = s.handled

omit [DecidableEq ε] in
theorem Untouched.trans {u : Locality ε C} (h : Untouched s t) (h' : Untouched t u) :
    Untouched s u :=
  ⟨h'.messages.trans h.messages, h'.memory.trans h.memory, h'.finished.trans h.finished,
    h'.handled.trans h.handled⟩

theorem fresh_cons {n : ℕ} {l k : List ℕ} (h : l.Perm (n :: k)) (hd : k.Nodup)
    (hf : ∀ id ∈ k, id < n) : l.Nodup ∧ ∀ id ∈ l, id < n + 1 := by
  constructor
  · refine h.nodup_iff.mpr (List.nodup_cons.mpr ⟨fun hn => ?_, hd⟩)
    exact Nat.lt_irrefl n (hf n hn)
  · intro id hid
    rcases List.mem_cons.mp (h.mem_iff.mp hid) with rfl | hid
    · exact Nat.lt_succ_self id
    · exact Nat.lt_succ_of_lt (hf id hid)

/-- A buffer is saved only if no outstanding source fits into it. -/
theorem Balanced.postBuffer (h : Balanced [] s) (ep : ε) (size : ℕ) :
    Balanced [] (s.postBuffer ep size) ∧ Untouched s (s.postBuffer ep size) := by
  unfold Locality.postBuffer
  dsimp only
  split
  · rename_i hnone
    rw [takeFirst_eq_none] at hnone
    have hids : (s.buffers ++ [(ep, (⟨s.nBuffers, size⟩ : Buffer))]).map (·.2.id) ++
        s.transfers.map (·.dest.id) |>.Perm (s.nBuffers :: s.ids) := by
      rw [List.map_append, List.append_assoc]
      exact List.perm_middle
    obtain ⟨hnd, hlt⟩ := fresh_cons hids h.dests h.fresh
    refine ⟨⟨?_, h.fits, hnd, hlt, h.sources, h.qd⟩, rfl, rfl, rfl, rfl⟩
    intro b hb o ho he
    rcases List.mem_append.mp hb with hb | hb
    · exact h.apart b hb o ho he
    · obtain rfl := List.mem_singleton.mp hb
      have hno := hnone o ho
      simp only [← he, decide_true, Bool.true_and, decide_eq_false_iff_not, Nat.not_le] at hno
      exact hno
  · rename_i o rest hsome
    obtain ⟨hp, hperm⟩ := takeFirst_eq_some hsome
    simp only [Bool.and_eq_true, decide_eq_true_eq] at hp
    obtain ⟨hnd, hlt⟩ := fresh_cons (n := s.nBuffers) (l := s.buffers.map (·.2.id) ++
      s.nBuffers :: s.transfers.map (·.dest.id)) List.perm_middle h.dests h.fresh
    refine ⟨⟨fun b hb o' ho' => h.apart b hb o' (hperm.mem_iff.mpr (List.mem_cons_of_mem o ho')),
      ?_, hnd, hlt, ?_, ?_⟩, rfl, rfl, rfl, rfl⟩
    · intro t ht
      rcases List.mem_cons.mp ht with rfl | ht
      · exact hp.2
      · exact h.fits t ht
    · refine List.Perm.trans ?_ h.sources
      rw [List.append_nil, List.append_nil]
      exact List.perm_middle.trans ((hperm.map Prod.snd).symm.append_right _)
    · have hlen := hperm.length_eq
      have hqd := h.qd
      rw [List.length_cons] at hlen
      change s.qdCreated = s.qdProcessed + 1 + rest.length
      omega

theorem perm_placed {α : Type*} {A B P : List α} (x : α) :
    (A ++ x :: B ++ P).Perm (A ++ B ++ x :: P) :=
  (List.perm_middle.append_right P).trans List.perm_middle.symm

theorem Balanced.pollBuffer (h : Balanced (src :: pending) s) (ep : ε) :
    Balanced pending (s.pollBuffer ep src) ∧ Untouched s (s.pollBuffer ep src) := by
  unfold Locality.pollBuffer
  split
  · rename_i b rest hsome
    obtain ⟨hp, hperm⟩ := takeFirst_eq_some hsome
    simp only [Bool.and_eq_true, decide_eq_true_eq] at hp
    have hids : (rest.map (·.2.id) ++ b.2.id :: s.transfers.map (·.dest.id)).Perm s.ids :=
      List.perm_middle.trans ((hperm.map (·.2.id)).symm.append_right _)
    refine ⟨⟨fun b' hb' => h.apart b' (hperm.mem_iff.mpr (List.mem_cons_of_mem b hb')), ?_,
      hids.nodup_iff.mpr h.dests, fun id hid => h.fresh id (hids.mem_iff.mp hid), ?_, h.qd⟩,
      rfl, rfl, rfl, rfl⟩
    · intro t ht
      rcases List.mem_cons.mp ht with rfl | ht
      · exact hp.2
      · exact h.fits t ht
    · exact (perm_placed src).trans h.sources
  · rename_i hnone
    rw [takeFirst_eq_none] at hnone
    split_ifs with hm
    · refine ⟨⟨?_, h.fits, h.dests, h.fresh, ?_, ?_⟩, rfl, rfl, rfl, rfl⟩
      · intro b hb o ho he
        rcases List.mem_append.mp ho with ho | ho
        · exact h.apart b hb o ho he
        · obtain rfl := List.mem_singleton.mp ho
          have hno := hnone b hb
          simp only [he, decide_true, Bool.true_and, decide_eq_false_iff_not, Nat.not_le] at hno
          exact hno
      · refine List.Perm.trans ?_ h.sources
        rw [List.map_append, List.append_assoc (s.outstanding.map Prod.snd)]
        exact perm_placed src
      · have hqd := h.qd
        simp only [List.length_append, List.length_singleton]
        omega
    · obtain ⟨hnd, hlt⟩ := fresh_cons (n := s.nBuffers) (l := s.buffers.map (·.2.id) ++
        s.nBuffers :: s.transfers.map (·.dest.id)) List.perm_middle h.dests h.fresh
      refine ⟨⟨h.apart, ?_, hnd, hlt, ?_, h.qd⟩, rfl, rfl, rfl, rfl⟩
      · intro t ht
        rcases List.mem_cons.mp ht with rfl | ht
        · exact Nat.le_refl _
        · exact h.fits t ht
      · exact (perm_placed src).trans h.sources

theorem Balanced.foldl (h : Balanced pending s) (ep : ε) :
    Balanced [] (pending.foldl (fun s src => s.pollBuffer ep src) s) ∧
      Untouched s (pending.foldl (fun s src => s.pollBuffer ep src) s) := by
  induction pending generalizing s with
  | nil => exact ⟨h, rfl, rfl, rfl, rfl⟩
  | cons src pending ih =>
    obtain ⟨hb, hu⟩ := h.pollBuffer ep
    obtain ⟨hb', hu'⟩ := ih hb
    exact ⟨hb', hu.trans hu'⟩

end Balance

section Reception

variable {s t : Locality ε C} {ep : ε} {bufs : List (ℕ × C)} {m : ℕ}
variable {val val' : ZeroCopyValue ε C} {messages : List (ZeroCopyValue ε C)}
variable {memory : ℕ → Option C} {finished : List (Transfer C)}

structure Stored (messages : List (ZeroCopyValue ε C)) (memory : ℕ → Option C)
    (finished : List (Transfer C)) : Prop where
  nonempty : ∀ (m : ℕ) val, messages[m]? = some val → val.buffers ≠ []
  keys : ∀ (m : ℕ) val, messages[m]? = some val → ∀ (i : ℕ) src, val.buffers[i]? = some src →
    src.msg = m ∧ src.pos = i
  count : ∀ (m : ℕ) val, messages[m]? = some val →
    val.nReceived = (finished.filter fun t => t.src.msg = m).length
  values : ∀ (m : ℕ) val, messages[m]? = some val →
    val.values = [] ∨ val.values.length = val.buffers.length
  value : ∀ t ∈ finished, ∃ val, messages[t.src.msg]? = some val ∧
    val.buffers[t.src.pos]? = some t.src ∧ val.values[t.src.pos]? = some (some t.dest.id)
  memory : ∀ t ∈ finished, memory t.dest.id = some t.src.data

structure Received (s : Locality ε C) : Prop where
  stored : Stored s.messages s.memory s.finished
  once : (s.handled.map Prod.fst).Nodup
  handled : ∀ m, m ∈ s.handled.map Prod.fst ↔ ∃ val, s.messages[m]? = some val ∧
    ∀ src ∈ val.buffers, src ∈ s.finished.map Transfer.src
  contents : ∀ h ∈ s.handled, ∃ val, s.messages[h.1]? = some val ∧
    h.2 = val.buffers.map fun src => some src.data

omit [DecidableEq ε] in
theorem Received.untouched (h : Received s) (hu : Untouched s t) : Received t := by
  obtain ⟨hm, hmem, hf, hh⟩ := hu
  constructor
  · rw [hm, hmem, hf]
    exact h.stored
  · rw [hh]
    exact h.once
  · rw [hh, hm, hf]
    exact h.handled
  · rw [hh, hm]
    exact h.contents

omit [DecidableEq ε] in
theorem Stored.nodup_buffers (h : Stored messages memory finished)
    (hv : messages[m]? = some val) : val.buffers.Nodup := by
  have hpos : val.buffers.map Source.pos = List.range val.buffers.length := by
    apply List.ext_getElem (by simp)
    intro i hi hi'
    rw [List.length_map] at hi
    rw [List.getElem_map, List.getElem_range]
    exact (h.keys m val hv i _ (List.getElem?_eq_getElem hi)).2
  exact List.Nodup.of_map Source.pos (hpos ▸ List.nodup_range)

omit [DecidableEq ε] in
theorem Stored.msg_eq (h : Stored messages memory finished) (hv : messages[m]? = some val)
    {src : Source C} (hs : src ∈ val.buffers) : src.msg = m := by
  obtain ⟨i, hi⟩ := List.getElem?_of_mem hs
  exact (h.keys m val hv i src hi).1

omit [DecidableEq ε] in
theorem Stored.distinct (h : Stored messages memory finished) :
    (messages.flatMap ZeroCopyValue.buffers).Nodup := by
  refine List.nodup_flatMap.mpr ⟨fun val hv => ?_, ?_⟩
  · obtain ⟨m, hm⟩ := List.getElem?_of_mem hv
    exact h.nodup_buffers hm
  · rw [List.pairwise_iff_getElem]
    intro i j hi hj hij src hs hs'
    have h1 := h.msg_eq (List.getElem?_eq_getElem hi) hs
    have h2 := h.msg_eq (List.getElem?_eq_getElem hj) hs'
    omega

omit [DecidableEq ε] in
theorem Balanced.matched (hb : Balanced [] s) (hr : Received s) : Matched s where
  apart := hb.apart
  fits := hb.fits
  dests := hb.dests
  sources := by simpa using hb.sources
  distinct := hr.stored.distinct
  qd := hb.qd
  once := hr.once
  handled := hr.handled
  contents := hr.contents

omit [DecidableEq ε] in
theorem getElem?_sources {i : ℕ} :
    (sources m bufs)[i]? = bufs[i]?.map fun b => ⟨m, i, b.1, b.2⟩ := List.getElem?_mapIdx

omit [DecidableEq ε] in
theorem getElem?_append_singleton (h : (messages ++ [val'])[m]? = some val) :
    messages[m]? = some val ∨ m = messages.length ∧ val = val' := by
  rw [List.getElem?_append] at h
  split_ifs at h with hm
  · exact .inl h
  · obtain ⟨hz, hv⟩ := List.getElem?_eq_some_iff.mp h
    rw [List.length_singleton] at hz
    rw [List.getElem_singleton] at hv
    exact .inr ⟨by omega, hv.symm⟩

omit [DecidableEq ε] in
theorem getElem?_append_of_some (h : messages[m]? = some val) :
    (messages ++ [val'])[m]? = some val := by
  rwa [List.getElem?_append_left (List.getElem?_eq_some_iff.mp h).1]

omit [DecidableEq ε] in
theorem Stored.msg_lt (h : Stored messages memory finished) {t : Transfer C}
    (ht : t ∈ finished) : t.src.msg < messages.length := by
  obtain ⟨val, hval, -⟩ := h.value t ht
  exact (List.getElem?_eq_some_iff.mp hval).1

omit [DecidableEq ε] in
theorem sources_keys (i : ℕ) (src : Source C) (h : (sources m bufs)[i]? = some src) :
    src.msg = m ∧ src.pos = i := by
  rw [getElem?_sources] at h
  obtain ⟨b, -, rfl⟩ := Option.map_eq_some_iff.mp h
  exact ⟨rfl, rfl⟩

theorem sources_ne_nil (h : bufs ≠ []) : sources m bufs ≠ [] := by
  simpa [Locality.sources] using h

omit [DecidableEq ε] in
theorem Stored.append (h : Stored messages memory finished) (ep : ε) (hbufs : bufs ≠ []) :
    Stored (messages ++ [{ ep := ep, buffers := sources messages.length bufs }]) memory
      finished := by
  constructor
  · intro m val hm
    rcases getElem?_append_singleton hm with hm | ⟨rfl, rfl⟩
    · exact h.nonempty m val hm
    · exact sources_ne_nil hbufs
  · intro m val hm
    rcases getElem?_append_singleton hm with hm | ⟨rfl, rfl⟩
    · exact h.keys m val hm
    · exact sources_keys
  · intro m val hm
    rcases getElem?_append_singleton hm with hm | ⟨rfl, rfl⟩
    · exact h.count m val hm
    · symm
      apply List.length_eq_zero_iff.mpr
      apply List.filter_eq_nil_iff.mpr
      intro t ht
      simpa using Nat.ne_of_lt (h.msg_lt ht)
  · intro m val hm
    rcases getElem?_append_singleton hm with hm | ⟨rfl, rfl⟩
    · exact h.values m val hm
    · exact .inl rfl
  · intro t ht
    obtain ⟨val, hval, hv⟩ := h.value t ht
    exact ⟨val, getElem?_append_of_some hval, hv⟩
  · exact h.memory

omit [DecidableEq ε] in
theorem Received.append (h : Received s) (ep : ε) (hbufs : bufs ≠ []) :
    Received { s with messages := s.messages ++ [{
      ep := ep
      buffers := sources s.messages.length bufs }] } := by
  refine ⟨h.stored.append ep hbufs, h.once, ?_, ?_⟩
  · intro m
    constructor
    · intro hm
      obtain ⟨val, hval, hall⟩ := (h.handled m).mp hm
      exact ⟨val, getElem?_append_of_some hval, hall⟩
    · rintro ⟨val, hm, hall⟩
      rcases getElem?_append_singleton hm with hm | ⟨rfl, rfl⟩
      · exact (h.handled m).mpr ⟨val, hm, hall⟩
      · -- no source of the new message has been received
        obtain ⟨src, hsrc⟩ := List.exists_mem_of_ne_nil _ (sources_ne_nil hbufs)
        obtain ⟨t, ht, rfl⟩ := List.mem_map.mp (hall src hsrc)
        obtain ⟨i, hi⟩ := List.getElem?_of_mem hsrc
        exact absurd (sources_keys i _ hi).1 (Nat.ne_of_lt (h.stored.msg_lt ht))
  · intro x hx
    obtain ⟨val, hval, hv⟩ := h.contents x hx
    exact ⟨val, getElem?_append_of_some hval, hv⟩

theorem Balanced.receiveValue (hb : Balanced [] s) (hr : Received s)
    (ht : s.receiveValue ep bufs = some t) : Balanced [] t ∧ Received t := by
  unfold Locality.receiveValue at ht
  split_ifs at ht with hempty
  obtain rfl := Option.some.inj ht
  have hstart : Balanced (Locality.sources s.messages.length bufs) { s with
      messages := s.messages ++ [{
        ep := ep
        buffers := Locality.sources s.messages.length bufs }] } := by
    refine ⟨hb.apart, hb.fits, hb.dests, hb.fresh, ?_, hb.qd⟩
    have hs := hb.sources
    rw [List.append_nil] at hs
    rw [arrived, List.flatMap_append, List.flatMap_singleton]
    exact hs.append_right _
  obtain ⟨hbal, hu⟩ := hstart.foldl ep
  exact ⟨hbal, (hr.append ep (by simpa using hempty)).untouched hu⟩

end Reception

section Action

variable {s u : Locality ε C} {t : Transfer C} {k m : ℕ} {val val' : ZeroCopyValue ε C}
variable {messages : List (ZeroCopyValue ε C)} {memory : ℕ → Option C}
variable {finished : List (Transfer C)} {vs : List (Option ℕ)}

omit [DecidableEq ε] in
theorem getElem?_set_messages {n : ℕ} (h : (messages.set n val')[m]? = some val) :
    m = n ∧ val = val' ∨ m ≠ n ∧ messages[m]? = some val := by
  by_cases hm : m = n
  · subst hm
    rw [List.getElem?_set_self'] at h
    obtain ⟨w, -, rfl⟩ := Option.map_eq_some_iff.mp h
    exact .inl ⟨rfl, rfl⟩
  · rw [List.getElem?_set_ne (Ne.symm hm)] at h
    exact .inr ⟨hm, h⟩

omit [DecidableEq ε] in
theorem getElem?_set_some (h : messages[m]? = some val) :
    (messages.set m val')[m]? = some val' := by
  rw [List.getElem?_set_self', h]
  rfl

omit [DecidableEq ε] in
theorem flatMap_set_buffers (hv : messages[m]? = some val) (hb : val'.buffers = val.buffers) :
    (messages.set m val').flatMap ZeroCopyValue.buffers =
      messages.flatMap ZeroCopyValue.buffers := by
  have hmap : (messages.set m val').map ZeroCopyValue.buffers =
      messages.map ZeroCopyValue.buffers := by
    rw [List.map_set, hb]
    apply List.ext_getElem?
    intro i
    by_cases hi : i = m
    · subst hi
      rw [List.getElem?_set_self']
      simp [hv]
    · rw [List.getElem?_set_ne (Ne.symm hi)]
  rw [List.flatMap_def, List.flatMap_def, hmap]

omit [DecidableEq ε] in
theorem Stored.receive (h : Stored messages memory finished)
    (hval : messages[t.src.msg]? = some val) (hpos : val.buffers[t.src.pos]? = some t.src) :
    ∃ val' vs, val.receive t.src t.dest.id = some val' ∧ val'.buffers = val.buffers ∧
      val'.nReceived = val.nReceived + 1 ∧ val'.values = vs.set t.src.pos (some t.dest.id) ∧
      vs.length = val.buffers.length ∧ (val.values = [] ∨ vs = val.values) := by
  have hfind : (val.buffers.findIdx? fun other =>
      other.msg == t.src.msg && other.pos == t.src.pos) = some t.src.pos := by
    obtain ⟨hlt, hget⟩ := List.getElem?_eq_some_iff.mp hpos
    refine List.findIdx?_eq_some_iff_getElem.mpr ⟨hlt, by simp [hget], fun j hj => ?_⟩
    have hj' := (h.keys _ val hval j _ (List.getElem?_eq_getElem (Nat.lt_trans hj hlt))).2
    simp only [hj']
    simp [Nat.ne_of_lt hj]
  generalize hvs : (if val.values.isEmpty then List.replicate val.buffers.length none
    else val.values) = vs
  refine ⟨{ val with
    values := vs.set t.src.pos (some t.dest.id)
    nReceived := val.nReceived + 1 }, vs, ?_, rfl, rfl, rfl, ?_, ?_⟩
  · simp only [ZeroCopyValue.receive, hfind, hvs]
  · rcases h.values _ val hval with hnil | hlen
    · simp [← hvs, hnil]
    · rw [← hvs]
      split_ifs
      · exact List.length_replicate
      · exact hlen
  · by_cases hnil : val.values = []
    · exact .inl hnil
    · rw [← hvs]
      exact .inr (if_neg (by simpa using hnil))

omit [DecidableEq ε] in
theorem Stored.finish (h : Stored messages memory finished)
    (hval : messages[t.src.msg]? = some val) (hpos : val.buffers[t.src.pos]? = some t.src)
    (hbufs : val'.buffers = val.buffers) (hn : val'.nReceived = val.nReceived + 1)
    (hvals : val'.values = vs.set t.src.pos (some t.dest.id))
    (hlen : vs.length = val.buffers.length) (hvs : val.values = [] ∨ vs = val.values)
    (hsrc : ∀ t' ∈ finished, t'.src ≠ t.src) (hdest : ∀ t' ∈ finished, t'.dest.id ≠ t.dest.id) :
    Stored (messages.set t.src.msg val') (Function.update memory t.dest.id (some t.src.data))
      (t :: finished) := by
  have hself : (messages.set t.src.msg val')[t.src.msg]? = some val' := getElem?_set_some hval
  constructor
  · intro m v hm
    rcases getElem?_set_messages hm with ⟨rfl, rfl⟩ | ⟨-, hm⟩
    · rw [hbufs]
      exact h.nonempty _ val hval
    · exact h.nonempty m v hm
  · intro m v hm
    rcases getElem?_set_messages hm with ⟨rfl, rfl⟩ | ⟨-, hm⟩
    · rw [hbufs]
      exact h.keys _ val hval
    · exact h.keys m v hm
  · intro m v hm
    rcases getElem?_set_messages hm with ⟨rfl, rfl⟩ | ⟨hne, hm⟩
    · rw [hn, List.filter_cons_of_pos (by simp), List.length_cons, ← h.count _ _ hval]
    · rw [List.filter_cons_of_neg (by simpa using Ne.symm hne)]
      exact h.count m v hm
  · intro m v hm
    rcases getElem?_set_messages hm with ⟨rfl, rfl⟩ | ⟨-, hm⟩
    · rw [hvals, hbufs]
      exact .inr ((List.length_set ..).trans hlen)
    · exact h.values m v hm
  · intro t' ht'
    rcases List.mem_cons.mp ht' with rfl | ht'
    · refine ⟨val', hself, by rw [hbufs, hpos], ?_⟩
      rw [hvals, List.getElem?_set_self]
      rw [hlen]
      exact (List.getElem?_eq_some_iff.mp hpos).1
    · obtain ⟨v, hv, hp, hvalue⟩ := h.value t' ht'
      by_cases he : t'.src.msg = t.src.msg
      · rw [he, hval] at hv
        cases hv
        have hne : t.src.pos ≠ t'.src.pos := by
          intro heq
          rw [← heq, hpos] at hp
          exact hsrc t' ht' (Option.some.inj hp).symm
        refine ⟨val', by rw [he, hself], by rw [hbufs, hp], ?_⟩
        rw [hvals, List.getElem?_set_ne hne]
        rcases hvs with hnil | rfl
        · rw [hnil] at hvalue
          cases hvalue
        · exact hvalue
      · exact ⟨v, by rwa [List.getElem?_set_ne (Ne.symm he)], hp, hvalue⟩
  · intro t' ht'
    rcases List.mem_cons.mp ht' with rfl | ht'
    · exact Function.update_self ..
    · rw [Function.update_of_ne (hdest t' ht')]
      exact h.memory t' ht'

omit [DecidableEq ε] in
/-- As many transfers as a message has buffers have finished if all of them have. -/
theorem Stored.ready_iff (h : Stored messages memory finished)
    (hnd : (finished.map Transfer.src).Nodup) (hval : messages[m]? = some val) :
    val.ready = true ↔ ∀ src ∈ val.buffers, src ∈ finished.map Transfer.src := by
  have hnd' : ((finished.filter fun t => t.src.msg = m).map Transfer.src).Nodup :=
    hnd.sublist (List.filter_sublist.map _)
  have hin : (finished.filter fun t => t.src.msg = m).map Transfer.src ⊆ val.buffers := by
    intro src hsrc
    obtain ⟨t, ht, rfl⟩ := List.mem_map.mp hsrc
    obtain ⟨ht, he⟩ := List.mem_filter.mp ht
    obtain ⟨v, hv, hp, -⟩ := h.value t ht
    rw [decide_eq_true_eq] at he
    rw [he, hval] at hv
    cases hv
    exact List.mem_of_getElem? hp
  have hle := (hnd'.subperm hin).length_le
  have hpos := List.length_pos_of_ne_nil (h.nonempty m val hval)
  rw [List.length_map, ← h.count m val hval] at hle
  simp only [ZeroCopyValue.ready, Bool.and_eq_true, bne_iff_ne, beq_iff_eq]
  constructor
  · rintro ⟨-, he⟩ src hsrc
    have hperm := (hnd'.subperm hin).perm_of_length_le
      (by rw [List.length_map, ← h.count m val hval]; exact Nat.le_of_eq he.symm)
    obtain ⟨t, ht, rfl⟩ := List.mem_map.mp (hperm.mem_iff.mpr hsrc)
    exact List.mem_map_of_mem (List.mem_filter.mp ht).1
  · intro hall
    have hin' : val.buffers ⊆ (finished.filter fun t => t.src.msg = m).map Transfer.src := by
      intro src hsrc
      obtain ⟨t, ht, rfl⟩ := List.mem_map.mp (hall src hsrc)
      exact List.mem_map_of_mem
        (List.mem_filter.mpr ⟨ht, decide_eq_true (h.msg_eq hval hsrc)⟩)
    have hge := ((h.nodup_buffers hval).subperm hin').length_le
    rw [List.length_map, ← h.count m val hval] at hge
    omega

omit [DecidableEq ε] in
/-- A message whose buffers were all received holds the contents of its sources. -/
theorem Stored.contents (h : Stored messages memory finished) (hval : messages[m]? = some val)
    (hall : ∀ src ∈ val.buffers, src ∈ finished.map Transfer.src) :
    (val.values.map fun v => v.bind memory) = val.buffers.map fun src => some src.data := by
  have hreceived : ∀ i (hi : i < val.buffers.length), ∃ t ∈ finished,
      t.src = val.buffers[i] ∧ val.values[i]? = some (some t.dest.id) := by
    intro i hi
    obtain ⟨t, ht, he⟩ := List.mem_map.mp (hall _ (List.getElem_mem hi))
    obtain ⟨hm, hp⟩ := h.keys m val hval i _ (List.getElem?_eq_getElem hi)
    obtain ⟨v, hv, -, hvi⟩ := h.value t ht
    rw [he, hm, hval] at hv
    cases hv
    rw [he, hp] at hvi
    exact ⟨t, ht, he, hvi⟩
  have hlen : val.values.length = val.buffers.length := by
    rcases h.values m val hval with hnil | hlen
    · obtain ⟨t, -, -, hv⟩ := hreceived 0 (List.length_pos_of_ne_nil (h.nonempty m val hval))
      rw [hnil] at hv
      cases hv
    · exact hlen
  apply List.ext_getElem
  · rw [List.length_map, List.length_map, hlen]
  · intro i hi hi'
    rw [List.length_map] at hi hi'
    obtain ⟨t, ht, he, hv⟩ := hreceived i hi'
    rw [List.getElem_map, List.getElem_map, (List.getElem?_eq_some_iff.mp hv).2,
      Option.bind_some, h.memory t ht, he]

omit [DecidableEq ε] in
theorem transfers_perm (hk : s.inFlight[k]? = some t) :
    (s.inFlight.eraseIdx k ++ t :: s.finished).Perm s.transfers := by
  obtain ⟨hlt, hget⟩ := List.getElem?_eq_some_iff.mp hk
  refine List.perm_middle.trans ?_
  have hperm := List.getElem_cons_eraseIdx_perm hlt
  rw [hget] at hperm
  exact hperm.append_right s.finished

omit [DecidableEq ε] in
theorem Balanced.finish {handled : List (ℕ × List (Option C))} (h : Balanced [] s)
    (hk : s.inFlight[k]? = some t)
    (hm : messages.flatMap ZeroCopyValue.buffers = s.arrived) :
    Balanced [] { s with
      inFlight := s.inFlight.eraseIdx k
      messages := messages
      memory := memory
      finished := t :: s.finished
      handled := handled } := by
  have hperm := transfers_perm hk
  have hids := (hperm.map (·.dest.id)).append_left (s.buffers.map (·.2.id))
  refine ⟨h.apart, fun t' ht' => h.fits t' (hperm.mem_iff.mp ht'), hids.nodup_iff.mpr h.dests,
    fun id hid => h.fresh id (hids.mem_iff.mp hid), ?_, h.qd⟩
  have hsrc := ((hperm.map Transfer.src).append_left (s.outstanding.map Prod.snd)).append_right
    ([] : List (Source C))
  have hall := hsrc.trans h.sources
  rw [← hm] at hall
  exact hall

omit [DecidableEq ε] in
theorem nodup_finish (hb : Balanced [] s) (hr : Received s) (hk : s.inFlight[k]? = some t) :
    ((t :: s.finished).map Transfer.src).Nodup ∧
      ((t :: s.finished).map (·.dest.id)).Nodup := by
  have hperm := transfers_perm hk
  constructor
  · have hs := hb.sources
    rw [List.append_nil] at hs
    have hnd := (List.nodup_append.mp (hs.nodup_iff.mpr hr.stored.distinct)).2.1
    have hall := (hperm.map Transfer.src).nodup_iff.mpr hnd
    rw [List.map_append] at hall
    exact (List.nodup_append.mp hall).2.1
  · have hnd := (List.nodup_append.mp hb.dests).2.1
    have hall := (hperm.map (·.dest.id)).nodup_iff.mpr hnd
    rw [List.map_append] at hall
    exact (List.nodup_append.mp hall).2.1

omit [DecidableEq ε] in
theorem exists_buffers (hb : Balanced [] s) (hr : Received s) (ht : t ∈ s.transfers) :
    ∃ val, s.messages[t.src.msg]? = some val ∧ val.buffers[t.src.pos]? = some t.src := by
  have hmem : t.src ∈ s.arrived := by
    rw [← hb.sources.mem_iff]
    simp only [List.append_nil, List.mem_append]
    exact .inr (List.mem_map_of_mem ht)
  obtain ⟨val, hval, hsrc⟩ := List.mem_flatMap.mp hmem
  obtain ⟨m, hm⟩ := List.getElem?_of_mem hval
  obtain ⟨i, hi⟩ := List.getElem?_of_mem hsrc
  obtain ⟨rfl, rfl⟩ := hr.stored.keys m val hm i t.src hi
  exact ⟨val, hm, hi⟩

omit [DecidableEq ε] in
theorem Received.handle (hr : Received s) (hval : s.messages[t.src.msg]? = some val)
    (hsrc : t.src ∈ val.buffers) (hnd : ((t :: s.finished).map Transfer.src).Nodup)
    (hst : Stored (s.messages.set t.src.msg val') memory (t :: s.finished))
    (hu : u.messages = s.messages.set t.src.msg val' ∧ u.memory = memory ∧
      u.finished = t :: s.finished ∧ u.handled = if val'.ready then
        s.handled ++ [(t.src.msg, val'.values.map fun v => v.bind memory)] else s.handled) :
    Received u := by
  obtain ⟨hm, hmem, hf, hh⟩ := hu
  have hself : (s.messages.set t.src.msg val')[t.src.msg]? = some val' :=
    getElem?_set_some hval
  have hready := hst.ready_iff hnd hself
  have hfresh : t.src.msg ∉ s.handled.map Prod.fst := by
    intro hin
    obtain ⟨v, hv, hall⟩ := (hr.handled _).mp hin
    rw [hval] at hv
    cases hv
    rw [List.map_cons, List.nodup_cons] at hnd
    exact hnd.1 (hall t.src hsrc)
  -- the messages that are handled before the last transfer of this one
  have hold : ∀ {m : ℕ}, m ∈ s.handled.map Prod.fst ↔ m ≠ t.src.msg ∧
      ∃ v, u.messages[m]? = some v ∧ ∀ src ∈ v.buffers, src ∈ u.finished.map Transfer.src := by
    intro m
    by_cases hm' : m = t.src.msg
    · subst hm'
      exact iff_of_false hfresh fun h => h.1 rfl
    · rw [hr.handled, and_iff_right hm', hm, hf, List.getElem?_set_ne (Ne.symm hm')]
      refine exists_congr fun v => and_congr_right fun hv => forall₂_congr fun src hin => ?_
      rw [List.map_cons, List.mem_cons, or_iff_right]
      rintro rfl
      exact hm' (hr.stored.msg_eq hv hin).symm
  have hcontents : ∀ x ∈ s.handled, ∃ v, u.messages[x.1]? = some v ∧
      x.2 = v.buffers.map fun src => some src.data := by
    intro x hx
    obtain ⟨v, hv, hc⟩ := hr.contents x hx
    have hne := (hold.mp (List.mem_map_of_mem hx)).1
    refine ⟨v, ?_, hc⟩
    rwa [hm, List.getElem?_set_ne (Ne.symm hne)]
  constructor
  · rw [hm, hmem, hf]
    exact hst
  · rw [hh]
    split_ifs
    · rw [List.map_append]
      refine List.nodup_append.mpr ⟨hr.once, List.nodup_singleton _, ?_⟩
      rintro m hin _ hin' rfl
      obtain rfl := List.mem_singleton.mp hin'
      exact hfresh hin
    · exact hr.once
  · intro m
    by_cases hm' : m = t.src.msg
    · subst hm'
      rw [hm, hf, hself, hh]
      split_ifs with hrd
      · exact iff_of_true (by simp) ⟨val', rfl, hready.mp hrd⟩
      · refine iff_of_false hfresh ?_
        rintro ⟨v, hv, hall⟩
        cases hv
        exact hrd (hready.mpr hall)
    · have hkeys : m ∈ u.handled.map Prod.fst ↔ m ∈ s.handled.map Prod.fst := by
        rw [hh]
        split_ifs <;> simp [hm']
      rw [hkeys, hold, and_iff_right hm']
  · rw [hh]
    split_ifs with hrd
    · intro x hx
      rcases List.mem_append.mp hx with hx | hx
      · exact hcontents x hx
      · obtain rfl := List.mem_singleton.mp hx
        exact ⟨val', hm ▸ hself, hst.contents hself (hready.mp hrd)⟩
    · exact hcontents

omit [DecidableEq ε] in
theorem Received.finish (hb : Balanced [] s) (hr : Received s) (hk : s.inFlight[k]? = some t)
    (ha : action { s with inFlight := s.inFlight.eraseIdx k } t = some u) :
    Balanced [] u ∧ Received u := by
  have ht : t ∈ s.transfers := List.mem_append_left _ (List.mem_of_getElem? hk)
  obtain ⟨val, hval, hpos⟩ := exists_buffers hb hr ht
  obtain ⟨val', vs, hrecv, hbufs, hn, hvals, hlen, hvs⟩ := hr.stored.receive hval hpos
  obtain ⟨hsrcs, hdests⟩ := nodup_finish hb hr hk
  have hsrc : ∀ t' ∈ s.finished, t'.src ≠ t.src := by
    intro t' ht' he
    rw [List.map_cons, List.nodup_cons] at hsrcs
    exact hsrcs.1 (he ▸ List.mem_map_of_mem ht')
  have hdest : ∀ t' ∈ s.finished, t'.dest.id ≠ t.dest.id := by
    intro t' ht' he
    rw [List.map_cons, List.nodup_cons] at hdests
    exact hdests.1 (he ▸ List.mem_map_of_mem (f := (·.dest.id)) ht')
  simp only [action, hval, Option.bind_some, hrecv, Option.map_some, Option.some.injEq] at ha
  subst ha
  exact ⟨hb.finish hk (flatMap_set_buffers hval hbufs),
    hr.handle hval (List.mem_of_getElem? hpos) hsrcs
      (hr.stored.finish hval hpos hbufs hn hvals hlen hvs hsrc hdest) ⟨rfl, rfl, rfl, rfl⟩⟩

end Action

section Runs

variable {s t : Locality ε C}

theorem balanced_step {e : Event ε C} (h : Balanced [] s ∧ Received s)
    (ht : step s e = some t) : Balanced [] t ∧ Received t := by
  obtain ⟨hb, hr⟩ := h
  cases e with
  | manualMode ep =>
    obtain rfl := Option.some.inj ht
    exact ⟨⟨hb.apart, hb.fits, hb.dests, hb.fresh, hb.sources, hb.qd⟩,
      hr.stored, hr.once, hr.handled, hr.contents⟩
  | postBuffer ep size =>
    obtain rfl := Option.some.inj ht
    obtain ⟨hb', hu⟩ := hb.postBuffer ep size
    exact ⟨hb', hr.untouched hu⟩
  | receiveValue ep bufs => exact hb.receiveValue hr ht
  | finish k =>
    obtain ⟨tr, hk, ha⟩ := Option.bind_eq_some_iff.mp ht
    exact hr.finish hb hk ha

omit [DecidableEq ε] in
theorem balanced_init : Balanced [] ({} : Locality ε C) ∧ Received ({} : Locality ε C) := by
  refine ⟨⟨by simp, by simp [transfers], by simp [ids, transfers], by simp [ids, transfers],
    by simp [transfers, arrived], rfl⟩, ⟨?_, by simp, by simp, by simp⟩⟩
  exact ⟨by simp, by simp, by simp, by simp, by simp, by simp⟩

theorem Received.isSome_finish (hb : Balanced [] s) (hr : Received s) {k : ℕ}
    (hk : k < s.inFlight.length) : (step s (.finish k)).isSome := by
  have hget := List.getElem?_eq_getElem hk
  obtain ⟨val, hval, hpos⟩ := exists_buffers hb hr
    (List.mem_append_left _ (List.mem_of_getElem? hget))
  obtain ⟨val', vs, hrecv, -⟩ := hr.stored.receive hval hpos
  simp only [step, hget, Option.bind_some, action, hval, hrecv, Option.map_some, Option.isSome_some]

end Runs

end Locality

end Hypercomm.ZeroCopy
