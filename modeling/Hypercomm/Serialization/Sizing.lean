import Hypercomm.Serialization.Passes

/-! # The size of a message

A message is allocated with the size that a sizer found, before a packer writes it. The two
passes start from different records. A typed value is sized in a pointer that encapsulates it,
with large objects deferred, and is packed without this pointer when none was.
-/

namespace Hypercomm.Serialization

/-- Where a typed value keeps its value: within itself, at this address, or behind a pointer. A
shared pointer is kept within it in both schemes. -/
inductive Storage (ω α : Type*)
  | inline (a : α)
  | buffer (data : Ptr ω α)

namespace Storage

variable {ω α : Type*}

def get : Storage ω α → α
  | .inline a => a
  | .buffer data => data.addr

/-- The pointer that encapsulates the value. The source of the serdes owns a value in place. -/
def pointer (source : Option ω) : Storage ω α → Ptr ω α
  | .inline a => ⟨source, a⟩
  | .buffer data => data

end Storage

namespace Obj

variable {P : Type*}

def isSharedPtr : Obj P → Bool
  | .data (.shared _) _ | .data .sharedPoly _ => true
  | _ => false

/-- A shared pointer to the object. -/
def pointer (p : P) : Obj P → Val P
  | .data t _ => .shared t (some p)
  | .poly _ _ => .sharedPoly (some p)

@[simp] theorem ptrs_pointer (p : P) (o : Obj P) : (o.pointer p).ptrs = [p] := by
  cases o <;> rfl

end Obj

/-- The buffers that objects are sent in, and how a `PUP::er` sizes and writes them. -/
structure Ncpy (ω α B : Type*) where
  make : Ptr ω α → ℕ → B
  pupSize : B → ℕ
  cells : List B → List Cell

/-- The size of a vector of buffers is that of a number, and those of the buffers. -/
def Ncpy.Additive {ω α B : Type*} (K : Ncpy ω α B) : Prop :=
  ∀ bs, size (K.cells bs) = bs.foldl (fun n b => n + K.pupSize b) 8

/-- A message for a port, whose payload is the buffers, if any, and the value. -/
structure Message (B : Type*) where
  msgSize : ℕ
  zeroCopy : Bool
  buffers : List B
  value : List Cell

def PtrRecord.instanceSize : ℕ := 17

section Definitions

variable {ω α B : Type*} [DecidableEq ω] [DecidableEq α] (K : Ncpy ω α B) (h : Heap ω α)

def pupBuffer (fuel : ℕ) (st : Storage ω α) (source : Option ω) (encapsulate : Bool)
    (s : Packer ω α) : Except Fault (Bool × Packer ω α) :=
  match h.lookup st.get with
  | none => .error .undefined
  | some o =>
      let wraps := encapsulate && !o.isSharedPtr
      let v := if wraps then o.pointer (st.pointer source) else o.value
      (pup h (pupObject h fuel) v s).map (wraps, ·)

/-- The deferred objects are read through the first pointer to each. The pointer to a value in
place, which its source owns, is gone with the call that made it. -/
def Storage.getDeferred (st : Storage ω α) (source : Option ω) (s : Packer ω α) :
    Except Fault (List (ℕ × ℕ × Ptr ω α)) :=
  match st with
  | .inline _ =>
      if s.deferred.any fun d => decide (d.2.2.owner = source) then .error .undefined
      else .ok s.deferred
  | .buffer _ => .ok s.deferred

/-- Pack a typed value, which is owned by `src` from then on. -/
def packDeferrable (fuel : ℕ) (src : ω) (st : Storage ω α) : Except Fault (Message B) :=
  (pupBuffer h fuel st (some src) true { self := 0, deferrable := true }).bind fun (wraps, s) =>
  (st.getDeferred (some src) s).bind fun deferred =>
  let hasDeferred := !deferred.isEmpty
  let msgSize :=
    if hasDeferred then size s.written + 8
    else if wraps then size s.written - PtrRecord.instanceSize
    else size s.written
  let buffers := deferred.map fun d => K.make d.2.2 d.2.1
  let msgSize := buffers.foldl (fun n b => n + K.pupSize b) msgSize
  let p := if hasDeferred then K.cells buffers else []
  (pupBuffer h fuel st none hasDeferred
    (Packer.acquire { self := 1, deferrable := hasDeferred } s)).bind fun (_, pkr) =>
  if size p + size pkr.written = msgSize then .ok ⟨msgSize, hasDeferred, buffers, pkr.written⟩
  else .error .abort

def Message.payloadSize (msg : Message B) : ℕ :=
  size (if msg.zeroCopy then K.cells msg.buffers else []) + size msg.value

/-- A pass with the records of the sizer, and one without any, write as much as the sizer
found, and a typed value is packed into a message of its size. -/
structure SizedAsPacked (fuel : ℕ) (src : ω) (st : Storage ω α) (v : Val (Ptr ω α)) : Prop where
  acquired : ∃ s p, pup h (pupObject h fuel) v { self := 0 } = .ok s ∧
    pup h (pupObject h fuel) v (Packer.acquire { self := 1 } s) = .ok p ∧
    size p.written = size s.written
  fresh : ∃ s p, pup h (pupObject h fuel) v { self := 0 } = .ok s ∧
    pup h (pupObject h fuel) v { self := 1 } = .ok p ∧ size p.written = size s.written
  deferrable : ∃ msg, packDeferrable K h fuel src st = .ok msg ∧ msg.payloadSize K = msg.msgSize

end Definitions

variable {ω α B : Type*} [DecidableEq ω] [DecidableEq α] {h : Heap ω α}

section Result

variable {fields : ℕ → Ty} {K : Ncpy ω α B} {src : ω} {st : Storage ω α} {o : Obj (Ptr ω α)}
variable {p q : Ptr ω α} {n : ℕ} {s t : Packer ω α} {d : Bool}

/-- An object behind a pointer, which is typed with all that it leads to. Every pointer has an
owner, and leads to none with the same. -/
structure Owned (fields : ℕ → Ty) (h : Heap ω α) (p : Ptr ω α) (o : Obj (Ptr ω α)) : Prop where
  lookup : h.lookup p.addr = some o
  objects : ∀ q, Reach h (o.pointer p) q → ∃ x, h.lookup q.addr = some x ∧ x.HasTy fields h
  owned : ∀ q, Reach h (o.pointer p) q → q.owner ≠ none
  acyclic : ∀ q r, Reach h (o.pointer p) q → Relation.TransGen (Edge h) q r → q.owner ≠ r.owner

/-- The value is a large object in place, which is deferred behind a pointer that does not
last. -/
def Storage.Dangles (st : Storage ω α) (h : Heap ω α) : Prop :=
  ∃ a n v, st = .inline a ∧ h.lookup a = some (.data (.bytes n) v) ∧ kZeroCopySize ≤ n

omit [DecidableEq α] in
theorem met_acquire (ho : ∀ e ∈ s.records, e.2.progenitor = 0) (q : Option ω) :
    (Packer.acquire { self := 1, deferrable := d } s).met q = none := by
  unfold Packer.met
  cases hr : (Packer.acquire { self := 1, deferrable := d } s).records.lookup q with
  | none => rfl
  | some r =>
    obtain ⟨l₁, l₂, hl, -⟩ := List.lookup_eq_some_iff.mp hr
    change s.records = _ at hl
    have hp : r.progenitor = 0 := ho (q, r) (by simp [hl])
    simp [Packer.acquire, hp]

omit [DecidableEq ω] in
theorem Reach.pointer_cases (hq : Reach h (o.pointer p) q) :
    q = p ∨ Relation.TransGen (Edge h) p q := by
  induction hq with
  | root hq => exact .inl (by simpa using hq)
  | step _ he ih =>
    rcases ih with rfl | ih
    · exact .inr (.single he)
    · exact .inr (ih.tail he)

omit [DecidableEq ω] in
theorem reach_of_transGen (hq : Relation.TransGen (Edge h) p q) : Reach h (o.pointer p) q := by
  induction hq with
  | single he => exact .step (.root (by simp)) he
  | tail _ he ih => exact ih.step he

namespace Owned

variable (hp : Owned fields h p o)
include hp

omit [DecidableEq ω] in
theorem typed_pointer : Typed fields h (o.pointer p) := by
  have hl := hp.lookup
  cases o with
  | data t v => exact ⟨_, .inl (.shared hl)⟩
  | poly c v => exact ⟨_, .inl (.sharedPoly hl)⟩

omit [DecidableEq ω] in
theorem typed_value : Typed fields h o.value := by
  obtain ⟨x, hx, ht⟩ := hp.objects p (.root (by simp))
  cases hp.lookup.symm.trans hx
  exact ht.typed

omit [DecidableEq ω] in
theorem value_ptrs : ∀ q ∈ o.value.ptrs, Relation.TransGen (Edge h) p q :=
  fun _ hq => .single ⟨o, hp.lookup, hq⟩

theorem exists_pup {v : Val (Ptr ω α)} (hv : v = o.value ∨ v = o.pointer p) :
    ∃ N, ∀ n ≥ N, ∀ s, ∃ s', pup h (pupObject h n) v s = .ok s' := by
  have hptrs : ∀ q ∈ v.ptrs, Reach h (o.pointer p) q := by
    rcases hv with rfl | rfl
    · exact fun q hq => reach_of_transGen (hp.value_ptrs q hq)
    · exact fun q hq => .root hq
  have ht : Typed fields h v := by
    rcases hv with rfl | rfl
    · exact hp.typed_value
    · exact hp.typed_pointer
  have hS : ∀ q, Reach h (o.pointer p) q → q.owner ∈ (ownersIn h (o.pointer p)).toFinset :=
    fun q hq => List.mem_toFinset.mpr hq.owner_mem
  refine ⟨(ownersIn h (o.pointer p)).toFinset.card, fun n hn s => ?_⟩
  apply Serialization.exists_pup hS (fun _ _ _ => grows_pupObject n) _ hptrs ht
    ((Finset.card_filter_le _ _).trans hn)
  apply exists_pupObject hS (fun _ _ hq he => hq.step he)
  intro q hq
  obtain ⟨x, hx, ht⟩ := hp.objects q hq
  exact ⟨x, hx, ht.typed⟩

theorem follows_value {E : Set (Option ω)} {P : Prop} {k n m : ℕ} (hnm : n ≤ m)
    (hE : ∀ q, Relation.TransGen (Edge h) p q → q.owner ∉ E) :
    Follows E P k (pup h (pupObject h n) o.value) (pup h (pupObject h m) o.value) :=
  follows_pup hE (fun _ _ _ => grows_pupObject n)
    (follows_pupObject hE (fun _ _ hq he => hq.tail he) hnm) hp.value_ptrs

end Owned

theorem follows_refl {P : Prop} {k : ℕ} (n : ℕ) (v : Val (Ptr ω α)) :
    Follows ∅ P k (pup h (pupObject h n) v) (pup h (pupObject h n) v) :=
  follows_pup (G := fun _ => True) (fun _ _ => id) (fun _ _ _ => grows_pupObject n)
    (follows_pupObject (fun _ _ => id) (fun _ _ _ _ => trivial) le_rfl) fun _ _ => trivial

def Obj.dataTy {P : Type*} : Obj P → Ty
  | .data t _ => t
  | .poly _ _ => .unit

theorem exists_pup_pointer_eq (ho : h.lookup p.addr = some o) (hm : s.met p.owner = none) (n : ℕ) :
    ∃ r s₁, Recorded s s₁ p.owner r ∧ r.kind = .instance ∧
      pup h (pupObject h n) (o.pointer p) s =
        if o.dataTy.defers s.deferrable then .ok (s₁.defer o.dataTy p r)
        else pupObject h n p.addr (s₁.copy r.cells) := by
  have heq : ∃ ty, pup h (pupObject h n) (o.pointer p) s =
      pupPtr (pupObject h n) o.dataTy p ty s := by
    cases o with
    | data t v => exact ⟨0, rfl⟩
    | poly c v => exact ⟨c, pup_sharedPoly (by simp [identify, ho]) s⟩
  obtain ⟨ty, hty⟩ := heq
  obtain ⟨r, s₁, hr, he⟩ := exists_pupPtr_eq (pupObject h n) o.dataTy p ty s
  have hk : r.kind = .instance := by rw [hr.kind, hm]; rfl
  rw [if_pos hk] at he
  exact ⟨r, s₁, hr, hk, hty.trans he⟩

theorem foldl_add_cost (f : B → ℕ) (bs : List B) (a c : ℕ) :
    bs.foldl (fun n b => n + f b) (a + c) = a + bs.foldl (fun n b => n + f b) c := by
  induction bs generalizing c with
  | nil => rfl
  | cons b bs ih => rw [List.foldl_cons, List.foldl_cons, Nat.add_assoc, ih]

/-- The passes of a typed value, put together. -/
theorem packDeferrable_eq (hK : K.Additive) {w w' : Bool} {ds : List (ℕ × ℕ × Ptr ω α)}
    (hs : pupBuffer h n st (some src) true { self := 0, deferrable := true } = .ok (w, s))
    (hd : st.getDeferred (some src) s = .ok ds)
    (ht : pupBuffer h n st none (!ds.isEmpty)
      (Packer.acquire { self := 1, deferrable := !ds.isEmpty } s) = .ok (w', t))
    (hsize : size s.written = size t.written + if ds.isEmpty && w then 17 else 0) :
    ∃ msg : Message B, packDeferrable K h n src st = .ok msg ∧ msg.payloadSize K = msg.msgSize ∧
      msg.zeroCopy = !ds.isEmpty ∧ msg.buffers = (ds.map fun d => K.make d.2.2 d.2.1) ∧
      msg.value = t.written := by
  unfold packDeferrable
  rw [hs, ok_bind]
  simp only [hd, ok_bind, ht]
  cases ds with
  | nil =>
    have hmsg : size t.written =
        if w = true then size s.written - PtrRecord.instanceSize else size s.written := by
      rw [hsize]
      cases w <;> simp [PtrRecord.instanceSize]
    refine ⟨_, if_pos ?_, ?_, rfl, rfl, rfl⟩
    · simpa using hmsg
    · simpa [Message.payloadSize] using hmsg
  | cons d ds =>
    have hmsg : size (K.cells ((d :: ds).map fun d => K.make d.2.2 d.2.1)) + size t.written =
        ((d :: ds).map fun d => K.make d.2.2 d.2.1).foldl (fun n b => n + K.pupSize b)
          (size s.written + 8) := by
      rw [hK, foldl_add_cost, hsize]
      simp [Nat.add_comm]
    refine ⟨_, if_pos ?_, ?_, rfl, rfl, rfl⟩
    · simpa using hmsg
    · simpa [Message.payloadSize] using hmsg

theorem exists_packDeferrable (hK : K.Additive) {w w' : Bool} {ds : List (ℕ × ℕ × Ptr ω α)}
    (hs : pupBuffer h n st (some src) true { self := 0, deferrable := true } = .ok (w, s))
    (hd : st.getDeferred (some src) s = .ok ds)
    (ht : pupBuffer h n st none (!ds.isEmpty)
      (Packer.acquire { self := 1, deferrable := !ds.isEmpty } s) = .ok (w', t))
    (hsize : size s.written = size t.written + if ds.isEmpty && w then 17 else 0) :
    ∃ msg, packDeferrable K h n src st = .ok msg ∧ msg.payloadSize K = msg.msgSize := by
  obtain ⟨msg, hmsg, hpayload, -⟩ := packDeferrable_eq hK hs hd ht hsize
  exact ⟨msg, hmsg, hpayload⟩

omit [DecidableEq α] in
theorem getDeferred_eq {G : Ptr ω α → Prop} (hs : DefersOnly G s)
    (hG : ∀ a, st = .inline a → ∀ q, G q → q.owner ≠ some src) :
    st.getDeferred (some src) s = .ok s.deferred := by
  cases st with
  | buffer data => rfl
  | inline a =>
    apply if_neg
    simp only [List.any_eq_true, decide_eq_true_eq, not_exists, not_and]
    exact fun d hd => hG a rfl _ (hs d hd)

omit [DecidableEq ω] [DecidableEq α] in
theorem Storage.pointer_addr (st : Storage ω α) (source : Option ω) :
    (st.pointer source).addr = st.get := by
  cases st <;> rfl

theorem pupBuffer_eq (source : Option ω) (e : Bool) (ho : h.lookup st.get = some o)
    {v : Val (Ptr ω α)}
    (hv : v = if e && !o.isSharedPtr then o.pointer (st.pointer source) else o.value)
    (hs : pup h (pupObject h n) v s = .ok t) :
    pupBuffer h n st source e s = .ok (e && !o.isSharedPtr, t) := by
  subst hv
  unfold pupBuffer
  simp only [ho, hs]
  rfl

omit [DecidableEq α] in
theorem alike_start (ho : ∀ e ∈ s.records, e.2.progenitor = 0) :
    Alike ∅ (s.deferred = []) 0 ({ self := 0, deferrable := true } : Packer ω α)
      (Packer.acquire { self := 1, deferrable := !s.deferred.isEmpty } s) where
  deferrable := by
    cases hd : s.deferred with
    | nil => exact .inr ⟨rfl, rfl⟩
    | cons d ds => exact .inl rfl
  met q _ := met_acquire ho q
  written := rfl

theorem own_of_pup {v : Val (Ptr ω α)}
    (hs : pup h (pupObject h n) v { self := 0, deferrable := d } = .ok s) :
    ∀ e ∈ s.records, e.2.progenitor = 0 := by
  have hg : Grows { self := 0, deferrable := d } s := .pup (fun _ _ _ => grows_pupObject n) hs
  intro e he
  exact (hg.own (by simp) e he).trans hg.self

section Passes

variable (hp : Owned fields h (st.pointer (some src)) o)
include hp

omit [DecidableEq ω] in
theorem Owned.lookup_get : h.lookup st.get = some o := by
  rw [← st.pointer_addr (some src)]
  exact hp.lookup

omit [DecidableEq ω] in
theorem Owned.not_source {a : α} (hst : st = .inline a)
    (hq : Relation.TransGen (Edge h) (st.pointer (some src)) q) : q.owner ≠ some src := by
  intro he
  apply hp.acyclic _ q (.root (by simp)) hq
  rw [he, hst]
  rfl

theorem Owned.defersOnly {s s' : Packer ω α} (hs : pup h (pupObject h n) o.value s = .ok s')
    (hd : s.deferred = []) : DefersOnly (fun q => ∀ a, st = .inline a → q.owner ≠ some src) s' := by
  have hG : DefersOnly (Relation.TransGen (Edge h) (st.pointer (some src))) s' := by
    apply DefersOnly.pup (defersOnly_pupObject (fun _ _ hq he => hq.tail he) n) hp.value_ptrs hs
    unfold DefersOnly
    rw [hd]
    exact fun d hd => absurd hd List.not_mem_nil
  exact fun d hd a hst => hp.not_source hst (hG d hd)

theorem packs_sharedPtr (hK : K.Additive) (ho : o.isSharedPtr = true) : ∃ N, ∀ n ≥ N,
    ∃ msg, packDeferrable K h n src st = .ok msg ∧ msg.payloadSize K = msg.msgSize := by
  obtain ⟨N, hN⟩ := hp.exists_pup (.inl rfl)
  refine ⟨N, fun n hn => ?_⟩
  obtain ⟨s, hs⟩ := hN n hn { self := 0, deferrable := true }
  obtain ⟨t, ht, ha⟩ := follows_refl n o.value _ _ s (alike_start (own_of_pup hs)) hs id
  apply exists_packDeferrable hK (pupBuffer_eq _ _ hp.lookup_get (by simp [ho]) hs)
    (getDeferred_eq (hp.defersOnly hs rfl) fun a hst q hq => hq a hst)
    (pupBuffer_eq _ _ hp.lookup_get (by simp [ho]) ht)
  simpa [ho] using ha.written

theorem Owned.pup_pointer (hd : o.dataTy.defers true = false) {n : ℕ} {s : Packer ω α}
    (hs : pup h (pupObject h n) (o.pointer (st.pointer (some src)))
      { self := 0, deferrable := true } = .ok s) :
    ∃ m s₀, n = m + 1 ∧ pup h (pupObject h m) o.value s₀ = .ok s ∧ s₀.deferrable = true ∧
      s₀.deferred = [] ∧ size s₀.written = 17 ∧
      ∀ q, s₀.met q = if q = (st.pointer (some src)).owner then some .instance else none := by
  obtain ⟨r, s₁, hr, hk, he⟩ := exists_pup_pointer_eq hp.lookup
    (s := { self := 0, deferrable := true }) rfl n
  rw [hd, if_neg Bool.false_ne_true] at he
  rw [he] at hs
  cases n with
  | zero => cases hs
  | succ m =>
    unfold pupObject at hs
    rw [hp.lookup] at hs
    refine ⟨m, _, rfl, hs, hr.deferrable, hr.deferred, ?_, fun q => ?_⟩
    · rw [copy_written, hr.written]
      simp [PtrRecord.cells, hk, Cell.size]
    · change s₁.met q = _
      rw [hr.met, hk]
      rfl

/-- A value in a pointer that encapsulates it is packed again in such a pointer, which has
no owner if the value is in place, or without it. -/
theorem Owned.repacked (hd : o.dataTy.defers true = false) {n : ℕ} {s : Packer ω α}
    (hs : pup h (pupObject h n) (o.pointer (st.pointer (some src)))
      { self := 0, deferrable := true } = .ok s) :
    DefersOnly (fun q => ∀ a, st = .inline a → q.owner ≠ some src) s ∧
      ∃ t, pup h (pupObject h n)
        (if s.deferred.isEmpty then o.value else o.pointer (st.pointer none))
        (Packer.acquire { self := 1, deferrable := !s.deferred.isEmpty } s) = .ok t ∧
        size s.written = size t.written + if s.deferred.isEmpty then 17 else 0 := by
  have hown := own_of_pup hs
  obtain ⟨m, s₀, rfl, hs₀, hdef, hnil, hsize, hmet⟩ := hp.pup_pointer hd hs
  refine ⟨hp.defersOnly hs₀ hnil, ?_⟩
  set t₀ : Packer ω α := Packer.acquire { self := 1, deferrable := !s.deferred.isEmpty } s with ht₀
  have hmet₀ : ∀ q, t₀.met q = none := met_acquire hown
  cases he : s.deferred.isEmpty with
  | true =>
    have ha : Alike {(st.pointer (some src)).owner} True 17 s₀ t₀ := by
      refine ⟨.inr ⟨by simp [ht₀, Packer.acquire, he], trivial⟩, fun q hq => ?_, hsize⟩
      rw [hmet₀, hmet, if_neg (Set.mem_singleton_iff.not.mp hq)]
    obtain ⟨t, ht, ha⟩ := hp.follows_value (Nat.le_succ m)
      (fun q hq => (hp.acyclic _ q (.root (by simp)) hq).symm) s₀ t₀ s ha hs₀
      fun _ => List.isEmpty_iff.mp he
    exact ⟨t, ht, ha.written⟩
  | false =>
    have hlook : h.lookup (st.pointer none).addr = some o := by
      rw [st.pointer_addr]
      exact hp.lookup_get
    have hdef₀ : t₀.deferrable = true := by simp [ht₀, Packer.acquire, he]
    obtain ⟨r, t₁, hr, hk, heq⟩ := exists_pup_pointer_eq hlook (hmet₀ _) (m + 1)
    rw [hdef₀, hd, if_neg Bool.false_ne_true, pupObject, hlook] at heq
    set E : Set (Option ω) := {(st.pointer (some src)).owner, (st.pointer none).owner} with hE
    have ha : Alike E False 0 s₀ (t₁.copy r.cells) := by
      refine ⟨.inl ?_, fun q hq => ?_, ?_⟩
      · exact (hr.deferrable.trans hdef₀).trans hdef.symm
      · simp only [hE, Set.mem_insert_iff, Set.mem_singleton_iff, not_or] at hq
        change t₁.met q = _
        rw [hr.met, hmet₀, hmet, if_neg hq.1, if_neg hq.2]
      · rw [hsize, copy_written, hr.written]
        simp [ht₀, Packer.acquire, PtrRecord.cells, hk, Cell.size]
    have hout : ∀ q, Relation.TransGen (Edge h) (st.pointer (some src)) q → q.owner ∉ E := by
      intro q hq
      have hne := (hp.acyclic _ q (.root (by simp)) hq).symm
      have hsome := hp.owned q (reach_of_transGen hq)
      simp only [hE, Set.mem_insert_iff, Set.mem_singleton_iff, not_or]
      refine ⟨hne, ?_⟩
      cases st with
      | inline a => exact hsome
      | buffer data => exact hne
    obtain ⟨t, ht, ha⟩ := hp.follows_value le_rfl hout s₀ _ s ha hs₀ False.elim
    exact ⟨t, heq.trans ht, ha.written⟩

theorem packs_value (hK : K.Additive) (ho : o.isSharedPtr = false) (hdang : ¬ st.Dangles h) :
    ∃ N, ∀ n ≥ N,
      ∃ msg, packDeferrable K h n src st = .ok msg ∧ msg.payloadSize K = msg.msgSize := by
  obtain ⟨N, hN⟩ := hp.exists_pup (.inr rfl)
  refine ⟨N, fun n hn => ?_⟩
  obtain ⟨s, hs⟩ := hN n hn { self := 0, deferrable := true }
  have hsizer := pupBuffer_eq (some src) true hp.lookup_get (by simp [ho]) hs
  cases hd : o.dataTy.defers true with
  | false =>
    obtain ⟨hG, t, ht, hsize⟩ := hp.repacked hd hs
    have hpacker := pupBuffer_eq none (!s.deferred.isEmpty) hp.lookup_get
      (by cases s.deferred.isEmpty <;> simp [ho]) ht
    apply exists_packDeferrable hK hsizer (getDeferred_eq hG fun a hst q hq => hq a hst) hpacker
    simpa [ho] using hsize
  | true =>
    -- a large object is deferred behind a pointer that lasts
    obtain ⟨data, rfl⟩ : ∃ data, st = .buffer data := by
      cases st with
      | buffer data => exact ⟨data, rfl⟩
      | inline a =>
        refine absurd ?_ hdang
        have hlook := hp.lookup_get
        cases o with
        | poly c v => simp [Obj.dataTy, Ty.defers] at hd
        | data t v =>
          cases t with
          | bytes m => exact ⟨a, m, v, rfl, hlook, by simpa [Obj.dataTy, Ty.defers] using hd⟩
          | _ => simp [Obj.dataTy, Ty.defers] at hd
    obtain ⟨r, s₁, -, -, he⟩ := exists_pup_pointer_eq hp.lookup
      (s := { self := 0, deferrable := true }) rfl n
    rw [if_pos hd] at he
    have hne : s.deferred ≠ [] := by
      rw [← Except.ok.inj (he.symm.trans hs)]
      exact upsert_ne_nil _ _ _
    have hempty : s.deferred.isEmpty = false := by simpa using hne
    obtain ⟨t, ht, ha⟩ := follows_refl n (o.pointer data) _ _ s (alike_start (own_of_pup hs)) hs id
    have hpacker := pupBuffer_eq none (!s.deferred.isEmpty) hp.lookup_get
      (by simp [ho, hempty, Storage.pointer]) ht
    apply exists_packDeferrable hK hsizer rfl hpacker
    simpa [hempty] using ha.written

end Passes

theorem packDeferrable_of_dangles (K : Ncpy ω α B) (hd : st.Dangles h) (n : ℕ) :
    packDeferrable K h n src st = .error .undefined := by
  obtain ⟨a, m, v, rfl, hl, hm⟩ := hd
  obtain ⟨r, s₁, hr, -, he⟩ := exists_pup_pointer_eq (p := ⟨some src, a⟩) hl
    (s := { self := 0, deferrable := true }) rfl n
  have hdef : (Ty.bytes m).defers true = true := by simpa [Ty.defers] using hm
  have hs := he.trans (if_pos hdef)
  have hget : h.lookup (Storage.inline a : Storage ω α).get = _ := hl
  have hsizer := pupBuffer_eq (some src) true hget rfl hs
  have hnil : s₁.deferred = [] := hr.deferred
  have hgone : (Storage.inline a).getDeferred (some src)
      (s₁.defer (.bytes m) ⟨some src, a⟩ r) = .error .undefined := by
    apply if_pos
    change (upsert _ _ s₁.deferred).any _ = true
    rw [hnil]
    simp [upsert]
  unfold packDeferrable
  rw [hsizer]
  simp only [ok_bind]
  exact congrArg (Except.bind · _) hgone

/-- Sizing equals packing, unless a large object is kept in place. -/
theorem sizedAsPacked_iff (hK : K.Additive) (hp : Owned fields h (st.pointer (some src)) o) :
    (∃ N, ∀ n ≥ N, SizedAsPacked K h n src st o.value) ↔ ¬ st.Dangles h := by
  constructor
  · rintro ⟨N, hN⟩ hd
    obtain ⟨msg, hmsg, -⟩ := (hN N le_rfl).deferrable
    rw [packDeferrable_of_dangles K hd] at hmsg
    cases hmsg
  · intro hd
    obtain ⟨N, hN⟩ := hp.exists_pup (.inl rfl)
    obtain ⟨M, hM⟩ : ∃ M, ∀ n ≥ M,
        ∃ msg, packDeferrable K h n src st = .ok msg ∧ msg.payloadSize K = msg.msgSize := by
      cases ho : o.isSharedPtr with
      | true => exact packs_sharedPtr hp hK ho
      | false => exact packs_value hp hK ho hd
    refine ⟨max N M, fun n hn => ?_⟩
    obtain ⟨s, hs⟩ := hN n (le_trans (le_max_left _ _) hn) { self := 0 }
    have hfollow := follows_refl (P := False) (k := 0) (h := h) n o.value { self := 0 }
    obtain ⟨t, ht, ha⟩ := hfollow (Packer.acquire { self := 1 } s) s
      ⟨.inl rfl, fun q _ => met_acquire (own_of_pup hs) q, rfl⟩ hs False.elim
    obtain ⟨u, hu, hb⟩ := hfollow { self := 1 } s ⟨.inl rfl, fun _ _ => rfl, rfl⟩ hs False.elim
    constructor
    · exact ⟨s, t, hs, ht, ha.written.symm⟩
    · exact ⟨s, u, hs, hu, hb.written.symm⟩
    · exact hM n (le_trans (le_max_right _ _) hn)

/-- Buffers of which only the size is sent. -/
def lengths : Ncpy ℕ ℕ ℕ where
  make _ n := n
  pupSize _ := 8
  cells bs := .word bs.length :: bs.map .word

theorem size_map_word (f : B → ℕ) (bs : List B) :
    size (bs.map fun b => Cell.word (f b)) = bs.foldl (fun n _ => n + 8) 0 := by
  induction bs with
  | nil => rfl
  | cons b bs ih =>
    rw [List.map_cons, size_cons, ih, List.foldl_cons, Nat.zero_add]
    exact (foldl_add_cost (fun _ => 8) bs 8 0).symm

theorem lengths_additive : lengths.Additive := fun bs =>
  (congrArg (8 + ·) (size_map_word id bs)).trans (foldl_add_cost (fun _ => 8) bs 8 0).symm

def largeAndSmall : Obj (Ptr ℕ ℕ) :=
  .data (.pair (.shared (.bytes kZeroCopySize)) (.shared (.bytes 1)))
    (.pair (.shared (.bytes kZeroCopySize) (some ⟨some 1, 1⟩))
      (.shared (.bytes 1) (some ⟨some 2, 2⟩)))

def zeros : Obj (Ptr ℕ ℕ) := .data (.bytes kZeroCopySize) (.bytes (List.replicate kZeroCopySize 0))

def pairInPlace : Heap ℕ ℕ := [(0, largeAndSmall), (1, zeros), (2, .data (.bytes 1) (.bytes [7]))]

theorem edge_pairInPlace {p q : Ptr ℕ ℕ} (he : Edge pairInPlace p q) :
    p.addr = 0 ∧ (q = ⟨some 1, 1⟩ ∨ q = ⟨some 2, 2⟩) := by
  obtain ⟨o, ho, hq⟩ := he
  have hmem : (p.addr, o) ∈ pairInPlace := by
    obtain ⟨l₁, l₂, hl, -⟩ := List.lookup_eq_some_iff.mp ho
    rw [hl]
    exact List.mem_append_right _ List.mem_cons_self
  simp only [pairInPlace, List.mem_cons, Prod.mk.injEq, List.not_mem_nil, or_false] at hmem
  rcases hmem with ⟨ha, rfl⟩ | ⟨-, rfl⟩ | ⟨-, rfl⟩
  · refine ⟨ha, ?_⟩
    simpa [largeAndSmall, Obj.value] using hq
  · cases hq
  · cases hq

theorem owned_pairInPlace :
    Owned (fun _ => .unit) pairInPlace ((Storage.inline 0).pointer (some 0)) largeAndSmall := by
  have hreach : ∀ q, Reach pairInPlace (largeAndSmall.pointer ⟨some 0, 0⟩) q →
      q = ⟨some 0, 0⟩ ∨ q = ⟨some 1, 1⟩ ∨ q = ⟨some 2, 2⟩ := by
    intro q hq
    cases hq with
    | root hq => exact .inl (by simpa using hq)
    | step _ he => exact .inr (edge_pairInPlace he).2
  constructor
  · rfl
  · intro q hq
    rcases hreach q hq with rfl | rfl | rfl
    · have hzeros : pairInPlace.lookup 1 = some zeros := rfl
      exact ⟨largeAndSmall, rfl, .pair (.shared hzeros) (.shared rfl)⟩
    · exact ⟨zeros, rfl, .bytes List.length_replicate⟩
    · exact ⟨_, rfl, .bytes rfl⟩
  · intro q hq
    rcases hreach q hq with rfl | rfl | rfl <;> simp
  · intro q r hq hr
    obtain ⟨r', he, -⟩ := Relation.TransGen.head'_iff.mp hr
    obtain ⟨q', -, he'⟩ := Relation.TransGen.tail'_iff.mp hr
    have haddr := (edge_pairInPlace he).1
    rcases hreach q hq with rfl | rfl | rfl
    · rcases (edge_pairInPlace he').2 with rfl | rfl <;> simp
    · cases haddr
    · cases haddr

theorem pair_sizedAsPacked : ∃ N, ∀ n ≥ N,
    SizedAsPacked lengths pairInPlace n 0 (.inline 0) largeAndSmall.value := by
  apply (sizedAsPacked_iff lengths_additive owned_pairInPlace).mpr
  rintro ⟨a, n, v, ha, hv, -⟩
  cases ha
  cases hv

/-- A large object that is sent in place, which nothing else points to. -/
theorem inline_not_sizedAsPacked :
    Owned (fun _ => .unit) [(0, zeros)] ((Storage.inline 0).pointer (some 0)) zeros ∧
      ¬ ∃ N, ∀ n ≥ N, SizedAsPacked lengths [(0, zeros)] n 0 (.inline 0) zeros.value := by
  have hedge : ∀ p q, ¬ Edge [(0, zeros)] p q := by
    rintro p q ⟨o, ho, hq⟩
    rw [List.lookup_cons] at ho
    split at ho
    · cases ho
      cases hq
    · cases ho
  have hreach : ∀ q, Reach [(0, zeros)] (zeros.pointer ⟨some 0, 0⟩) q → q = ⟨some 0, 0⟩ := by
    intro q hq
    cases hq with
    | root hq => simpa using hq
    | step _ he => exact absurd he (hedge _ _)
  constructor
  · constructor
    · rfl
    · intro q hq
      rw [hreach q hq]
      exact ⟨zeros, rfl, .bytes List.length_replicate⟩
    · intro q hq
      rw [hreach q hq]
      simp
    · intro q r _ hr
      obtain ⟨r', he, -⟩ := Relation.TransGen.head'_iff.mp hr
      exact absurd he (hedge _ _)
  · rintro ⟨N, hN⟩
    obtain ⟨msg, hmsg, -⟩ := (hN N le_rfl).deferrable
    rw [packDeferrable_of_dangles lengths ⟨0, _, _, rfl, rfl, le_rfl⟩] at hmsg
    cases hmsg

end Result

end Hypercomm.Serialization
