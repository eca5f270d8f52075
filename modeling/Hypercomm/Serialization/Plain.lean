import Hypercomm.Serialization.Bridge

/-! # Values without deferred objects

A typed value without large objects is packed like any other value, without the pointer that
it was sized in. Its message is read into memory that was not initialised. A message with
deferred objects has their buffers in front, and is not read like this.
-/

namespace Hypercomm.Serialization

section Definitions

variable {P ω α B : Type*}

def Obj.contentTy (fields : ℕ → Ty) : Obj P → Ty
  | .data t _ => t
  | .poly c _ => fields c

/-- Where the content is read to. Only a polymorph is constructed first. -/
def Obj.slot : Obj P → Slot
  | .data _ _ => .allocated
  | .poly _ _ => .member

def Obj.pointerTy : Obj P → Ty
  | .data t _ => .shared t
  | .poly _ _ => .sharedPoly

def Message.payload (K : Ncpy ω α B) (msg : Message B) : List Cell :=
  (if msg.zeroCopy then K.cells msg.buffers else []) ++ msg.value

def readPayload (K : Ncpy ω α B) (fields : ℕ → Ty) (fuel : ℕ) (t : Ty) (slot : Slot)
    (msg : Message B) : Except Fault (UVal × Unpacker) :=
  unpack (unpackFields fields fuel) t slot { input := msg.payload K, source := some .message }

def Ncpy.Opaque (K : Ncpy ω α B) : Prop := ∀ bs b, .byte b ∉ K.cells bs

variable [DecidableEq α]

/-- A typed value with well-typed objects behind it. It gets a new owner when it is packed. -/
structure Packable (fields : ℕ → Ty) (h : Heap ω α) (src : ω) (st : Storage ω α)
    (o : Obj (Ptr ω α)) : Prop where
  lookup : h.lookup st.get = some o
  valid : Valid fields h (o.pointer (st.pointer (some src))) o.pointerTy
  fresh : ∀ a, st = .inline a → ∀ q, Relation.TransGen (Edge h) (st.pointer (some src)) q →
    q.owner ≠ some src

/-- A typed value has no large objects and is safe to unpack. Its pointers have an owner for each
object, and none of them leads back to the value itself. -/
structure Portable (h : Heap ω α) (st : Storage ω α) (o : Obj (Ptr ω α)) : Prop where
  separate : Separate h o.value
  loopless : o.isSharedPtr = false → ∀ data, st = .buffer data → ∀ q, Reach h o.value q →
    q.owner ≠ data.owner
  small : ∀ q, Reach h o.value q → ¬ Large h q
  notLarge : o.defers true = false
  safe : AllSafe h false o.slot o.value

variable [DecidableEq ω]

/-- With enough fuel, a typed value is packed, and a copy is read from the message. -/
def Carries (K : Ncpy ω α B) (fields : ℕ → Ty) (h : Heap ω α) (src : ω) (st : Storage ω α)
    (o : Obj (Ptr ω α)) : Prop :=
  ∃ N, ∀ n ≥ N, ∃ msg v' u' f, packDeferrable K h n src st = .ok msg ∧
    readPayload K fields n (o.contentTy fields) o.slot msg = .ok (v', u') ∧
    CopyOf h o.value u'.heap v' f

end Definitions

section Weighing

variable {ω α : Type*} [DecidableEq α] {fields : ℕ → Ty} {h : Heap ω α} {t : Ty}
variable {v : Val (Ptr ω α)} {w : Weight} {ps : List (Ptr ω α)} {q : Ptr ω α}

theorem objectAt_true_le (w : Weight) (h : Heap ω α) (a : α) :
    w.objectAt h true a ≤ w.objectAt h false a := by
  unfold Weight.objectAt
  cases h.lookup a with
  | none => exact le_rfl
  | some o =>
    have hle := w.word_le_made
    simp only [Weight.object, Weight.defers_false, Bool.false_eq_true, if_false]
    split_ifs <;> omega

theorem sum_objectAt_true_le (w : Weight) (h : Heap ω α) (ps : List (Ptr ω α)) :
    (ps.map fun p => w.objectAt h true p.addr).sum ≤
      (ps.map fun p => w.objectAt h false p.addr).sum := by
  induction ps with
  | nil => exact le_rfl
  | cons p ps ih =>
    simp only [List.map_cons, List.sum_cons]
    exact Nat.add_le_add (objectAt_true_le w h _) ih

theorem length_le_sum_map {f : UInt8 → ℕ} (hf : ∀ b, 1 ≤ f b) (l : List UInt8) :
    l.length ≤ (l.map f).sum := by
  rw [← List.length_map f]
  apply List.length_le_sum_of_one_le
  intro k hk
  obtain ⟨b, -, rfl⟩ := List.mem_map.mp hk
  exact hf b

theorem Large.objectAt_le (hv : Valid fields h v t) (hq : Reach h v q) (hl : Large h q)
    (hb : ∀ b, 1 ≤ w.byte b) :
    w.objectAt h true q.addr + kZeroCopySize ≤ w.objectAt h false q.addr := by
  obtain ⟨n, ⟨x, hx⟩, hn⟩ := hl
  rw [w.objectAt_eq hx, w.objectAt_eq hx]
  have hty := hv.objects q _ hq hx
  cases hty with
  | @bytes b _ hlen =>
    have hdef : (Obj.data (.bytes n) (.bytes b) : Obj (Ptr ω α)).defers true = true := by
      simpa [Obj.defers, Ty.defers] using hn
    simp only [Weight.object, hdef, Weight.defers_false, Obj.value, Weight.value, if_true,
      Bool.false_eq_true, if_false]
    have hlength := length_le_sum_map hb b
    have hword := w.word_le_made
    omega

/-- With a large object among those that a value leads to, some of them weigh more than those
that were met. -/
theorem Large.exists_heavier (hv : Valid fields h v t) (hps : ∀ p ∈ ps, Reach h v p)
    (hd : (ps.map Ptr.addr).Nodup) (hq : Reach h v q) (hl : Large h q) (hb : ∀ b, 1 ≤ w.byte b) :
    ∃ l : List (Ptr ω α), (∀ p ∈ l, Reach h v p) ∧ (l.map Ptr.addr).Nodup ∧
      (ps.map fun p => w.objectAt h true p.addr).sum + kZeroCopySize ≤
        (l.map fun p => w.objectAt h false p.addr).sum := by
  by_cases hmem : q.addr ∈ ps.map Ptr.addr
  · obtain ⟨p, hp, haddr⟩ := List.mem_map.mp hmem
    refine ⟨ps, hps, hd, ?_⟩
    obtain ⟨l₁, l₂, rfl⟩ := List.append_of_mem hp
    have h₁ := sum_objectAt_true_le w h l₁
    have h₂ := sum_objectAt_true_le w h l₂
    have hle := hl.objectAt_le hv hq hb (w := w)
    rw [← haddr] at hle
    simp only [List.map_append, List.map_cons, List.sum_append, List.sum_cons]
    omega
  · refine ⟨q :: ps, List.forall_mem_cons.mpr ⟨hq, hps⟩, List.nodup_cons.mpr ⟨hmem, hd⟩, ?_⟩
    have hle := hl.objectAt_le hv hq hb (w := w)
    have hrest := sum_objectAt_true_le w h ps
    simp only [List.map_cons, List.sum_cons]
    omega

end Weighing

section Passes

variable {ω α B : Type*} [DecidableEq ω] [DecidableEq α] {fields : ℕ → Ty} {h : Heap ω α}
variable {src : ω} {st : Storage ω α} {o : Obj (Ptr ω α)} {p q : Ptr ω α} {w : Weight}
variable {s t : Packer ω α} {n : ℕ} {K : Ncpy ω α B} {msg : Message B}

omit [DecidableEq ω] in
theorem reach_of_transGen_value (ho : h.lookup p.addr = some o)
    (hq : Relation.TransGen (Edge h) p q) : Reach h o.value q := by
  induction hq with
  | single he =>
    obtain ⟨o', ho', hq⟩ := he
    cases ho.symm.trans ho'
    exact .root hq
  | tail _ he ih => exact ih.step he

omit [DecidableEq ω] in
theorem reach_self (h : Heap ω α) (o : Obj (Ptr ω α)) (p : Ptr ω α) : Reach h (o.pointer p) p :=
  .root (by simp)

namespace Packable

variable (hP : Packable fields h src st o)
include hP

omit [DecidableEq ω] in
theorem lookup_pointer (source : Option ω) : h.lookup (st.pointer source).addr = some o := by
  rw [st.pointer_addr]
  exact hP.lookup

omit [DecidableEq ω] in
theorem reach_pointer (hq : Reach h o.value q) : Reach h (o.pointer (st.pointer (some src))) q :=
  (reach_self h o _).object (hP.lookup_pointer _) hq

omit [DecidableEq ω] in
theorem content : Valid fields h o.value (o.contentTy fields) where
  hasTy := by
    have hty := hP.valid.objects _ o (reach_self h o _) (hP.lookup_pointer _)
    cases o <;> exact hty
  objects q x hq hx := hP.valid.objects q x (hP.reach_pointer hq) hx
  owner_eq q r hq hr he := hP.valid.owner_eq q r (hP.reach_pointer hq) (hP.reach_pointer hr) he
  acyclic q r s hq hs hqr := hP.valid.acyclic q r s (hP.reach_pointer hq) hs hqr

theorem weighs {wraps : Bool} (hp : p.addr = st.get) (hm : ∀ q, s.met q = none)
    (hw : s.written = []) (hd : wraps = true → o.defers s.deferrable = false)
    (hc : Counted w s t)
    (hs : pup h (pupObject h n) (if wraps then o.pointer p else o.value) s = .ok t) :
    ∃ ps : List (Ptr ω α), (∀ q ∈ ps, Reach h o.value q ∧ (wraps = true → q.owner ≠ p.owner)) ∧
      (ps.map Ptr.owner).Nodup ∧
      w.cells t.written ≤ (if wraps then w.record .instance else 0) + w.value o.value +
        (ps.map fun q => w.objectAt h s.deferrable q.addr).sum ∧
      ((∀ q ∈ ps, ¬ Large h q) → t.deferred = s.deferred) := by
  have hstep : ∀ q r, Reach h o.value q → Edge h q r → Reach h o.value r :=
    fun _ _ hq he => hq.step he
  have hobj := adds_pupObject (w := w) hstep hP.content.objects
  have hvalue {n : ℕ} {s t : Packer ω α} (hc : Counted w s t)
      (hs : pup h (pupObject h n) o.value s = .ok t) :
      ∃ ps, Adds w h (Reach h o.value) (w.value o.value) s t ps :=
    adds_pup (fun _ _ _ => grows_pupObject n) (hobj n) (fun q hq => .root hq)
      ⟨_, .inl hP.content.hasTy⟩ hc hs
  have hlook : h.lookup p.addr = some o := hp ▸ hP.lookup
  cases wraps with
  | false =>
    obtain ⟨ps, ha⟩ := hvalue hc hs
    have hle := ha.written
    rw [hw, w.cells_nil, Nat.zero_add] at hle
    refine ⟨ps, fun q hq => ⟨(ha.mem q hq).1, Bool.noConfusion⟩, ha.nodup, ?_, ha.small⟩
    simpa using hle
  | true =>
    obtain ⟨r, s₁, hr, hk, he⟩ := exists_pup_pointer_eq hlook (hm p.owner) n
    have hdata : o.dataTy.defers s.deferrable = false := by
      have hd := hd rfl
      cases o with
      | data T v => exact hd
      | poly c v => rfl
    rw [if_pos rfl, he, hdata, if_neg Bool.false_ne_true] at hs
    cases n with
    | zero => cases hs
    | succ n =>
      unfold pupObject at hs
      rw [hlook] at hs
      have hc₁ : Counted w (s₁.copy r.cells) t := by
        refine hc.imp_right fun hm => ⟨fun q => ?_, hm.2⟩
        change s₁.met q ≠ _
        rw [hr.met, hk]
        split_ifs
        · simp
        · exact hm.1 q
      obtain ⟨ps, ha⟩ := hvalue hc₁ hs
      have hle := ha.written
      have hdef : (s₁.copy r.cells).deferrable = s.deferrable := hr.deferrable
      rw [copy_written, w.cells_append, hr.written, hw, weigh_record, hk, hdef, w.cells_nil] at hle
      refine ⟨ps, fun q hq => ⟨(ha.mem q hq).1, fun _ hqp => ?_⟩, ha.nodup, ?_, fun hl => ?_⟩
      · have hn : s₁.met q.owner = none := (ha.mem q hq).2.1
        simp [hr.met, hqp] at hn
      · simpa using hle
      · rw [ha.small hl]
        exact hr.deferred

end Packable

theorem pupBuffer_ok {source : Option ω} {e wraps : Bool} (ho : h.lookup st.get = some o)
    (hs : pupBuffer h n st source e s = .ok (wraps, t)) : wraps = (e && !o.isSharedPtr) ∧
      pup h (pupObject h n) (if e && !o.isSharedPtr then o.pointer (st.pointer source) else o.value)
        s = .ok t := by
  unfold pupBuffer at hs
  simp only [ho] at hs
  cases hp : pup h (pupObject h n)
    (if e && !o.isSharedPtr then o.pointer (st.pointer source) else o.value) s with
  | error e =>
    rw [hp] at hs
    cases hs
  | ok t' =>
    rw [hp] at hs
    cases hs
    exact ⟨rfl, rfl⟩

omit [DecidableEq α] in
theorem getDeferred_ok {source : Option ω} {ds : List (ℕ × ℕ × Ptr ω α)}
    (hs : st.getDeferred source s = .ok ds) : ds = s.deferred := by
  cases st with
  | buffer data => exact (Except.ok.inj hs).symm
  | inline a =>
    unfold Storage.getDeferred at hs
    dsimp only at hs
    split_ifs at hs
    exact (Except.ok.inj hs).symm

structure MessageOf (K : Ncpy ω α B) (h : Heap ω α) (n : ℕ) (src : ω) (st : Storage ω α)
    (o : Obj (Ptr ω α)) (s t : Packer ω α) (msg : Message B) : Prop where
  sized : pup h (pupObject h n) (if !o.isSharedPtr then o.pointer (st.pointer (some src))
    else o.value) { self := 0, deferrable := true } = .ok s
  packed : pup h (pupObject h n) (if !s.deferred.isEmpty && !o.isSharedPtr then
    o.pointer (st.pointer none) else o.value)
    (Packer.acquire { self := 1, deferrable := !s.deferred.isEmpty } s) = .ok t
  zeroCopy : msg.zeroCopy = !s.deferred.isEmpty
  value : msg.value = t.written
  size_deferred : K.Additive → s.deferred ≠ [] → size t.written = size s.written
  size : s.deferred = [] →
    size t.written = if !o.isSharedPtr then size s.written - 17 else size s.written

theorem ite_eq_ok {ε A : Type*} {c : Prop} [Decidable c] {a b : A} {e : ε}
    (hi : (if c then Except.ok a else .error e) = .ok b) : c ∧ a = b := by
  split_ifs at hi with hc
  exact ⟨hc, Except.ok.inj hi⟩

theorem messageOf_packDeferrable (ho : h.lookup st.get = some o)
    (hmsg : packDeferrable K h n src st = .ok msg) : ∃ s t, MessageOf K h n src st o s t msg := by
  unfold packDeferrable at hmsg
  rw [bind_eq_ok] at hmsg
  obtain ⟨⟨wraps, s⟩, hs, hmsg⟩ := hmsg
  rw [bind_eq_ok] at hmsg
  obtain ⟨ds, hds, hmsg⟩ := hmsg
  rw [bind_eq_ok] at hmsg
  obtain ⟨⟨wraps', t⟩, ht, hmsg⟩ := hmsg
  obtain rfl := getDeferred_ok hds
  obtain ⟨rfl, hsized⟩ := pupBuffer_ok ho hs
  obtain ⟨-, hpacked⟩ := pupBuffer_ok ho ht
  obtain ⟨hsize, rfl⟩ := ite_eq_ok hmsg
  refine ⟨s, t, hsized, hpacked, rfl, rfl, fun hK hne => ?_, fun hnil => ?_⟩
  · have hfalse : s.deferred.isEmpty = false := by simpa using hne
    rw [hfalse, Bool.not_false, if_pos rfl, if_pos rfl] at hsize
    rw [hK, foldl_add_cost] at hsize
    omega
  · simpa [hnil, PtrRecord.instanceSize] using hsize

theorem pup_large {p : Ptr ω α} (ho : h.lookup p.addr = some o) (hm : s.met p.owner = none)
    (hd : s.deferrable = true) (hl : o.defers true = true)
    (hs : pup h (pupObject h n) (o.pointer p) s = .ok t) :
    t.deferred ≠ [] ∧ ∃ id ty, t.written = s.written ++ [.byte 2, .word id, .word ty] := by
  obtain ⟨r, s₁, hr, -, he⟩ := exists_pup_pointer_eq ho hm n
  have hdata : o.dataTy.defers s.deferrable = true := by
    rw [hd]
    cases o with
    | data T v => exact hl
    | poly c v => cases hl
  rw [if_pos hdata] at he
  obtain rfl := Except.ok.inj (he.symm.trans hs)
  refine ⟨upsert_ne_nil _ _ _, r.id, o.dataTy.width, ?_⟩
  rw [← hr.written]
  rfl

omit [DecidableEq ω] [DecidableEq α] in
theorem Obj.isSharedPtr_of_defers {d : Bool} (hd : o.defers d = true) : o.isSharedPtr = false := by
  cases o with
  | data T v => cases T <;> simp_all [Obj.defers, Ty.defers, Obj.isSharedPtr]
  | poly c v => rfl

namespace Packable

variable (hP : Packable fields h src st o) (hm : MessageOf K h n src st o s t msg)
include hP hm

theorem deferred_eq_nil (hK : K.Opaque) (hbound : ∀ l : List (Ptr ω α),
      (∀ q ∈ l, Reach h o.value q) → (l.map Ptr.addr).Nodup → Weight.bytes.value o.value +
        (l.map fun q => Weight.bytes.objectAt h false q.addr).sum ≤
          Weight.bytes.cells (msg.payload K)) : s.deferred = [] := by
  by_contra hne
  have hempty : s.deferred.isEmpty = false := by simpa using hne
  have hmet : ∀ q, (Packer.acquire { self := 1, deferrable := true } s).met q = none :=
    met_acquire (own_of_pup hm.sized)
  have hpacked := hm.packed
  rw [hempty, Bool.not_false, Bool.true_and] at hpacked
  have hpayload : Weight.bytes.cells (msg.payload K) = Weight.bytes.cells t.written := by
    have hcells : Weight.bytes.cells (K.cells msg.buffers) = 0 := by
      have hno := hK msg.buffers
      generalize K.cells msg.buffers = cs at hno
      induction cs with
      | nil => rfl
      | cons c cs ih =>
        have hrest := ih fun b hb => hno b (List.mem_cons_of_mem _ hb)
        cases c with
        | byte b => exact absurd List.mem_cons_self (hno b)
        | word n => simpa [Weight.cell, Weight.bytes] using hrest
        | puped b => simpa [Weight.cell, Weight.bytes] using hrest
    rw [Message.payload, hm.zeroCopy, hempty, Bool.not_false, if_pos rfl, Weight.cells_append,
      hcells, hm.value, Nat.zero_add]
  rw [hpayload] at hbound
  cases hd : o.defers true with
  | true =>
    -- the value itself is large
    have hvalue := hbound [] (List.forall_mem_nil _) List.nodup_nil
    rw [Obj.isSharedPtr_of_defers hd, Bool.not_false, if_pos rfl] at hpacked
    obtain ⟨-, id, ty, hw⟩ := pup_large (hP.lookup_pointer none) (hmet _) rfl hd hpacked
    have hcells : Weight.bytes.cells t.written = 1 := by rw [hw]; rfl
    rw [hcells] at hvalue
    have hty := hP.content.hasTy
    cases o with
    | poly c v => cases hd
    | data T v =>
      cases T with
      | bytes k =>
        have hk : kZeroCopySize ≤ k := by simpa [Obj.defers, Ty.defers] using hd
        cases hty with
        | @bytes b _ hlen =>
          have hlength := length_le_sum_map (f := Weight.bytes.byte) (fun _ => le_rfl) b
          simp only [Obj.value, Weight.value, List.map_nil, List.sum_nil] at hvalue
          unfold kZeroCopySize at hk
          omega
      | _ => cases hd
  | false =>
    obtain ⟨q, hq, hl⟩ : ∃ q, Reach h o.value q ∧ Large h q := by
      by_contra hnone
      have hc : Counted Weight.bytes ({ self := 0, deferrable := true } : Packer ω α) s := .inl rfl
      obtain ⟨ps, hps, -, -, hsmall⟩ := hP.weighs (st.pointer_addr _) (fun _ => rfl) rfl
        (fun _ => hd) hc hm.sized
      exact hne (hsmall fun q hq hl => hnone ⟨q, (hps q hq).1, hl⟩)
    have hc : Counted Weight.bytes (Packer.acquire { self := 1, deferrable := true } s) t :=
      .inl rfl
    obtain ⟨ps, hps, hnd, hle, -⟩ := hP.weighs (st.pointer_addr _) hmet rfl (fun _ => hd) hc hpacked
    obtain ⟨l, hl, hld, hheavy⟩ := hl.exists_heavier (w := Weight.bytes) hP.content
      (fun p hp => (hps p hp).1) (hP.content.nodup_addr (fun p hp => (hps p hp).1) hnd) hq
      fun _ => le_rfl
    have hb := hbound l hl hld
    have hdef : (Packer.acquire { self := 1, deferrable := true } s).deferrable = true := rfl
    rw [hdef] at hle
    have hrec : (if (!o.isSharedPtr) = true then Weight.bytes.record .instance else 0) ≤ 1 := by
      split_ifs
      · exact le_rfl
      · exact Nat.zero_le 1
    unfold kZeroCopySize at hheavy
    omega

theorem met_all (hnil : s.deferred = []) (hbound : ∀ l : List (Ptr ω α),
      (∀ q ∈ l, Reach h o.value q) → (l.map Ptr.addr).Nodup → Weight.sizes.value o.value +
        (l.map fun q => Weight.sizes.objectAt h false q.addr).sum ≤
          Weight.sizes.cells (msg.payload K)) :
    o.defers true = false ∧ (∀ q, Reach h o.value q → ¬ Large h q) ∧
      ∃ ps : List (Ptr ω α), (∀ p ∈ ps, Reach h o.value p ∧
        (o.isSharedPtr = false → p.owner ≠ (st.pointer (some src)).owner)) ∧
        (ps.map Ptr.owner).Nodup ∧ ∀ q, Reach h o.value q → q.addr ∈ ps.map Ptr.addr := by
  have hd : o.defers true = false := by
    by_contra hd
    rw [Bool.not_eq_false] at hd
    have hsized := hm.sized
    rw [Obj.isSharedPtr_of_defers hd, Bool.not_false, if_pos rfl] at hsized
    exact (pup_large (hP.lookup_pointer _) rfl rfl hd hsized).1 hnil
  have hc : Counted Weight.sizes ({ self := 0, deferrable := true } : Packer ω α) s :=
    .inr ⟨fun q => by simp [Packer.met], hnil⟩
  obtain ⟨ps, hps, hnd, hle, -⟩ := hP.weighs (st.pointer_addr _) (fun _ => rfl) rfl (fun _ => hd) hc
    hm.sized
  have hpsr : ∀ p ∈ ps, Reach h o.value p := fun p hp => (hps p hp).1
  have hpsd := hP.content.nodup_addr hpsr hnd
  -- the message is the size of the value and the objects met
  have hpayload : Weight.sizes.cells (msg.payload K) ≤ Weight.sizes.value o.value +
      (ps.map fun q => Weight.sizes.objectAt h true q.addr).sum := by
    have hvalue : Weight.sizes.cells (msg.payload K) = size t.written := by
      rw [Weight.sizes_cells, Message.payload, hm.zeroCopy, hnil, hm.value]
      rfl
    rw [Weight.sizes_cells] at hle
    rw [hvalue, hm.size hnil]
    dsimp only at hle
    split_ifs at hle ⊢
    · have hrec : Weight.sizes.record .instance = 17 := rfl
      omega
    · omega
  have hsum : ∀ l : List (Ptr ω α), (∀ q ∈ l, Reach h o.value q) → (l.map Ptr.addr).Nodup →
      (l.map fun q => Weight.sizes.objectAt h false q.addr).sum ≤
        (ps.map fun q => Weight.sizes.objectAt h true q.addr).sum := by
    intro l hl hld
    have := hbound l hl hld
    omega
  refine ⟨hd, fun q hq hl => ?_, ps,
    fun p hp => ⟨hpsr p hp, fun hsh => (hps p hp).2 (by simp [hsh])⟩, hnd, fun q hq => ?_⟩
  · obtain ⟨l, hlr, hld, hheavy⟩ := hl.exists_heavier (w := Weight.sizes) hP.content hpsr hpsd hq
      fun _ => le_rfl
    have := hsum l hlr hld
    unfold kZeroCopySize at hheavy
    omega
  · by_contra hmem
    have hle := hsum (q :: ps) (List.forall_mem_cons.mpr ⟨hq, hpsr⟩)
      (List.nodup_cons.mpr ⟨hmem, hpsd⟩)
    have hword := word_le_objectAt (w := Weight.sizes) hP.content hq
    have htrue := sum_objectAt_true_le Weight.sizes h ps
    have h8 : Weight.sizes.word = 8 := rfl
    rw [List.map_cons, List.sum_cons] at hle
    omega

/-- A message from which a copy is read was packed from separate, small objects. -/
theorem plain_of_copy (hK : K.Opaque) {v' : UVal} {u' : Unpacker} {f : Ptr ω α → Ptr Owner Place}
    {m : ℕ} (hread : readPayload K fields m (o.contentTy fields) o.slot msg = .ok (v', u'))
    (hc : CopyOf h o.value u'.heap v' f) :
    s.deferred = [] ∧ Separate h o.value ∧
      (o.isSharedPtr = false → ∀ q, Reach h o.value q →
        q.owner ≠ (st.pointer (some src)).owner) ∧
      (∀ q, Reach h o.value q → ¬ Large h q) ∧ o.defers true = false := by
  have hbound (w : Weight) : ∀ l : List (Ptr ω α), (∀ q ∈ l, Reach h o.value q) →
      (l.map Ptr.addr).Nodup → w.value o.value +
        (l.map fun q => w.objectAt h false q.addr).sum ≤ w.cells (msg.payload K) :=
    fun l hl hd => (Nat.le_add_right _ _).trans
      (hc.weight_le rfl (unpack_consumes unpackFields_consumes hread) hl hd)
  have hnil := hP.deferred_eq_nil hm hK (hbound Weight.bytes)
  obtain ⟨hd, hsmall, ps, hps, hnd, hall⟩ := hP.met_all hm hnil (hbound Weight.sizes)
  refine ⟨hnil, hP.content.separate_of_met (fun p hp => (hps p hp).1) hnd hall,
    fun hsh q hq => ?_, hsmall, hd⟩
  obtain ⟨p, hp, ha⟩ := List.mem_map.mp (hall q hq)
  rw [← hP.content.owner_eq p q (hps p hp).1 hq ha]
  exact (hps p hp).2 hsh

end Packable

theorem packDeferrable_plain (ho : h.lookup st.get = some o) (hnil : s.deferred = [])
    (hs : pup h (pupObject h n) (if !o.isSharedPtr then o.pointer (st.pointer (some src))
      else o.value) { self := 0, deferrable := true } = .ok s)
    (ht : pup h (pupObject h n) o.value (Packer.acquire { self := 1 } s) = .ok t)
    (hsize : size t.written = if !o.isSharedPtr then size s.written - 17 else size s.written) :
    ∃ msg : Message B, packDeferrable K h n src st = .ok msg ∧ msg.zeroCopy = false ∧
      msg.value = t.written := by
  have hsizer : pupBuffer h n st (some src) true { self := 0, deferrable := true } = _ :=
    pupBuffer_eq (some src) true ho rfl hs
  have hpacker : pupBuffer h n st none false (Packer.acquire { self := 1 } s) = _ :=
    pupBuffer_eq none false ho rfl ht
  have hget : st.getDeferred (some src) s = .ok [] := by
    cases st with
    | buffer data => exact congrArg _ hnil
    | inline a => simp [Storage.getDeferred, hnil]
  unfold packDeferrable
  rw [hsizer, ok_bind]
  simp only [hget, ok_bind]
  change ∃ msg, Except.bind (pupBuffer h n st none false (Packer.acquire { self := 1 } s)) _ = _ ∧ _
  rw [hpacker, ok_bind]
  refine ⟨_, if_pos ?_, rfl, rfl⟩
  simpa [PtrRecord.instanceSize] using hsize

end Passes

section Result

variable {ω α B : Type*} [DecidableEq ω] [DecidableEq α] {fields : ℕ → Ty} {h : Heap ω α}
variable {src : ω} {st : Storage ω α} {o : Obj (Ptr ω α)} {K : Ncpy ω α B}

def Obj.sized (src : ω) (st : Storage ω α) (o : Obj (Ptr ω α)) : Val (Ptr ω α) :=
  if !o.isSharedPtr then o.pointer (st.pointer (some src)) else o.value

namespace Packable

variable (hP : Packable fields h src st o) (hs : Separate h o.value)
  (hloop : o.isSharedPtr = false → ∀ q, Reach h o.value q →
    q.owner ≠ (st.pointer (some src)).owner)
include hP hs hloop

omit [DecidableEq ω] in
theorem sized_spec : (∃ t, Valid fields h (o.sized src st) t) ∧ Separate h (o.sized src st) ∧
    ∀ q, Reach h o.value q → Reach h (o.sized src st) q := by
  unfold Obj.sized
  cases ho : o.isSharedPtr with
  | true => exact ⟨⟨_, hP.content⟩, hs, fun _ => id⟩
  | false =>
    refine ⟨⟨_, hP.valid⟩, fun p q hp hq he => ?_, fun _ hq => hP.reach_pointer hq⟩
    have value {q : Ptr ω α} (hq : Relation.TransGen (Edge h) (st.pointer (some src)) q) :
        Reach h o.value q := reach_of_transGen_value (hP.lookup_pointer _) hq
    rcases Reach.pointer_cases hp with rfl | hp <;> rcases Reach.pointer_cases hq with rfl | hq
    · rfl
    · exact absurd he.symm (hloop ho q (value hq))
    · exact absurd he (hloop ho p (value hp))
    · exact hs p q (value hp) (value hq) he

theorem exists_plain (hsmall : ∀ q, Reach h o.value q → ¬ Large h q) (hd : o.defers true = false) :
    ∃ L y U, (Setting.mk h false L (Reach h o.value) (some .message)).Graph fields ∧
      Lin h L (fun _ => True) o.value [] y U ∧ ∃ N, ∀ n ≥ N, ∃ msg : Message B,
        packDeferrable K h n src st = .ok msg ∧ msg.zeroCopy = false ∧ msg.value = y := by
  obtain ⟨⟨ty, hv⟩, hsep, hmem⟩ := hP.sized_spec hs hloop
  obtain ⟨L, x, T, hS, hl, hT⟩ := hv.exists_lin (d := false) hsep.mergeable (fun he => by cases he)
    (some .message)
  obtain ⟨hfit, hstep⟩ := hv.suits hS
  -- no object is large enough to be deferred
  have hplain : ∀ q, Reach h (o.sized src st) q → ¬ Large h q := by
    intro q hq
    unfold Obj.sized at hq
    split_ifs at hq
    · rcases hq.pointer_cases with rfl | hq
      · rintro ⟨n, ⟨e, he⟩, hn⟩
        cases (hP.lookup_pointer (some src)).symm.trans he
        simp [Obj.defers, Ty.defers, hn] at hd
      · exact hsmall q (reach_of_transGen_value (hP.lookup_pointer _) hq)
    · exact hsmall q hq
  have hfit' : ∀ e : Option Ty × Ptr ω α, Reach h (o.sized src st) e.2 ∧ Pointee h e.1 e.2 →
      L.Fits h true e.1 e.2 := by
    rintro ⟨k, q⟩ ⟨hq, hk⟩
    have hf := hfit ⟨k, q⟩ ⟨hq, hk⟩
    cases k with
    | none => exact hf
    | some e =>
      have hno : e.defers false = false := by cases e <;> rfl
      have he : e.defers true = e.defers false := by
        rw [hno]
        by_contra hne
        exact hplain q hq (hk.large (by simpa using hne))
      change L.defers q.owner = e.defers true ∧
        (e.defers true = true → e = .bytes (L.tag q.owner)) ∧
        (e.defers true = false → L.tag q.owner = 0)
      rw [he]
      exact hf
  have hslots : ∀ q ∈ (o.sized src st).slots, Reach h (o.sized src st) q.2 ∧ Pointee h q.1 q.2 :=
    fun q hq => ⟨.root (List.mem_map_of_mem hq), Typed.pointee ⟨ty, .inl hv.hasTy⟩ q hq⟩
  have hslots' : ∀ q ∈ o.value.slots, Reach h (o.sized src st) q.2 ∧ Pointee h q.1 q.2 :=
    fun q hq => ⟨hmem _ (.root (List.mem_map_of_mem hq)),
      Typed.pointee ⟨_, .inl hP.content.hasTy⟩ q hq⟩
  obtain ⟨y, U, hy, hU, hsize⟩ : ∃ y U, Lin h L (fun _ => True) o.value [] y U ∧ (∀ o ∈ U, o ∈ T) ∧
      size y = if !o.isSharedPtr then size x - 17 else size x := by
    cases ho : o.isSharedPtr with
    | true =>
      rw [Obj.sized, ho] at hl
      exact ⟨x, T, hl, fun _ => id, rfl⟩
    | false =>
      rw [Obj.sized, ho] at hl
      have hroot : L.defers (st.pointer (some src)).owner = false := by
        apply hS.not_defers hv
        rw [Obj.sized, ho]
        exact reach_self h o _
      obtain ⟨k, hk⟩ := o.isShared_pointer (st.pointer (some src))
      obtain ⟨y, rfl, hy⟩ := hl.shared_inv hk hroot (hP.lookup_pointer _)
      obtain ⟨U, hTU, hshift⟩ := hy.shift
      refine ⟨y, U, ?_, fun q hq => ?_, ?_⟩
      · apply hshift []
        intro q hq
        have hne := hloop ho q hq
        simp [hne]
      · rw [hTU]
        exact List.mem_append_right _ hq
      · simp only [Bool.not_false, if_true, size_cons, Cell.size]
        omega
  obtain ⟨N, hN⟩ := ((tracks_sizer hT).deferred (ident_inj_of_numbered hT)).pup_of_lin hfit' hstep
    hl List.prefix_rfl hslots
  obtain ⟨M, hM⟩ := tracks_packer.pup_of_lin hfit hstep hy List.prefix_rfl hslots'
  refine ⟨L, y, U, ?_, hy, max N M, fun n hn => ?_⟩
  · exact {
      step := fun p q hp he => hp.step he
      typed := hP.content.objects
      fits := fun k p hp hk => hS.fits k p (hmem p hp) hk
      owner_eq := hP.content.owner_eq
      merge := hs.mergeable
      acyclic := hP.content.acyclic
      ident_inj := fun p q hp hq he => hS.ident_inj p q (hmem p hp) (hmem q hq) he }
  · obtain ⟨s, hsized, hi, hw⟩ := hN n (le_trans (le_max_left _ _) hn)
      { self := 0, deferrable := true } ⟨Sizes.start L true, defers_nil L⟩
    obtain ⟨t, hpacked, -, hw'⟩ := hM n (le_trans (le_max_right _ _) hn) _ (hi.1.acquires hU)
    have hnil : s.deferred = [] := by
      rw [List.eq_nil_iff_forall_not_mem]
      intro e he
      obtain ⟨hdef, -⟩ := hi.2.owner e he
      obtain ⟨q, hq, hqo, -⟩ := (hi.2.mem_iff e.1).mp (List.mem_map_of_mem he)
      obtain ⟨p, hp, rfl⟩ := (hl.met hq).resolve_left List.not_mem_nil
      rw [hS.not_defers hv hp] at hqo
      cases hqo
    obtain ⟨msg, hmsg, hz, hval⟩ := packDeferrable_plain (K := K) hP.lookup hnil hsized hpacked
      (by rw [hw, hw']; exact hsize)
    exact ⟨msg, hmsg, hz, hval.trans hw'⟩

end Packable

/-- A typed value can be read from its message if and only if it is portable. -/
theorem carries_iff (hK : K.Opaque) (hP : Packable fields h src st o) :
    Carries K fields h src st o ↔ Portable h st o := by
  have owner_ne : (o.isSharedPtr = false → ∀ data, st = .buffer data → ∀ q, Reach h o.value q →
      q.owner ≠ data.owner) → o.isSharedPtr = false → ∀ q, Reach h o.value q →
        q.owner ≠ (st.pointer (some src)).owner := by
    intro hloop ho q hq
    cases st with
    | buffer data => exact hloop ho data rfl q hq
    | inline a => exact hP.fresh a rfl q (transGen_of_reach (hP.lookup_pointer _) hq)
  -- the outcome of unpacking what was packed
  have outcome (hs : Separate h o.value)
      (hloop : o.isSharedPtr = false → ∀ q, Reach h o.value q →
        q.owner ≠ (st.pointer (some src)).owner)
      (hsmall : ∀ q, Reach h o.value q → ¬ Large h q) (hd : o.defers true = false) :
      ∃ L y U, (Setting.mk h false L (Reach h o.value) (some .message)).Graph fields ∧
        ∃ N, ∀ n ≥ N, ∃ msg : Message B, packDeferrable K h n src st = .ok msg ∧
          Outcome (Setting.mk h false L (Reach h o.value) (some .message)) (fun _ => False)
            (fun _ => False) o.slot o.value U y [] { input := y, source := some .message }
            (readPayload K fields n (o.contentTy fields) o.slot msg) := by
    obtain ⟨L, y, U, hS, hl, N, hN⟩ := hP.exists_plain hs hloop hsmall hd (K := K)
    refine ⟨L, y, U, hS, max N y.length, fun n hn => ?_⟩
    obtain ⟨msg, hmsg, hz, hval⟩ := hN n (le_trans (le_max_left _ _) hn)
    refine ⟨msg, hmsg, ?_⟩
    have hpayload : msg.payload K = y := by
      rw [Message.payload, hz, hval]
      rfl
    rw [readPayload, hpayload]
    exact (hl.unpacks hS (fun _ _ _ => .inl rfl) (Inv.start _ y 0) (List.append_nil y).symm
      (le_trans (le_max_right _ _) hn) (fun p hp => .root hp) (fun o ho => ho.elim)).value _ o.slot
      hP.content.hasTy
  constructor
  · rintro ⟨M, hM⟩
    obtain ⟨msg, v', u', f, hmsg, hread, hc⟩ := hM M le_rfl
    obtain ⟨s, t, hm⟩ := messageOf_packDeferrable hP.lookup hmsg
    obtain ⟨-, hs, hloop, hsmall, hd⟩ := hP.plain_of_copy hm hK hread hc
    refine ⟨hs, fun ho data hst q hq => ?_, hsmall, hd, ?_⟩
    · subst hst
      exact hloop ho q hq
    · obtain ⟨L, y, U, hS, N, hN⟩ := outcome hs hloop hsmall hd
      obtain ⟨msg, hmsg, hout⟩ := hN (max M N) (le_max_right _ _)
      obtain ⟨msg', v', u', f, hmsg', hread, -⟩ := hM (max M N) (le_max_left _ _)
      cases hmsg.symm.trans hmsg'
      rcases hout with ⟨u₁, -, hdone⟩ | ⟨e, he, -⟩
      · exact hdone.allSafe hS fun p hp => hp
      · cases hread.symm.trans he
  · intro hp
    obtain ⟨L, y, U, hS, N, hN⟩ := outcome hp.separate (owner_ne hp.loopless) hp.small hp.notLarge
    refine ⟨N, fun n hn => ?_⟩
    obtain ⟨msg, hmsg, hout⟩ := hN n hn
    rcases hout with ⟨u', he, hdone⟩ | ⟨e, -, hnot⟩
    · refine ⟨msg, _, u', _, hmsg, he, hdone.copyOf hS rfl hp.separate
        (fun p hp => (hP.content.reach hp).choose_spec.isSome) (fun _ _ => id) fun p x hr hdp => ?_⟩
      rw [hS.not_defers hP.content hr] at hdp
      cases hdp
    · exact absurd hp.safe (hnot fun p q hp' hq ho => hp.separate p q hp' hq ho)

end Result

end Hypercomm.Serialization
