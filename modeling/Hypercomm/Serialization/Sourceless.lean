import Hypercomm.Serialization.Unpacking

/-! # Unpacking without a source

An unpacker without a source message makes a pointer without an owner for a trivially copyable
object, and such a pointer cannot be found again. So there is only one to each of these objects,
wherever it is in the result.
-/

namespace Hypercomm.Serialization

def offsets (ps : List (Ptr Owner Place)) : List ℕ :=
  ps.filterMap fun p =>
    match p.addr with
    | .message k => some k
    | .object _ => none
    | .buffer _ => none

def heapPtrs (E : Heap Owner Place) : List (Ptr Owner Place) := E.flatMap fun e => e.2.value.ptrs

structure Sourceless (u : Unpacker) : Prop where
  source : u.source = none
  instances : ∀ e ∈ u.instances, e.2.owner.isSome → offsets [e.2] = []

/-- Pointers and objects were made, each pointer into the message once and at a place of its
own. -/
structure Makes (u : Unpacker) (ps : List (Ptr Owner Place)) (u' : Unpacker) : Prop where
  sourceless : Sourceless u'
  offset : u.offset ≤ u'.offset
  heap : ∃ E, u'.heap = E ++ u.heap ∧ (offsets (ps ++ heapPtrs E)).Nodup ∧
    (∀ k ∈ offsets (ps ++ heapPtrs E), u.offset < k ∧ k ≤ u'.offset) ∧
    ∀ a n b, (a, .data (.bytes n) b) ∈ E → ∃ k, a = .message k

structure Reads (u u' : Unpacker) : Prop where
  source : u'.source = u.source
  instances : u'.instances = u.instances
  heap : u'.heap = u.heap
  offset : u.offset ≤ u'.offset

section Reading

variable {u u' u'' : Unpacker} {n : ℕ}

theorem Reads.refl : Reads u u := ⟨rfl, rfl, rfl, le_rfl⟩

theorem Reads.trans (h : Reads u u') (h' : Reads u' u'') : Reads u u'' :=
  ⟨h'.source.trans h.source, h'.instances.trans h.instances, h'.heap.trans h.heap,
    h.offset.trans h'.offset⟩

theorem Reads.sourceless (h : Reads u u') (hs : Sourceless u) : Sourceless u' :=
  ⟨h.source.trans hs.source, h.instances ▸ hs.instances⟩

theorem reads_byte {b : UInt8} (h : u.byte = .ok (b, u')) :
    Reads u u' ∧ u.offset < u'.offset := by
  unfold Unpacker.byte at h
  split at h
  · obtain ⟨rfl, rfl⟩ := by simpa using h
    exact ⟨⟨rfl, rfl, rfl, Nat.le_succ _⟩, Nat.lt_succ_self _⟩
  · cases h

theorem reads_word (h : u.word = .ok (n, u')) : Reads u u' := by
  unfold Unpacker.word at h
  split at h
  · obtain ⟨rfl, rfl⟩ := by simpa using h
    exact ⟨rfl, rfl, rfl, Nat.le_add_right _ _⟩
  · cases h

theorem reads_puped {b : List UInt8} (h : u.puped = .ok (b, u')) : Reads u u' := by
  unfold Unpacker.puped at h
  split at h
  · obtain ⟨rfl, rfl⟩ := by simpa using h
    exact ⟨rfl, rfl, rfl, Nat.le_add_right _ _⟩
  · cases h

theorem reads_bytes {b : List UInt8} (h : u.bytes n = .ok (b, u')) : Reads u u' := by
  induction n generalizing u b with
  | zero =>
    obtain ⟨rfl, rfl⟩ := by simpa [Unpacker.bytes] using h
    exact .refl
  | succ n ih =>
    unfold Unpacker.bytes at h
    rw [bind_eq, bind_eq_ok] at h
    obtain ⟨⟨c, u₁⟩, hc, h⟩ := h
    dsimp only at h
    rw [bind_eq, bind_eq_ok] at h
    obtain ⟨⟨cs, u₂⟩, hcs, h⟩ := h
    obtain ⟨-, rfl⟩ := by simpa using h
    exact (reads_byte hc).1.trans (ih hcs)

theorem reads_record {r : PtrRecord} (h : u.record = .ok (r, u')) :
    Reads u u' ∧ u.offset < u'.offset := by
  unfold Unpacker.record at h
  rw [bind_eq, bind_eq_ok] at h
  obtain ⟨⟨k, u₁⟩, hk, h⟩ := h
  obtain ⟨h₁, hlt⟩ := reads_byte hk
  have longer {u₂ : Unpacker} (h₂ : Reads u₁ u₂) : Reads u u₂ ∧ u.offset < u₂.offset :=
    ⟨h₁.trans h₂, hlt.trans_le h₂.offset⟩
  dsimp only at h
  split_ifs at h
  · obtain ⟨-, rfl⟩ := by simpa using h
    exact longer .refl
  · rw [bind_eq, bind_eq_ok] at h
    obtain ⟨⟨id, u₂⟩, hid, h⟩ := h
    dsimp only at h
    rw [bind_eq, bind_eq_ok] at h
    obtain ⟨⟨ty, u₃⟩, hty, h⟩ := h
    obtain ⟨-, rfl⟩ := by simpa using h
    exact longer ((reads_word hid).trans (reads_word hty))
  · rw [bind_eq, bind_eq_ok] at h
    obtain ⟨⟨id, u₂⟩, hid, h⟩ := h
    obtain ⟨-, rfl⟩ := by simpa using h
    exact longer (reads_word hid)
  · rw [bind_eq, bind_eq_ok] at h
    obtain ⟨⟨id, u₂⟩, hid, h⟩ := h
    dsimp only at h
    rw [bind_eq, bind_eq_ok] at h
    obtain ⟨⟨ty, u₃⟩, hty, h⟩ := h
    obtain ⟨-, rfl⟩ := by simpa using h
    exact longer ((reads_word hid).trans (reads_word hty))

end Reading

section Making

variable {u u' u'' : Unpacker} {ps qs : List (Ptr Owner Place)}

@[simp] theorem offsets_append : offsets (ps ++ qs) = offsets ps ++ offsets qs :=
  List.filterMap_append ..

@[simp] theorem heapPtrs_append (E F : Heap Owner Place) :
    heapPtrs (E ++ F) = heapPtrs E ++ heapPtrs F := List.flatMap_append ..

@[simp] theorem heapPtrs_cons (e : Place × Obj (Ptr Owner Place)) (E : Heap Owner Place) :
    heapPtrs (e :: E) = e.2.value.ptrs ++ heapPtrs E := rfl

theorem Makes.nil (h : Sourceless u) (hps : offsets ps = []) : Makes u ps u where
  sourceless := h
  offset := le_rfl
  heap := ⟨[], rfl, by simp [hps, heapPtrs], by simp [hps, heapPtrs], by simp⟩

theorem Makes.read (hr : Reads u u') (h : Makes u' ps u'') : Makes u ps u'' where
  sourceless := h.sourceless
  offset := hr.offset.trans h.offset
  heap := by
    obtain ⟨E, hE, hnd, hlt, hb⟩ := h.heap
    refine ⟨E, hE.trans (by rw [hr.heap]), hnd, fun k hk => ?_, hb⟩
    exact ⟨hr.offset.trans_lt (hlt k hk).1, (hlt k hk).2⟩

theorem Makes.of_eq (h : Makes u' ps u'') (hoff : u'.offset = u.offset)
    (hheap : u'.heap = u.heap) : Makes u ps u'' where
  sourceless := h.sourceless
  offset := hoff ▸ h.offset
  heap := hoff ▸ hheap ▸ h.heap

theorem Makes.append (h : Makes u ps u') (h' : Makes u' qs u'') : Makes u (ps ++ qs) u'' where
  sourceless := h'.sourceless
  offset := h.offset.trans h'.offset
  heap := by
    obtain ⟨E, hE, hnd, hlt, hb⟩ := h.heap
    obtain ⟨F, hF, hnd', hlt', hb'⟩ := h'.heap
    have hperm : (offsets (ps ++ qs ++ heapPtrs (F ++ E))).Perm
        (offsets (ps ++ heapPtrs E) ++ offsets (qs ++ heapPtrs F)) := by
      simp only [offsets_append, heapPtrs_append, List.append_assoc]
      rw [List.perm_append_left_iff, ← List.append_assoc]
      exact List.perm_append_comm
    refine ⟨F ++ E, by rw [hF, hE, List.append_assoc], ?_, fun k hk => ?_, fun a n b hab => ?_⟩
    · rw [hperm.nodup_iff, List.nodup_append]
      refine ⟨hnd, hnd', fun k hk l hl => ?_⟩
      have h₁ := (hlt k hk).2
      have h₂ := (hlt' l hl).1
      omega
    · rcases List.mem_append.mp (hperm.mem_iff.mp hk) with hk | hk
      · exact ⟨(hlt k hk).1, (hlt k hk).2.trans h'.offset⟩
      · exact ⟨h.offset.trans_lt (hlt' k hk).1, (hlt' k hk).2⟩
    · exact (List.mem_append.mp hab).elim (hb' a n b) (hb a n b)

theorem Makes.put (h : Makes u ps u') {a : Place} {o : Obj (Ptr Owner Place)}
    (ho : o.value.ptrs = ps) (hb : ∀ n b, o ≠ .data (.bytes n) b) (hs : Sourceless u'')
    (hoff : u''.offset = u'.offset) (hheap : u''.heap = (a, o) :: u'.heap) (hqs : offsets qs = []) :
    Makes u qs u'' where
  sourceless := hs
  offset := h.offset.trans hoff.ge
  heap := by
    obtain ⟨E, hE, hnd, hlt, hbytes⟩ := h.heap
    refine ⟨(a, o) :: E, by rw [hheap, hE, List.cons_append], ?_, ?_, ?_⟩
    · simpa [hqs, ho] using hnd
    · intro k hk
      rw [hoff]
      exact hlt k (by simpa [hqs, ho] using hk)
    · intro a' n b hab
      rcases List.mem_cons.mp hab with heq | hab
      · exact absurd (Prod.mk.inj heq).2.symm (hb n b)
      · exact hbytes a' n b hab

theorem Sourceless.putInstance (h : Sourceless u) {k : ℕ} {p : Ptr Owner Place}
    (hp : p.owner.isSome → offsets [p] = []) (hok : u.putInstance k p = .ok u') :
    Sourceless u' ∧ u'.offset = u.offset ∧ u'.heap = u.heap := by
  unfold Unpacker.putInstance at hok
  split at hok
  · obtain rfl := by simpa using hok
    refine ⟨⟨h.source, fun e he => ?_⟩, rfl, rfl⟩
    rcases List.mem_cons.mp he with rfl | he
    · exact hp
    · exact h.instances e he
  · cases hok

theorem Sourceless.getInstance (h : Sourceless u) (k : ℕ) :
    offsets (u.getInstance k).toList = [] := by
  unfold Unpacker.getInstance
  cases hp : (u.instances.lookup k).filter (·.owner.isSome) with
  | none => rfl
  | some p =>
    obtain ⟨hlook, howner⟩ := Option.filter_eq_some_iff.mp hp
    obtain ⟨l₁, l₂, hl, -⟩ := List.lookup_eq_some_iff.mp hlook
    exact h.instances (k, p) (hl ▸ List.mem_append_right _ List.mem_cons_self) howner

theorem reads_putDeferred {r : PtrRecord} {slot : Slot} {p : Ptr Owner Place}
    (hok : u.putDeferred slot r = .ok (p, u')) : Reads u u' ∧ offsets [p] = [] := by
  unfold Unpacker.putDeferred at hok
  split_ifs at hok
  obtain ⟨rfl, rfl⟩ := by simpa using hok
  exact ⟨⟨rfl, rfl, rfl, le_rfl⟩, rfl⟩

section Elements

variable {read : Unpacker → Except Fault (UVal × Unpacker)} {accepts : List UVal → UVal → Bool}

theorem unpackElements_makes
    (hread : ∀ u v u', Sourceless u → read u = .ok (v, u') → Makes u v.ptrs u') {n : ℕ}
    {seen : List UVal} {v : UVal} (h : Sourceless u)
    (hok : unpackElements read accepts n seen u = .ok (v, u')) : Makes u v.ptrs u' := by
  induction n generalizing seen u v with
  | zero =>
    obtain ⟨rfl, rfl⟩ := by simpa [unpackElements] using hok
    exact .nil h rfl
  | succ n ih =>
    rw [unpackElements_succ, bind_eq_ok] at hok
    obtain ⟨⟨a, u₁⟩, ha, hok⟩ := hok
    rw [bind_eq_ok] at hok
    obtain ⟨⟨l, u₂⟩, hl, hok⟩ := hok
    split_ifs at hl
    obtain ⟨rfl, rfl⟩ := by simpa using hok
    have hmakes := hread u a u₁ h ha
    rw [Val.ptrs_cons]
    exact hmakes.append (ih hmakes.sourceless hl)

end Elements

section Unpacking

variable {f : ℕ → Unpacker → Except Fault (UVal × Unpacker)} {t : Ty} {slot : Slot} {v : UVal}

theorem unpack_bytes_makes {n : ℕ} {r : PtrRecord} (h : Sourceless u) (hr : u.record = .ok (r, u'))
    (hk : r.kind = .instance) (hok : unpack f (.shared (.bytes n)) slot u = .ok (v, u'')) :
    Makes u v.ptrs u'' := by
  simp only [unpack, bind_eq, hr, ok_bind, hk, bind_eq_ok] at hok
  obtain ⟨⟨b, u₁⟩, hb, u₂, hput, hok⟩ := hok
  obtain ⟨rfl, rfl⟩ := by simpa using hok
  obtain ⟨hread, hlt⟩ := reads_record hr
  have hread' := reads_bytes hb
  have h₁ : Sourceless (u₁.enter (.message u'.offset) (.data (.bytes n) (.bytes b))) :=
    ⟨((hread.trans hread').sourceless h).source, ((hread.trans hread').sourceless h).instances⟩
  have hsource : u'.source = none := (hread.sourceless h).source
  obtain ⟨h₂, hoff, hheap⟩ := h₁.putInstance (fun ho => by simp [hsource] at ho) hput
  have hle := hread'.offset
  constructor
  case sourceless => exact h₂
  case offset =>
    rw [hoff]
    exact hlt.le.trans hle
  case heap =>
    refine ⟨[(.message u'.offset, .data (.bytes n) (.bytes b))], ?_, ?_, ?_, ?_⟩
    · rw [hheap]
      exact congrArg _ (hread'.heap.trans hread.heap)
    · exact List.nodup_singleton _
    · intro k hk
      obtain rfl : k = u'.offset := List.mem_singleton.mp hk
      rw [hoff]
      exact ⟨hlt, hle⟩
    · intro a m c hmem
      exact ⟨_, (Prod.mk.inj (List.mem_singleton.mp hmem)).1⟩

/-- Whatever is read, each pointer into the message is made once. -/
theorem unpack_makes (hf : ∀ c u v u', Sourceless u → f c u = .ok (v, u') → Makes u v.ptrs u')
    (h : Sourceless u) (hok : unpack f t slot u = .ok (v, u')) : Makes u v.ptrs u' := by
  induction t generalizing slot u v u' with
  | bytes n =>
    simp only [unpack, bind_eq, bind_eq_ok] at hok
    obtain ⟨⟨b, u₁⟩, hb, hok⟩ := hok
    obtain ⟨rfl, rfl⟩ := by simpa using hok
    have hr := reads_bytes hb
    exact .read hr (.nil (hr.sourceless h) rfl)
  | builtin =>
    simp only [unpack, bind_eq, bind_eq_ok] at hok
    obtain ⟨⟨b, u₁⟩, hb, hok⟩ := hok
    obtain ⟨rfl, rfl⟩ := by simpa using hok
    have hr := reads_puped hb
    exact .read hr (.nil (hr.sourceless h) rfl)
  | unit =>
    obtain ⟨rfl, rfl⟩ := by simpa [unpack] using hok
    exact .nil h rfl
  | pair s t ihs iht =>
    simp only [unpack_pair, bind_eq_ok] at hok
    obtain ⟨⟨a, u₁⟩, ha, ⟨b, u₂⟩, hb, hok⟩ := hok
    obtain ⟨rfl, rfl⟩ := by simpa using hok
    have hmakes := ihs h ha
    rw [Val.ptrs_pair]
    exact hmakes.append (iht hmakes.sourceless hb)
  | list t ih =>
    simp only [unpack_list, bind_eq_ok] at hok
    obtain ⟨⟨n, u₁⟩, hn, ⟨l, u₂⟩, hl, hok⟩ := hok
    obtain ⟨rfl, rfl⟩ := by simpa using hok
    have hr := reads_word hn
    have hmakes := unpackElements_makes (fun _ _ _ hu => ih hu) (hr.sourceless h) hl
    exact .read hr hmakes
  | map k w ihk ihv =>
    simp only [unpack_map, bind_eq_ok] at hok
    obtain ⟨⟨n, u₁⟩, hn, ⟨l, u₂⟩, hl, hok⟩ := hok
    obtain ⟨rfl, rfl⟩ := by simpa using hok
    have hr := reads_word hn
    have hentry : ∀ u v u', Sourceless u → unpack f (.pair k w) .entry u = .ok (v, u') →
        Makes u v.ptrs u' := by
      intro u v u' hu hok
      simp only [unpack_pair, bind_eq_ok] at hok
      obtain ⟨⟨a, u₁⟩, ha, ⟨b, u₂⟩, hb, hok⟩ := hok
      obtain ⟨rfl, rfl⟩ := by simpa using hok
      have hmakes := ihk hu ha
      rw [Val.ptrs_pair]
      exact hmakes.append (ihv hmakes.sourceless hb)
    have hmakes := unpackElements_makes hentry (hr.sourceless h) hl
    exact .read hr hmakes
  | unique t ih =>
    rw [unpack_unique, bind_eq_ok] at hok
    obtain ⟨⟨b, u₁⟩, hb, hok⟩ := hok
    have hr := (reads_byte hb).1
    split_ifs at hok
    · rw [bind_eq_ok] at hok
      obtain ⟨⟨w, u₂⟩, hw, hok⟩ := hok
      obtain ⟨rfl, rfl⟩ := by simpa using hok
      have hmakes := ih (hr.sourceless h) hw
      exact .read hr hmakes
    · obtain ⟨rfl, rfl⟩ := by simpa using hok
      exact .read hr (.nil (hr.sourceless h) rfl)
  | uniquePoly =>
    simp only [unpack_uniquePoly, bind_eq_ok] at hok
    obtain ⟨⟨c, u₁⟩, hc, ⟨w, u₂⟩, hw, hok⟩ := hok
    split_ifs at hok
    obtain ⟨rfl, rfl⟩ := by simpa using hok
    have hr := reads_word hc
    exact .read hr (hf c u₁ w u₂ (hr.sourceless h) hw)
  | shared t ih =>
    cases hr : u.record with
    | error e =>
      simp only [unpack, hr] at hok
      cases hok
    | ok p =>
      obtain ⟨r, u₁⟩ := p
      have hread := (reads_record hr).1
      have h₁ := hread.sourceless h
      cases hk : r.kind with
      | ignored =>
        rw [unpack_shared_ignored hr hk] at hok
        obtain ⟨rfl, rfl⟩ := by simpa using hok
        exact .read hread (.nil h₁ rfl)
      | reference =>
        rw [unpack_shared_reference hr hk] at hok
        obtain ⟨rfl, rfl⟩ := by simpa using hok
        rw [Val.ptrs_shared]
        exact .read hread (.nil h₁ (h₁.getInstance r.id))
      | deferred =>
        cases t with
        | bytes n =>
          rw [unpack_shared_deferred hr hk, bind_eq_ok] at hok
          obtain ⟨⟨q, u₂⟩, hq, hok⟩ := hok
          obtain ⟨rfl, rfl⟩ := by simpa using hok
          obtain ⟨hdefer, hoff⟩ := reads_putDeferred hq
          exact .read (hread.trans hdefer) (.nil (hdefer.sourceless h₁) hoff)
        | _ => simp [unpack, bind_eq, hr, hk] at hok
      | «instance» =>
        by_cases ht : ∃ n, t = .bytes n
        · obtain ⟨n, rfl⟩ := ht
          exact unpack_bytes_makes h hr hk hok
        · have hnb : ∀ n, t ≠ .bytes n := fun n hn => ht ⟨n, hn⟩
          rw [unpack_shared_data hr hk hnb, bind_eq_ok] at hok
          obtain ⟨⟨w, u₂⟩, hw, hok⟩ := hok
          rw [bind_eq_ok] at hok
          obtain ⟨u₃, hput, hok⟩ := hok
          obtain ⟨rfl, rfl⟩ := by simpa using hok
          have hmakes := ih h₁ hw
          have h₂ : Sourceless (u₂.allocate.2.enter u₂.allocate.1.addr (.data t w)) :=
            ⟨hmakes.sourceless.source, hmakes.sourceless.instances⟩
          obtain ⟨h₃, hoff, hheap⟩ := h₂.putInstance (fun _ => rfl) hput
          refine .read hread (hmakes.put rfl (fun n b he => ?_) h₃ hoff hheap rfl)
          cases he
          exact hnb n rfl
  | sharedPoly =>
    cases hr : u.record with
    | error e =>
      simp only [unpack, hr] at hok
      cases hok
    | ok p =>
      obtain ⟨r, u₁⟩ := p
      have hread := (reads_record hr).1
      have h₁ := hread.sourceless h
      cases hk : r.kind with
      | ignored =>
        rw [unpack_sharedPoly_ignored hr hk] at hok
        obtain ⟨rfl, rfl⟩ := by simpa using hok
        exact .read hread (.nil h₁ rfl)
      | reference =>
        rw [unpack_sharedPoly_reference hr hk] at hok
        obtain ⟨rfl, rfl⟩ := by simpa using hok
        rw [Val.ptrs_sharedPoly]
        exact .read hread (.nil h₁ (h₁.getInstance r.id))
      | deferred => simp [unpack, bind_eq, hr, hk] at hok
      | «instance» =>
        simp only [unpack, bind_eq, hr, ok_bind, hk, bind_eq_ok] at hok
        obtain ⟨u₂, hput, ⟨w, u₃⟩, hw, hok⟩ := hok
        obtain ⟨rfl, rfl⟩ := by simpa using hok
        have h₁' : Sourceless u₁.allocate.2 := ⟨h₁.source, h₁.instances⟩
        obtain ⟨h₂, hoff, hheap⟩ := h₁'.putInstance (fun _ => rfl) hput
        have hmakes := (hf r.ty u₂ w u₃ h₂ hw).of_eq hoff hheap
        have h₃ : Sourceless (u₃.enter u₁.allocate.1.addr (.poly r.ty w)) :=
          ⟨hmakes.sourceless.source, hmakes.sourceless.instances⟩
        have hput : Makes u₁.allocate.2 (Val.sharedPoly (some u₁.allocate.1)).ptrs _ :=
          hmakes.put rfl (fun n b he => by cases he) h₃ rfl rfl rfl
        exact .read hread (hput.of_eq rfl rfl)

theorem unpackFields_makes {fields : ℕ → Ty} {fuel : ℕ} :
    ∀ c u v u', Sourceless u → unpackFields fields fuel c u = .ok (v, u') →
      Makes u v.ptrs u' := by
  induction fuel with
  | zero =>
    intro c u v u' _ hok
    cases hok
  | succ fuel ih =>
    intro c u v u' hu hok
    exact unpack_makes ih hu hok

end Unpacking

end Making

end Hypercomm.Serialization
