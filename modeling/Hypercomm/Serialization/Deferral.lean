import Hypercomm.Serialization.Sizing

/-! # Deferred objects

A large object is not written into the message. The message has a buffer for it, which the
receiver fetches on its own, and the pointers to the object are set once all buffers are there.
-/

namespace Hypercomm.Serialization

section Definitions

variable {ω α B : Type*}

def Obj.wrappedTy {P : Type*} : Obj P → Ty
  | .data (.shared t) _ => .shared t
  | .data .sharedPoly _ => .sharedPoly
  | .data t _ => .shared t
  | .poly _ _ => .sharedPoly

/-- The value in the pointer that it is sent in, unless it is a shared pointer itself. -/
def Obj.wrapped {P : Type*} (o : Obj P) (p : P) : Val P :=
  if o.isSharedPtr then o.value else o.pointer p

/-- The values of the buffers that were received, in this order. Each is kept at the position of
its buffer. -/
def received (remote : B → List UInt8) (msg : Message B) (order : List ℕ) :
    List (Option (List UInt8)) :=
  order.foldl (fun values pos => values.set pos (msg.buffers[pos]?.map remote))
    (List.replicate msg.buffers.length none)

/-- Unpack a message whose buffers are all there, and set the pointers to them one after
another. -/
def toTyped (fields : ℕ → Ty) (fuel : ℕ) (t : Ty) (offset : ℕ) (msg : Message B)
    (values : List (Option (List UInt8))) : Except Fault (UVal × Heap Owner Place) :=
  match values.mapM id with
  | none => .error .abort
  | some values =>
      (unpack (unpackFields fields fuel) t .member {
        input := msg.value
        offset := offset
        source := some .message
        deferrable := true }).bind fun (v, u) =>
      if u.deferred.length = values.length then
        .ok (v, ((u.deferred.zip values).map fun (d, b) =>
          (.buffer d.1, .data (.bytes b.length) (.bytes b))) ++ u.heap)
      else .error .abort

def Ncpy.Faithful [DecidableEq α] (K : Ncpy ω α B) (remote : B → List UInt8) (h : Heap ω α) :
    Prop :=
  ∀ p n b, h.lookup p.addr = some (.data (.bytes n) (.bytes b)) → remote (K.make p n) = b

variable [DecidableEq ω] [DecidableEq α]

/-- A typed value comes out of its message as a copy, in whichever order the buffers arrive. -/
def Transfers (K : Ncpy ω α B) (remote : B → List UInt8) (fields : ℕ → Ty) (h : Heap ω α)
    (src : ω) (st : Storage ω α) (o : Obj (Ptr ω α)) : Prop :=
  ∃ N, ∀ n ≥ N, ∃ msg, packDeferrable K h n src st = .ok msg ∧ msg.zeroCopy = true ∧
    ∀ order : List ℕ, order.Perm (List.range msg.buffers.length) →
      ∃ v' h' f, toTyped fields n o.wrappedTy (size (K.cells msg.buffers)) msg
          (received remote msg order) = .ok (v', h') ∧
        CopyOf h (o.wrapped (st.pointer none)) h' v' f

end Definitions

section Received

variable {B C : Type*}

theorem getElem?_foldl_set (f : ℕ → Option C) (order : List ℕ) (l : List (Option C)) (i : ℕ) :
    (order.foldl (fun l pos => l.set pos (f pos)) l)[i]? =
      if i ∈ order ∧ i < l.length then some (f i) else l[i]? := by
  induction order generalizing l with
  | nil => simp
  | cons pos order ih =>
    rw [List.foldl_cons, ih, List.length_set, List.getElem?_set]
    by_cases hi : i ∈ order ∧ i < l.length
    · simp [hi]
    · rw [if_neg hi]
      by_cases hp : pos = i
      · subst hp
        by_cases hlt : pos < l.length
        · simp [hlt]
        · simp [hlt]
      · have hne : i ≠ pos := fun h => hp h.symm
        rw [if_neg hp]
        refine (if_neg ?_).symm
        rintro ⟨hmem, hlt⟩
        rcases List.mem_cons.mp hmem with rfl | hmem
        · exact hne rfl
        · exact hi ⟨hmem, hlt⟩

theorem received_eq (remote : B → List UInt8) (msg : Message B) {order : List ℕ}
    (ho : order.Perm (List.range msg.buffers.length)) :
    received remote msg order = msg.buffers.map fun b => some (remote b) := by
  apply List.ext_getElem?
  intro i
  unfold received
  rw [getElem?_foldl_set, List.getElem?_map]
  by_cases hi : i < msg.buffers.length
  · rw [if_pos ⟨ho.mem_iff.mpr (List.mem_range.mpr hi), by simpa using hi⟩,
      List.getElem?_eq_getElem hi]
    rfl
  · have hnot : ¬ (i ∈ order ∧
        i < (List.replicate msg.buffers.length (none : Option (List UInt8))).length) := by
      rintro ⟨-, hlt⟩
      exact hi (by simpa using hlt)
    rw [if_neg hnot, List.getElem?_eq_none (Nat.le_of_not_lt hi)]
    simp [hi]

theorem mapM_map_some (l : List B) (f : B → C) : (l.map fun b => some (f b)).mapM id =
    some (l.map f) := by
  induction l with
  | nil => rfl
  | cons b l ih => simp [ih]

end Received

section Sender

variable {ω α B : Type*} [DecidableEq ω] [DecidableEq α] {h : Heap ω α} {L : Labels ω}
variable {I : Packer ω α → List (Option ω) → Prop} {T V : List (Option ω)} {d : Bool}
variable {s s' : Packer ω α} {p : Ptr ω α} {o : Obj (Ptr ω α)}

structure Defers (L : Labels ω) (V : List (Option ω)) (ds : List (ℕ × ℕ × Ptr ω α)) : Prop where
  sorted : (ds.map Prod.fst).Pairwise (· < ·)
  mem_iff : ∀ k, k ∈ ds.map Prod.fst ↔ ∃ o ∈ V, L.defers o = true ∧ L.ident o = k
  owner : ∀ d ∈ ds, L.defers d.2.2.owner = true ∧ L.ident d.2.2.owner = d.1 ∧
    L.tag d.2.2.owner = d.2.1

theorem mem_upsert_cases {β : Type*} {k : ℕ} {f : Option β → β} {l : List (ℕ × β)} {e : ℕ × β}
    (he : e ∈ upsert k f l) : e ∈ l ∨ e = (k, f none) ∨ ∃ y, (k, y) ∈ l ∧ e = (k, f (some y)) := by
  induction l with
  | nil => exact .inr (.inl (List.mem_singleton.mp he))
  | cons c l ih =>
    unfold upsert at he
    split_ifs at he with hlt heq
    · rcases List.mem_cons.mp he with rfl | he
      · exact .inr (.inl rfl)
      · exact .inl he
    · rcases List.mem_cons.mp he with rfl | he
      · exact .inr (.inr ⟨c.2, by rw [heq]; exact List.mem_cons_self, by rw [heq]⟩)
      · exact .inl (List.mem_cons_of_mem _ he)
    · rcases List.mem_cons.mp he with rfl | he
      · exact .inl List.mem_cons_self
      · rcases ih he with he | he | ⟨y, hy, he⟩
        · exact .inl (List.mem_cons_of_mem _ he)
        · exact .inr (.inl he)
        · exact .inr (.inr ⟨y, List.mem_cons_of_mem _ hy, he⟩)

omit [DecidableEq ω] [DecidableEq α] in
theorem Defers.defer {ds : List (ℕ × ℕ × Ptr ω α)} (hs : Defers L V ds)
    (hd : L.defers p.owner = true) (hk : L.ident p.owner ∉ ds.map Prod.fst) :
    Defers L (V ++ [p.owner])
      (upsert (L.ident p.owner) (fun d => (L.tag p.owner, (d.map Prod.snd).getD p)) ds) where
  sorted := pairwise_upsert hs.sorted
  mem_iff k := by
    rw [mem_upsert, hs.mem_iff]
    simp only [List.mem_append, List.mem_singleton]
    constructor
    · rintro (rfl | ⟨o, ho, hod⟩)
      · exact ⟨_, .inr rfl, hd, rfl⟩
      · exact ⟨o, .inl ho, hod⟩
    · rintro ⟨o, ho | rfl, hod, rfl⟩
      · exact .inr ⟨o, ho, hod, rfl⟩
      · exact .inl rfl
  owner e he := by
    rcases mem_upsert_cases he with he | rfl | ⟨y, hy, rfl⟩
    · exact hs.owner e he
    · exact ⟨hd, rfl, rfl⟩
    · exact absurd (List.mem_map_of_mem hy) hk

omit [DecidableEq ω] [DecidableEq α] in
theorem Defers.skip {ds : List (ℕ × ℕ × Ptr ω α)} (hs : Defers L V ds) {q : Option ω}
    (hd : L.defers q = false) : Defers L (V ++ [q]) ds where
  sorted := hs.sorted
  mem_iff k := by
    rw [hs.mem_iff]
    simp only [List.mem_append, List.mem_singleton]
    constructor
    · rintro ⟨o, ho, hod⟩
      exact ⟨o, .inl ho, hod⟩
    · rintro ⟨o, ho | rfl, hod, hk⟩
      · exact ⟨o, ho, hod, hk⟩
      · simp [hd] at hod
  owner := hs.owner

omit [DecidableEq α] in
theorem Tracks.deferred (hinj : ∀ o ∈ T, ∀ q ∈ T, L.ident o = L.ident q → o = q)
    (hI : Tracks L d T I) :
    Tracks L d T fun s V => I s V ∧ Defers L V s.deferred where
  deferrable s V hs := hI.deferrable s V hs.1
  copy s V cs hs := ⟨hI.copy s V cs hs.1, hs.2⟩
  again s V o ty hs ho := by
    obtain ⟨r, s', hr, hi, hw⟩ := hI.again s V o ty hs.1 ho
    have hd := (recorded_getRecord s o ty).deferred
    rw [hr] at hd
    refine ⟨r, s', hr, ⟨hi, ?_⟩, hw⟩
    rw [hd]
    exact hs.2
  visit s V o hs hV ho hod := by
    obtain ⟨r, s', hr, hi, hw⟩ := hI.visit s V o hs.1 hV ho hod
    have hd := (recorded_getRecord s o (L.tag o)).deferred
    rw [hr] at hd
    refine ⟨r, s', hr, ⟨hi, ?_⟩, hw⟩
    rw [hd]
    exact hs.2.skip hod
  defer s V o hs hV ho hod := by
    obtain ⟨r, s', hr, hw, hk, hid, hi⟩ := hI.defer s V o hs.1 hV ho hod
    have hd := (recorded_getRecord s o 0).deferred
    rw [hr] at hd
    refine ⟨r, s', hr, hw, hk, hid, fun p cs hp => ⟨hi p cs hp, ?_⟩⟩
    subst hp
    change Defers L (V ++ [p.owner])
      (upsert r.id (fun d => (L.tag p.owner, (d.map Prod.snd).getD p)) s'.deferred)
    rw [hid, hd]
    refine hs.2.defer hod fun hk => ?_
    obtain ⟨q, hq, -, he⟩ := (hs.2.mem_iff _).mp hk
    have hqT : q ∈ T := hV.subset (List.mem_append_left _ hq)
    exact ho (hinj q hqT _ (hV.subset (by simp)) he ▸ hq)

omit [DecidableEq ω] [DecidableEq α] in
theorem defers_nil (L : Labels ω) : Defers L [] ([] : List (ℕ × ℕ × Ptr ω α)) :=
  ⟨List.Pairwise.nil, fun k => by simp, fun d hd => absurd hd List.not_mem_nil⟩

end Sender

section Receiver

theorem map_zip_eq {β γ δ ε : Type*} {ds : List (ℕ × β)} {es : List (ℕ × γ)} (g : ℕ × β → δ)
    (F : ℕ → δ → ε) (he : es.map Prod.fst = ds.map Prod.fst) :
    ((es.zip (ds.map g)).map fun (d, b) => F d.1 b) = ds.map fun d => F d.1 (g d) := by
  induction ds generalizing es with
  | nil =>
    rw [List.map_nil, List.map_eq_nil_iff] at he
    rw [he]
    rfl
  | cons d ds ih =>
    cases es with
    | nil => cases he
    | cons e es =>
      rw [List.map_cons, List.map_cons, List.cons.injEq] at he
      simp [ih he.2, he.1]

theorem lookup_buffer {β γ : Type*} {ds : List (ℕ × β)} {d : ℕ × β} (g : ℕ × β → γ)
    (hnd : (ds.map Prod.fst).Nodup) (hd : d ∈ ds) :
    (ds.map fun d => (Place.buffer d.1, g d)).lookup (.buffer d.1) = some (g d) := by
  induction ds with
  | nil => cases hd
  | cons e ds ih =>
    rw [List.map_cons, List.nodup_cons] at hnd
    rw [List.map_cons, List.lookup_cons]
    rcases List.mem_cons.mp hd with rfl | hd
    · simp
    · have hne : d.1 ≠ e.1 := fun he => hnd.1 (he ▸ List.mem_map_of_mem hd)
      have hbeq : (Place.buffer d.1 == Place.buffer e.1) = false := by simp [hne]
      rw [hbeq]
      exact ih hnd.2 hd

theorem lookup_not_buffer {β γ : Type*} (ds : List (ℕ × β)) (g : ℕ × β → γ) {a : Place}
    (ha : ∀ k, a ≠ .buffer k) : (ds.map fun d => (Place.buffer d.1, g d)).lookup a = none := by
  rw [List.lookup_eq_none_iff]
  intro e he
  obtain ⟨d, -, rfl⟩ := List.mem_map.mp he
  simpa using ha d.1

theorem map_fst_eq {β γ : Type*} {ds : List (ℕ × β)} {es : List (ℕ × γ)}
    (hd : (ds.map Prod.fst).Pairwise (· < ·)) (he : (es.map Prod.fst).Pairwise (· < ·))
    (hmem : ∀ k, k ∈ es.map Prod.fst ↔ k ∈ ds.map Prod.fst) :
    es.map Prod.fst = ds.map Prod.fst := by
  have hperm : (es.map Prod.fst).Perm (ds.map Prod.fst) :=
    (List.perm_ext_iff_of_nodup (he.imp Nat.ne_of_lt) (hd.imp Nat.ne_of_lt)).mpr hmem
  exact hperm.eq_of_pairwise (fun a b _ _ hab hba => absurd hab (Nat.lt_asymm hba)) he hd

variable {ω α B : Type*} [DecidableEq α] {h : Heap ω α} {L : Labels ω} {fields : ℕ → Ty}
variable {T : List (Option ω)} {v : Val (Ptr ω α)} {x : List Cell} {t : Ty}
variable {ds : List (ℕ × ℕ × Ptr ω α)} {K : Ncpy ω α B} {remote : B → List UInt8}

/-- What a message with deferred objects was packed from. -/
structure Packed (fields : ℕ → Ty) (h : Heap ω α) (v : Val (Ptr ω α)) (L : Labels ω)
    (x : List Cell) (T : List (Option ω)) (ds : List (ℕ × ℕ × Ptr ω α)) : Prop where
  graph : (Setting.mk h true L (Reach h v) (some .message)).Graph fields
  lin : Lin h L (fun _ => True) v [] x T
  defers : Defers L T ds
  reach : ∀ d ∈ ds, Reach h v d.2.2

theorem Packed.contents (hp : Packed fields h v L x T ds) (hv : Valid fields h v t)
    (hs : Separate h v) (hK : K.Faithful remote h) {p : Ptr ω α} (hr : Reach h v p)
    (hd : L.defers p.owner = true) {d : ℕ × ℕ × Ptr ω α} (hmem : d ∈ ds)
    (hid : d.1 = L.ident p.owner) :
    h.lookup p.addr = some (.data (.bytes (remote (K.make d.2.2 d.2.1)).length)
      (.bytes (remote (K.make d.2.2 d.2.1)))) := by
  obtain ⟨-, hident, htag⟩ := hp.defers.owner d hmem
  have howner : d.2.2.owner = p.owner :=
    hp.graph.ident_inj _ _ (hp.reach d hmem) hr (hident.trans hid)
  have haddr := hs _ _ (hp.reach d hmem) hr howner
  obtain ⟨k, hk⟩ := hv.reach hr
  have hfit := hp.graph.fits k p hr hk
  cases k with
  | none => simp [Labels.Fits, hd] at hfit
  | some ty =>
    obtain ⟨hdt, hbytes, -⟩ := hfit
    rw [hd] at hdt
    obtain rfl := hbytes hdt.symm
    obtain ⟨w, hw⟩ := hk
    have hty := hp.graph.typed p _ hr hw
    cases hty with
    | @bytes b _ hlen =>
      have hcopy : remote (K.make d.2.2 d.2.1) = b := by
        apply hK
        rw [haddr, ← htag, howner]
        exact hw
      rw [hcopy, hlen]
      exact hw

/-- A message is unpacked to a copy if and only if the value is safe to unpack. -/
theorem Packed.toTyped_iff (hp : Packed fields h v L x T ds) (hv : Valid fields h v t)
    (hs : Separate h v) (hK : K.Faithful remote h) {msg : Message B} (hval : msg.value = x)
    (hbuf : msg.buffers = ds.map fun d => K.make d.2.2 d.2.1) {order : List ℕ}
    (ho : order.Perm (List.range msg.buffers.length)) (k : ℕ) {n : ℕ} (hn : x.length ≤ n) :
    (∃ v' h' f, toTyped fields n t k msg (received remote msg order) = .ok (v', h') ∧
      CopyOf h v h' v' f) ↔ AllSafe h true .member v := by
  have hout : Outcome (Setting.mk h true L (Reach h v) (some .message)) _ _ .member v T x [] _
      (unpack (unpackFields fields n) t .member
        { input := x, offset := k, source := some .message, deferrable := true }) :=
    (hp.lin.unpacks hp.graph (fun _ _ _ => .inl rfl) (Inv.start _ x k) (List.append_nil x).symm
      hn (fun p hp => .root hp) (fun o ho => ho.elim)).value t .member hv.hasTy
  unfold toTyped
  rw [received_eq remote msg ho, mapM_map_some, hval]
  rcases hout with ⟨u, he, hdone⟩ | ⟨e, he, hnot⟩
  · refine iff_of_true ?_ (hdone.allSafe hp.graph fun p hp => hp)
    have hids : u.deferred.map Prod.fst = ds.map Prod.fst :=
      map_fst_eq hp.defers.sorted hdone.inv.deferred_sorted fun k =>
        (hdone.inv.mem_deferred k).trans (hp.defers.mem_iff k).symm
    have hlen : u.deferred.length = (msg.buffers.map remote).length := by
      simpa [hbuf] using congrArg List.length hids
    set g : ℕ × ℕ × Ptr ω α → List UInt8 := fun d => remote (K.make d.2.2 d.2.1) with hg
    have hzip := map_zip_eq g (fun k b => (Place.buffer k,
      (Obj.data (.bytes b.length) (.bytes b) : Obj (Ptr Owner Place)))) hids
    have hvalues : msg.buffers.map remote = ds.map g := by
      rw [hbuf, List.map_map]
      rfl
    refine ⟨_, (ds.map fun d =>
      (Place.buffer d.1, Obj.data (.bytes (g d).length) (.bytes (g d)))) ++ u.heap, L.image u, ?_,
      hdone.copyOf hp.graph rfl hs
        (fun p hp => (hv.reach hp).choose_spec.isSome) ?_ ?_⟩
    · simp only [he, ok_bind, hlen, if_true, hvalues]
      rw [hzip]
    · -- buffers lie outside of what was unpacked
      intro a y hy
      have hne : ∀ k, a ≠ .buffer k := by
        rintro k rfl
        exact hdone.inv.heap _ _ hy
      rw [List.lookup_append, lookup_not_buffer ds _ hne]
      exact hy
    · intro p y hr hd hy
      obtain ⟨d, hmem, hid⟩ : ∃ d ∈ ds, d.1 = L.ident p.owner := by
        have hW := (hdone.reach hp.graph (fun p hp => hp) hr).1
        exact List.mem_map.mp ((hp.defers.mem_iff _).mpr ⟨_, hW, hd, rfl⟩)
      have hcon := hp.contents hv hs hK hr hd hmem hid
      cases hy.symm.trans hcon
      have himg : (L.image u p).addr = .buffer d.1 := by
        rw [hid]
        exact congrArg Ptr.addr (if_pos hd)
      rw [himg, List.lookup_append,
        lookup_buffer _ (hp.defers.sorted.imp Nat.ne_of_lt) hmem]
      rfl
  · refine iff_of_false ?_ (hnot fun p q hp hq => hs p q hp hq)
    rintro ⟨v', h', f, hok, -⟩
    simp only [he, error_bind] at hok
    cases hok

end Receiver

section Packing

variable {ω α : Type*} [DecidableEq ω] [DecidableEq α] {h : Heap ω α} {fields : ℕ → Ty}
variable {v : Val (Ptr ω α)} {t : Ty} {st : Storage ω α} {o : Obj (Ptr ω α)} {src : ω} {d : Bool}
variable {p : Ptr ω α} {s : Packer ω α} {L : Labels ω} {x : List Cell} {T : List (Option ω)}

def Large (h : Heap ω α) (p : Ptr ω α) : Prop :=
  ∃ n, Pointee h (some (.bytes n)) p ∧ kZeroCopySize ≤ n

omit [DecidableEq ω] in
theorem Packed.ne_nil {ds : List (ℕ × ℕ × Ptr ω α)} (hp : Packed fields h v L x T ds)
    (hs : Separate h v) (hr : Reach h v p) (hlarge : Large h p) : ds ≠ [] := by
  obtain ⟨n, hn, hle⟩ := hlarge
  have hd : L.defers p.owner = true := by
    rw [(hp.graph.fits _ p hr hn).1]
    simpa [Ty.defers] using hle
  have hmem := (hp.defers.mem_iff _).mpr ⟨_, hp.lin.complete hp.graph hs hr, hd, rfl⟩
  rintro rfl
  cases hmem

omit [DecidableEq ω] in
theorem ident_inj_of_numbered (hT : ∀ i o, T[i]? = some o → L.ident o = i + 1) :
    ∀ o ∈ T, ∀ q ∈ T, L.ident o = L.ident q → o = q := by
  intro o ho q hq he
  obtain ⟨i, hi, rfl⟩ := List.getElem_of_mem ho
  obtain ⟨j, hj, rfl⟩ := List.getElem_of_mem hq
  have hident : i + 1 = j + 1 := by
    rw [← hT i _ (List.getElem?_eq_getElem hi), ← hT j _ (List.getElem?_eq_getElem hj), he]
  cases hident
  rfl

/-- A sizer that may defer goes over one value, and a packer with its records over another. -/
structure TwoPasses (fields : ℕ → Ty) (h : Heap ω α) (n : ℕ) (w v : Val (Ptr ω α)) (L : Labels ω)
    (x : List Cell) (T : List (Option ω)) (s u : Packer ω α) : Prop where
  sized : pup h (pupObject h n) w { self := 0, deferrable := true } = .ok s
  packed : pup h (pupObject h n) v (Packer.acquire { self := 1, deferrable := true } s) = .ok u
  size_eq : size s.written = size u.written
  written : u.written = x
  result : Packed fields h v L x T s.deferred

theorem Valid.exists_twoPasses (hv : Valid fields h v t) (hs : Separate h v) :
    ∃ L x T N, ∀ n ≥ N, ∃ s u, TwoPasses fields h n v v L x T s u := by
  obtain ⟨L, x, T, hS, hl, hT⟩ := hv.exists_lin (d := true) hs.mergeable (fun _ => hs)
    (some .message)
  obtain ⟨hfit, hstep⟩ := hv.suits hS
  have hslots : ∀ q ∈ v.slots, Reach h v q.2 ∧ Pointee h q.1 q.2 := fun q hq =>
    ⟨.root (List.mem_map_of_mem hq), Typed.pointee ⟨t, .inl hv.hasTy⟩ q hq⟩
  obtain ⟨N, hN⟩ := ((tracks_sizer hT).deferred (ident_inj_of_numbered hT)).pup_of_lin hfit hstep
    hl List.prefix_rfl hslots
  obtain ⟨M, hM⟩ := tracks_packer.pup_of_lin hfit hstep hl List.prefix_rfl hslots
  refine ⟨L, x, T, max N M, fun n hn => ?_⟩
  obtain ⟨s, hs₁, hi, hw⟩ := hN n (le_trans (le_max_left _ _) hn) { self := 0, deferrable := true }
    ⟨Sizes.start L true, defers_nil L⟩
  obtain ⟨u, hu, -, hw'⟩ := hM n (le_trans (le_max_right _ _) hn) _ hi.1.acquire
  have hreach : DefersOnly (Reach h v) s :=
    .pup (defersOnly_pupObject (fun _ _ hq he => hq.step he) n) (fun q hq => .root hq) hs₁
      fun d hd => absurd hd List.not_mem_nil
  refine ⟨s, u, hs₁, hu, ?_, hw', hS, hl, hi.2, hreach⟩
  rw [hw, hw']
  rfl

theorem pup_pointer_new (hl : h.lookup p.addr = some o) (hn : s.records.lookup p.owner = none)
    (hd : o.defers s.deferrable = false) (n : ℕ) :
    pup h (pupObject h n) (o.pointer p) s = pupObject h n p.addr
      (Packer.copy { s with records := s.records ++
          [(p.owner, ⟨.instance, s.records.length + 1, o.tag s.deferrable, s.self⟩)] }
        [.byte 4, .word (s.records.length + 1), .word (o.tag s.deferrable)]) := by
  cases o with
  | data ty w =>
    have htag : (Obj.data ty w : Obj (Ptr ω α)).tag s.deferrable = 0 := by
      cases ty with
      | bytes m => exact if_neg (Bool.eq_false_iff.mp hd)
      | _ => rfl
    have hnot : ¬ ∃ m, ty = .bytes m ∧ s.deferrable = true ∧ kZeroCopySize ≤ m := by
      rintro ⟨m, rfl, hdef, hm⟩
      simp [Obj.defers, Ty.defers, hdef, hm] at hd
    rw [htag]
    simp only [Obj.pointer, pup, getRecord_none hn, if_true]
    cases ty with
    | bytes m =>
      have hneg : ¬ (s.deferrable = true ∧ kZeroCopySize ≤ m) := fun h => hnot ⟨m, rfl, h⟩
      simp only [packInstance, if_neg hneg]
      rfl
    | _ => rfl
  | poly c w =>
    have hid : identify h p.addr = some c := by simp [identify, hl]
    simp only [Obj.pointer, pup, hid, getRecord_none hn, if_true]
    rfl

/-- A typed value that leads to a large object. The source of a value in place is new. -/
structure Sendable (fields : ℕ → Ty) (h : Heap ω α) (src : ω) (st : Storage ω α)
    (o : Obj (Ptr ω α)) : Prop where
  lookup : h.lookup st.get = some o
  valid : Valid fields h (o.wrapped (st.pointer none)) o.wrappedTy
  fresh : ∀ a, st = .inline a → ∀ q, Relation.TransGen (Edge h) (st.pointer none) q →
    q.owner ≠ some src
  large : ∃ p, Reach h (o.wrapped (st.pointer none)) p ∧ Large h p

/-- Pointers with one owner point to one object. A value in place is packed behind a pointer without
an owner, so the pointers behind it have one. -/
structure Separated (h : Heap ω α) (st : Storage ω α) (o : Obj (Ptr ω α)) : Prop where
  separate : Separate h (o.wrapped (st.pointer none))
  owned : o.isSharedPtr = false → ∀ a, st = .inline a → ∀ q,
    Relation.TransGen (Edge h) (st.pointer none) q → q.owner ≠ none

omit [DecidableEq ω] in
theorem Lin.shared_inv {R : Ptr ω α → Prop} {k : Option Ty} (hl : Lin h L R v [] x T)
    (hs : v.IsShared (some p) k) (hd : L.defers p.owner = false) (ho : h.lookup p.addr = some o) :
    ∃ y, x = .byte 4 :: .word (L.ident p.owner) :: .word (L.tag p.owner) :: y ∧
      Lin h L R o.value [p.owner] y T := by
  cases hl with
  | null _ hs' => cases hs <;> cases hs'
  | reference _ _ hm _ => exact absurd hm List.not_mem_nil
  | again _ hm _ => exact absurd hm List.not_mem_nil
  | defer hs' _ hd' => cases hs <;> cases hs' <;> simp [hd] at hd'
  | «instance» hs' _ _ hlook hl =>
    cases hs <;> cases hs' <;> (cases ho.symm.trans hlook; exact ⟨_, rfl, hl⟩)
  | _ => cases hs

omit [DecidableEq ω] [DecidableEq α] in
theorem Obj.isShared_pointer (o : Obj (Ptr ω α)) (p : Ptr ω α) :
    ∃ k, (o.pointer p).IsShared (some p) k := by
  cases o with
  | data ty w => exact ⟨_, .data ty⟩
  | poly c w => exact ⟨_, .poly⟩

omit [DecidableEq ω] in
theorem transGen_of_reach (ho : h.lookup p.addr = some o) {q : Ptr ω α} (hq : Reach h o.value q) :
    Relation.TransGen (Edge h) p q := by
  induction hq with
  | root hq => exact .single ⟨o, ho, hq⟩
  | step _ he ih => exact ih.tail he

theorem Obj.wrapped_eq {P : Type*} {o : Obj P} (ho : o.isSharedPtr = false) (p : P) :
    o.wrapped p = o.pointer p :=
  if_neg (by simp [ho])

section InPlace

variable {a : α} (hS : Sendable fields h src (.inline a) o) (hD : Separated h (.inline a) o)
  (ho : o.isSharedPtr = false)
include hS hD ho

omit [DecidableEq ω] in
theorem Sendable.owner_cases {q : Ptr ω α} (hq : Reach h (o.pointer ⟨none, a⟩) q) :
    q = ⟨none, a⟩ ∨ q.owner ≠ none ∧ q.owner ≠ some src := by
  rcases hq.pointer_cases with rfl | hq
  · exact .inl rfl
  · exact .inr ⟨hD.owned ho a rfl q hq, hS.fresh a rfl q hq⟩

omit hD ho in
omit [DecidableEq ω] in
theorem Sendable.not_source {q : Ptr ω α}
    (hq : Reach h (o.wrapped ((Storage.inline a).pointer none)) q) : q.owner ≠ some src := by
  cases ho : o.isSharedPtr with
  | true =>
    rw [Obj.wrapped, if_pos ho] at hq
    exact hS.fresh a rfl q (transGen_of_reach hS.lookup hq)
  | false =>
    rw [Obj.wrapped_eq ho] at hq
    rcases hq.pointer_cases with rfl | hq
    · simp [Storage.pointer]
    · exact hS.fresh a rfl q hq

omit hS hD ho in
/-- The labels of the two passes. The sizer knows the value in place by its source, and the
packer makes a record of its own for it, after those that it acquired. -/
noncomputable def inPlaceLabels (h : Heap ω α) (v : Val (Ptr ω α)) (o : Obj (Ptr ω α)) (src : ω)
    (T : List (Option ω)) : Labels ω where
  ident q := if q = none then T.length + 1 else if q = some src then 1
    else (T ++ none :: ownersIn h v).idxOf q + 1
  tag q := if q = some src then o.tag true else byOwner h v (Obj.tag true) 0 q
  defers := byOwner h v (Obj.defers true) false

omit hS hD ho in
theorem inPlaceLabels_inj {v : Val (Ptr ω α)} {q r : Option ω}
    (hq : q = none ∨ q ≠ none ∧ q ≠ some src ∧ q ∈ ownersIn h v)
    (hr : r = none ∨ r ≠ none ∧ r ≠ some src ∧ r ∈ ownersIn h v)
    (he : (inPlaceLabels h v o src T).ident q = (inPlaceLabels h v o src T).ident r) : q = r := by
  have hne {q : Option ω} (hq : q ≠ none) (hs : q ≠ some src) :
      (inPlaceLabels h v o src T).ident q = (T ++ none :: ownersIn h v).idxOf q + 1 := by
    simp only [inPlaceLabels, hq, hs, if_false]
  have hnone {q : Option ω} (hq : q ≠ none) :
      (T ++ none :: ownersIn h v).idxOf q ≠ T.length := by
    intro hidx
    rw [List.idxOf_append] at hidx
    split_ifs at hidx with hmem
    · have := List.idxOf_lt_length_of_mem hmem
      omega
    · rw [List.idxOf_cons_ne _ hq.symm] at hidx
      omega
  rcases hq with rfl | ⟨hq, hqs, hqm⟩ <;> rcases hr with rfl | ⟨hr, hrs, -⟩
  · rfl
  · rw [hne hr hrs] at he
    exact absurd (Nat.succ_injective he).symm (hnone hr)
  · rw [hne hq hqs] at he
    exact absurd (Nat.succ_injective he) (hnone hq)
  · rw [hne hq hqs, hne hr hrs] at he
    exact (List.idxOf_inj (by simp [hqm])).mp (Nat.succ_injective he)

variable {v : Val (Ptr ω α)} (hv : v = o.pointer ⟨none, a⟩)

omit hS hD ho in
structure InPlace (fields : ℕ → Ty) (h : Heap ω α) (v : Val (Ptr ω α)) (o : Obj (Ptr ω α))
    (src : ω) (L : Labels ω) (x : List Cell) (U : List (Option ω)) : Prop where
  graph : (Setting.mk h true L (Reach h v) (some .message)).Graph fields
  lin : Lin h L (fun _ => True) v []
    (.byte 4 :: .word (U.length + 2) :: .word (o.tag true) :: x) (none :: U)
  packed : Lin h L (fun _ => True) o.value [none] x (none :: U)
  sized : Lin h L (fun _ => True) o.value [some src] x (some src :: U)
  numbered : ∀ i q, (some src :: U)[i]? = some q → L.ident q = i + 1
  fresh : none ∉ U
  ident : L.ident none = U.length + 2
  tag : ∀ q, q = none ∨ q = some src → L.tag q = o.tag true
  defers : ∀ q, q = none ∨ q = some src → L.defers q = false

include hv

theorem Sendable.exists_inPlace (hd : o.defers true = false) :
    ∃ L x U, InPlace fields h v o src L x U := by
  have hvalid : Valid fields h v o.wrappedTy := by
    rw [hv, ← Obj.wrapped_eq ho]
    exact hS.valid
  have hsep : Separate h v := by
    rw [hv, ← Obj.wrapped_eq ho]
    exact hD.separate
  have hroot : Reach h v ⟨none, a⟩ := .root (by simp [hv])
  have hlook : h.lookup a = some o := hS.lookup
  have hcases : ∀ q, Reach h v q → q = ⟨none, a⟩ ∨ q.owner ≠ none ∧ q.owner ≠ some src :=
    fun q hq => hS.owner_cases hD ho (hv ▸ hq)
  have hsrc : ∀ q, Reach h v q → q.owner ≠ some src := by
    intro q hq
    rcases hcases q hq with rfl | hne
    · simp
    · exact hne.2
  obtain ⟨x, T, hl⟩ := Serialization.exists_lin (S := (ownersIn h v).toFinset)
    (fun p q hp he => hp.step he) hvalid.objects
    (fun p hp => List.mem_toFinset.mpr hp.owner_mem) (fun _ => trivial)
    (labelsOf h v true fun _ => 0) _ v [] (fun p hp => .root hp) ⟨_, .inl hvalid.hasTy⟩ le_rfl
  obtain ⟨y, hy, -⟩ : ∃ y, Lin h (inPlaceLabels h v o src T) (fun _ => True) v [] y T ∧
    size y = size x := hl.relabel (by rfl)
  set L := inPlaceLabels h v o src T with hL
  have hdef : L.defers none = false :=
    (byOwner_of_separate hvalid hsep hroot hlook).trans hd
  have htag : L.tag none = o.tag true := by
    rw [hL]
    simp only [inPlaceLabels, reduceCtorEq, if_false]
    exact byOwner_of_separate hvalid hsep hroot hlook
  obtain ⟨k, hk⟩ := o.isShared_pointer ⟨none, a⟩
  rw [← hv] at hk
  obtain ⟨z, rfl, hin⟩ := hy.shared_inv hk hdef hlook
  obtain ⟨U, rfl, hshift⟩ := hin.shift
  have hident : L.ident none = U.length + 2 := by simp [hL, inPlaceLabels]
  have hnodup : (none :: U).Nodup := hy.nodup List.nodup_nil
  have hU : ∀ q ∈ U, q ≠ none ∧ q ≠ some src := by
    intro q hq
    have hne : q ≠ none := fun h => (List.nodup_cons.mp hnodup).1 (h ▸ hq)
    refine ⟨hne, ?_⟩
    rcases hy.met (List.mem_cons_of_mem _ hq) with hmem | ⟨p, hp, rfl⟩
    · exact absurd hmem List.not_mem_nil
    · exact hsrc p hp
  refine ⟨L, z, U, ?_⟩
  constructor
  · exact {
      step := fun p q hp he => hp.step he
      typed := hvalid.objects
      fits := by
        intro k p hp hk
        have hfit : (labelsOf h v true L.ident).Fits h true k p :=
          hvalid.fits hsep.mergeable (fun _ => hsep) L.ident hp hk
        have htag : L.tag p.owner = (labelsOf h v true L.ident).tag p.owner :=
          if_neg (hsrc p hp)
        cases k with
        | none => exact ⟨hfit.1, by rw [htag]; exact hfit.2⟩
        | some ty => exact ⟨hfit.1, by rw [htag]; exact hfit.2⟩
      owner_eq := hvalid.owner_eq
      merge := hsep.mergeable
      acyclic := hvalid.acyclic
      ident_inj := by
        intro p q hp hq he
        have hmem {r : Ptr ω α} (hr : Reach h v r) : r.owner = none ∨
            r.owner ≠ none ∧ r.owner ≠ some src ∧ r.owner ∈ ownersIn h v := by
          rcases hcases r hr with rfl | hne
          · exact .inl rfl
          · exact .inr ⟨hne.1, hne.2, hr.owner_mem⟩
        exact inPlaceLabels_inj (hmem hp) (hmem hq) he }
  · rw [← hident, ← htag]
    exact hy
  · exact hin
  · apply hshift [some src]
    intro p hp
    have hbehind : Relation.TransGen (Edge h) ⟨none, a⟩ p := transGen_of_reach hlook hp
    simp [hD.owned ho a rfl p hbehind, hS.fresh a rfl p hbehind]
  · intro i q hi
    cases i with
    | zero =>
      cases hi
      simp [hL, inPlaceLabels]
    | succ i =>
      have hmem : q ∈ U := List.mem_of_getElem? hi
      have hidx := idxOf_of_getElem? (m := none :: ownersIn h v) hnodup
        (show (none :: U)[i + 1]? = some q from hi)
      rw [hL]
      simp only [inPlaceLabels, (hU q hmem).1, (hU q hmem).2, if_false]
      exact congrArg (· + 1) hidx
  · exact (List.nodup_cons.mp hnodup).1
  · exact hident
  · rintro q (rfl | rfl)
    · exact htag
    · exact if_pos rfl
  · rintro q (rfl | rfl)
    · exact hdef
    · apply dif_neg
      rintro ⟨p, hp, he⟩
      exact hsrc p hp he

theorem Sendable.exists_twoPasses (hd : o.defers true = false) : ∃ L x T N, ∀ n ≥ N, ∃ s u,
    TwoPasses fields h n (o.pointer ⟨some src, a⟩) v L x T s u := by
  have hvalid : Valid fields h v o.wrappedTy := by
    rw [hv, ← Obj.wrapped_eq ho]
    exact hS.valid
  have hroot : Reach h v ⟨none, a⟩ := .root (by simp [hv])
  have hlook : h.lookup a = some o := hS.lookup
  obtain ⟨L, x, U, hin⟩ := hS.exists_inPlace hD ho hv hd
  obtain ⟨hfit, hstep⟩ := hvalid.suits hin.graph
  have hvalue : ∀ q ∈ o.value.ptrs, Reach h v q := fun q hq => hroot.step ⟨o, hlook, hq⟩
  have hslots : ∀ q ∈ o.value.slots, Reach h v q.2 ∧ Pointee h q.1 q.2 := fun q hq =>
    ⟨hvalue _ (List.mem_map_of_mem hq), (hvalid.objects _ o hroot hlook).typed.pointee q hq⟩
  obtain ⟨N, hN⟩ := ((tracks_sizer hin.numbered).deferred
    (ident_inj_of_numbered hin.numbered)).pup_of_lin hfit hstep hin.sized List.prefix_rfl hslots
  obtain ⟨M, hM⟩ := tracks_packer.pup_of_lin hfit hstep hin.packed List.prefix_rfl hslots
  refine ⟨L, .byte 4 :: .word (U.length + 2) :: .word (o.tag true) :: x, none :: U, max N M + 1,
    fun n hn => ?_⟩
  obtain ⟨n, rfl⟩ := Nat.exists_eq_add_of_le' (Nat.le_of_add_left_le hn)
  have hn := Nat.le_of_succ_le_succ hn
  -- the sizer starts with the record of the source
  set s₀ : Packer ω α := Packer.copy { ({ self := 0, deferrable := true } : Packer ω α) with
      records := [] ++ [(some src, ⟨.instance, 1, o.tag true, 0⟩)] }
    [.byte 4, .word 1, .word (o.tag true)] with hs₀
  have hstart : Sizes L true s₀ [some src] := by
    apply (tracks_sizer hin.numbered).copy
    apply (Sizes.start L true).append List.not_mem_nil rfl
    · exact ⟨(hin.numbered 0 _ rfl).symm, (hin.tag _ (.inr rfl)).symm⟩
    · exact .inr ⟨.inl rfl, hin.defers _ (.inr rfl)⟩
  have hnil : Defers L [some src] ([] : List (ℕ × ℕ × Ptr ω α)) :=
    (defers_nil L).skip (hin.defers _ (.inr rfl))
  obtain ⟨s, hs, hi, hw⟩ := hN n (le_trans (le_max_left _ _) hn) s₀ ⟨hstart, hnil⟩
  have hsize : pup h (pupObject h (n + 1)) (o.pointer ⟨some src, a⟩)
      { self := 0, deferrable := true } = .ok s := by
    rw [pup_pointer_new hlook rfl hd, pupObject, hlook]
    exact hs
  -- the packer adds a record without an owner
  set t : Packer ω α := Packer.acquire { self := 1, deferrable := true } s with ht
  have hacq : Packs L true (some src :: U) t [] := hi.1.acquire
  have hkeys : t.records.map Prod.fst = some src :: U := hi.1.keys
  have hnone : t.records.lookup none = none :=
    lookup_eq_none_of_notMem hkeys (by simp [hin.fresh])
  have hlen : t.records.length + 1 = U.length + 2 := by
    rw [← List.length_map (f := Prod.fst), hkeys]
    rfl
  set t₁ : Packer ω α := Packer.copy { t with records := t.records ++
      [(none, ⟨.instance, t.records.length + 1, o.tag t.deferrable, t.self⟩)] }
    [.byte 4, .word (t.records.length + 1), .word (o.tag t.deferrable)] with ht₁
  have hpacks : Packs L true (none :: U) t₁ [none] := by
    apply tracks_packer.copy
    constructor
    · apply hacq.toMet.append hnone rfl
      · exact ⟨hlen.trans hin.ident.symm, (hin.tag _ (.inl rfl)).symm⟩
      · exact .inr ⟨.inl rfl, hin.defers _ (.inl rfl)⟩
    · intro q hq
      rcases List.mem_cons.mp hq with rfl | hq
      · simp [List.lookup_append]
      · rw [List.lookup_append, Option.isSome_or, hacq.known q (List.mem_cons_of_mem _ hq)]
        rfl
  obtain ⟨u, hu, -, hw'⟩ := hM n (le_trans (le_max_right _ _) hn) t₁ hpacks
  have hpack : pup h (pupObject h (n + 1)) v t = .ok u := by
    rw [hv, pup_pointer_new hlook hnone hd, pupObject, hlook]
    exact hu
  have hwritten : u.written =
      .byte 4 :: .word (U.length + 2) :: .word (o.tag true) :: x := by
    rw [hw', ht₁, copy_written, hlen]
    rfl
  refine ⟨s, u, hsize, hpack, ?_, hwritten, hin.graph, hin.lin, ?_, ?_⟩
  · rw [hw, hwritten]
    simp [hs₀, Cell.size]
  · refine ⟨hi.2.sorted, fun k => (hi.2.mem_iff k).trans ?_, hi.2.owner⟩
    simp [hin.defers _ (.inl rfl), hin.defers _ (.inr rfl)]
  · exact DefersOnly.pup (defersOnly_pupObject (fun _ _ hq he => hq.step he) n) hvalue hs
      fun d hd => absurd hd List.not_mem_nil

end InPlace

section Result

variable {B : Type*} {K : Ncpy ω α B} {remote : B → List UInt8}

theorem Sendable.exists_message (hK : K.Additive) (hS : Sendable fields h src st o)
    (hD : Separated h st o) (hdang : ¬ st.Dangles h) :
    ∃ L x T N, ∀ n ≥ N, ∃ (msg : Message B) (ds : _),
      packDeferrable K h n src st = .ok msg ∧ msg.zeroCopy = true ∧ msg.value = x ∧
      (msg.buffers = ds.map fun d => K.make d.2.2 d.2.1) ∧
      Packed fields h (o.wrapped (st.pointer none)) L x T ds := by
  obtain ⟨p, hp, hlarge⟩ := hS.large
  obtain ⟨v, hv⟩ : ∃ v, v = if o.isSharedPtr then o.value else o.pointer (st.pointer (some src)) :=
    ⟨_, rfl⟩
  obtain ⟨L, x, T, N, hN⟩ : ∃ L x T N, ∀ n ≥ N, ∃ s u,
      TwoPasses fields h n v (o.wrapped (st.pointer none)) L x T s u := by
    cases ho : o.isSharedPtr with
    | true =>
      have he : o.wrapped (st.pointer none) = v := by rw [hv]; simp [Obj.wrapped, ho]
      rw [← he]
      exact hS.valid.exists_twoPasses hD.separate
    | false =>
      cases st with
      | buffer data =>
        have he : o.wrapped ((Storage.buffer data).pointer none) = v := by
          rw [hv]
          simp [Obj.wrapped, ho, Storage.pointer]
        rw [← he]
        exact hS.valid.exists_twoPasses hD.separate
      | inline a =>
        have hd : o.defers true = false := by
          cases o with
          | poly c w => rfl
          | data ty w =>
            by_contra hd
            cases ty with
            | bytes m =>
              refine hdang ⟨a, m, w, rfl, hS.lookup, ?_⟩
              simpa [Obj.defers, Ty.defers] using hd
            | _ => simp [Obj.defers, Ty.defers] at hd
        rw [hv]
        rw [if_neg (by simp [ho])]
        exact hS.exists_twoPasses hD ho (Obj.wrapped_eq ho _) hd
  refine ⟨L, x, T, N, fun n hn => ?_⟩
  obtain ⟨s, u, hs⟩ := hN n hn
  have hne : s.deferred.isEmpty = false := by
    simpa using hs.result.ne_nil hD.separate hp hlarge
  have hsizer := pupBuffer_eq (some src) true hS.lookup (v := v)
    (by rw [hv]; cases o.isSharedPtr <;> rfl) hs.sized
  have hpacker := pupBuffer_eq none true hS.lookup (v := o.wrapped (st.pointer none))
    (by unfold Obj.wrapped; cases o.isSharedPtr <;> rfl) hs.packed
  have hget : st.getDeferred (some src) s = .ok s.deferred := by
    apply getDeferred_eq hs.result.reach
    rintro a rfl q hq
    exact hS.not_source hq
  obtain ⟨msg, hmsg, -, hz, hbuf, hval⟩ := packDeferrable_eq hK hsizer hget
    (by rw [hne]; exact hpacker) (by rw [hne]; exact hs.size_eq)
  exact ⟨msg, s.deferred, hmsg, by rw [hz, hne]; rfl, hval.trans hs.written, hbuf, hs.result⟩

/-- Every pointer comes out of a message with deferred objects, in whichever order these arrive,
if and only if no pointer to a large object is in an element of a container, nor a unique pointer
to a polymorph in raw storage, and the value is not a large object in place. -/
theorem Separated.safe_iff (hK : K.Additive) (hF : K.Faithful remote h)
    (hD : Separated h st o) (hS : Sendable fields h src st o) :
    Transfers K remote fields h src st o ↔
      AllSafe h true .member (o.wrapped (st.pointer none)) ∧ ¬ st.Dangles h := by
  constructor
  · rintro ⟨N, hN⟩
    have hdang : ¬ st.Dangles h := by
      intro hd
      obtain ⟨msg, hmsg, -⟩ := hN N le_rfl
      rw [packDeferrable_of_dangles K hd] at hmsg
      cases hmsg
    refine ⟨?_, hdang⟩
    obtain ⟨L, x, T, M, hM⟩ := hS.exists_message hK hD hdang
    obtain ⟨msg, ds, hmsg, -, hval, hbuf, hp⟩ :=
      hM (max N (max M x.length)) ((le_max_left _ _).trans (le_max_right _ _))
    obtain ⟨msg', hmsg', -, hall⟩ := hN (max N (max M x.length)) (le_max_left _ _)
    cases hmsg.symm.trans hmsg'
    exact (hp.toTyped_iff hS.valid hD.separate hF hval hbuf (.refl _) _
      ((le_max_right _ _).trans (le_max_right _ _))).mp (hall _ (.refl _))
  · rintro ⟨hsafe, hdang⟩
    obtain ⟨L, x, T, M, hM⟩ := hS.exists_message hK hD hdang
    refine ⟨max M x.length, fun n hn => ?_⟩
    obtain ⟨msg, ds, hmsg, hz, hval, hbuf, hp⟩ := hM n ((le_max_left _ _).trans hn)
    refine ⟨msg, hmsg, hz, fun order ho => ?_⟩
    exact (hp.toTyped_iff hS.valid hD.separate hF hval hbuf ho _
      ((le_max_right _ _).trans hn)).mpr hsafe

end Result

end Packing

/-- Buffers that are read at their addresses. -/
def addresses : Ncpy ℕ ℕ (Ptr ℕ ℕ) where
  make p _ := p
  pupSize _ := 8
  cells bs := .word bs.length :: bs.map fun p => .word p.addr

def contents (h : Heap ℕ ℕ) (p : Ptr ℕ ℕ) : List UInt8 :=
  match h.lookup p.addr with
  | some (.data (.bytes _) (.bytes b)) => b
  | _ => []

theorem addresses_additive : addresses.Additive := fun bs =>
  (congrArg (8 + ·) (size_map_word Ptr.addr bs)).trans (foldl_add_cost (fun _ => 8) bs 8 0).symm

theorem addresses_faithful (h : Heap ℕ ℕ) : addresses.Faithful (contents h) h := by
  intro p n b hb
  simp [addresses, contents, hb]

theorem zeros_hasTy (types : ℕ → Ty) (h : Heap ℕ ℕ) : zeros.HasTy types h :=
  .bytes List.length_replicate

end Hypercomm.Serialization
