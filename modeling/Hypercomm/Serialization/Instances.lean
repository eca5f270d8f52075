import Mathlib.Logic.Relation
import Hypercomm.Serialization.Unpacking

/-! # The instances of an unpacker

The invariant of an unpacker ties the owners met so far to its instances, and the objects
behind them to the originals. Between the record of an object and the end of its content
the object is open, and data has no instance until then.
-/

namespace Hypercomm.Serialization

variable {ω α : Type*} [DecidableEq α]

/-- No unique pointer to a polymorph is unpacked into raw storage, and no pointer to a
deferred object into a temporary. -/
def Val.Safe {P : Type*} (d : Bool) : Slot → Val P → Prop
  | slot, .pair a b | slot, .cons a b => a.Safe d slot ∧ b.Safe d slot
  | _, .list l => l.Safe d .element
  | _, .map l => l.Safe d .entry
  | _, .unique v => v.Safe d .allocated
  | slot, .poly _ v => slot.raw = false ∧ v.Safe d .member
  | slot, .shared t (some _) => slot.temporary = true → t.defers d = false
  | _, _ => True

theorem Val.safe_shared_member {P : Type*} {d : Bool} (t : Ty) (p : Option P) :
    (Val.shared t p).Safe d .member := by
  cases p with
  | none => trivial
  | some p =>
    intro ht
    cases ht

/-- The content of an object is unpacked into memory allocated for it, or into a polymorph
that was constructed. -/
def Obj.Safe {P : Type*} (d : Bool) : Obj P → Prop
  | .data _ v => v.Safe d .allocated
  | .poly _ v => v.Safe d .member

def AllSafe (h : Heap ω α) (d : Bool) (slot : Slot) (v : Val (Ptr ω α)) : Prop :=
  v.Safe d slot ∧ ∀ p o, Reach h v p → h.lookup p.addr = some o → o.Safe d

def IsBytes (h : Heap ω α) (p : Ptr ω α) : Prop :=
  ∃ n v, h.lookup p.addr = some (.data (.bytes n) v)

/-- What a message was packed from: a heap and the pointers in use, whether objects were
deferred, and the labels of the owners. The last field owns the message at the receiver. -/
structure Setting (ω α : Type*) where
  heap : Heap ω α
  deferrable : Bool
  labels : Labels ω
  mem : Ptr ω α → Prop
  source : Option Owner

/-- What is assumed of the pointers in use: their objects are well typed, a cycle has no
data on it, and pointers share an owner when they point to one object, or are labelled
alike and trivially copyable. -/
structure Setting.Graph (S : Setting ω α) (fields : ℕ → Ty) : Prop where
  step : ∀ p q, S.mem p → Edge S.heap p q → S.mem q
  typed : ∀ p o, S.mem p → S.heap.lookup p.addr = some o → o.HasTy fields S.heap
  fits : ∀ k p, S.mem p → Pointee S.heap k p → S.labels.Fits S.heap S.deferrable k p
  owner_eq : ∀ p q, S.mem p → S.mem q → p.addr = q.addr → p.owner = q.owner
  merge : ∀ p q, S.mem p → S.mem q → p.owner = q.owner →
    p.addr = q.addr ∨ IsBytes S.heap p ∧ IsBytes S.heap q
  acyclic : ∀ p q t, S.mem p → Pointee S.heap (some t) p →
    Relation.TransGen (Edge S.heap) p q → p.addr ≠ q.addr
  ident_inj : ∀ p q, S.mem p → S.mem q →
    S.labels.ident p.owner = S.labels.ident q.owner → p.owner = q.owner

def Setting.Clean (S : Setting ω α) : Prop :=
  ∀ p q, S.mem p → S.mem q → p.owner = q.owner → p.addr = q.addr

instance : Inhabited (Ptr Owner Place) := ⟨⟨none, .object 0⟩⟩

/-- The pointer that a pointer is unpacked to. -/
def Labels.image (L : Labels ω) (u : Unpacker) (p : Ptr ω α) : Ptr Owner Place :=
  if L.defers p.owner then ⟨some (.buffer (L.ident p.owner)), .buffer (L.ident p.owner)⟩
  else (u.instances.lookup (L.ident p.owner)).getD default

def Labels.Registered (L : Labels ω) (u : Unpacker) (o : Option ω) : Prop :=
  L.defers o = true ∨ (u.instances.lookup (L.ident o)).isSome

def Unpacker.Taken (u : Unpacker) : Place → Prop
  | .message o => o ≤ u.offset
  | .object n => n < u.allocated
  | .buffer _ => False

structure Extends (u u' : Unpacker) : Prop where
  instances : ∀ k p, u.instances.lookup k = some p → u'.instances.lookup k = some p
  heap : ∀ a, u.Taken a → u'.heap.lookup a = u.heap.lookup a
  offset : u.offset ≤ u'.offset
  allocated : u.allocated ≤ u'.allocated

section Extension

variable {L : Labels ω} {u u' u'' : Unpacker} {p : Ptr ω α} {v : Val (Ptr ω α)} {o : Option ω}

theorem Extends.taken (he : Extends u u') {a : Place} (ha : u.Taken a) : u'.Taken a := by
  cases a with
  | message o => exact le_trans ha he.offset
  | object n => exact lt_of_lt_of_le ha he.allocated
  | buffer id => exact ha

theorem Extends.refl : Extends u u := ⟨fun _ _ => id, fun _ _ => rfl, le_rfl, le_rfl⟩

theorem Extends.trans (he : Extends u u') (he' : Extends u' u'') : Extends u u'' where
  instances k p hp := he'.instances k p (he.instances k p hp)
  heap a ha := (he'.heap a (he.taken ha)).trans (he.heap a ha)
  offset := he.offset.trans he'.offset
  allocated := he.allocated.trans he'.allocated

theorem Extends.skip (he : Extends u u') (cs rest : List Cell) : Extends u (u'.skip cs rest) :=
  ⟨he.instances, he.heap, he.offset.trans (Nat.le_add_right _ _), he.allocated⟩

theorem Extends.enter (he : Extends u u') {a : Place} (ha : ¬ u.Taken a)
    (o : Obj (Ptr Owner Place)) : Extends u (u'.enter a o) where
  instances := he.instances
  heap b hb := by
    have hne : b ≠ a := fun h => ha (h ▸ hb)
    rw [← he.heap b hb]
    simp [Unpacker.enter, List.lookup_cons, beq_eq_false_iff_ne.mpr hne]
  offset := he.offset
  allocated := he.allocated

theorem Labels.Registered.mono (hr : L.Registered u o) (he : Extends u u') :
    L.Registered u' o := by
  refine hr.imp_right fun hs => ?_
  obtain ⟨a, ha⟩ := Option.isSome_iff_exists.mp hs
  simp [he.instances _ _ ha]

omit [DecidableEq α] in
theorem Labels.Registered.image_eq (hr : L.Registered u p.owner) (he : Extends u u') :
    L.image u' p = L.image u p := by
  unfold Labels.image
  rcases hr with hd | hs
  · simp [hd]
  · obtain ⟨a, ha⟩ := Option.isSome_iff_exists.mp hs
    rw [he.instances _ _ ha, ha]

omit [DecidableEq α] in
theorem Labels.Registered.lookup (hr : L.Registered u p.owner) (hd : L.defers p.owner = false) :
    u.instances.lookup (L.ident p.owner) = some (L.image u p) := by
  rcases hr with hd' | hs
  · simp [hd] at hd'
  · obtain ⟨a, ha⟩ := Option.isSome_iff_exists.mp hs
    simp [Labels.image, hd, ha]

omit [DecidableEq α] in
theorem image_of_lookup {a : Ptr Owner Place} (hd : L.defers p.owner = false)
    (ha : u.instances.lookup (L.ident p.owner) = some a) : L.image u p = a := by
  simp [Labels.image, hd, ha]

omit [DecidableEq α] in
@[simp] theorem image_enter (a : Place) (x : Obj (Ptr Owner Place)) :
    L.image (u.enter a x) p = L.image u p := rfl

omit [DecidableEq α] in
theorem image_congr {q : Ptr ω α} (hq : p.owner = q.owner) : L.image u p = L.image u q := by
  simp [Labels.image, hq]

def Held (L : Labels ω) (V : List (Option ω)) (u : Unpacker) (v : Val (Ptr ω α)) : Prop :=
  ∀ p ∈ v.ptrs, p.owner ∈ V ∧ L.Registered u p.owner

variable {V W : List (Option ω)}

omit [DecidableEq α] in
theorem Held.mono (hh : Held L V u v) (hVW : ∀ o ∈ V, o ∈ W) (he : Extends u u') :
    Held L W u' v :=
  fun p hp => ⟨hVW _ (hh p hp).1, (hh p hp).2.mono he⟩

omit [DecidableEq α] in
theorem Held.rename_eq (hh : Held L V u v) (he : Extends u u') :
    v.rename (L.image u') = v.rename (L.image u) :=
  Val.rename_congr fun p hp => (hh p hp).2.image_eq he

end Extension

section Invariant

variable (S : Setting ω α) (V W : List (Option ω)) (u u' : Unpacker)

/-- The object of an owner was unpacked, from one of the pointers with this owner. -/
def Restored (o : Option ω) : Prop :=
  S.labels.Registered u o ∧ ∃ q x, S.mem q ∧ q.owner = o ∧ S.heap.lookup q.addr = some x ∧
    u.heap.lookup (S.labels.image u q).addr = some (x.rename (S.labels.image u)) ∧
    Held S.labels V u x.value ∧ x.Safe S.deferrable

/-- An object lies in the message and is owned by it if it is trivially copyable, and lies
in memory of its own otherwise. -/
def Setting.Shape (p : Ptr ω α) (a : Ptr Owner Place) : Prop :=
  (IsBytes S.heap p ∧ ∃ n, a = ⟨S.source, .message n⟩) ∨
    (¬ IsBytes S.heap p ∧ ∃ n, a = ⟨some (.object n), .object n⟩)

/-- The unpacker after some owners were met. Some objects are still open, and some of these
have no instance yet. -/
structure Inv (opened unreg : Option ω → Prop) : Prop where
  deferrable : u.deferrable = S.deferrable
  source : u.source = S.source
  known : ∀ k a, u.instances.lookup k = some a →
    (∃ q, S.mem q ∧ q.owner ∈ V ∧ S.labels.ident q.owner = k) ∧ u.Taken a.addr
  shape : ∀ p a, S.mem p → u.instances.lookup (S.labels.ident p.owner) = some a → S.Shape p a
  inj : ∀ k k' a a', u.instances.lookup k = some a → u.instances.lookup k' = some a' →
    a.addr = a'.addr → k = k'
  heap : ∀ a o, u.heap.lookup a = some o → u.Taken a
  unreg_met : ∀ o, unreg o → o ∈ V
  pending : ∀ p, S.mem p → unreg p.owner → u.instances.lookup (S.labels.ident p.owner) = none
  registered : ∀ o ∈ V, ¬ unreg o → S.labels.Registered u o
  closed : ∀ o ∈ V, S.labels.defers o = false → ¬ opened o → Restored S V u o
  deferred_sorted : (u.deferred.map Prod.fst).Pairwise (· < ·)
  mem_deferred : ∀ k, k ∈ u.deferred.map Prod.fst ↔
    ∃ o ∈ V, S.labels.defers o = true ∧ S.labels.ident o = k

end Invariant

section Steps

variable {S : Setting ω α} {fields : ℕ → Ty} {V W : List (Option ω)} {u u' : Unpacker}
variable {opened unreg : Option ω → Prop} {o : Option ω} {p q : Ptr ω α} {a : Ptr Owner Place}
variable {x : Obj (Ptr ω α)}

theorem Restored.mono (hr : Restored S V u o) (he : Extends u u') (hVW : ∀ o ∈ V, o ∈ W)
    (hheap : ∀ b y, u.heap.lookup b = some y → u'.heap.lookup b = some y) :
    Restored S W u' o := by
  obtain ⟨hreg, q, x, hG, ho, hx, hl, hheld, hs⟩ := hr
  refine ⟨hreg.mono he, q, x, hG, ho, hx, ?_, hheld.mono hVW he, hs⟩
  rw [Labels.Registered.image_eq (ho ▸ hreg) he, hheap _ _ hl]
  exact congrArg some (Obj.rename_congr fun r hr => ((hheld r hr).2.image_eq he).symm)

theorem Inv.skip (hi : Inv S V u opened unreg) (cs rest : List Cell) :
    Inv S V (u.skip cs rest) opened unreg where
  deferrable := hi.deferrable
  source := hi.source
  known k a hk := ⟨(hi.known k a hk).1, Extends.refl.skip cs rest |>.taken (hi.known k a hk).2⟩
  shape := hi.shape
  inj := hi.inj
  heap a o ho := Extends.refl.skip cs rest |>.taken (hi.heap a o ho)
  unreg_met := hi.unreg_met
  pending := hi.pending
  registered := hi.registered
  closed := hi.closed
  deferred_sorted := hi.deferred_sorted
  mem_deferred := hi.mem_deferred

theorem Inv.meet (hS : S.Graph fields) (hi : Inv S V u opened unreg) (hV : p.owner ∉ V)
    (hd : S.labels.defers p.owner = false) :
    Inv S (V ++ [p.owner]) u (fun o => o = p.owner ∨ opened o)
      (fun o => o = p.owner ∨ unreg o) where
  deferrable := hi.deferrable
  source := hi.source
  known k a hk := by
    obtain ⟨⟨q, hq, hqV, he⟩, ht⟩ := hi.known k a hk
    exact ⟨⟨q, hq, List.mem_append_left _ hqV, he⟩, ht⟩
  shape := hi.shape
  inj := hi.inj
  heap := hi.heap
  unreg_met o := by
    rintro (rfl | ho)
    · simp
    · exact List.mem_append_left _ (hi.unreg_met o ho)
  pending q hq := by
    rintro (ho | ho)
    · apply Option.eq_none_iff_forall_ne_some.mpr
      intro a ha
      obtain ⟨⟨r, hr, hrV, he⟩, -⟩ := hi.known _ a ha
      exact hV (ho ▸ hS.ident_inj r q hr hq he ▸ hrV)
    · exact hi.pending q hq ho
  registered o ho hu := by
    simp only [not_or, List.mem_append, List.mem_singleton] at hu ho
    exact hi.registered o (ho.resolve_right hu.1) hu.2
  closed o ho hod hu := by
    simp only [not_or, List.mem_append, List.mem_singleton] at hu ho
    exact (hi.closed o (ho.resolve_right hu.1) hod hu.2).mono .refl
      (fun _ => List.mem_append_left _) fun _ _ => id
  deferred_sorted := hi.deferred_sorted
  mem_deferred k := by
    rw [hi.mem_deferred k]
    simp only [List.mem_append, List.mem_singleton]
    constructor
    · rintro ⟨o, ho, hod⟩
      exact ⟨o, .inl ho, hod⟩
    · rintro ⟨o, ho | rfl, hod, hk⟩
      · exact ⟨o, ho, hod, hk⟩
      · simp [hd] at hod

structure Puts (k : ℕ) (a : Ptr Owner Place) (u u' : Unpacker) : Prop where
  instances : u'.instances = (k, a) :: u.instances
  heap : u'.heap = u.heap
  offset : u.offset ≤ u'.offset
  allocated : u.allocated ≤ u'.allocated
  deferrable : u'.deferrable = u.deferrable
  source : u'.source = u.source
  deferred : u'.deferred = u.deferred

theorem Puts.lookup {k : ℕ} (hu : Puts k a u u') (j : ℕ) :
    u'.instances.lookup j = if j = k then some a else u.instances.lookup j := by
  rw [hu.instances, List.lookup_cons]
  by_cases hj : j = k
  · simp [hj]
  · simp [hj, beq_eq_false_iff_ne.mpr hj]

theorem Puts.extends {k : ℕ} (hu : Puts k a u u') (hk : u.instances.lookup k = none) :
    Extends u u' where
  instances j b hb := by
    rw [hu.lookup, if_neg]
    · exact hb
    · rintro rfl
      simp [hk] at hb
  heap b _ := by rw [hu.heap]
  offset := hu.offset
  allocated := hu.allocated

theorem Inv.register (hS : S.Graph fields)
    (hi : Inv S V u opened (fun o => o = p.owner ∨ unreg o)) (hp : S.mem p)
    (hu : Puts (S.labels.ident p.owner) a u u') (hn : ¬ unreg p.owner)
    (hfresh : ¬ u.Taken a.addr) (htaken : u'.Taken a.addr)
    (hshape : ∀ q, S.mem q → q.owner = p.owner → S.Shape q a) : Inv S V u' opened unreg := by
  have hV : p.owner ∈ V := hi.unreg_met _ (.inl rfl)
  have he : Extends u u' := hu.extends (hi.pending p hp (.inl rfl))
  exact {
    deferrable := hu.deferrable.trans hi.deferrable
    source := hu.source.trans hi.source
    known := by
      intro k b hb
      rw [hu.lookup] at hb
      split_ifs at hb with hk
      · cases hb
        exact ⟨⟨p, hp, hV, hk.symm⟩, htaken⟩
      · exact ⟨(hi.known k b hb).1, he.taken (hi.known k b hb).2⟩
    shape := by
      intro q b hq hb
      rw [hu.lookup] at hb
      split_ifs at hb with hk
      · cases hb
        exact hshape q hq (hS.ident_inj q p hq hp hk)
      · exact hi.shape q b hq hb
    inj := by
      intro k k' b b' hb hb' hbb
      rw [hu.lookup] at hb hb'
      split_ifs at hb hb' with hk hk' hk'
      · rw [hk, hk']
      · cases hb
        exact absurd (hi.known _ _ hb').2 (hbb ▸ hfresh)
      · cases hb'
        exact absurd (hi.known _ _ hb).2 (hbb ▸ hfresh)
      · exact hi.inj k k' b b' hb hb' hbb
    heap := by
      intro b o hb
      rw [hu.heap] at hb
      exact he.taken (hi.heap b o hb)
    unreg_met := fun o ho => hi.unreg_met o (.inr ho)
    pending := by
      intro q hq ho
      rw [hu.lookup, if_neg]
      · exact hi.pending q hq (.inr ho)
      · intro hk
        exact hn (hS.ident_inj q p hq hp hk ▸ ho)
    registered := by
      intro o ho hno
      by_cases hop : o = p.owner
      · right
        simp [hu.lookup, hop]
      · exact (hi.registered o ho (by simp [hop, hno])).mono he
    closed := by
      intro o ho hd hno
      refine (hi.closed o ho hd hno).mono he (fun _ => id) fun b y hy => ?_
      rw [hu.heap, hy]
    deferred_sorted := by rw [hu.deferred]; exact hi.deferred_sorted
    mem_deferred := by rw [hu.deferred]; exact hi.mem_deferred }

theorem lookup_enter (u : Unpacker) (b c : Place) (y : Obj (Ptr Owner Place)) :
    (u.enter b y).heap.lookup c = if c = b then some y else u.heap.lookup c := by
  simp only [Unpacker.enter, List.lookup_cons]
  by_cases hc : c = b
  · simp [hc]
  · simp [hc, beq_eq_false_iff_ne.mpr hc]

theorem Inv.owner_eq_of_image_eq (hS : S.Graph fields) (hi : Inv S V u opened unreg)
    (hp : S.mem p) (hq : S.mem q) (hpr : S.labels.Registered u p.owner)
    (hqr : S.labels.Registered u q.owner)
    (he : (S.labels.image u p).addr = (S.labels.image u q).addr) : p.owner = q.owner := by
  apply hS.ident_inj p q hp hq
  cases hpd : S.labels.defers p.owner <;> cases hqd : S.labels.defers q.owner
  · exact hi.inj _ _ _ _ (hpr.lookup hpd) (hqr.lookup hqd) he
  · have hs := hi.shape p _ hp (hpr.lookup hpd)
    rw [show (S.labels.image u q).addr = .buffer (S.labels.ident q.owner) by
      simp [Labels.image, hqd]] at he
    rcases hs with ⟨-, n, hn⟩ | ⟨-, n, hn⟩ <;> simp [hn] at he
  · have hs := hi.shape q _ hq (hqr.lookup hqd)
    rw [show (S.labels.image u p).addr = .buffer (S.labels.ident p.owner) by
      simp [Labels.image, hpd]] at he
    rcases hs with ⟨-, n, hn⟩ | ⟨-, n, hn⟩ <;> simp [hn] at he
  · simpa [Labels.image, hpd, hqd] using he

theorem Inv.close (hS : S.Graph fields)
    (hi : Inv S V u (fun o => o = p.owner ∨ opened o) unreg) (hp : S.mem p)
    (hx : S.heap.lookup p.addr = some x)
    (hr : S.labels.Registered u p.owner) (hd : S.labels.defers p.owner = false)
    (hheld : Held S.labels V u x.value) (hsafe : x.Safe S.deferrable) :
    Inv S V (u.enter (S.labels.image u p).addr (x.rename (S.labels.image u))) opened unreg where
  deferrable := hi.deferrable
  source := hi.source
  known := hi.known
  shape := hi.shape
  inj := hi.inj
  heap b o ho := by
    rw [lookup_enter] at ho
    split_ifs at ho with hb
    · subst hb
      exact (hi.known _ _ (hr.lookup hd)).2
    · exact hi.heap b o ho
  unreg_met := hi.unreg_met
  pending := hi.pending
  registered := hi.registered
  closed o ho hod hno := by
    by_cases hop : o = p.owner
    · subst hop
      refine ⟨hr, p, x, hp, rfl, hx, ?_, hheld, hsafe⟩
      rw [lookup_enter]
      exact if_pos rfl
    · obtain ⟨hreg, q, y, hq, hqo, hy, hl, hh, hs⟩ := hi.closed o ho hod (by simp [hop, hno])
      refine ⟨hreg, q, y, hq, hqo, hy, ?_, hh, hs⟩
      rw [lookup_enter, if_neg]
      · exact hl
      · intro he
        exact hop (hqo ▸ hi.owner_eq_of_image_eq hS hq hp (hqo ▸ hreg) hr he)
  deferred_sorted := hi.deferred_sorted
  mem_deferred := hi.mem_deferred

theorem Inv.putDeferred (hi : Inv S V u opened unreg) (hd : S.labels.defers o = true)
    (hVW : ∀ q, q ∈ W ↔ q ∈ V ∨ q = o) (ty : ℕ) : Inv S W
      { u with deferred := upsert (S.labels.ident o) (fun _ => ty) u.deferred } opened unreg where
  deferrable := hi.deferrable
  source := hi.source
  known k a hk := by
    obtain ⟨⟨q, hq, hqV, he⟩, ht⟩ := hi.known k a hk
    exact ⟨⟨q, hq, (hVW _).mpr (.inl hqV), he⟩, ht⟩
  shape := hi.shape
  inj := hi.inj
  heap := hi.heap
  unreg_met q hq := (hVW q).mpr (.inl (hi.unreg_met q hq))
  pending := hi.pending
  registered q hq hu := by
    rcases (hVW q).mp hq with hq | rfl
    · exact hi.registered q hq hu
    · exact .inl hd
  closed q hq hqd hu := by
    rcases (hVW q).mp hq with hq | rfl
    · exact (hi.closed q hq hqd hu).mono ⟨fun _ _ => id, fun _ _ => rfl, le_rfl, le_rfl⟩
        (fun q hq => (hVW q).mpr (.inl hq)) fun _ _ => id
    · simp [hqd] at hd
  deferred_sorted := pairwise_upsert hi.deferred_sorted
  mem_deferred k := by
    rw [mem_upsert, hi.mem_deferred k]
    constructor
    · rintro (rfl | ⟨q, hq, hqd, hk⟩)
      · exact ⟨o, (hVW o).mpr (.inr rfl), hd, rfl⟩
      · exact ⟨q, (hVW q).mpr (.inl hq), hqd, hk⟩
    · rintro ⟨q, hq, hqd, hk⟩
      rcases (hVW q).mp hq with hq | rfl
      · exact .inr ⟨q, hq, hqd, hk⟩
      · exact .inl hk.symm

end Steps

end Hypercomm.Serialization
