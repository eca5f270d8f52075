import Mathlib.Data.Finset.Union
import Hypercomm.Serialization.Restore

/-! # The round trip

A value that is unpacked from the message it was packed into is a copy of the original
with the same sharing, unless a unique pointer to a polymorph is unpacked into storage
that holds no pointer yet.
-/

namespace Hypercomm.Serialization

variable {ω α : Type*} [DecidableEq α]

/-- A value of a type with well-typed objects behind it. Pointers to one object have one
owner, and only shared pointers to polymorphs make a cycle. -/
structure Valid (fields : ℕ → Ty) (h : Heap ω α) (v : Val (Ptr ω α)) (t : Ty) : Prop where
  hasTy : HasTy fields h v t
  objects : ∀ p o, Reach h v p → h.lookup p.addr = some o → o.HasTy fields h
  owner_eq : ∀ p q, Reach h v p → Reach h v q → p.addr = q.addr → p.owner = q.owner
  acyclic : ∀ p q s, Reach h v p → Pointee h (some s) p → Relation.TransGen (Edge h) p q →
    p.addr ≠ q.addr

/-- Pointers with one owner point to one object. -/
def Separate (h : Heap ω α) (v : Val (Ptr ω α)) : Prop :=
  ∀ p q, Reach h v p → Reach h v q → p.owner = q.owner → p.addr = q.addr

/-- Pointers with one owner point to one object, or to trivially copyable ones. -/
def Mergeable (h : Heap ω α) (v : Val (Ptr ω α)) : Prop :=
  ∀ p q, Reach h v p → Reach h v q → p.owner = q.owner →
    p.addr = q.addr ∨ IsBytes h p ∧ IsBytes h q

variable {fields : ℕ → Ty} {h : Heap ω α} {v : Val (Ptr ω α)} {t : Ty} {d : Bool}

theorem Separate.mergeable (hs : Separate h v) : Mergeable h v :=
  fun p q hp hq ho => .inl (hs p q hp hq ho)

section Labelling

def Obj.tag {P : Type*} (d : Bool) : Obj P → ℕ
  | .data (.bytes n) _ => if (Ty.bytes n).defers d then n else 0
  | .data _ _ => 0
  | .poly c _ => c

def Obj.defers {P : Type*} (d : Bool) : Obj P → Bool
  | .data t _ => t.defers d
  | .poly _ _ => false

open Classical in
noncomputable def byOwner {β : Type*} (h : Heap ω α) (v : Val (Ptr ω α))
    (f : Obj (Ptr ω α) → β) (b : β) (o : Option ω) : β :=
  if hp : ∃ p, Reach h v p ∧ p.owner = o then ((h.lookup hp.choose.addr).map f).getD b else b

theorem byOwner_eq {β : Type*} {f : Obj (Ptr ω α) → β} {b : β} {p : Ptr ω α}
    {x : Obj (Ptr ω α)}
    (hf : ∀ q y, Reach h v q → q.owner = p.owner → h.lookup q.addr = some y → f y = f x)
    (hobj : ∀ q, Reach h v q → (h.lookup q.addr).isSome)
    (hp : Reach h v p) : byOwner h v f b p.owner = f x := by
  have hex : ∃ q, Reach h v q ∧ q.owner = p.owner := ⟨p, hp, rfl⟩
  rw [byOwner, dif_pos hex]
  obtain ⟨hq, ho⟩ := hex.choose_spec
  obtain ⟨y, hy⟩ := Option.isSome_iff_exists.mp (hobj _ hq)
  rw [hy]
  exact hf _ y hq ho hy

noncomputable def labelsOf (h : Heap ω α) (v : Val (Ptr ω α)) (d : Bool)
    (ident : Option ω → ℕ) : Labels ω where
  ident := ident
  tag := byOwner h v (Obj.tag d) 0
  defers := byOwner h v (Obj.defers d) false

theorem Valid.reach (hv : Valid fields h v t) {p : Ptr ω α} (hp : Reach h v p) :
    ∃ k, Pointee h k p := by
  have sub {w : Val (Ptr ω α)} (hw : Typed fields h w) (hp : p ∈ w.ptrs) :
      ∃ k, Pointee h k p := by
    obtain ⟨s, hs, rfl⟩ := List.mem_map.mp hp
    exact ⟨s.1, hw.pointee s hs⟩
  cases hp with
  | root hp => exact sub ⟨t, .inl hv.hasTy⟩ hp
  | step hq he =>
    obtain ⟨o, ho, hp⟩ := he
    exact sub (hv.objects _ o hq ho).typed hp

theorem Pointee.isSome {k : Option Ty} {p : Ptr ω α} (hk : Pointee h k p) :
    (h.lookup p.addr).isSome := by
  cases k with
  | none =>
    obtain ⟨c, w, hc⟩ := hk
    simp [hc]
  | some s =>
    obtain ⟨w, hw⟩ := hk
    simp [hw]

theorem byOwner_of_separate {β : Type*} {f : Obj (Ptr ω α) → β} {b : β}
    (hv : Valid fields h v t) (hs : Separate h v) {p : Ptr ω α} (hp : Reach h v p)
    {o : Obj (Ptr ω α)} (ho : h.lookup p.addr = some o) : byOwner h v f b p.owner = f o := by
  refine byOwner_eq (fun q y hq hqp hy => ?_) (fun q hq => (hv.reach hq).choose_spec.isSome) hp
  rw [hs q p hq hp hqp, ho] at hy
  cases hy
  rfl

theorem fits_labelsOf (hobj : ∀ q, Reach h v q → (h.lookup q.addr).isSome) (hm : Mergeable h v)
    (hd : d = true → Separate h v) (ident : Option ω → ℕ) {k : Option Ty} {p : Ptr ω α}
    (hp : Reach h v p) (hk : Pointee h k p) : (labelsOf h v d ident).Fits h d k p := by
  obtain ⟨x, hx⟩ := Option.isSome_iff_exists.mp hk.isSome
  have same : ∀ q y, Reach h v q → q.owner = p.owner → h.lookup q.addr = some y →
      y.tag d = x.tag d ∧ y.defers d = x.defers d := by
    intro q y hq ho hy
    have one (ha : q.addr = p.addr) : y.tag d = x.tag d ∧ y.defers d = x.defers d := by
      rw [ha, hx] at hy
      cases hy
      exact ⟨rfl, rfl⟩
    rcases hm q p hq hp ho with ha | ⟨⟨n, w, hn⟩, n', w', hn'⟩
    · exact one ha
    · cases d with
      | true => exact one (hd rfl q p hq hp ho)
      | false =>
        cases hy.symm.trans hn
        cases hx.symm.trans hn'
        exact ⟨rfl, rfl⟩
  have htag : (labelsOf h v d ident).tag p.owner = x.tag d :=
    byOwner_eq (fun q y hq ho hy => (same q y hq ho hy).1) hobj hp
  have hdef : (labelsOf h v d ident).defers p.owner = x.defers d :=
    byOwner_eq (fun q y hq ho hy => (same q y hq ho hy).2) hobj hp
  cases k with
  | none =>
    obtain ⟨c, w, hc⟩ := hk
    cases hx.symm.trans hc
    refine ⟨hdef, ?_⟩
    rw [htag, identify, hc]
    rfl
  | some s =>
    obtain ⟨w, hw⟩ := hk
    cases hx.symm.trans hw
    refine ⟨hdef, fun hs => ?_, fun hs => ?_⟩
    · rw [htag]
      cases s with
      | bytes n => simp [Obj.tag, hs]
      | _ => simp [Ty.defers] at hs
    · rw [htag]
      cases s with
      | bytes n => simp [Obj.tag, hs]
      | _ => rfl

theorem Valid.fits (hv : Valid fields h v t) (hm : Mergeable h v)
    (hd : d = true → Separate h v) (ident : Option ω → ℕ) {k : Option Ty} {p : Ptr ω α}
    (hp : Reach h v p) (hk : Pointee h k p) : (labelsOf h v d ident).Fits h d k p :=
  fits_labelsOf (fun _ hq => (hv.reach hq).choose_spec.isSome) hm hd ident hp hk

theorem Valid.suits (hv : Valid fields h v t) {source : Option Owner}
    (hS : (Setting.mk h d L (Reach h v) source).Graph fields) :
    (∀ s : Option Ty × Ptr ω α, Reach h v s.2 ∧ Pointee h s.1 s.2 → L.Fits h d s.1 s.2) ∧
      ∀ (s : Option Ty × Ptr ω α) o, Reach h v s.2 ∧ Pointee h s.1 s.2 →
        h.lookup s.2.addr = some o → ∀ q ∈ o.value.slots, Reach h v q.2 ∧ Pointee h q.1 q.2 := by
  constructor
  · exact fun s hs => hS.fits s.1 s.2 hs.1 hs.2
  · intro s o hs ho q hq
    have hr : Reach h v q.2 := hs.1.step ⟨o, ho, List.mem_map_of_mem hq⟩
    exact ⟨hr, (hv.objects _ o hs.1 ho).typed.pointee q hq⟩

variable [DecidableEq ω]

/-- The owners that a value can lead to. -/
def ownersIn (h : Heap ω α) (v : Val (Ptr ω α)) : List (Option ω) :=
  (v.ptrs ++ h.flatMap fun e => e.2.value.ptrs).map Ptr.owner

omit [DecidableEq ω] in
theorem Reach.owner_mem {p : Ptr ω α} (hp : Reach h v p) : p.owner ∈ ownersIn h v := by
  refine List.mem_map_of_mem (List.mem_append.mpr ?_)
  cases hp with
  | root hp => exact .inl hp
  | step hq he =>
    obtain ⟨o, ho, hp⟩ := he
    obtain ⟨l₁, l₂, hl, -⟩ := List.lookup_eq_some_iff.mp ho
    exact .inr (List.mem_flatMap.mpr ⟨_, hl ▸ List.mem_append_right _ List.mem_cons_self, hp⟩)

omit [DecidableEq ω] in
theorem Lin.nodup {L : Labels ω} {R : Ptr ω α → Prop} {V W : List (Option ω)} {x : List Cell}
    (hl : Lin h L R v V x W) (hV : V.Nodup) : W.Nodup := by
  induction hl with
  | pair _ _ iha ihb | cons _ _ iha ihb => exact ihb (iha hV)
  | list _ ih | map _ ih | unique _ ih | poly _ ih => exact ih hV
  | defer _ hm => exact hV.append (List.nodup_singleton _) (by simpa using hm)
  | «instance» _ hm _ _ _ ih => exact ih (hV.append (List.nodup_singleton _) (by simpa using hm))
  | _ => exact hV

theorem idxOf_of_getElem? {l m : List (Option ω)} (hl : l.Nodup) {i : ℕ} {o : Option ω}
    (hi : l[i]? = some o) : (l ++ m).idxOf o = i := by
  obtain ⟨hlt, rfl⟩ := List.getElem?_eq_some_iff.mp hi
  rw [List.idxOf_append, if_pos (List.getElem_mem hlt)]
  exact List.get_idxOf hl ⟨i, hlt⟩

/-- The labels of a linear form are those that the serdes assigns, once owners are numbered in the
order in which they are met. -/
theorem Valid.number (hv : Valid fields h v t) (hm : Mergeable h v) (hd : d = true → Separate h v)
    (source : Option Owner) {x : List Cell} {T : List (Option ω)}
    (hl : Lin h (labelsOf h v d fun _ => 0) (fun _ => True) v [] x T) : ∃ L y,
      (Setting.mk h d L (Reach h v) source).Graph fields ∧
      Lin h L (fun _ => True) v [] y T ∧ ∀ i o, T[i]? = some o → L.ident o = i + 1 := by
  set ident : Option ω → ℕ := fun o => (T ++ ownersIn h v).idxOf o + 1 with hident
  obtain ⟨y, hy, -⟩ : ∃ y, Lin h (labelsOf h v d ident) (fun _ => True) v [] y T ∧
    size y = size x := hl.relabel (by rfl)
  refine ⟨labelsOf h v d ident, y, ?_, hy, fun i o hi => ?_⟩
  · exact {
      step := fun p q hp he => hp.step he
      typed := hv.objects
      fits := fun k p hp hk => hv.fits hm hd ident hp hk
      owner_eq := hv.owner_eq
      merge := hm
      acyclic := hv.acyclic
      ident_inj := by
        intro p q hp hq he
        have hmem := List.mem_append_right T hp.owner_mem
        have he : (T ++ ownersIn h v).idxOf p.owner = (T ++ ownersIn h v).idxOf q.owner :=
          Nat.succ_injective he
        exact (List.idxOf_inj hmem).mp he }
  · exact congrArg (· + 1) (idxOf_of_getElem? (hy.nodup List.nodup_nil) hi)

theorem Valid.exists_visits (hv : Valid fields h v t) (d : Bool) :
    ∃ x T, Lin h (labelsOf h v d fun _ => 0) (fun _ => True) v [] x T :=
  Serialization.exists_lin (S := (ownersIn h v).toFinset)
    (fun _ _ hp he => hp.step he) hv.objects (fun _ hp => List.mem_toFinset.mpr hp.owner_mem)
    (fun _ => trivial) (labelsOf h v d fun _ => 0) _ v [] (fun _ hp => .root hp)
    ⟨t, .inl hv.hasTy⟩ le_rfl

theorem Valid.exists_lin (hv : Valid fields h v t) (hm : Mergeable h v)
    (hd : d = true → Separate h v) (source : Option Owner) : ∃ L x T,
      (Setting.mk h d L (Reach h v) source).Graph fields ∧
      Lin h L (fun _ => True) v [] x T ∧ ∀ i o, T[i]? = some o → L.ident o = i + 1 := by
  obtain ⟨x, T, hl⟩ := hv.exists_visits d
  obtain ⟨L, y, hL⟩ := hv.number hm hd source hl
  exact ⟨L, y, T, hL⟩

end Labelling

section Result

variable {S : Setting ω α} {V W : List (Option ω)} {u u' : Unpacker} {x rest : List Cell}
variable {slot : Slot} {p q : Ptr ω α}

theorem Inv.start (S : Setting ω α) (x : List Cell) (k : ℕ) :
    Inv S [] { input := x, offset := k, source := S.source, deferrable := S.deferrable }
      (fun _ => False) (fun _ => False) where
  deferrable := rfl
  source := rfl
  known k a hk := by simp at hk
  shape p a _ ha := by simp at ha
  inj k k' a a' hk := by simp at hk
  heap a o ho := by simp at ho
  unreg_met o ho := ho.elim
  pending p _ hp := hp.elim
  registered o ho := by simp at ho
  closed o ho := by simp at ho
  deferred_sorted := List.Pairwise.nil
  mem_deferred k := by simp

theorem ptrs_of_isBytes (hS : S.Graph fields) (hp : S.mem p) (hb : IsBytes S.heap p)
    {o : Obj (Ptr ω α)} (ho : S.heap.lookup p.addr = some o) : o.value.ptrs = [] := by
  obtain ⟨n, w, hw⟩ := hb
  cases hw.symm.trans ho
  cases hS.typed p _ hp hw
  rfl

/-- All that a value leads to is met, if only objects without pointers are deferred. -/
theorem Lin.met_of_reach {L : Labels ω} {R : Ptr ω α → Prop} (hs : Separate h v)
    (hdefer : ∀ p o, Reach h v p → L.defers p.owner = true → h.lookup p.addr = some o →
      o.value.ptrs = [])
    (hl : Lin h L R v [] x W) {p : Ptr ω α} (hp : Reach h v p) : p.owner ∈ W := by
  induction hp with
  | root hp => exact hl.followed.1 _ hp
  | @step p q hp he ih =>
    obtain ⟨o, ho, hq⟩ := he
    cases hd : L.defers p.owner with
    | false =>
      obtain ⟨r, y, hr, hreach, hy, hptrs⟩ := hl.followed.2 _ ih List.not_mem_nil hd
      rw [hs r p hreach hp hr, ho] at hy
      cases hy
      exact hptrs q hq
    | true =>
      rw [hdefer p o hp hd ho] at hq
      cases hq

theorem Lin.complete {L : Labels ω} {R : Ptr ω α → Prop} {source : Option Owner}
    (hS : (Setting.mk h d L (Reach h v) source).Graph fields) (hs : Separate h v)
    (hl : Lin h L R v [] x W) {p : Ptr ω α} (hp : Reach h v p) : p.owner ∈ W := by
  refine hl.met_of_reach hs (fun p o hp hd ho => ?_) hp
  cases o with
  | poly c w =>
    have hfit := hS.fits none p hp ⟨c, w, ho⟩
    simp [Labels.Fits, hd] at hfit
  | data s w =>
    obtain ⟨hdt, hbytes, -⟩ := hS.fits (some s) p hp ⟨w, ho⟩
    exact ptrs_of_isBytes hS hp ⟨_, w, hbytes (hdt.symm.trans hd) ▸ ho⟩ ho

abbrev Finished (S : Setting ω α) (slot : Slot) (v : Val (Ptr ω α)) (W : List (Option ω))
    (x : List Cell) (u u' : Unpacker) : Prop :=
  Done S (fun _ => False) (fun _ => False) slot v W x [] u u'

theorem Done.restored_by (hd : Finished S slot v W x u u') (hW : p.owner ∈ W)
    (hdef : S.labels.defers p.owner = false) {o : Obj (Ptr ω α)}
    (ho : S.heap.lookup p.addr = some o) : ∃ q, S.mem q ∧ q.owner = p.owner ∧
      (q.addr = p.addr →
        u'.heap.lookup (S.labels.image u' p).addr = some (o.rename (S.labels.image u')) ∧
        Held S.labels W u' o.value ∧ o.Safe S.deferrable) := by
  obtain ⟨-, q, y, hq, hqp, hy, hl, hheld, hsafe⟩ := hd.inv.closed _ hW hdef id
  refine ⟨q, hq, hqp, fun ha => ?_⟩
  rw [ha, ho] at hy
  cases hy
  rw [image_congr hqp] at hl
  exact ⟨hl, hheld, hsafe⟩

theorem Done.restored (hS : S.Graph fields) (hd : Finished S slot v W x u u')
    (hp : S.mem p) (hW : p.owner ∈ W) (hdef : S.labels.defers p.owner = false)
    {o : Obj (Ptr ω α)} (ho : S.heap.lookup p.addr = some o) :
    (u'.heap.lookup (S.labels.image u' p).addr = some (o.rename (S.labels.image u')) ∧
      Held S.labels W u' o.value ∧ o.Safe S.deferrable) ∨ IsBytes S.heap p := by
  obtain ⟨q, hq, hqp, hr⟩ := hd.restored_by hW hdef ho
  exact (hS.merge q p hq hp hqp).imp hr And.right

theorem Done.reach (hS : S.Graph fields) (hd : Finished S slot v W x u u')
    (hm : ∀ p, Reach S.heap v p → S.mem p) (hp : Reach S.heap v p) :
    p.owner ∈ W ∧ S.labels.Registered u' p.owner := by
  induction hp with
  | root hp => exact hd.held _ hp
  | @step p q hp he ih =>
    obtain ⟨o, ho, hq⟩ := he
    by_cases hb : IsBytes S.heap p
    · simp [ptrs_of_isBytes hS (hm p hp) hb ho] at hq
    · cases hdef : S.labels.defers p.owner with
      | false =>
        rcases hd.restored hS (hm p hp) ih.1 hdef ho with ⟨-, hheld, -⟩ | hb'
        · exact hheld q hq
        · exact absurd hb' hb
      | true =>
        exfalso
        cases o with
        | poly c w =>
          have hfit := hS.fits none p (hm p hp) ⟨c, w, ho⟩
          simp [Labels.Fits, hdef] at hfit
        | data s w =>
          obtain ⟨hs, hb', -⟩ := hS.fits (some s) p (hm p hp) ⟨w, ho⟩
          exact hb ⟨_, w, hb' (hs.symm.trans hdef) ▸ ho⟩

theorem Done.allSafe (hS : S.Graph fields) (hd : Finished S slot v W x u u')
    (hm : ∀ p, Reach S.heap v p → S.mem p) : AllSafe S.heap S.deferrable slot v := by
  refine ⟨hd.safe, fun p o hp ho => ?_⟩
  have bytes (hb : IsBytes S.heap p) : o.Safe S.deferrable := by
    obtain ⟨n, w, hw⟩ := hb
    cases hw.symm.trans ho
    cases hS.typed p _ (hm p hp) hw
    trivial
  cases hdef : S.labels.defers p.owner with
  | false =>
    rcases hd.restored hS (hm p hp) (hd.reach hS hm hp).1 hdef ho with ⟨-, -, hs⟩ | hb
    · exact hs
    · exact bytes hb
  | true =>
    cases o with
    | poly c w =>
      have hfit := hS.fits none p (hm p hp) ⟨c, w, ho⟩
      simp [Labels.Fits, hdef] at hfit
    | data s w =>
      obtain ⟨hs, hb, -⟩ := hS.fits (some s) p (hm p hp) ⟨w, ho⟩
      exact bytes ⟨_, w, hb (hs.symm.trans hdef) ▸ ho⟩

/-- When no two objects share an owner, what was unpacked is a copy, in any heap that the
deferred objects were added to. -/
theorem Done.copyOf (hS : S.Graph fields) (hd : Finished S slot v W x u u')
    (hm : S.mem = Reach S.heap v) (hs : Separate S.heap v)
    (hobj : ∀ p, Reach S.heap v p → (S.heap.lookup p.addr).isSome)
    {h' : Heap Owner Place} (hh : ∀ a o, u'.heap.lookup a = some o → h'.lookup a = some o)
    (hdef : ∀ p o, Reach S.heap v p → S.labels.defers p.owner = true →
      S.heap.lookup p.addr = some o →
      h'.lookup (S.labels.image u' p).addr = some (o.rename (S.labels.image u'))) :
    CopyOf S.heap v h' (v.rename (S.labels.image u')) (S.labels.image u') where
  value := rfl
  addr_eq_iff p q hp hq := by
    have hpr := (hd.reach hS (fun p hp => hm ▸ hp) hp).2
    have hqr := (hd.reach hS (fun p hp => hm ▸ hp) hq).2
    have hp' : S.mem p := hm ▸ hp
    have hq' : S.mem q := hm ▸ hq
    constructor
    · intro he
      exact hs p q hp hq (hd.inv.owner_eq_of_image_eq hS hp' hq' hpr hqr he)
    · intro he
      rw [image_congr (hS.owner_eq p q hp' hq' he)]
  object p hp := by
    obtain ⟨o, ho⟩ := Option.isSome_iff_exists.mp (hobj p hp)
    rw [ho, Option.map_some]
    cases hdp : S.labels.defers p.owner with
    | true => exact hdef p o hp hdp ho
    | false =>
      have hW := (hd.reach hS (fun p hp => hm ▸ hp) hp).1
      obtain ⟨q, hq, hqp, hr⟩ := hd.restored_by hW hdp ho
      exact hh _ _ (hr (hs q p (hm ▸ hq) hp hqp)).1

end Result

section RoundTrip

variable [DecidableEq ω]

/-- With enough fuel a value is packed, and the message is read to its end and gives a copy. -/
def RoundTrips (fields : ℕ → Ty) (h : Heap ω α) (v : Val (Ptr ω α)) (t : Ty) : Prop :=
  ∃ N, ∀ n ≥ N, ∃ msg v' u' f, pack h n v = .ok msg ∧
    unpackMessage fields n t msg = .ok (v', u') ∧ u'.input = [] ∧ u'.offset = size msg ∧
    CopyOf h v u'.heap v' f

omit [DecidableEq ω] in
theorem Setting.Graph.not_defers {L : Labels ω} {source : Option Owner}
    (hS : (Setting.mk h false L (Reach h v) source).Graph fields) (hv : Valid fields h v t)
    {p : Ptr ω α} (hp : Reach h v p) : L.defers p.owner = false := by
  obtain ⟨k, hk⟩ := hv.reach hp
  have hfit := hS.fits k p hp hk
  cases k with
  | none => exact hfit.1
  | some s =>
    refine hfit.1.trans ?_
    cases s <;> rfl

theorem Valid.transfer (hv : Valid fields h v t) (hm : Mergeable h v) : ∃ L x T,
    (Setting.mk h false L (Reach h v) (some .message)).Graph fields ∧ ∃ N, ∀ n ≥ N,
      pack h n v = .ok x ∧
      Outcome (Setting.mk h false L (Reach h v) (some .message)) (fun _ => False)
        (fun _ => False) .member v T x [] { input := x, source := some .message }
        (unpackMessage fields n t x) := by
  obtain ⟨L, x, T, hS, hl, hT⟩ := hv.exists_lin (d := false) hm nofun (some .message)
  obtain ⟨hfit, hstep⟩ := hv.suits hS
  obtain ⟨N, hN⟩ := pack_of_lin hfit hstep hT hl fun q hq =>
    ⟨.root (List.mem_map_of_mem hq), Typed.pointee ⟨t, .inl hv.hasTy⟩ q hq⟩
  refine ⟨L, x, T, hS, max N x.length, fun n hn => ?_⟩
  refine ⟨hN n (le_trans (le_max_left _ _) hn), ?_⟩
  exact (hl.unpacks hS (fun _ _ _ => .inl rfl) (Inv.start _ x 0) (List.append_nil x).symm
    (le_trans (le_max_right _ _) hn) (fun p hp => .root hp) (fun o ho => ho.elim)).value t
    .member hv.hasTy

theorem Valid.allSafe_of_roundTrips (hv : Valid fields h v t) (hm : Mergeable h v)
    (hr : RoundTrips fields h v t) : AllSafe h false .member v := by
  obtain ⟨L, x, T, hS, N, hN⟩ := hv.transfer hm
  obtain ⟨M, hM⟩ := hr
  obtain ⟨msg, v', u', f, hp, hu, -⟩ := hM _ (le_max_right N M)
  obtain ⟨hp', ho⟩ := hN _ (le_max_left N M)
  cases hp.symm.trans hp'
  rcases ho with ⟨u₁, -, hd⟩ | ⟨e, he, -⟩
  · exact hd.allSafe hS fun p hp => hp
  · exact absurd (hu.symm.trans he) (by simp)

/-- A copy whose trivially copyable objects lie in the message and are owned by it, while
each other object lies in memory of its own. -/
structure Delivered (h : Heap ω α) (v : Val (Ptr ω α)) (h' : Heap Owner Place) (v' : UVal)
    (f : Ptr ω α → Ptr Owner Place) : Prop extends CopyOf h v h' v' f where
  shape : ∀ p, Reach h v p → (IsBytes h p ∧ ∃ n, f p = ⟨some .message, .message n⟩) ∨
    (¬ IsBytes h p ∧ ∃ n, f p = ⟨some (.object n), .object n⟩)

theorem Valid.delivered (hv : Valid fields h v t) (hs : Separate h v)
    (hsafe : AllSafe h false .member v) : ∃ N msg v' u' f,
      (∀ n ≥ N, pack h n v = .ok msg ∧ unpackMessage fields n t msg = .ok (v', u')) ∧
      u'.input = [] ∧ u'.offset = size msg ∧ Delivered h v u'.heap v' f := by
  obtain ⟨L, x, T, hS, N, hN⟩ := hv.transfer hs.mergeable
  rcases (hN N le_rfl).2 with ⟨u', he, hd⟩ | ⟨e, -, hu⟩
  · refine ⟨N, x, _, u', _, fun n hn => ⟨(hN n hn).1, unpackMessage_mono hn he⟩, hd.input, ?_,
      hd.copyOf hS rfl hs (fun p hp => (hv.reach hp).choose_spec.isSome) (fun _ _ => id) ?_,
      fun p hp => ?_⟩
    · rw [hd.offset]
      exact Nat.zero_add _
    · intro p o hp hdp
      rw [hS.not_defers hv hp] at hdp
      cases hdp
    · have hr := (hd.reach hS (fun p hp => hp) hp).2
      exact hd.inv.shape p _ hp (hr.lookup (hS.not_defers hv hp))
  · exact absurd hsafe (hu fun p q hp hq => hs p q hp hq)

theorem Valid.roundTrips_of_allSafe (hv : Valid fields h v t) (hs : Separate h v)
    (hsafe : AllSafe h false .member v) : RoundTrips fields h v t := by
  obtain ⟨N, msg, v', u', f, hN, hi, ho, hd⟩ := hv.delivered hs hsafe
  exact ⟨N, fun n hn => ⟨msg, v', u', f, (hN n hn).1, (hN n hn).2, hi, ho, hd.toCopyOf⟩⟩

def selfHolder : Heap ℕ ℕ := [(0, .poly 0 (.sharedPoly (some ⟨some 0, 0⟩)))]

theorem reach_selfHolder {p : Ptr ℕ ℕ}
    (hp : Reach selfHolder (.sharedPoly (some ⟨some 0, 0⟩)) p) : p = ⟨some 0, 0⟩ := by
  induction hp with
  | root hp => simpa using hp
  | step _ he ih =>
    obtain ⟨o, ho, hq⟩ := he
    rw [ih] at ho
    cases ho
    simpa [Obj.value] using hq

end RoundTrip

end Hypercomm.Serialization
