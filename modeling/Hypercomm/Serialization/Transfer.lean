import Hypercomm.Serialization.Mirror
import Hypercomm.Serialization.Plain

/-! # Transfers

A pointer with the owner of another object is written as a reference to that object, so only a value
with an owner for each object comes out of its message. A polymorph in place that points to itself
without an owner is sized twice and packed once, and has no message.
-/

namespace Hypercomm.Serialization

section Cost

variable {ω α : Type*} {h : Heap ω α} {L : Labels ω}
variable {R G : Ptr ω α → Prop} {E : Option ω → ℕ} {v : Val (Ptr ω α)} {V W : List (Option ω)}
variable {x : List Cell} {p : Ptr ω α} {k : Option Ty}

/-- The size of a value once its pointers were met. -/
def Labels.cost (L : Labels ω) : Val (Ptr ω α) → ℕ
  | .bytes b => size (b.map .byte)
  | .builtin b => b.length
  | .unit | .nil | .polyNull => 0
  | .pair a b | .cons a b => cost L a + cost L b
  | .list l | .map l => 8 + cost L l
  | .uniqueNull => 1
  | .unique v => 1 + cost L v
  | .poly _ v => 8 + cost L v
  | .shared _ none | .sharedPoly none => 1
  | .shared _ (some p) | .sharedPoly (some p) => size (L.metCells p.owner)

theorem cost_of_isShared (hs : v.IsShared (some p) k) : L.cost v = size (L.metCells p.owner) := by
  cases hs <;> rfl

/-- Each owner that is met adds its object, in whichever order they are met. -/
theorem Lin.size_eq [DecidableEq α] (hstep : ∀ p q, G p → Edge h p q → G q)
    (hdefer : ∀ p, G p → L.defers p.owner = true → E p.owner = 0)
    (hmake : ∀ p o, G p → L.defers p.owner = false → h.lookup p.addr = some o →
      E p.owner = 8 + L.cost o.value)
    (hl : Lin h L R v V x W) (hG : ∀ p ∈ v.ptrs, G p) :
    size x + (V.map E).sum = L.cost v + (W.map E).sum := by
  induction hl with
  | pair _ _ iha ihb | cons _ _ iha ihb =>
    simp only [Val.ptrs_pair, Val.ptrs_cons, List.mem_append] at hG
    have ha := iha fun p hp => hG p (.inl hp)
    have hb := ihb fun p hp => hG p (.inr hp)
    rw [size_append, Labels.cost]
    omega
  | list _ ih | map _ ih | unique _ ih | poly _ ih =>
    have hl := ih hG
    rw [size_cons, Labels.cost]
    simp only [Cell.size]
    omega
  | null V hs => cases hs <;> rfl
  | reference hs _ _ hd | again hs _ hd => rw [cost_of_isShared hs, Labels.metCells, hd]; rfl
  | @defer v k p V hs _ hd =>
    have hzero := hdefer p (hG p hs.mem_ptrs) hd
    rw [cost_of_isShared hs, Labels.metCells, hd, List.map_append, List.sum_append]
    simp only [List.map_cons, List.map_nil, List.sum_cons, List.sum_nil, hzero]
    rfl
  | @«instance» v k p o V W x hs _ hd ho _ ih =>
    have hp := hG p hs.mem_ptrs
    have hin := ih fun q hq => hstep p q hp ⟨o, ho, hq⟩
    rw [List.map_append, List.sum_append] at hin
    simp only [List.map_cons, List.map_nil, List.sum_cons, List.sum_nil,
      hmake p o hp hd ho] at hin
    rw [cost_of_isShared hs, Labels.metCells, hd]
    simp only [size_cons, Cell.size, Bool.false_eq_true, if_false, size_nil]
    omega
  | _ => rfl

end Cost

section Read

variable {ω α B : Type*} [DecidableEq ω] [DecidableEq α] {h : Heap ω α} {fields : ℕ → Ty}
variable {src : ω} {st : Storage ω α} {o : Obj (Ptr ω α)} {K : Ncpy ω α B}
variable {remote : B → List UInt8}

theorem toTyped_ok {n k : ℕ} {t : Ty} {msg : Message B} {values : List (Option (List UInt8))}
    {v' : UVal} {h' : Heap Owner Place} (hto : toTyped fields n t k msg values = .ok (v', h')) :
    ∃ u, unpack (unpackFields fields n) t .member
      { input := msg.value, offset := k, source := some .message, deferrable := true } =
        .ok (v', u) ∧ Agrees h' u := by
  unfold toTyped at hto
  split at hto
  · cases hto
  · obtain ⟨⟨v, u⟩, hu, hto⟩ := bind_eq_ok.mp hto
    obtain ⟨-, he⟩ := ite_eq_ok hto
    cases he
    refine ⟨u, hu, fun a y hy => ?_⟩
    -- nothing is unpacked to the place of a buffer
    have hbounded := (unpack_proceeds unpackFields_proceeds hu).bounded (bounded_nil rfl)
    rw [List.lookup_append, List.lookup_eq_none_iff.mpr, hy]
    · rfl
    · intro e he
      obtain ⟨d, -, rfl⟩ := List.mem_map.mp he
      have hne : a ≠ .buffer d.1.1 := by
        rintro rfl
        exact hbounded _ _ hy
      simpa using hne

/-- Pointers with one owner point to one object, if the value comes out of its message. -/
theorem Sendable.separate (hS : Sendable fields h src st o)
    (ht : Transfers K remote fields h src st o) : Separate h (o.wrapped (st.pointer none)) := by
  obtain ⟨N, hN⟩ := ht
  obtain ⟨msg, hmsg, hz, hall⟩ := hN N le_rfl
  obtain ⟨v', h', f, hto, hc⟩ := hall _ (.refl _)
  obtain ⟨s, t, hm⟩ := messageOf_packDeferrable hS.lookup hmsg
  obtain ⟨u, hread, hagrees⟩ := toTyped_ok hto
  have hpacked : pup h (pupObject h N) (o.wrapped (st.pointer none))
      (Packer.acquire { self := 1, deferrable := true } s) = .ok t := by
    have hpacked := hm.packed
    rw [← hm.zeroCopy, hz, Bool.true_and] at hpacked
    unfold Obj.wrapped
    cases hsh : o.isSharedPtr <;> simpa [hsh] using hpacked
  rw [hm.value] at hread
  exact hS.valid.separate_of_unpack (met_acquire (own_of_pup hm.sized)) rfl hpacked
    (bounded_nil rfl) (List.append_nil _).symm hread hagrees hc

end Read

section Loop

variable {ω α B : Type*} [DecidableEq α] {h : Heap ω α} {fields : ℕ → Ty}
variable {src : ω} {a : α} {c : ℕ} {w : Val (Ptr ω α)} {t : Ty} {p q : Ptr ω α}
variable {R : Ptr ω α → Prop} {L : Labels ω}

theorem sum_map_le_of_subset {β : Type*} {l m : List β} {f : β → ℕ} (hl : l.Nodup)
    (hm : ∀ b ∈ l, b ∈ m) : (l.map f).sum ≤ (m.map f).sum := by
  obtain ⟨l', hperm, hsub⟩ := List.subperm_of_subset hl hm
  obtain ⟨r, hr⟩ := hsub.exists_perm_append
  rw [← (hperm.map f).sum_eq, (hr.map f).sum_eq, List.map_append, List.sum_append]
  exact Nat.le_add_right _ _

theorem transGen_owner {o o' : Option ω} (hq : Relation.TransGen (Edge h) ⟨o, a⟩ q) :
    Relation.TransGen (Edge h) ⟨o', a⟩ q := by
  obtain ⟨r, he, hr⟩ := Relation.TransGen.head'_iff.mp hq
  have he : Edge h ⟨o', a⟩ r := he
  exact .head' he hr

theorem reach_source_cases (hq : Reach h (.sharedPoly (some ⟨some src, a⟩)) q) :
    q = ⟨some src, a⟩ ∨ Reach h (.sharedPoly (some ⟨none, a⟩)) q := by
  refine (Reach.pointer_cases (o := .poly 0 .unit) hq).imp_right fun hq => ?_
  exact reach_of_transGen (o := .poly 0 .unit) (transGen_owner hq)

/-- A polymorph in place that points to itself without an owner. -/
structure Loops (fields : ℕ → Ty) (h : Heap ω α) (src : ω) (a : α) (c : ℕ) (w : Val (Ptr ω α))
    (t : Ty) : Prop where
  lookup : h.lookup a = some (.poly c w)
  valid : Valid fields h (.sharedPoly (some ⟨none, a⟩)) t
  separate : Separate h (.sharedPoly (some ⟨none, a⟩))
  fresh : ∀ q, Relation.TransGen (Edge h) ⟨none, a⟩ q → q.owner ≠ some src
  loop : Relation.TransGen (Edge h) ⟨none, a⟩ ⟨none, a⟩

namespace Loops

variable (hL : Loops fields h src a c w t)
include hL

theorem reach (hq : Reach h (.sharedPoly (some ⟨none, a⟩)) q) :
    Reach h (.sharedPoly (some ⟨some src, a⟩)) q := by
  apply reach_of_transGen (o := .poly c w)
  rcases Reach.pointer_cases (o := .poly c w) hq with rfl | hq
  · exact transGen_owner hL.loop
  · exact transGen_owner hq

theorem owner_ne (hq : Reach h (.sharedPoly (some ⟨none, a⟩)) q) : q.owner ≠ some src := by
  rcases Reach.pointer_cases (o := .poly c w) hq with rfl | hq
  · simp
  · exact hL.fresh q hq

theorem objects (hq : Reach h (.sharedPoly (some ⟨some src, a⟩)) q) :
    (h.lookup q.addr).isSome ∧ ∀ o, h.lookup q.addr = some o → o.HasTy fields h := by
  have hroot : Reach h (.sharedPoly (some ⟨none, a⟩)) ⟨none, a⟩ := .root (by simp)
  rcases reach_source_cases hq with rfl | hq
  · exact ⟨by simp [hL.lookup], fun o ho => hL.valid.objects _ o hroot ho⟩
  · exact ⟨(hL.valid.reach hq).choose_spec.isSome, fun o ho => hL.valid.objects q o hq ho⟩

theorem separate_source : Separate h (.sharedPoly (some ⟨some src, a⟩)) := by
  intro p q hp hq ho
  rcases reach_source_cases hp with rfl | hp <;> rcases reach_source_cases hq with rfl | hq
  · rfl
  · exact absurd ho.symm (hL.owner_ne hq)
  · exact absurd ho (hL.owner_ne hp)
  · exact hL.separate p q hp hq ho

theorem fits (ident : Option ω → ℕ) {k : Option Ty}
    (hp : Reach h (.sharedPoly (some ⟨some src, a⟩)) p) (hk : Pointee h k p) :
    (labelsOf h (.sharedPoly (some ⟨some src, a⟩)) true ident).Fits h true k p :=
  fits_labelsOf (fun _ hq => (hL.objects hq).1) hL.separate_source.mergeable
    (fun _ => hL.separate_source) ident hp hk

theorem ptrs_of_defers (ident : Option ω → ℕ) {o : Obj (Ptr ω α)}
    (hp : Reach h (.sharedPoly (some ⟨some src, a⟩)) p)
    (hd : (labelsOf h (.sharedPoly (some ⟨some src, a⟩)) true ident).defers p.owner = true)
    (ho : h.lookup p.addr = some o) : o.value.ptrs = [] := by
  have hty := (hL.objects hp).2 o ho
  cases o with
  | poly c w =>
    have hfit := hL.fits ident (k := none) hp ⟨c, w, ho⟩
    simp [Labels.Fits, hd] at hfit
  | data s w =>
    obtain ⟨hdt, hbytes, -⟩ := hL.fits ident (k := some s) hp ⟨w, ho⟩
    obtain rfl := hbytes (hdt.symm.trans hd)
    cases hty
    rfl

theorem met {ident : Option ω → ℕ} {x : List Cell} {T : List (Option ω)}
    (hx : Lin h (labelsOf h (.sharedPoly (some ⟨some src, a⟩)) true ident) R
      (.sharedPoly (some ⟨some src, a⟩)) [] x T)
    (hp : Reach h (.sharedPoly (some ⟨some src, a⟩)) p) : p.owner ∈ T :=
  hx.met_of_reach hL.separate_source (fun _ _ => hL.ptrs_of_defers ident) hp

/-- The sizer meets the source, and all that is met without it. -/
theorem met_source {ident : Option ω → ℕ} {x y : List Cell} {T U : List (Option ω)}
    (hx : Lin h (labelsOf h (.sharedPoly (some ⟨some src, a⟩)) true ident) R
      (.sharedPoly (some ⟨some src, a⟩)) [] x T)
    (hy : Lin h L R (.sharedPoly (some ⟨none, a⟩)) [] y U) :
    (some src :: U).Nodup ∧ ∀ o ∈ some src :: U, o ∈ T := by
  have reached : ∀ o ∈ U, ∃ p, Reach h (.sharedPoly (some ⟨none, a⟩)) p ∧ p.owner = o :=
    fun o ho => (hy.met ho).resolve_left List.not_mem_nil
  constructor
  · refine List.nodup_cons.mpr ⟨fun hmem => ?_, hy.nodup List.nodup_nil⟩
    obtain ⟨p, hp, he⟩ := reached _ hmem
    exact hL.owner_ne hp he
  · intro o ho
    rcases List.mem_cons.mp ho with rfl | ho
    · exact hL.met hx (p := ⟨some src, a⟩) (.root (by simp))
    · obtain ⟨p, hp, rfl⟩ := reached o ho
      exact hL.met hx (hL.reach hp)

/-- The sizer meets the polymorph twice, by its source and by the pointer without an owner. -/
theorem size_lt {ident : Option ω → ℕ} {x y : List Cell} {T U : List (Option ω)}
    (hx : Lin h (labelsOf h (.sharedPoly (some ⟨some src, a⟩)) true ident) R
      (.sharedPoly (some ⟨some src, a⟩)) [] x T)
    (hy : Lin h (labelsOf h (.sharedPoly (some ⟨some src, a⟩)) true ident) R
      (.sharedPoly (some ⟨none, a⟩)) [] y U) : size y < size x := by
  set v : Val (Ptr ω α) := .sharedPoly (some ⟨some src, a⟩) with hv
  set L := labelsOf h v true ident with hLab
  -- what an owner adds when it is met
  set E : Option ω → ℕ := fun o =>
    if L.defers o then 0 else 8 + byOwner h v (fun x => L.cost x.value) 0 o with hE
  have hroot : Reach h v ⟨some src, a⟩ := .root (by simp [hv])
  have hself : Reach h v ⟨none, a⟩ := hL.reach (.root (by simp))
  have hdefer : ∀ p, Reach h v p → L.defers p.owner = true → E p.owner = 0 :=
    fun p _ hd => if_pos hd
  have hmake : ∀ p o, Reach h v p → L.defers p.owner = false → h.lookup p.addr = some o →
      E p.owner = 8 + L.cost o.value := by
    intro p o hp hd ho
    refine (if_neg (by simp [hd])).trans (congrArg (8 + ·) ?_)
    refine byOwner_eq (fun q y hq hqp hy => ?_) (fun q hq => (hL.objects hq).1) hp
    rw [hL.separate_source q p hq hp hqp, ho] at hy
    cases hy
    rfl
  have plain {q : Ptr ω α} (hq : Reach h v q) (ha : q.addr = a) : L.defers q.owner = false :=
    (hL.fits ident (k := none) hq ⟨c, w, ha ▸ hL.lookup⟩).1
  have hsrc : E (some src) = 8 + L.cost w := hmake _ _ hroot (plain hroot rfl) hL.lookup
  have hcost : L.cost v = L.cost (.sharedPoly (some ⟨none, a⟩) : Val (Ptr ω α)) := by
    rw [cost_of_isShared .poly, cost_of_isShared .poly, Labels.metCells, Labels.metCells,
      plain hroot rfl, plain hself rfl]
    rfl
  have hxs := hx.size_eq (G := Reach h v) (fun _ _ hp he => hp.step he) hdefer hmake
    fun q hq => .root hq
  have hys := hy.size_eq (G := Reach h v) (fun _ _ hp he => hp.step he) hdefer hmake
    fun q hq => hL.reach (.root hq)
  obtain ⟨hnodup, hsub⟩ := hL.met_source hx hy
  have hsum : ((some src :: U).map E).sum ≤ (T.map E).sum := sum_map_le_of_subset hnodup hsub
  rw [List.map_nil, List.sum_nil] at hxs hys
  rw [List.map_cons, List.sum_cons] at hsum
  omega

theorem exists_passes [DecidableEq ω] : ∃ N, ∀ n ≥ N, ∃ s u : Packer ω α,
    pup h (pupObject h n) (.sharedPoly (some ⟨some src, a⟩))
      { self := 0, deferrable := true } = .ok s ∧
    pup h (pupObject h n) (.sharedPoly (some ⟨none, a⟩))
      (Packer.acquire { self := 1, deferrable := true } s) = .ok u ∧
    size u.written < size s.written := by
  set v : Val (Ptr ω α) := .sharedPoly (some ⟨some src, a⟩) with hv
  have htyped (q : Option ω) : Typed fields h (.sharedPoly (some ⟨q, a⟩)) :=
    ⟨_, .inl (.sharedPoly hL.lookup)⟩
  have hlin (L : Labels ω) {w : Val (Ptr ω α)} (hw : ∀ q ∈ w.ptrs, Reach h v q)
      (ht : Typed fields h w) : ∃ x T, Lin h L (fun _ => True) w [] x T :=
    Serialization.exists_lin (S := (ownersIn h v).toFinset) (fun _ _ hp he => hp.step he)
      (fun p o hp ho => (hL.objects hp).2 o ho) (fun _ hp => List.mem_toFinset.mpr hp.owner_mem)
      (fun _ => trivial) L _ w [] hw ht le_rfl
  obtain ⟨x₀, T, hl⟩ := hlin (labelsOf h v true fun _ => 0) (fun q hq => .root hq) (htyped _)
  -- the sizer numbers the owners
  set ident : Option ω → ℕ := fun o => (T ++ ownersIn h v).idxOf o + 1 with hident
  obtain ⟨x, hx, -⟩ : ∃ y, Lin h (labelsOf h v true ident) (fun _ => True) v [] y T ∧
    size y = size x₀ := hl.relabel (by rfl)
  obtain ⟨y, U, hy⟩ :=
    hlin (labelsOf h v true ident) (fun q hq => hL.reach (.root hq)) (htyped none)
  have hU : ∀ o ∈ U, o ∈ T := fun o ho => (hL.met_source hx hy).2 o (List.mem_cons_of_mem _ ho)
  have hnumbered : ∀ i o, T[i]? = some o → (labelsOf h v true ident).ident o = i + 1 :=
    fun i o hi => congrArg (· + 1) (idxOf_of_getElem? (hx.nodup List.nodup_nil) hi)
  have hfit : ∀ e : Option Ty × Ptr ω α, Reach h v e.2 ∧ Pointee h e.1 e.2 →
      (labelsOf h v true ident).Fits h true e.1 e.2 := fun e he => hL.fits ident he.1 he.2
  have hstep : ∀ (e : Option Ty × Ptr ω α) o, Reach h v e.2 ∧ Pointee h e.1 e.2 →
      h.lookup e.2.addr = some o → ∀ q ∈ o.value.slots, Reach h v q.2 ∧ Pointee h q.1 q.2 :=
    fun e o he ho q hq => ⟨he.1.step ⟨o, ho, List.mem_map_of_mem hq⟩,
      ((hL.objects he.1).2 o ho).typed.pointee q hq⟩
  obtain ⟨N, hN⟩ := (tracks_sizer hnumbered).pup_of_lin hfit hstep hx List.prefix_rfl
    fun q hq => ⟨.root (List.mem_map_of_mem hq), (htyped _).pointee q hq⟩
  obtain ⟨M, hM⟩ := tracks_packer.pup_of_lin hfit hstep hy List.prefix_rfl
    fun q hq => ⟨hL.reach (.root (List.mem_map_of_mem hq)), (htyped none).pointee q hq⟩
  refine ⟨max N M, fun n hn => ?_⟩
  obtain ⟨s, hs, hi, hw⟩ := hN n (le_trans (le_max_left _ _) hn) _ (Sizes.start _ true)
  obtain ⟨u, hu, -, hw'⟩ := hM n (le_trans (le_max_right _ _) hn) _ (hi.acquires hU)
  refine ⟨s, u, hs, hu, ?_⟩
  rw [hw, hw']
  exact hL.size_lt hx hy

end Loops

variable [DecidableEq ω] {st : Storage ω α} {o : Obj (Ptr ω α)} {K : Ncpy ω α B}
variable {remote : B → List UInt8}

/-- No pointer behind a value in place is without an owner, if it comes out of its message. -/
theorem Sendable.owned (hK : K.Additive) (hS : Sendable fields h src (.inline a) o)
    (ho : o.isSharedPtr = false) (ht : Transfers K remote fields h src (.inline a) o)
    (hq : Relation.TransGen (Edge h) ⟨none, a⟩ q) : q.owner ≠ none := by
  intro hnone
  have hs : Separate h (o.pointer ⟨none, a⟩) := Obj.wrapped_eq ho _ ▸ hS.separate ht
  have hv : Valid fields h (o.pointer ⟨none, a⟩) o.wrappedTy := Obj.wrapped_eq ho _ ▸ hS.valid
  have hroot : Reach h (o.pointer ⟨none, a⟩) ⟨none, a⟩ := .root (by simp)
  have haddr : q.addr = a := hs q _ (reach_of_transGen hq) hroot hnone
  have hloop : Relation.TransGen (Edge h) ⟨none, a⟩ ⟨none, a⟩ := by
    obtain ⟨owner, addr⟩ := q
    cases hnone
    cases haddr
    exact hq
  cases o with
  | data s w => exact hv.acyclic _ _ s hroot ⟨w, hS.lookup⟩ hloop rfl
  | poly c w =>
    have hL : Loops fields h src a c w _ := ⟨hS.lookup, hv, hs, hS.fresh a rfl, hloop⟩
    obtain ⟨M, hM⟩ := hL.exists_passes
    obtain ⟨N, hN⟩ := ht
    obtain ⟨msg, hmsg, hz, -⟩ := hN (max N M) (le_max_left _ _)
    obtain ⟨s', u', hs', hu', hlt⟩ := hM (max N M) (le_max_right _ _)
    obtain ⟨s, u, hm⟩ := messageOf_packDeferrable hS.lookup hmsg
    have hne : s.deferred.isEmpty = false := by simpa [hm.zeroCopy] using hz
    have hpacked := hm.packed
    rw [hne] at hpacked
    cases hm.sized.symm.trans hs'
    cases hpacked.symm.trans hu'
    rw [hm.size_deferred hK (by simpa using hne)] at hlt
    exact lt_irrefl _ hlt

end Loop

section Result

variable {ω α B : Type*} [DecidableEq ω] [DecidableEq α] {h : Heap ω α} {fields : ℕ → Ty}
variable {src : ω} {st : Storage ω α} {o : Obj (Ptr ω α)} {K : Ncpy ω α B}
variable {remote : B → List UInt8}

theorem Sendable.separated (hK : K.Additive) (hS : Sendable fields h src st o)
    (ht : Transfers K remote fields h src st o) : Separated h st o where
  separate := hS.separate ht
  owned ho a hst q hq := by
    subst hst
    exact hS.owned hK ho ht hq

/-- Every pointer comes out of a message with deferred objects, in whichever order these arrive,
if and only if no pointer to a large object is in an element of a container, nor a unique pointer
to a polymorph in raw storage, the value is not a large object in place, and its pointers have an
owner for each object. -/
theorem transfers_iff (hK : K.Additive) (hF : K.Faithful remote h)
    (hS : Sendable fields h src st o) : Transfers K remote fields h src st o ↔
      Separated h st o ∧ AllSafe h true .member (o.wrapped (st.pointer none)) ∧
        ¬ st.Dangles h := by
  constructor
  · intro ht
    have hD := hS.separated hK ht
    exact ⟨hD, (hD.safe_iff hK hF hS).mp ht⟩
  · rintro ⟨hD, hsafe⟩
    exact (hD.safe_iff hK hF hS).mpr hsafe

section Holder

variable {ty : Ty} {w : Val (Ptr ℕ ℕ)} {rest : Heap ℕ ℕ} {types : ℕ → Ty}

theorem edge_holder (hrest : ∀ e ∈ rest, e.2.value.ptrs = []) {p q : Ptr ℕ ℕ}
    (he : Edge ((0, .data ty w) :: rest) p q) : p.addr = 0 ∧ q ∈ w.ptrs := by
  obtain ⟨o, ho, hq⟩ := he
  rw [List.lookup_cons] at ho
  split at ho
  · cases ho
    exact ⟨by simpa using ‹(p.addr == 0) = true›, hq⟩
  · obtain ⟨l₁, l₂, rfl, -⟩ := List.lookup_eq_some_iff.mp ho
    rw [hrest (p.addr, o) (by simp)] at hq
    cases hq

theorem reach_holder (hrest : ∀ e ∈ rest, e.2.value.ptrs = []) {p : Ptr ℕ ℕ}
    (hp : Reach ((0, .data ty w) :: rest) (.shared ty (some ⟨none, 0⟩)) p) :
    p = ⟨none, 0⟩ ∨ p ∈ w.ptrs := by
  cases hp with
  | root hp => exact .inl (by simpa using hp)
  | step _ he => exact .inr (edge_holder hrest he).2

theorem behind_holder (hrest : ∀ e ∈ rest, e.2.value.ptrs = []) {p q : Ptr ℕ ℕ}
    (hpq : Relation.TransGen (Edge ((0, .data ty w) :: rest)) p q) : p.addr = 0 ∧ q ∈ w.ptrs := by
  obtain ⟨p', he, -⟩ := Relation.TransGen.head'_iff.mp hpq
  obtain ⟨q', -, he'⟩ := Relation.TransGen.tail'_iff.mp hpq
  exact ⟨(edge_holder hrest he).1, (edge_holder hrest he').2⟩

theorem separated_holder (hrest : ∀ e ∈ rest, e.2.value.ptrs = [])
    (hw : ∀ p, (Obj.data ty w).wrapped p = .shared ty (some p))
    (hown : ∀ q ∈ w.ptrs, q.owner = some q.addr) :
    Separated ((0, .data ty w) :: rest) (.inline 0) (.data ty w) := by
  constructor
  · change Separate _ ((Obj.data ty w).wrapped ⟨none, 0⟩)
    rw [hw]
    intro p q hp hq he
    rcases reach_holder hrest hp with rfl | hp <;> rcases reach_holder hrest hq with rfl | hq
    · rfl
    · cases he.trans (hown q hq)
    · cases he.symm.trans (hown p hp)
    · exact Option.some.inj ((hown p hp).symm.trans (he.trans (hown q hq)))
  · intro _ a _ q hq hnone
    cases hnone.symm.trans (hown q (behind_holder hrest hq).2)

theorem sendable_holder (hrest : ∀ e ∈ rest, e.2.value.ptrs = [])
    (hw : ∀ p, (Obj.data ty w).wrapped p = .shared ty (some p))
    (hty : (Obj.data ty w).wrappedTy = .shared ty)
    (hobj : ∀ q ∈ w.ptrs, q.owner = some q.addr ∧ q.addr ≠ 0 ∧ ∃ x,
      rest.lookup q.addr = some x ∧ x.HasTy types ((0, .data ty w) :: rest))
    (ho : HasTy types ((0, .data ty w) :: rest) w ty)
    (hlarge : ∃ q ∈ w.ptrs, Large ((0, .data ty w) :: rest) q) :
    Sendable types ((0, .data ty w) :: rest) 0 (.inline 0) (.data ty w) := by
  set h : Heap ℕ ℕ := (0, .data ty w) :: rest with hh
  have hreach : ∀ p, Reach h (.shared ty (some ⟨none, 0⟩)) p → p = ⟨none, 0⟩ ∨ p ∈ w.ptrs :=
    fun p => reach_holder hrest
  have hroot : Reach h (.shared ty (some ⟨none, 0⟩)) ⟨none, 0⟩ := .root (by simp)
  have hlook : h.lookup 0 = some (.data ty w) := rfl
  constructor
  · exact hlook
  · rw [hty]
    change Valid types h ((Obj.data ty w).wrapped ⟨none, 0⟩) _
    rw [hw]
    constructor
    · exact .shared hlook
    · intro p o hp hpo
      rcases hreach p hp with rfl | hp
      · cases hlook.symm.trans hpo
        exact ho
      · obtain ⟨-, hne, x, hx, hxt⟩ := hobj p hp
        rw [hh, List.lookup_cons, beq_eq_false_iff_ne.mpr hne, hx] at hpo
        cases hpo
        exact hxt
    · intro p q hp hq he
      rcases hreach p hp with rfl | hp <;> rcases hreach q hq with rfl | hq
      · rfl
      · exact absurd he.symm (hobj q hq).2.1
      · exact absurd he (hobj p hp).2.1
      · rw [(hobj p hp).1, (hobj q hq).1, he]
    · intro p q s hp _ hpq he
      obtain ⟨hzero, hq⟩ := behind_holder hrest hpq
      exact (hobj q hq).2.1 (he.symm.trans hzero)
  · intro a ha q hq hsrc
    obtain ⟨hown, hne, -⟩ := hobj q (behind_holder hrest hq).2
    exact hne (Option.some.inj (hown.symm.trans hsrc))
  · obtain ⟨q, hq, hl⟩ := hlarge
    refine ⟨q, ?_, hl⟩
    change Reach h ((Obj.data ty w).wrapped ⟨none, 0⟩) q
    rw [hw]
    exact hroot.step ⟨_, hlook, hq⟩

end Holder

theorem sendable_pairInPlace :
    Sendable (fun _ => .unit) pairInPlace 0 (.inline 0) largeAndSmall ∧
      Separated pairInPlace (.inline 0) largeAndSmall := by
  have hzeros : pairInPlace.lookup 1 = some zeros := rfl
  have hrest : ∀ e ∈ [(1, zeros), (2, .data (.bytes 1) (.bytes [7]))],
      (e : ℕ × Obj (Ptr ℕ ℕ)).2.value.ptrs = [] := by
    intro e he
    simp only [List.mem_cons, List.not_mem_nil, or_false] at he
    rcases he with rfl | rfl <;> rfl
  have hptrs : ∀ q ∈ largeAndSmall.value.ptrs, q = ⟨some 1, 1⟩ ∨ q = ⟨some 2, 2⟩ := by
    intro q hq
    simpa [largeAndSmall, Obj.value] using hq
  constructor
  · apply sendable_holder hrest (fun _ => rfl) rfl (fun q hq => ?_)
      (.pair (.shared hzeros) (.shared rfl))
      ⟨⟨some 1, 1⟩, by simp, kZeroCopySize, ⟨_, hzeros⟩, le_rfl⟩
    rcases hptrs q hq with rfl | rfl
    · exact ⟨rfl, by simp, zeros, rfl, zeros_hasTy _ _⟩
    · exact ⟨rfl, by simp, _, rfl, .bytes rfl⟩
  · apply separated_holder hrest (fun _ => rfl)
    intro q hq
    rcases hptrs q hq with rfl | rfl <;> rfl

theorem safe_pairInPlace : AllSafe pairInPlace true .member (largeAndSmall.wrapped ⟨none, 0⟩) := by
  refine ⟨Val.safe_shared_member _ _, fun p o _ ho => ?_⟩
  obtain ⟨l₁, l₂, hl, -⟩ := List.lookup_eq_some_iff.mp ho
  have hmem : (p.addr, o) ∈ pairInPlace := hl ▸ List.mem_append_right _ List.mem_cons_self
  simp only [pairInPlace, List.mem_cons, Prod.mk.injEq, List.not_mem_nil, or_false] at hmem
  rcases hmem with ⟨-, rfl⟩ | ⟨-, rfl⟩ | ⟨-, rfl⟩
  · exact ⟨fun ht => Bool.noConfusion ht, fun ht => Bool.noConfusion ht⟩
  · trivial
  · trivial

theorem pair_transfers : Transfers addresses (contents pairInPlace) (fun _ => .unit) pairInPlace 0
    (.inline 0) largeAndSmall := by
  obtain ⟨hS, hD⟩ := sendable_pairInPlace
  apply (transfers_iff addresses_additive (addresses_faithful _) hS).mpr
  refine ⟨hD, safe_pairInPlace, ?_⟩
  rintro ⟨a, n, v, ha, hv, -⟩
  cases ha
  cases hv

def largeInVector : Obj (Ptr ℕ ℕ) :=
  .data (.list (.shared (.bytes kZeroCopySize)))
    (.list (.cons (.shared (.bytes kZeroCopySize) (some ⟨some 1, 1⟩)) .nil))

def vectorInPlace : Heap ℕ ℕ := [(0, largeInVector), (1, zeros)]

theorem vector_not_transfers :
    Sendable (fun _ => .unit) vectorInPlace 0 (.inline 0) largeInVector ∧
      ¬ Transfers addresses (contents vectorInPlace) (fun _ => .unit) vectorInPlace 0 (.inline 0)
        largeInVector := by
  have hzeros : vectorInPlace.lookup 1 = some zeros := rfl
  have hrest : ∀ e ∈ [(1, zeros)], (e : ℕ × Obj (Ptr ℕ ℕ)).2.value.ptrs = [] := by
    intro e he
    rw [List.mem_singleton.mp he]
    rfl
  have hptrs : ∀ q ∈ largeInVector.value.ptrs, q = ⟨some 1, 1⟩ := by
    intro q hq
    simpa [largeInVector, Obj.value, Val.ptrs, Val.slots] using hq
  have hS : Sendable (fun _ => .unit) vectorInPlace 0 (.inline 0) largeInVector := by
    apply sendable_holder hrest (fun _ => rfl) rfl (fun q hq => ?_)
      (.list (.cons (.shared hzeros) (.nil _)))
      ⟨⟨some 1, 1⟩, by simp, kZeroCopySize, ⟨_, hzeros⟩, le_rfl⟩
    obtain rfl := hptrs q hq
    exact ⟨rfl, by simp, zeros, rfl, zeros_hasTy _ _⟩
  have hD : Separated vectorInPlace (.inline 0) largeInVector := by
    apply separated_holder hrest fun _ => rfl
    intro q hq
    rw [hptrs q hq]
  refine ⟨hS, fun ht => ?_⟩
  have hsafe := ((hD.safe_iff addresses_additive (addresses_faithful _) hS).mp ht).1
  have hobj : largeInVector.Safe true := hsafe.2 ⟨none, 0⟩ _ (.root List.mem_cons_self) rfl
  exact absurd (hobj.1 rfl) (by simp [Ty.defers])

end Result

end Hypercomm.Serialization
