import Hypercomm.Serialization.Deferral
import Hypercomm.Serialization.Visits

/-! # The list of deferred objects

Deferred objects are listed in the order of their ids, one for each owner that is first reached
through a pointer to a large object. The check that comes after it compares the id of an object
with the size of the one before, so that two of them rarely pass.
-/

namespace Hypercomm.Serialization

section Sorted

variable {β : Type*}

def isSorted (comp : β → β → Bool) : List β → Bool
  | a :: b :: l => !comp b a && isSorted comp (b :: l)
  | _ => true

theorem isSorted_iff (comp : β → β → Bool) (key : β → ℕ) {l : List β}
    (hl : (l.map key).Pairwise (· < ·)) : isSorted comp l = true ↔
      ∀ a ∈ l, ∀ b ∈ l, key a < key b → (∀ c ∈ l, key a < key c → key b ≤ key c) →
        comp b a = false := by
  induction l with
  | nil => simp [isSorted]
  | cons a l ih =>
    cases l with
    | nil => simp [isSorted]
    | cons b l =>
      rw [List.map_cons, List.pairwise_cons] at hl
      have hlt : ∀ c ∈ b :: l, key a < key c := fun c hc => hl.1 _ (List.mem_map_of_mem hc)
      have hb : ∀ c ∈ l, key b < key c := fun c hc =>
        (List.pairwise_cons.mp hl.2).1 _ (List.mem_map_of_mem hc)
      have hne : ∀ c ∈ b :: l, ∀ e ∈ a :: b :: l, key c < key e → e ∈ b :: l := by
        intro c hc e he hce
        rcases List.mem_cons.mp he with rfl | he
        · exact absurd hce (Nat.lt_asymm (hlt c hc))
        · exact he
      rw [isSorted, Bool.and_eq_true, ih hl.2, Bool.not_eq_true']
      constructor
      · rintro ⟨hab, h⟩ c hc e he hce hnext
        rcases List.mem_cons.mp hc with rfl | hc
        · have he : e ∈ b :: l := (List.mem_cons.mp he).resolve_left (by rintro rfl; omega)
          rcases List.mem_cons.mp he with rfl | he
          · exact hab
          · have hle := hnext b (by simp) (hlt b (by simp))
            exact absurd (hb e he) (not_lt.mpr hle)
        · exact h c hc e (hne c hc e he hce) hce fun x hx => hnext x (List.mem_cons_of_mem _ hx)
      · intro h
        constructor
        · apply h a List.mem_cons_self b (by simp) (hlt b (by simp))
          intro c hc hac
          rcases List.mem_cons.mp hc with rfl | hc
          · omega
          · rcases List.mem_cons.mp hc with rfl | hc
            · exact le_rfl
            · exact (hb c hc).le
        · intro c hc e he hce hnext
          apply h c (List.mem_cons_of_mem _ hc) e (List.mem_cons_of_mem _ he) hce
          exact fun x hx hcx => hnext x (hne c hc x hx hcx) hcx

end Sorted

section Definitions

variable {ω α : Type*}

/-- The lambda that the check sorts by, whose result is converted to a truth value. -/
def Packer.comparator (lhs rhs : ℕ × ℕ × Ptr ω α) : Bool := decide ((lhs.1 : ℤ) - rhs.2.1 ≠ 0)

/-- The deferred objects by their ids. With errors checked, the list is checked for its order. -/
def Packer.getDeferred (checking : Bool) (s : Packer ω α) :
    Except Fault (List (ℕ × ℕ × Ptr ω α)) :=
  let vect := s.deferred
  let sorted := isSorted Packer.comparator vect
  if checking && !sorted then .error .abort else .ok vect

variable [DecidableEq α] (h : Heap ω α) (v : Val (Ptr ω α))

/-- Ids increase, and each large object of the value has one entry. -/
structure Listed (ds : List (ℕ × ℕ × Ptr ω α)) : Prop where
  sorted : (ds.map Prod.fst).Pairwise (· < ·)
  large : ∀ d ∈ ds, Reach h v d.2.2 ∧ Large h d.2.2
  unique : ∀ p, Reach h v p → Large h p → ∃! d, d ∈ ds ∧ d.2.2.addr = p.addr

def ListsDeferred [DecidableEq ω] (checking : Bool) : Prop :=
  ∃ N, ∀ n ≥ N, ∃ s ds, pup h (pupObject h n) v { self := 0, deferrable := true } = .ok s ∧
    s.getDeferred checking = .ok ds ∧ Listed h v ds

/-- Each large object is met through one of the pointers. -/
def MeetsLarge (ps : List (Ptr ω α)) : Prop :=
  ∀ q, Reach h v q → Large h q → ∃! p, p ∈ ps ∧ p.addr = q.addr

/-- When one large object is met after another, it is the `n`-th of all where `n` is the size of
the other. -/
def Aligned (ps : List (Ptr ω α)) : Prop :=
  ∀ i j p q n, i < j → ps[i]? = some p → ps[j]? = some q → Pointee h (some (.bytes n)) p →
    kZeroCopySize ≤ n → Large h q →
    (∀ k r, i < k → k < j → ps[k]? = some r → ¬ Large h r) → n = j + 1

structure WellTyped (fields : ℕ → Ty) (h : Heap ω α) (v : Val (Ptr ω α)) (t : Ty) : Prop where
  hasTy : HasTy fields h v t
  objects : ∀ p o, Reach h v p → h.lookup p.addr = some o → o.HasTy fields h

end Definitions

section Entries

variable {ω α : Type*} [DecidableEq α] {h : Heap ω α} {ps : List (Ptr ω α)} {p : Ptr ω α}
variable {d e : ℕ × ℕ × Ptr ω α} {n : ℕ}

def largeSize (h : Heap ω α) (p : Ptr ω α) : Option ℕ :=
  match h.lookup p.addr with
  | some (.data (.bytes n) _) => if kZeroCopySize ≤ n then some n else none
  | _ => none

theorem largeSize_eq_some_iff :
    largeSize h p = some n ↔ Pointee h (some (.bytes n)) p ∧ kZeroCopySize ≤ n := by
  unfold largeSize Pointee
  split
  · next m w ho =>
    simp only [Option.ite_none_right_eq_some, Option.some.injEq, ho, Obj.data.injEq,
      Ty.bytes.injEq]
    constructor
    · rintro ⟨hle, rfl⟩
      exact ⟨⟨w, rfl, rfl⟩, hle⟩
    · rintro ⟨⟨_, rfl, _⟩, hle⟩
      exact ⟨hle, rfl⟩
  · next hno =>
    simp only [reduceCtorEq, false_iff, not_and]
    rintro ⟨w, hw⟩
    exact absurd hw (hno n w)

theorem large_iff : Large h p ↔ ∃ n, largeSize h p = some n := by
  simp only [Large, largeSize_eq_some_iff]

/-- The entries of the pointers through which owners are met, when the first ones are met. -/
def entries (h : Heap ω α) (ps : List (Ptr ω α)) : List (ℕ × ℕ × Ptr ω α) :=
  (ps.zipIdx 1).filterMap fun e => (largeSize h e.1).map fun n => (e.2, n, e.1)

theorem entries_append (h : Heap ω α) (ps : List (Ptr ω α)) (p : Ptr ω α) :
    entries h (ps ++ [p]) =
      entries h ps ++ ((largeSize h p).map fun n => (ps.length + 1, n, p)).toList := by
  unfold entries
  rw [List.zipIdx_append, List.filterMap_append, List.zipIdx_singleton, Nat.add_comm 1]
  cases hn : largeSize h p <;> simp [hn]

theorem mem_entries {id : ℕ} : (id, n, p) ∈ entries h ps ↔
    ∃ i, id = i + 1 ∧ ps[i]? = some p ∧ largeSize h p = some n := by
  simp only [entries, List.mem_filterMap, Prod.exists, Option.map_eq_some_iff, Prod.mk.injEq,
    List.mk_mem_zipIdx_iff_le_and_getElem?_sub]
  constructor
  · rintro ⟨q, j, ⟨hj, hq⟩, m, hm, rfl, rfl, rfl⟩
    exact ⟨j - 1, by omega, hq, hm⟩
  · rintro ⟨i, rfl, hp, hn⟩
    exact ⟨p, i + 1, ⟨by omega, hp⟩, n, hn, rfl, rfl, rfl⟩

theorem id_le_of_mem_entries (hd : d ∈ entries h ps) : d.1 ≤ ps.length := by
  obtain ⟨id, n, p⟩ := d
  obtain ⟨i, rfl, hp, -⟩ := mem_entries.mp hd
  exact (List.getElem?_eq_some_iff.mp hp).1

theorem sorted_entries (h : Heap ω α) (ps : List (Ptr ω α)) :
    ((entries h ps).map Prod.fst).Pairwise (· < ·) := by
  induction ps using List.reverseRecOn with
  | nil => exact .nil
  | append_singleton ps p ih =>
    rw [entries_append, List.map_append, List.pairwise_append]
    refine ⟨ih, ?_, ?_⟩
    · cases largeSize h p <;> simp
    · intro k hk j hj
      obtain ⟨d, hd, rfl⟩ := List.mem_map.mp hk
      have hle := id_le_of_mem_entries hd
      cases hn : largeSize h p with
      | none => simp [hn] at hj
      | some n =>
        obtain rfl : j = ps.length + 1 := by simpa [hn] using hj
        omega

end Entries

section Sizer

variable {ω α : Type*} [DecidableEq ω] [DecidableEq α] {h : Heap ω α} {fields : ℕ → Ty}
variable {s s' : Packer ω α} {V W : List (Ptr ω α)} {p : Ptr ω α} {o : Option ω} {ty : ℕ} {T : Ty}
variable {v : Val (Ptr ω α)} {t : Ty}

structure Reached (h : Heap ω α) (V : List (Ptr ω α)) (s : Packer ω α) : Prop where
  deferrable : s.deferrable = true
  keys : s.records.map Prod.fst = V.map Ptr.owner
  own : ∀ e ∈ s.records, e.2.progenitor = s.self
  deferred : s.deferred = entries h V

omit [DecidableEq ω] in
theorem Reached.copy (hs : Reached h V s) (cs : List Cell) : Reached h V (s.copy cs) :=
  ⟨hs.deferrable, hs.keys, hs.own, hs.deferred⟩

theorem Reached.setRecord (hs : Reached h V s) (o : Option ω) {r : PtrRecord}
    (hr : r.progenitor = s.self) : Reached h V (s.setRecord o r) where
  deferrable := hs.deferrable
  keys := (map_fst_setRecord s o r).trans hs.keys
  own := own_setRecord hr hs.own
  deferred := hs.deferred

theorem Reached.again (hs : Reached h V s) (ho : o ∈ V.map Ptr.owner) (ty : ℕ) :
    (s.getRecord o ty).1.kind ≠ .instance ∧ Reached h V (s.getRecord o ty).2 := by
  rw [← hs.keys] at ho
  obtain ⟨e, he, rfl⟩ := List.mem_map.mp ho
  obtain ⟨r, hr⟩ : ∃ r, s.records.lookup e.1 = some r :=
    Option.isSome_iff_exists.mp (List.lookup_isSome_iff.mpr ⟨e, he, by simp⟩)
  obtain ⟨l₁, l₂, hl, -⟩ := List.lookup_eq_some_iff.mp hr
  have hown : r.progenitor = s.self := hs.own (e.1, r) (by simp [hl])
  rw [getRecord_own hr hown]
  constructor
  · dsimp only
    split_ifs with hk
    · simp
    · exact hk
  · apply hs.setRecord
    split_ifs <;> exact hown

theorem upsert_append {β : Type*} {k : ℕ} (f : Option β → β) {l : List (ℕ × β)}
    (hl : ∀ e ∈ l, e.1 < k) : upsert k f l = l ++ [(k, f none)] := by
  induction l with
  | nil => rfl
  | cons e l ih =>
    obtain ⟨j, y⟩ := e
    have hj : j < k := hl (j, y) List.mem_cons_self
    rw [upsert, if_neg (by omega), if_neg (by omega),
      ih fun e he => hl e (List.mem_cons_of_mem _ he), List.cons_append]

omit [DecidableEq ω] in
theorem largeSize_eq {x : Obj (Ptr ω α)} (hx : h.lookup p.addr = some x) :
    largeSize h p = if x.dataTy.defers true then some x.dataTy.width else none := by
  unfold largeSize
  rw [hx]
  cases x with
  | poly c w => rfl
  | data T w => cases T <;> simp [Obj.dataTy, Ty.defers, Ty.width]

theorem Reached.first (hs : Reached h V s) (ho : p.owner ∉ V.map Ptr.owner) {x : Obj (Ptr ω α)}
    (hx : h.lookup p.addr = some x)
    {follow : α → Packer ω α → Except Fault (Packer ω α)}
    (hok : pupPtr follow x.dataTy p ty s = .ok s') :
    x.dataTy.defers true = true ∧ Reached h (V ++ [p]) s' ∨
      ∃ s₁, follow p.addr s₁ = .ok s' ∧ Reached h (V ++ [p]) s₁ := by
  have hlen : s.records.length = V.length := by
    rw [← List.length_map (f := Prod.fst), hs.keys, List.length_map]
  have hnone : s.records.lookup p.owner = none := lookup_eq_none_of_notMem hs.keys ho
  unfold pupPtr at hok
  rw [getRecord_none hnone, hlen] at hok
  set r : PtrRecord := ⟨.instance, V.length + 1, ty, s.self⟩
  set s₁ : Packer ω α := { s with records := s.records ++ [(p.owner, r)] } with hs₁
  have hkeys : s₁.records.map Prod.fst = (V ++ [p]).map Ptr.owner := by simp [hs₁, hs.keys]
  have hown : ∀ e ∈ s₁.records, e.2.progenitor = s₁.self := by
    intro e he
    rcases List.mem_append.mp he with he | he
    · exact hs.own e he
    · rw [List.mem_singleton.mp he]
  have hentries := entries_append h V p
  rw [largeSize_eq hx] at hentries
  rw [if_pos rfl] at hok
  by_cases hd : x.dataTy.defers true = true
  · refine .inl ⟨hd, ?_⟩
    rw [if_pos hd] at hentries
    obtain ⟨n, hn, hle⟩ : ∃ n, x.dataTy = .bytes n ∧ kZeroCopySize ≤ n := by
      cases hT : x.dataTy with
      | bytes n => exact ⟨n, rfl, by simpa [hT, Ty.defers] using hd⟩
      | _ => simp [hT, Ty.defers] at hd
    have hcond : s₁.deferrable = true ∧ kZeroCopySize ≤ n := ⟨hs.deferrable, hle⟩
    rw [hn, packInstance, if_pos hcond] at hok
    obtain rfl := Except.ok.inj hok
    have hlt : ∀ e ∈ s.deferred, e.1 < V.length + 1 := by
      rw [hs.deferred]
      exact fun e he => Nat.lt_succ_of_le (id_le_of_mem_entries he)
    refine ⟨hs.deferrable, (map_fst_setRecord s₁ _ _).trans hkeys, own_setRecord ?_ hown, ?_⟩
    · exact rfl
    · change upsert (V.length + 1) _ s.deferred = _
      rw [upsert_append _ hlt, hentries, hs.deferred, hn]
      rfl
  · refine .inr ⟨s₁.copy r.cells, ?_, hs.deferrable, hkeys, hown, ?_⟩
    · cases hT : x.dataTy with
      | bytes n =>
        have hcond : ¬ (s₁.deferrable = true ∧ kZeroCopySize ≤ n) := by
          rintro ⟨-, hle⟩
          exact hd (by simpa [hT, Ty.defers] using hle)
        rw [hT, packInstance, if_neg hcond] at hok
        exact hok
      | _ =>
        rw [hT] at hok
        exact hok
    · rw [if_neg hd] at hentries
      change s.deferred = _
      rw [hs.deferred, hentries]
      simp

theorem Reached.pupPtr {follow : α → Packer ω α → Except Fault (Packer ω α)} (hs : Reached h V s)
    {x : Obj (Ptr ω α)} (hx : h.lookup p.addr = some x) (hxt : x.HasTy fields h)
    (hf : ∀ V s s', Reached h V s → follow p.addr s = .ok s' →
      ∃ W, Visits h x.value.ptrs V W ∧ Reached h W s')
    (hok : pupPtr follow x.dataTy p ty s = .ok s') :
    ∃ W, Visits h [p] V W ∧ Reached h W s' := by
  by_cases ho : p.owner ∈ V.map Ptr.owner
  · obtain ⟨hk, hs₁⟩ := hs.again ho ty
    unfold Serialization.pupPtr at hok
    rw [if_neg hk] at hok
    exact ⟨V, .again ho (.nil V), Except.ok.inj hok ▸ hs₁.copy _⟩
  · rcases hs.first ho hx hok with ⟨hd, hs'⟩ | ⟨s₁, hok, hs₁⟩
    · refine ⟨V ++ [p], .first ho hx ?_ (.nil _), hs'⟩
      rw [ptrs_eq_nil_of_defers hxt (by cases x <;> exact hd)]
      exact .nil _
    · obtain ⟨W, hW, hs'⟩ := hf _ _ _ hs₁ hok
      exact ⟨W, .first ho hx hW (.nil W), hs'⟩

theorem Reached.pup {follow : α → Packer ω α → Except Fault (Packer ω α)} (hs : Reached h V s)
    (hv : Typed fields h v)
    (hf : ∀ p ∈ v.ptrs, ∀ x, h.lookup p.addr = some x → x.HasTy fields h ∧
      ∀ V s s', Reached h V s → follow p.addr s = .ok s' →
        ∃ W, Visits h x.value.ptrs V W ∧ Reached h W s')
    (hok : pup h follow v s = .ok s') : ∃ W, Visits h v.ptrs V W ∧ Reached h W s' := by
  induction v generalizing V s s' with
  | bytes b | builtin b | uniqueNull =>
    exact ⟨V, .nil V, Except.ok.inj hok ▸ hs.copy _⟩
  | unit | nil => exact ⟨V, .nil V, Except.ok.inj hok ▸ hs⟩
  | pair a b iha ihb =>
    rw [Val.ptrs_pair] at hf ⊢
    obtain ⟨s₁, ha, hb⟩ := bind_eq_ok.mp hok
    obtain ⟨W, hW, hs₁⟩ := iha hs hv.pair.1 (fun p hp => hf p (List.mem_append_left _ hp)) ha
    obtain ⟨U, hU, hs'⟩ := ihb hs₁ hv.pair.2 (fun p hp => hf p (List.mem_append_right _ hp)) hb
    exact ⟨U, visits_append.mpr ⟨W, hW, hU⟩, hs'⟩
  | cons a b iha ihb =>
    rw [Val.ptrs_cons] at hf ⊢
    obtain ⟨s₁, ha, hb⟩ := bind_eq_ok.mp hok
    obtain ⟨W, hW, hs₁⟩ := iha hs hv.cons.1 (fun p hp => hf p (List.mem_append_left _ hp)) ha
    obtain ⟨U, hU, hs'⟩ := ihb hs₁ hv.cons.2 (fun p hp => hf p (List.mem_append_right _ hp)) hb
    exact ⟨U, visits_append.mpr ⟨W, hW, hU⟩, hs'⟩
  | list l ih => exact ih (hs.copy _) hv.list hf hok
  | map l ih => exact ih (hs.copy _) hv.map hf hok
  | unique l ih => exact ih (hs.copy _) hv.unique hf hok
  | poly c l ih => exact ih (hs.copy _) hv.poly hf hok
  | polyNull => cases hok
  | shared T p =>
    cases p with
    | none => exact ⟨V, .nil V, Except.ok.inj hok ▸ hs.copy _⟩
    | some p =>
      rw [Val.ptrs_shared] at hf ⊢
      obtain ⟨w, hw⟩ := hv.shared
      obtain ⟨hxt, hf⟩ := hf p (by simp) _ hw
      exact hs.pupPtr hw hxt hf hok
  | sharedPoly p =>
    cases p with
    | none => exact ⟨V, .nil V, Except.ok.inj hok ▸ hs.copy _⟩
    | some p =>
      rw [Val.ptrs_sharedPoly] at hf ⊢
      obtain ⟨c, w, hw⟩ := hv.sharedPoly
      obtain ⟨hxt, hf⟩ := hf p (by simp) _ hw
      rw [pup_sharedPoly (by simp [identify, hw] : identify h p.addr = some c)] at hok
      exact hs.pupPtr hw hxt hf hok

theorem Reached.pupObject {G : Ptr ω α → Prop} (hstep : ∀ p q, G p → Edge h p q → G q)
    (hobj : ∀ p x, G p → h.lookup p.addr = some x → x.HasTy fields h) (n : ℕ) :
    ∀ p x, G p → h.lookup p.addr = some x → ∀ V s s', Reached h V s →
      pupObject h n p.addr s = .ok s' → ∃ W, Visits h x.value.ptrs V W ∧ Reached h W s' := by
  induction n with
  | zero =>
    intro p x _ _ V s s' _ hok
    cases hok
  | succ n ih =>
    intro p x hp hx V s s' hs hok
    unfold Serialization.pupObject at hok
    rw [hx] at hok
    refine hs.pup (hobj p x hp hx).typed (fun q hq y hy => ?_) hok
    have hq := hstep p q hp ⟨x, hx, hq⟩
    exact ⟨hobj q y hq hy, ih q y hq hy⟩

end Sizer

section Result

variable {ω α : Type*} [DecidableEq ω] [DecidableEq α] {h : Heap ω α} {fields : ℕ → Ty}
variable {v : Val (Ptr ω α)} {t : Ty} {ps : List (Ptr ω α)} {p : Ptr ω α} {s : Packer ω α}
variable {ds : List (ℕ × ℕ × Ptr ω α)} {n : ℕ}

omit [DecidableEq ω] in
theorem WellTyped.exists_object (hv : WellTyped fields h v t) (hp : Reach h v p) :
    ∃ x, h.lookup p.addr = some x ∧ x.HasTy fields h := by
  have held {w : Val (Ptr ω α)} (hw : Typed fields h w) (hp : p ∈ w.ptrs) :
      ∃ x, h.lookup p.addr = some x := by
    obtain ⟨q, hq, rfl⟩ := List.mem_map.mp hp
    exact Option.isSome_iff_exists.mp (hw.pointee q hq).isSome
  obtain ⟨x, hx⟩ : ∃ x, h.lookup p.addr = some x := by
    cases hp with
    | root hp => exact held ⟨t, .inl hv.hasTy⟩ hp
    | step hq he =>
      obtain ⟨o, ho, hp⟩ := he
      exact held (hv.objects _ o hq ho).typed hp
  exact ⟨x, hx, hv.objects p x hp hx⟩

theorem WellTyped.exists_pup (hv : WellTyped fields h v t) : ∃ N, ∀ n ≥ N, ∃ s,
    pup h (pupObject h n) v { self := 0, deferrable := true } = .ok s := by
  have hS : ∀ q, Reach h v q → q.owner ∈ (ownersIn h v).toFinset :=
    fun q hq => List.mem_toFinset.mpr hq.owner_mem
  refine ⟨(ownersIn h v).toFinset.card, fun n hn => ?_⟩
  apply Serialization.exists_pup hS (fun _ _ _ => grows_pupObject n) _ (fun q hq => .root hq)
    ⟨t, .inl hv.hasTy⟩ ((Finset.card_filter_le _ _).trans hn)
  apply exists_pupObject hS (fun _ _ hq he => hq.step he)
  intro q hq
  obtain ⟨x, hx, hxt⟩ := hv.exists_object hq
  exact ⟨x, hx, hxt.typed⟩

/-- A sizer of a value meets the owners through the pointers that visit them. -/
theorem WellTyped.reached (hv : WellTyped fields h v t)
    (hok : pup h (pupObject h n) v { self := 0, deferrable := true } = .ok s) :
    ∃ ps, Visits h v.ptrs [] ps ∧ Reached h ps s := by
  have hstart : Reached h [] ({ self := 0, deferrable := true } : Packer ω α) :=
    ⟨rfl, rfl, List.forall_mem_nil _, rfl⟩
  refine hstart.pup ⟨t, .inl hv.hasTy⟩ (fun p hp x hx => ?_) hok
  have hp : Reach h v p := .root hp
  exact ⟨hv.objects p x hp hx,
    Reached.pupObject (fun _ _ hq he => hq.step he) hv.objects n p x hp hx⟩

omit [DecidableEq ω] in
theorem listed_entries (hr : ∀ p ∈ ps, Reach h v p) (hnd : ps.Nodup) :
    Listed h v (entries h ps) ↔ MeetsLarge h v ps := by
  have entry {p : Ptr ω α} {i n : ℕ} (hi : ps[i]? = some p) (hn : largeSize h p = some n) :
      (i + 1, n, p) ∈ entries h ps := mem_entries.mpr ⟨i, rfl, hi, hn⟩
  constructor
  · intro hl q hq hlarge
    obtain ⟨⟨id, n, p⟩, ⟨hd, ha⟩, huniq⟩ := hl.unique q hq hlarge
    obtain ⟨i, rfl, hi, hn⟩ := mem_entries.mp hd
    refine ⟨p, ⟨List.mem_of_getElem? hi, ha⟩, ?_⟩
    rintro p' ⟨hp', ha'⟩
    obtain ⟨j, hj⟩ := List.mem_iff_getElem?.mp hp'
    have hn' : largeSize h p' = some n := by
      unfold largeSize at hn ⊢
      rwa [ha', ← ha]
    have := huniq _ ⟨entry hj hn', ha'⟩
    simp only [Prod.mk.injEq] at this
    exact this.2.2
  · intro hm
    refine ⟨sorted_entries h ps, ?_, ?_⟩
    · rintro ⟨id, n, p⟩ hd
      obtain ⟨i, rfl, hi, hn⟩ := mem_entries.mp hd
      exact ⟨hr p (List.mem_of_getElem? hi), large_iff.mpr ⟨n, hn⟩⟩
    · intro q hq hlarge
      obtain ⟨p, ⟨hp, ha⟩, huniq⟩ := hm q hq hlarge
      obtain ⟨i, hi⟩ := List.mem_iff_getElem?.mp hp
      obtain ⟨n, hn⟩ : ∃ n, largeSize h p = some n := by
        apply large_iff.mp
        obtain ⟨n, hn, hle⟩ := hlarge
        exact ⟨n, by rwa [Pointee, ha], hle⟩
      refine ⟨(i + 1, n, p), ⟨entry hi hn, ha⟩, ?_⟩
      rintro ⟨id, m, p'⟩ ⟨hd, ha'⟩
      obtain ⟨j, rfl, hj, hm'⟩ := mem_entries.mp hd
      obtain rfl := huniq p' ⟨List.mem_of_getElem? hj, ha'⟩
      obtain ⟨hlt, -⟩ := List.getElem?_eq_some_iff.mp hi
      obtain rfl : i = j := (List.getElem?_inj hlt hnd).mp (hi.trans hj.symm)
      cases hn.symm.trans hm'
      rfl

omit [DecidableEq ω] in
theorem isSorted_entries : isSorted Packer.comparator (entries h ps) = true ↔ Aligned h ps := by
  rw [isSorted_iff _ Prod.fst (sorted_entries h ps)]
  constructor
  · intro hsorted i j p q n hij hi hj hn hle hlq hbetween
    obtain ⟨m, hm⟩ := large_iff.mp hlq
    have hcomp := hsorted _ (mem_entries.mpr ⟨i, rfl, hi, largeSize_eq_some_iff.mpr ⟨hn, hle⟩⟩) _
      (mem_entries.mpr ⟨j, rfl, hj, hm⟩) (by dsimp only; omega) ?_
    · simp only [Packer.comparator, ne_eq, decide_eq_false_iff_not, not_not] at hcomp
      omega
    · rintro ⟨id, l, r⟩ hc hlt
      obtain ⟨k, rfl, hk, hl⟩ := mem_entries.mp hc
      by_contra hnot
      exact hbetween k r (by dsimp only at hlt; omega) (by dsimp only at hnot; omega) hk
        (large_iff.mpr ⟨l, hl⟩)
  · rintro haligned ⟨_, n, p⟩ ha ⟨_, m, q⟩ hb hlt hnext
    obtain ⟨i, rfl, hi, hn⟩ := mem_entries.mp ha
    obtain ⟨j, rfl, hj, hm⟩ := mem_entries.mp hb
    dsimp only at hlt hnext
    obtain ⟨hpn, hle⟩ := largeSize_eq_some_iff.mp hn
    have heq := haligned i j p q n (by omega) hi hj hpn hle (large_iff.mpr ⟨m, hm⟩) ?_
    · simp only [Packer.comparator, ne_eq, decide_eq_false_iff_not, not_not]
      omega
    · intro k r hik hkj hk hlr
      obtain ⟨l, hl⟩ := large_iff.mp hlr
      have := hnext _ (mem_entries.mpr ⟨k, rfl, hk, hl⟩) (by omega)
      omega

omit [DecidableEq ω] [DecidableEq α] in
theorem getDeferred_eq_ok_iff {checking : Bool} : s.getDeferred checking = .ok ds ↔
    (checking = true → isSorted Packer.comparator s.deferred = true) ∧ ds = s.deferred := by
  unfold Packer.getDeferred
  cases checking <;> cases hsorted : isSorted Packer.comparator s.deferred <;>
    simp [hsorted, eq_comm (a := ds)]

/-- The large objects of a value are listed in the order of their ids if and only if each of them
is met through exactly one pointer. With errors checked, each has to be met at the position that
the size of the one before says as well. -/
theorem listsDeferred_iff (hv : WellTyped fields h v t) (checking : Bool) :
    ListsDeferred h v checking ↔ ∃ ps, Visits h v.ptrs [] ps ∧ MeetsLarge h v ps ∧
      (checking = true → Aligned h ps) := by
  have outcome {n : ℕ} {s : Packer ω α}
      (hok : pup h (pupObject h n) v { self := 0, deferrable := true } = .ok s) :
      ∃ ps, Visits h v.ptrs [] ps ∧ ((∃ ds, s.getDeferred checking = .ok ds ∧ Listed h v ds) ↔
        MeetsLarge h v ps ∧ (checking = true → Aligned h ps)) := by
    obtain ⟨ps, hps, hr⟩ := hv.reached hok
    have hreach := hps.mem (fun _ _ hq he => hq.step he) (fun p hp => Reach.root hp)
      (List.forall_mem_nil _)
    have hnd : ps.Nodup := (hps.nodup .nil).of_map
    refine ⟨ps, hps, ?_⟩
    rw [← listed_entries hreach hnd, ← isSorted_entries, ← hr.deferred]
    constructor
    · rintro ⟨ds, hds, hl⟩
      obtain ⟨hsorted, rfl⟩ := getDeferred_eq_ok_iff.mp hds
      exact ⟨hl, hsorted⟩
    · rintro ⟨hl, hsorted⟩
      exact ⟨_, getDeferred_eq_ok_iff.mpr ⟨hsorted, rfl⟩, hl⟩
  obtain ⟨N, hN⟩ := hv.exists_pup
  constructor
  · rintro ⟨M, hM⟩
    obtain ⟨s, ds, hok, hds, hl⟩ := hM M le_rfl
    obtain ⟨ps, hps, hiff⟩ := outcome hok
    exact ⟨ps, hps, hiff.mp ⟨ds, hds, hl⟩⟩
  · rintro ⟨ps, hps, hrest⟩
    refine ⟨N, fun n hn => ?_⟩
    obtain ⟨s, hok⟩ := hN n hn
    obtain ⟨ps', hps', hiff⟩ := outcome hok
    obtain rfl := hps.eq hps'
    obtain ⟨ds, hds, hl⟩ := hiff.mpr hrest
    exact ⟨s, ds, hok, hds, hl⟩

end Result

section Far

variable {ω α : Type*} [DecidableEq α] {h : Heap ω α} {ps V : List (Ptr ω α)}

theorem visits_leaves (hps : ∀ p ∈ ps, ∃ o, h.lookup p.addr = some o ∧ o.value.ptrs = [])
    (hnd : ((V ++ ps).map Ptr.owner).Nodup) : Visits h ps V (V ++ ps) := by
  induction ps generalizing V with
  | nil =>
    rw [List.append_nil]
    exact .nil V
  | cons p ps ih =>
    obtain ⟨o, ho, hptrs⟩ := hps p List.mem_cons_self
    have hnew : p.owner ∉ V.map Ptr.owner := by
      rw [List.map_append, List.nodup_append] at hnd
      exact fun hm => hnd.2.2 _ hm _ (by simp) rfl
    rw [List.append_cons] at hnd ⊢
    apply Visits.first hnew ho (W := V ++ [p])
    · rw [hptrs]
      exact .nil _
    · exact ih (fun q hq => hps q (List.mem_cons_of_mem _ hq)) hnd

theorem lookup_map_self {β : Type*} (f : α → β) {l : List α} {a : α} (ha : a ∈ l) :
    (l.map fun a => (a, f a)).lookup a = some (f a) := by
  induction l with
  | nil => cases ha
  | cons b l ih =>
    rw [List.map_cons, List.lookup_cons]
    split
    · next hab =>
      rw [eq_of_beq hab]
    · next hab =>
      exact ih ((List.mem_cons.mp ha).resolve_left (beq_eq_false_iff_ne.mp hab))

def single (a : ℕ) : Ptr ℕ ℕ := ⟨some a, a⟩

def smallTy : Ty := .shared (.bytes 1)

def largeTy : Ty := .shared (.bytes kZeroCopySize)

def largeAt (a : ℕ) : Val (Ptr ℕ ℕ) := .shared (.bytes kZeroCopySize) (some (single a))

def smallsAt : List ℕ → Val (Ptr ℕ ℕ)
  | [] => .nil
  | a :: l => .cons (.shared (.bytes 1) (some (single a))) (smallsAt l)

def farHeap (n : ℕ) : Heap ℕ ℕ := (List.range n).map fun a =>
  (a, if a = 0 ∨ a + 1 = n then zeros else .data (.bytes 1) (.bytes [7]))

/-- A pointer to a large object, a list of pointers to bytes, and a pointer to a large object. -/
def far (n : ℕ) : Val (Ptr ℕ ℕ) :=
  .pair (largeAt 0) (.pair (.list (smallsAt (List.range' 1 (n - 2)))) (largeAt (n - 1)))

variable {n a : ℕ}

theorem ptrs_smallsAt (l : List ℕ) : (smallsAt l).ptrs = l.map single := by
  induction l with
  | nil => rfl
  | cons a l ih => simp [smallsAt, ih]

theorem ptrs_far (hn : 2 ≤ n) : (far n).ptrs = (List.range n).map single := by
  obtain ⟨m, rfl⟩ := Nat.exists_eq_add_of_le' hn
  have hrange : List.range (m + 2) = 0 :: (List.range' 1 m ++ [m + 1]) := by
    rw [List.range_eq_range', List.range'_succ, List.range'_concat]
    simp [Nat.add_comm]
  simp [far, largeAt, ptrs_smallsAt, hrange]

theorem lookup_farHeap (ha : a < n) : (farHeap n).lookup a =
    some (if a = 0 ∨ a + 1 = n then zeros else .data (.bytes 1) (.bytes [7])) :=
  lookup_map_self _ (List.mem_range.mpr ha)

theorem lookup_zeros (ha : a < n) (hend : a = 0 ∨ a + 1 = n) :
    (farHeap n).lookup a = some zeros := by
  rw [lookup_farHeap ha, if_pos hend]

theorem lookup_small (ha : a < n) (hend : ¬ (a = 0 ∨ a + 1 = n)) :
    (farHeap n).lookup a = some (.data (.bytes 1) (.bytes [7])) := by
  rw [lookup_farHeap ha, if_neg hend]

theorem large_zeros_iff {p : Ptr ℕ ℕ} (hp : p.addr < n) :
    Large (farHeap n) p ↔ p.addr = 0 ∨ p.addr + 1 = n := by
  rw [large_iff, largeSize]
  by_cases hend : p.addr = 0 ∨ p.addr + 1 = n
  · simp only [lookup_zeros hp hend, zeros, hend, iff_true]
    exact ⟨kZeroCopySize, if_pos le_rfl⟩
  · rw [lookup_small hp hend]
    simp only [hend, iff_false, not_exists]
    intro m hm
    rw [if_neg (by decide)] at hm
    cases hm

theorem value_ptrs_farHeap {p : Ptr ℕ ℕ} {o : Obj (Ptr ℕ ℕ)}
    (ho : (farHeap n).lookup p.addr = some o) : o.value.ptrs = [] := by
  obtain ⟨l₁, l₂, hl, -⟩ := List.lookup_eq_some_iff.mp ho
  have hmem : (p.addr, o) ∈ farHeap n := hl ▸ List.mem_append_right _ List.mem_cons_self
  obtain ⟨a, -, he⟩ := List.mem_map.mp hmem
  obtain ⟨-, rfl⟩ := Prod.mk.inj he
  split_ifs <;> rfl

theorem reach_far (hn : 2 ≤ n) {p : Ptr ℕ ℕ} (hp : Reach (farHeap n) (far n) p) :
    p = single p.addr ∧ p.addr < n := by
  cases hp with
  | root hp =>
    rw [ptrs_far hn] at hp
    obtain ⟨a, ha, rfl⟩ := List.mem_map.mp hp
    exact ⟨rfl, List.mem_range.mp ha⟩
  | step _ he =>
    obtain ⟨o, ho, hp⟩ := he
    rw [value_ptrs_farHeap ho] at hp
    cases hp

theorem elems_smallsAt {l : List ℕ} (hl : ∀ a ∈ l, a < n ∧ ¬ (a = 0 ∨ a + 1 = n)) :
    Elems (fun _ => .unit) (farHeap n) (smallsAt l) smallTy := by
  induction l with
  | nil => exact .nil _
  | cons a l ih =>
    obtain ⟨ha, hend⟩ := hl a List.mem_cons_self
    exact .cons (.shared (lookup_small ha hend)) (ih fun b hb => hl b (List.mem_cons_of_mem _ hb))

theorem hasTy_largeAt {h : Heap ℕ ℕ} (ha : h.lookup a = some zeros) :
    HasTy (fun _ => .unit) h (largeAt a) largeTy := .shared ha

theorem hasTy_far (hn : 2 ≤ n) : HasTy (fun _ => .unit) (farHeap n) (far n)
    (.pair largeTy (.pair (.list smallTy) largeTy)) := by
  have hfirst : HasTy (fun _ => .unit) (farHeap n) (largeAt 0) largeTy :=
    hasTy_largeAt (lookup_zeros (Nat.zero_lt_of_lt hn) (.inl rfl))
  have hlast : HasTy (fun _ => .unit) (farHeap n) (largeAt (n - 1)) largeTy :=
    hasTy_largeAt (lookup_zeros (by omega) (by omega))
  have hsmalls : HasTy (fun _ => .unit) (farHeap n) (.list (smallsAt (List.range' 1 (n - 2))))
      (.list smallTy) := by
    apply HasTy.list
    apply elems_smallsAt
    intro a ha
    rw [List.mem_range'_1] at ha
    omega
  exact .pair hfirst (.pair hsmalls hlast)

theorem hasTy_of_farHeap {o : Obj (Ptr ℕ ℕ)} (ha : a < n) (ho : (farHeap n).lookup a = some o) :
    o.HasTy (fun _ => .unit) (farHeap n) := by
  by_cases hend : a = 0 ∨ a + 1 = n
  · rw [Option.some.inj (ho.symm.trans (lookup_zeros ha hend))]
    exact zeros_hasTy _ _
  · rw [Option.some.inj (ho.symm.trans (lookup_small ha hend))]
    exact .bytes rfl

theorem wellTyped_far (hn : 2 ≤ n) : WellTyped (fun _ => .unit) (farHeap n) (far n)
    (.pair largeTy (.pair (.list smallTy) largeTy)) :=
  ⟨hasTy_far hn, fun _ _ hp ho => hasTy_of_farHeap (reach_far hn hp).2 ho⟩

theorem visits_far (hn : 2 ≤ n) :
    Visits (farHeap n) (far n).ptrs [] ((List.range n).map single) := by
  rw [ptrs_far hn]
  refine visits_leaves (V := []) ?_ ?_
  · intro p hp
    obtain ⟨a, ha, rfl⟩ := List.mem_map.mp hp
    have hlook := lookup_farHeap (List.mem_range.mp ha)
    exact ⟨_, hlook, value_ptrs_farHeap (p := single a) hlook⟩
  · rw [List.nil_append, List.map_map]
    exact List.nodup_range.map fun a b hab => Option.some.inj hab

theorem meetsLarge_far (hn : 2 ≤ n) :
    MeetsLarge (farHeap n) (far n) ((List.range n).map single) := by
  intro q hq _
  obtain ⟨hq, hlt⟩ := reach_far hn hq
  refine ⟨q, ⟨List.mem_map.mpr ⟨q.addr, List.mem_range.mpr hlt, hq.symm⟩, rfl⟩, ?_⟩
  rintro p ⟨hp, ha⟩
  obtain ⟨a, -, rfl⟩ := List.mem_map.mp hp
  rw [hq, ← ha]
  rfl

theorem aligned_far (hn : kZeroCopySize = n) :
    Aligned (farHeap n) ((List.range n).map single) := by
  have hptr (i : ℕ) {p : Ptr ℕ ℕ} (hi : ((List.range n).map single)[i]? = some p) :
      p = single i ∧ i < n := by
    obtain ⟨hlt, rfl⟩ := List.getElem?_eq_some_iff.mp hi
    exact ⟨by simp, by simpa using hlt⟩
  intro i j p q m hij hi hj hm hle hlq _
  obtain ⟨rfl, hin⟩ := hptr i hi
  obtain ⟨rfl, hjn⟩ := hptr j hj
  -- the second of the two is the last of all
  have hlast : j + 1 = n := ((large_zeros_iff hjn).mp hlq).resolve_left
    (by dsimp only [single]; omega)
  have hfirst : i = 0 ∨ i + 1 = n := (large_zeros_iff hin).mp ⟨m, hm, hle⟩
  obtain ⟨w, hw⟩ := hm
  have hsize : zeros.dataTy = .bytes m := by
    rw [Option.some.inj ((lookup_zeros hin hfirst).symm.trans hw)]
    rfl
  exact (Ty.bytes.inj hsize).symm.trans (hn.trans hlast.symm)

/-- Two large objects are listed, when the second is met at the position that is the size of the
first. -/
theorem far_listsDeferred : ListsDeferred (farHeap kZeroCopySize) (far kZeroCopySize) true := by
  have hn : 2 ≤ kZeroCopySize := by decide
  exact (listsDeferred_iff (wellTyped_far hn) true).mpr
    ⟨_, visits_far hn, meetsLarge_far hn, fun _ => aligned_far rfl⟩

/-- Two large objects that are met one after the other do not pass the check. -/
theorem two_not_listsDeferred : WellTyped (fun _ => .unit) (farHeap 2) (far 2)
      (.pair largeTy (.pair (.list smallTy) largeTy)) ∧
    ¬ ListsDeferred (farHeap 2) (far 2) true := by
  refine ⟨wellTyped_far le_rfl, ?_⟩
  rintro ⟨N, hN⟩
  obtain ⟨s, ds, hpup, hget, -⟩ := hN N le_rfl
  obtain ⟨records, written, hrun⟩ : ∃ records written,
      pup (farHeap 2) (pupObject (farHeap 2) N) (far 2) { self := 0, deferrable := true } =
        .ok ⟨0, true, records, [(1, kZeroCopySize, single 0), (2, kZeroCopySize, single 1)],
          written⟩ := ⟨_, _, rfl⟩
  obtain rfl := Except.ok.inj (hrun.symm.trans hpup)
  have hsorted : isSorted Packer.comparator [(1, kZeroCopySize, single 0),
      (2, kZeroCopySize, single 1)] = true := (getDeferred_eq_ok_iff.mp hget).1 rfl
  exact absurd hsorted (by decide)

end Far

end Hypercomm.Serialization
