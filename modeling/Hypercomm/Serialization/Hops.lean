import Hypercomm.Serialization.RoundTrip

/-! # Sending on what was received

The objects of a received value are told apart by their owners again, except that the
message owns all trivially copyable ones. A received value can therefore be packed again
only when it has at most one of these.
-/

namespace Hypercomm.Serialization

variable {ω α : Type*} [DecidableEq α] {ω' α' : Type*} [DecidableEq α']
variable {fields : ℕ → Ty} {h : Heap ω α} {h' : Heap ω' α'} {v : Val (Ptr ω α)}
variable {v' : Val (Ptr ω' α')} {f g : Ptr ω α → Ptr ω' α'} {t : Ty} {d : Bool}

section Copies

theorem Val.eq_of_rename_eq_rename {P Q : Type*} {f g : P → Q} {v : Val P}
    (h : v.rename f = v.rename g) : ∀ p ∈ v.ptrs, f p = g p := by
  intro p hp
  have hptrs := congrArg Val.ptrs h
  rw [Val.ptrs_rename, Val.ptrs_rename] at hptrs
  exact List.map_inj_left.mp hptrs p hp

@[simp] theorem Val.safe_rename {P Q : Type*} (f : P → Q) (v : Val P) (slot : Slot) :
    (v.rename f).Safe d slot ↔ v.Safe d slot := by
  induction v generalizing slot with
  | pair a b iha ihb | cons a b iha ihb => simp only [rename, Safe, iha, ihb]
  | list l ih | map l ih | unique v ih | poly c v ih => simp only [rename, Safe, ih]
  | shared t p | sharedPoly p => cases p <;> exact Iff.rfl
  | _ => exact Iff.rfl

theorem Obj.safe_rename {P Q : Type*} (f : P → Q) (o : Obj P) :
    (o.rename f).Safe d ↔ o.Safe d := by
  cases o <;> simp [rename, Safe]

theorem CopyOf.pointee_iff (hc : CopyOf h v h' v' f) {p : Ptr ω α} (hp : Reach h v p)
    (k : Option Ty) : Pointee h' k (f p) ↔ Pointee h k p := by
  cases k with
  | none =>
    simp only [Pointee, hc.object p hp, Option.map_eq_some_iff]
    constructor
    · rintro ⟨c, w, o, ho, he⟩
      cases o <;> cases he
      exact ⟨_, _, ho⟩
    · rintro ⟨c, w, ho⟩
      exact ⟨c, _, _, ho, rfl⟩
  | some s =>
    simp only [Pointee, hc.object p hp, Option.map_eq_some_iff]
    constructor
    · rintro ⟨w, o, ho, he⟩
      cases o <;> cases he
      exact ⟨_, ho⟩
    · rintro ⟨w, ho⟩
      exact ⟨_, _, ho, rfl⟩

theorem isBytes_iff_pointee {p : Ptr ω α} : IsBytes h p ↔ ∃ n, Pointee h (some (.bytes n)) p :=
  Iff.rfl

theorem CopyOf.isBytes_iff (hc : CopyOf h v h' v' f) {p : Ptr ω α} (hp : Reach h v p) :
    IsBytes h' (f p) ↔ IsBytes h p := by
  simp only [isBytes_iff_pointee, hc.pointee_iff hp]

theorem CopyOf.edge_iff (hc : CopyOf h v h' v' f) {p : Ptr ω α} (hp : Reach h v p)
    {q' : Ptr ω' α'} : Edge h' (f p) q' ↔ ∃ q, Edge h p q ∧ f q = q' := by
  simp only [Edge, hc.object p hp, Option.map_eq_some_iff]
  constructor
  · rintro ⟨_, ⟨o, ho, rfl⟩, hq⟩
    rw [Obj.value_rename, Val.ptrs_rename] at hq
    obtain ⟨q, hqo, rfl⟩ := List.mem_map.mp hq
    exact ⟨q, ⟨o, ho, hqo⟩, rfl⟩
  · rintro ⟨q, ⟨o, ho, hq⟩, rfl⟩
    refine ⟨_, ⟨o, ho, rfl⟩, ?_⟩
    rw [Obj.value_rename, Val.ptrs_rename]
    exact List.mem_map_of_mem hq

theorem CopyOf.reach (hc : CopyOf h v h' v' f) {p' : Ptr ω' α'} (hp : Reach h' v' p') :
    ∃ p, Reach h v p ∧ f p = p' := by
  induction hp with
  | root hp =>
    rw [hc.value, Val.ptrs_rename] at hp
    obtain ⟨p, hpv, rfl⟩ := List.mem_map.mp hp
    exact ⟨p, .root hpv, rfl⟩
  | step _ he ih =>
    obtain ⟨p, hp, rfl⟩ := ih
    obtain ⟨q, hq, rfl⟩ := (hc.edge_iff hp).mp he
    exact ⟨q, hp.step hq, rfl⟩

theorem CopyOf.transGen (hc : CopyOf h v h' v' f) {p : Ptr ω α} (hp : Reach h v p)
    {q' : Ptr ω' α'} (ht : Relation.TransGen (Edge h') (f p) q') :
    ∃ q, Reach h v q ∧ Relation.TransGen (Edge h) p q ∧ f q = q' := by
  induction ht with
  | single he =>
    obtain ⟨q, hq, rfl⟩ := (hc.edge_iff hp).mp he
    exact ⟨q, hp.step hq, .single hq, rfl⟩
  | tail _ he ih =>
    obtain ⟨r, hr, hpr, rfl⟩ := ih
    obtain ⟨q, hq, rfl⟩ := (hc.edge_iff hr).mp he
    exact ⟨q, hr.step hq, hpr.tail hq, rfl⟩

theorem Val.keys_rename {P Q : Type*} (f : P → Q) (v : Val P) :
    (v.rename f).keys = v.keys.map (Option.map (·.rename f)) := by
  induction v with
  | cons a l _ ih => simp only [rename, keys, key_rename, ih, List.map_cons]
  | _ => rfl

theorem Val.ptrs_of_mem_keys {P : Type*} {v k : Val P} (hk : some k ∈ v.keys) :
    ∀ p ∈ k.ptrs, p ∈ v.ptrs := by
  induction v with
  | cons a l _ ih =>
    intro p hp
    rw [keys, List.mem_cons] at hk
    rw [ptrs_cons, List.mem_append]
    rcases hk with hk | hk
    · cases a with
      | pair k' w =>
        cases hk
        simp [hp]
      | _ => cases hk
    · exact .inr (ih hk p hp)
  | _ => simp [keys] at hk

theorem hasTy_rename (hobj : ∀ p ∈ v.ptrs, h'.lookup (f p).addr =
      (h.lookup p.addr).map (·.rename f))
    (hinj : ∀ p ∈ v.ptrs, ∀ q ∈ v.ptrs, f p = f q → p = q) :
    (∀ t, HasTy fields h v t → HasTy fields h' (v.rename f) t) ∧
      ∀ t, Elems fields h v t → Elems fields h' (v.rename f) t := by
  induction v with
  | bytes b =>
    refine ⟨fun t ht => ?_, fun t ht => (nomatch ht)⟩
    cases ht with
    | bytes hn => exact .bytes hn
  | builtin b =>
    refine ⟨fun t ht => ?_, fun t ht => (nomatch ht)⟩
    cases ht
    exact .builtin b
  | unit =>
    refine ⟨fun t ht => ?_, fun t ht => (nomatch ht)⟩
    cases ht
    exact .unit
  | pair a b iha ihb =>
    simp only [Val.ptrs_pair, List.mem_append] at hobj hinj
    refine ⟨fun t ht => ?_, fun t ht => (nomatch ht)⟩
    cases ht with
    | pair ha hb =>
      exact .pair
        ((iha (fun p hp => hobj p (.inl hp)) fun p hp q hq => hinj p (.inl hp) q (.inl hq)).1 _ ha)
        ((ihb (fun p hp => hobj p (.inr hp)) fun p hp q hq => hinj p (.inr hp) q (.inr hq)).1 _ hb)
  | nil =>
    refine ⟨fun t ht => (nomatch ht), fun t ht => ?_⟩
    exact .nil t
  | cons a l iha ihl =>
    simp only [Val.ptrs_cons, List.mem_append] at hobj hinj
    refine ⟨fun t ht => (nomatch ht), fun t ht => ?_⟩
    cases ht with
    | cons ha hl =>
      exact .cons
        ((iha (fun p hp => hobj p (.inl hp)) fun p hp q hq => hinj p (.inl hp) q (.inl hq)).1 _ ha)
        ((ihl (fun p hp => hobj p (.inr hp)) fun p hp q hq => hinj p (.inr hp) q (.inr hq)).2 _ hl)
  | list l ih =>
    refine ⟨fun t ht => ?_, fun t ht => (nomatch ht)⟩
    cases ht with
    | list hl => exact .list ((ih hobj hinj).2 _ hl)
  | map l ih =>
    refine ⟨fun t ht => ?_, fun t ht => (nomatch ht)⟩
    cases ht with
    | map hl hk =>
      refine .map ((ih hobj hinj).2 _ hl) ?_
      rw [Val.keys_rename]
      refine (List.nodup_map_iff_inj_on hk).mpr fun j hj k hk' he => ?_
      cases j <;> cases k <;> simp only [Option.map_none, Option.map_some, reduceCtorEq,
        Option.some.injEq] at he
      · rfl
      · refine congrArg some (Val.eq_of_rename_eq (fun p hp q hq hpq => ?_) he)
        exact hinj p (Val.ptrs_of_mem_keys hj p hp) q (Val.ptrs_of_mem_keys hk' q hq) hpq
  | uniqueNull =>
    refine ⟨fun t ht => ?_, fun t ht => (nomatch ht)⟩
    cases ht
    exact .uniqueNull _
  | unique v ih =>
    refine ⟨fun t ht => ?_, fun t ht => (nomatch ht)⟩
    cases ht with
    | unique hv => exact .unique ((ih hobj hinj).1 _ hv)
  | polyNull => exact ⟨fun t ht => (nomatch ht), fun t ht => (nomatch ht)⟩
  | poly c v ih =>
    refine ⟨fun t ht => ?_, fun t ht => (nomatch ht)⟩
    cases ht with
    | poly hv => exact .poly ((ih hobj hinj).1 _ hv)
  | shared s p =>
    refine ⟨fun t ht => ?_, fun t ht => (nomatch ht)⟩
    cases ht with
    | sharedNull => exact .sharedNull _
    | @shared _ p w ho =>
      refine .shared (v := w.rename f) ?_
      rw [hobj p (by simp), ho]
      rfl
  | sharedPoly p =>
    refine ⟨fun t ht => ?_, fun t ht => (nomatch ht)⟩
    cases ht with
    | sharedPolyNull => exact .sharedPolyNull
    | @sharedPoly p c w ho =>
      refine .sharedPoly (c := c) (v := w.rename f) ?_
      rw [hobj p (by simp), ho]
      rfl

theorem CopyOf.ptr_inj (hc : CopyOf h v h' v' f) (hv : Valid fields h v t) {p q : Ptr ω α}
    (hp : Reach h v p) (hq : Reach h v q) (he : f p = f q) : p = q := by
  have ha := (hc.addr_eq_iff p q hp hq).mp (congrArg Ptr.addr he)
  have ho := hv.owner_eq p q hp hq ha
  cases p
  cases q
  simp_all

theorem CopyOf.reach_image (hc : CopyOf h v h' v' f) {p : Ptr ω α} (hp : Reach h v p) :
    Reach h' v' (f p) := by
  induction hp with
  | root hp =>
    refine .root ?_
    rw [hc.value, Val.ptrs_rename]
    exact List.mem_map_of_mem hp
  | step hp he ih => exact ih.step ((hc.edge_iff hp).mpr ⟨_, he, rfl⟩)

theorem CopyOf.agree (hc : CopyOf h v h' v' f) (hv : v' = v.rename g)
    (hobj : ∀ p o, Reach h v p → h.lookup p.addr = some o →
      h'.lookup (g p).addr = some (o.rename g) ∨ o.value.ptrs = []) {p : Ptr ω α}
    (hp : Reach h v p) : f p = g p := by
  induction hp with
  | root hp => exact Val.eq_of_rename_eq_rename (hc.value.symm.trans hv) _ hp
  | @step p q hp he ih =>
    obtain ⟨o, ho, hq⟩ := he
    have hf := hc.object p hp
    rw [ho, ih, Option.map_some] at hf
    rcases hobj p o hp ho with hl | hnil
    · rw [hl, Option.some.injEq] at hf
      have hval := congrArg Obj.value hf
      rw [Obj.value_rename, Obj.value_rename] at hval
      exact (Val.eq_of_rename_eq_rename hval q hq).symm
    · rw [hnil] at hq
      cases hq

theorem CopyOf.trans {ω'' α'' : Type*} [DecidableEq α''] {h'' : Heap ω'' α''}
    {v'' : Val (Ptr ω'' α'')} {g : Ptr ω' α' → Ptr ω'' α''} (hc : CopyOf h v h' v' f)
    (hc' : CopyOf h' v' h'' v'' g) : CopyOf h v h'' v'' (g ∘ f) := by
  refine ⟨?_, fun p q hp hq => ?_, fun p hp => ?_⟩
  · rw [hc'.value, hc.value, Val.rename_rename]
  · have hiff := hc'.addr_eq_iff _ _ (hc.reach_image hp) (hc.reach_image hq)
    exact hiff.trans (hc.addr_eq_iff p q hp hq)
  · rw [Function.comp_apply, hc'.object _ (hc.reach_image hp), hc.object p hp, Option.map_map]
    refine congrArg (Option.map · _) (funext fun o => ?_)
    exact Obj.rename_rename f g o

end Copies

section Received

variable {h₁ : Heap Owner Place} {v₁ : UVal} {f : Ptr ω α → Ptr Owner Place} {p q : Ptr ω α}

theorem Delivered.owner_eq (hd : Delivered h v h₁ v₁ f) (hp : Reach h v p) (hq : Reach h v q)
    (ha : (f p).addr = (f q).addr) : (f p).owner = (f q).owner := by
  rcases hd.shape p hp with ⟨-, n, hn⟩ | ⟨-, n, hn⟩ <;>
    rcases hd.shape q hq with ⟨-, m, hm⟩ | ⟨-, m, hm⟩ <;> simp_all

/-- Received pointers with one owner are to trivially copyable objects, or are equal. -/
theorem Delivered.merge (hd : Delivered h v h₁ v₁ f) (hp : Reach h v p) (hq : Reach h v q)
    (ho : (f p).owner = (f q).owner) :
    (f p).addr = (f q).addr ∨ IsBytes h p ∧ IsBytes h q := by
  rcases hd.shape p hp with ⟨hpb, n, hn⟩ | ⟨-, n, hn⟩ <;>
    rcases hd.shape q hq with ⟨hqb, m, hm⟩ | ⟨-, m, hm⟩
  · exact .inr ⟨hpb, hqb⟩
  · simp [hn, hm] at ho
  · simp [hn, hm] at ho
  · rw [hn, hm] at ho ⊢
    cases ho
    exact .inl rfl

theorem Delivered.valid (hd : Delivered h v h₁ v₁ f) (hv : Valid fields h v t) :
    Valid fields h₁ v₁ t where
  hasTy := by
    rw [hd.value]
    exact (hasTy_rename (fun p hp => hd.object p (.root hp)) fun p hp q hq =>
      hd.ptr_inj hv (.root hp) (.root hq)).1 t hv.hasTy
  objects p' o' hp' ho' := by
    obtain ⟨p, hp, rfl⟩ := hd.reach hp'
    rw [hd.object p hp, Option.map_eq_some_iff] at ho'
    obtain ⟨o, ho, rfl⟩ := ho'
    have hin : ∀ q ∈ o.value.ptrs, Reach h v q := fun q hq => hp.step ⟨o, ho, hq⟩
    have hty := hv.objects p o hp ho
    have hobj : ∀ q ∈ o.value.ptrs, _ := fun q hq => hd.object q (hin q hq)
    have hinj : ∀ q ∈ o.value.ptrs, ∀ r ∈ o.value.ptrs, _ := fun q hq r hr =>
      hd.ptr_inj hv (hin q hq) (hin r hr)
    cases o with
    | data s w => exact (hasTy_rename hobj hinj).1 _ hty
    | poly c w => exact (hasTy_rename hobj hinj).1 _ hty
  owner_eq p' q' hp' hq' ha := by
    obtain ⟨p, hp, rfl⟩ := hd.reach hp'
    obtain ⟨q, hq, rfl⟩ := hd.reach hq'
    exact hd.owner_eq hp hq ha
  acyclic p' q' s hp' hs ht ha := by
    obtain ⟨p, hp, rfl⟩ := hd.reach hp'
    obtain ⟨q, hq, hpq, rfl⟩ := hd.transGen hp ht
    rw [hd.pointee_iff hp] at hs
    exact hv.acyclic p q s hp hs hpq ((hd.addr_eq_iff p q hp hq).mp ha)

theorem Delivered.mergeable (hd : Delivered h v h₁ v₁ f) : Mergeable h₁ v₁ := by
  intro p' q' hp' hq' ho
  obtain ⟨p, hp, rfl⟩ := hd.reach hp'
  obtain ⟨q, hq, rfl⟩ := hd.reach hq'
  rw [hd.isBytes_iff hp, hd.isBytes_iff hq]
  exact hd.merge hp hq ho

theorem CopyOf.allSafe {slot : Slot} {f : Ptr ω α → Ptr ω' α'} (hc : CopyOf h v h' v' f)
    (hs : AllSafe h d slot v) : AllSafe h' d slot v' := by
  refine ⟨?_, fun p' o' hp' ho' => ?_⟩
  · rw [hc.value, Val.safe_rename]
    exact hs.1
  · obtain ⟨p, hp, rfl⟩ := hc.reach hp'
    rw [hc.object p hp, Option.map_eq_some_iff] at ho'
    obtain ⟨o, ho, rfl⟩ := ho'
    exact (Obj.safe_rename _ o).mpr (hs.2 p o hp ho)

/-- At most one trivially copyable object lies behind the shared pointers of a value. -/
def OneBytes (h : Heap ω α) (v : Val (Ptr ω α)) : Prop :=
  ∀ p q, Reach h v p → Reach h v q → IsBytes h p → IsBytes h q → p.addr = q.addr

theorem CopyOf.oneBytes {f : Ptr ω α → Ptr ω' α'} (hc : CopyOf h v h' v' f)
    (ho : OneBytes h v) : OneBytes h' v' := by
  intro p' q' hp' hq' hpb hqb
  obtain ⟨p, hp, rfl⟩ := hc.reach hp'
  obtain ⟨q, hq, rfl⟩ := hc.reach hq'
  rw [hc.isBytes_iff hp] at hpb
  rw [hc.isBytes_iff hq] at hqb
  exact (hc.addr_eq_iff p q hp hq).mpr (ho p q hp hq hpb hqb)

theorem Delivered.separate (hd : Delivered h v h₁ v₁ f) (ho : OneBytes h v) :
    Separate h₁ v₁ := by
  intro p' q' hp' hq' how
  obtain ⟨p, hp, rfl⟩ := hd.reach hp'
  obtain ⟨q, hq, rfl⟩ := hd.reach hq'
  rcases hd.merge hp hq how with ha | ⟨hpb, hqb⟩
  · exact ha
  · exact (hd.addr_eq_iff p q hp hq).mpr (ho p q hp hq hpb hqb)

end Received

section Hops

variable [DecidableEq ω]

def hop {ω α : Type*} [DecidableEq ω] [DecidableEq α] (fields : ℕ → Ty) (n : ℕ) (t : Ty)
    (h : Heap ω α) (v : Val (Ptr ω α)) : Except Fault (Heap Owner Place × UVal) :=
  (pack h n v).bind fun msg =>
    (unpackMessage fields n t msg).bind fun r => .ok (r.2.heap, r.1)

/-- A value is sent, and what was received is sent on a number of times. -/
def hops (fields : ℕ → Ty) (n : ℕ) (t : Ty) (h : Heap ω α) (v : Val (Ptr ω α)) :
    ℕ → Except Fault (Heap Owner Place × UVal)
  | 0 => hop fields n t h v
  | k + 1 => (hops fields n t h v k).bind fun r => hop fields n t r.1 r.2

/-- However often a value is sent on, a copy is received, with enough fuel. -/
def Forwards (fields : ℕ → Ty) (h : Heap ω α) (v : Val (Ptr ω α)) (t : Ty) : Prop :=
  ∀ k, ∃ N, ∀ n ≥ N, ∃ h' v' f, hops fields n t h v k = .ok (h', v') ∧ CopyOf h v h' v' f

theorem Valid.hop (hv : Valid fields h v t) (hs : Separate h v)
    (hsafe : AllSafe h false .member v) : ∃ N h' v' f,
      (∀ n ≥ N, Serialization.hop fields n t h v = .ok (h', v')) ∧ Delivered h v h' v' f := by
  obtain ⟨N, msg, v', u', f, hN, -, -, hd⟩ := hv.delivered hs hsafe
  refine ⟨N, u'.heap, v', f, fun n hn => ?_, hd⟩
  rw [Serialization.hop, (hN n hn).1, ok_bind, (hN n hn).2]
  rfl

theorem Valid.hops (hv : Valid fields h v t) (hs : Separate h v)
    (hsafe : AllSafe h false .member v) (ho : OneBytes h v) (k : ℕ) : ∃ N h' v' f,
      (∀ n ≥ N, Serialization.hops fields n t h v k = .ok (h', v')) ∧ CopyOf h v h' v' f ∧
      Valid fields h' v' t ∧ Separate h' v' := by
  induction k with
  | zero =>
    obtain ⟨N, h', v', f, hN, hd⟩ := hv.hop hs hsafe
    exact ⟨N, h', v', f, hN, hd.toCopyOf, hd.valid hv, hd.separate ho⟩
  | succ k ih =>
    obtain ⟨N, h₁, v₁, f, hN, hc, hv₁, hs₁⟩ := ih
    obtain ⟨M, h₂, v₂, g, hM, hd⟩ := hv₁.hop hs₁ (hc.allSafe hsafe)
    refine ⟨max N M, h₂, v₂, g ∘ f, fun n hn => ?_, hc.trans hd.toCopyOf, hd.valid hv₁,
      hd.separate (hc.oneBytes ho)⟩
    rw [Serialization.hops, hN n (le_trans (le_max_left _ _) hn), ok_bind]
    exact hM n (le_trans (le_max_right _ _) hn)

omit [DecidableEq ω] in
/-- What a received value is unpacked to, when it is packed again, does not tell its
trivially copyable objects apart. -/
theorem Delivered.again {h₁ : Heap Owner Place} {v₁ : UVal} {f : Ptr ω α → Ptr Owner Place}
    (hd : Delivered h v h₁ v₁ f) (hv : Valid fields h v t) : ∃ N, ∀ n ≥ N, ∀ h₂ v₂,
      Serialization.hop fields n t h₁ v₁ = .ok (h₂, v₂) → ∃ g : Ptr Owner Place → Ptr Owner Place,
        (∀ p q, p.owner = q.owner → g p = g q) ∧ v₂ = v₁.rename g ∧
        ∀ p o, Reach h₁ v₁ p → h₁.lookup p.addr = some o →
          h₂.lookup (g p).addr = some (o.rename g) ∨ o.value.ptrs = [] := by
  have hv₁ := hd.valid hv
  obtain ⟨L, x, T, hS, N, hN⟩ := hv₁.transfer hd.mergeable
  refine ⟨N, fun n hn h₂ v₂ hop => ?_⟩
  obtain ⟨hp, hu⟩ := hN n hn
  rw [Serialization.hop, hp, ok_bind] at hop
  rcases hu with ⟨u', he, hdone⟩ | ⟨e, he, -⟩
  · rw [he, ok_bind] at hop
    cases hop
    refine ⟨L.image u', fun p q ho => image_congr ho, rfl, fun p o hp ho => ?_⟩
    have hW := (hdone.reach hS (fun p hp => hp) hp).1
    rcases hdone.restored hS hp hW (hS.not_defers hv₁ hp) ho with ⟨hl, -⟩ | hb
    · exact .inl hl
    · exact .inr (ptrs_of_isBytes hS hp hb ho)
  · rw [he] at hop
    cases hop

/-- The second message merges the trivially copyable objects of the first. -/
theorem Valid.oneBytes_of_forwards (hv : Valid fields h v t) (hs : Separate h v)
    (hsafe : AllSafe h false .member v) (hf : Forwards fields h v t) : OneBytes h v := by
  obtain ⟨N, h₁, v₁, f, hN, hd⟩ := hv.hop hs hsafe
  obtain ⟨M, hM⟩ := hd.again hv
  obtain ⟨K, hK⟩ := hf 1
  obtain ⟨h₂, v₂, φ, hops, hc⟩ := hK (max K (max N M)) (le_max_left _ _)
  have hNle : N ≤ max K (max N M) := le_trans (le_max_left N M) (le_max_right _ _)
  have hMle : M ≤ max K (max N M) := le_trans (le_max_right N M) (le_max_right _ _)
  rw [Serialization.hops, Serialization.hops, hN _ hNle, ok_bind] at hops
  obtain ⟨g, hg, hv₂, hobj⟩ := hM _ hMle h₂ v₂ hops
  -- the copy that is claimed and the one that is made agree on the pointers
  have agree : ∀ p, Reach h v p → φ p = g (f p) := by
    intro p hp
    refine hc.agree (g := g ∘ f) (by rw [hv₂, hd.value, Val.rename_rename]) ?_ hp
    intro r o hr ho
    have hf₁ : h₁.lookup (f r).addr = some (o.rename f) := by
      rw [hd.object r hr, ho]
      rfl
    rcases hobj (f r) _ (hd.reach_image hr) hf₁ with hl | hnil
    · rw [Obj.rename_rename] at hl
      exact .inl hl
    · rw [Obj.value_rename, Val.ptrs_rename, List.map_eq_nil_iff] at hnil
      exact .inr hnil
  intro p q hp hq hpb hqb
  have howner : (f p).owner = (f q).owner := by
    rcases hd.shape p hp with ⟨-, n, hn⟩ | ⟨hnb, -⟩
    · rcases hd.shape q hq with ⟨-, m, hm⟩ | ⟨hnb, -⟩
      · rw [hn, hm]
      · exact absurd hqb hnb
    · exact absurd hpb hnb
  apply (hc.addr_eq_iff p q hp hq).mp
  rw [agree p hp, agree q hq, hg _ _ howner]

theorem Valid.forwards_of_oneBytes (hv : Valid fields h v t) (hs : Separate h v)
    (hsafe : AllSafe h false .member v) (ho : OneBytes h v) : Forwards fields h v t := by
  intro k
  obtain ⟨N, h', v', f, hN, hc, -⟩ := hv.hops hs hsafe ho k
  exact ⟨N, fun n hn => ⟨h', v', f, hN n hn, hc⟩⟩

/-- A value that was received can be sent on any number of times iff it has at most one
trivially copyable object behind shared pointers. -/
theorem forwards_iff_oneBytes (hv : Valid fields h v t) (hs : Separate h v)
    (hsafe : AllSafe h false .member v) : Forwards fields h v t ↔ OneBytes h v :=
  ⟨hv.oneBytes_of_forwards hs hsafe, hv.forwards_of_oneBytes hs hsafe⟩

def twoBytes : Heap ℕ ℕ :=
  [(0, .data (.bytes 1) (.bytes [1])), (1, .data (.bytes 1) (.bytes [2]))]

theorem twoBytes_object {n : ℕ} {o : Obj (Ptr ℕ ℕ)} (ho : twoBytes.lookup n = some o) :
    ∃ b, o = .data (.bytes 1) (.bytes [b]) := by
  simp only [twoBytes, List.lookup_cons, List.lookup_nil] at ho
  split at ho
  · cases ho
    exact ⟨1, rfl⟩
  · split at ho
    · cases ho
      exact ⟨2, rfl⟩
    · cases ho

theorem not_edge_twoBytes {p q : Ptr ℕ ℕ} : ¬ Edge twoBytes p q := by
  rintro ⟨o, ho, hq⟩
  obtain ⟨b, rfl⟩ := twoBytes_object ho
  simp [Obj.value, Val.ptrs, Val.slots] at hq

theorem reach_twoBytes {v : Val (Ptr ℕ ℕ)} {p : Ptr ℕ ℕ} (hp : Reach twoBytes v p) :
    p ∈ v.ptrs := by
  cases hp with
  | root hp => exact hp
  | step _ he => exact absurd he not_edge_twoBytes

def own (n : ℕ) : Ptr ℕ ℕ := ⟨some n, n⟩

theorem valid_twoBytes {v : Val (Ptr ℕ ℕ)} {t : Ty} (ht : HasTy (fun _ => .unit) twoBytes v t)
    (hp : ∀ p ∈ v.ptrs, p = own p.addr) :
    Valid (fun _ => .unit) twoBytes v t ∧ Separate twoBytes v := by
  refine ⟨⟨ht, fun p o _ ho => ?_, fun p q hp' hq' ha => ?_, fun p q s _ _ ht => ?_⟩,
    fun p q hp' hq' ho => ?_⟩
  · obtain ⟨b, rfl⟩ := twoBytes_object ho
    exact .bytes rfl
  · rw [hp p (reach_twoBytes hp'), hp q (reach_twoBytes hq'), ha]
  · obtain ⟨r, he, -⟩ := Relation.TransGen.head'_iff.mp ht
    exact absurd he not_edge_twoBytes
  · rw [hp p (reach_twoBytes hp'), hp q (reach_twoBytes hq')] at ho
    exact Option.some_injective _ ho

theorem allSafe_twoBytes {v : Val (Ptr ℕ ℕ)} (hv : v.Safe false .member) :
    AllSafe twoBytes false .member v := by
  refine ⟨hv, fun p o _ ho => ?_⟩
  obtain ⟨b, rfl⟩ := twoBytes_object ho
  trivial

/-- Two pointers to one trivially copyable object. -/
theorem shared_twice_forwards : Forwards (fun _ => .unit) twoBytes
    (.pair (.shared (.bytes 1) (some (own 0))) (.shared (.bytes 1) (some (own 0))))
    (.pair (.shared (.bytes 1)) (.shared (.bytes 1))) := by
  have hv := valid_twoBytes (v := .pair (.shared (.bytes 1) (some (own 0)))
    (.shared (.bytes 1) (some (own 0)))) (.pair (.shared rfl) (.shared rfl)) (by simp [own])
  refine (forwards_iff_oneBytes hv.1 hv.2 (allSafe_twoBytes ⟨?_, ?_⟩)).mpr ?_
  · exact Val.safe_shared_member _ _
  · exact Val.safe_shared_member _ _
  · intro p q hp hq _ _
    have hp := reach_twoBytes hp
    have hq := reach_twoBytes hq
    simp only [Val.ptrs_pair, Val.ptrs_shared, Option.toList_some, List.cons_append,
      List.nil_append, List.mem_cons, List.not_mem_nil, or_false, or_self] at hp hq
    rw [hp, hq]

/-- Two trivially copyable objects become one when they are sent on, though they survive the
first round trip. -/
theorem two_bytes_not_forwarded :
    let v : Val (Ptr ℕ ℕ) :=
      .pair (.shared (.bytes 1) (some (own 0))) (.shared (.bytes 1) (some (own 1)))
    let t : Ty := .pair (.shared (.bytes 1)) (.shared (.bytes 1))
    Valid (fun _ => .unit) twoBytes v t ∧ Separate twoBytes v ∧
      RoundTrips (fun _ => .unit) twoBytes v t ∧ ¬ Forwards (fun _ => .unit) twoBytes v t := by
  intro v t
  have hv := valid_twoBytes (v := v) (t := t) (.pair (.shared rfl) (.shared rfl))
    (by simp [v, own])
  have hsafe : AllSafe twoBytes false .member v := allSafe_twoBytes
    ⟨Val.safe_shared_member _ _, Val.safe_shared_member _ _⟩
  refine ⟨hv.1, hv.2, hv.1.roundTrips_of_allSafe hv.2 hsafe, fun hf => ?_⟩
  have ho := hv.1.oneBytes_of_forwards hv.2 hsafe hf (own 0) (own 1) (.root (by simp [v]))
    (.root (by simp [v])) ⟨1, _, rfl⟩ ⟨1, _, rfl⟩
  cases ho

end Hops

end Hypercomm.Serialization
