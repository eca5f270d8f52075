import Hypercomm.Serialization.Hops
import Hypercomm.Serialization.Mirror
import Hypercomm.Serialization.Sourceless
import Hypercomm.Serialization.Weight

/-! # The bridge to PUP

A value can be sized, packed and unpacked through the `PUP::er` of another framework. Each
serdes that is made for one has records of its own, and the unpacker has no source message: a
trivially copyable object has no owner then, so its pointer cannot be found again.
-/

namespace Hypercomm.Serialization

variable {ω α : Type*} [DecidableEq ω] [DecidableEq α]

def ptrsAt (h : Heap ω α) (a : α) : List (Ptr ω α) :=
  match h.lookup a with
  | none => []
  | some o => o.value.ptrs

/-- A value and any objects that it leads to, each taken once, hold at most one pointer to a
trivially copyable object. -/
def Unrepeated (h : Heap ω α) (v : Val (Ptr ω α)) : Prop :=
  ∀ l : List (Ptr ω α), (∀ q ∈ l, Reach h v q) → (l.map Ptr.addr).Nodup → ∀ p, IsBytes h p →
    (v.ptrs ++ l.flatMap fun q => ptrsAt h q.addr).count p ≤ 1

/-- The serdes that is made for a `PUP::sizer` or a `PUP::toMem`. It shares no records. -/
def makeSerdes : Packer ω α := { self := 0 }

/-- The serdes that is made for a `PUP::fromMem`, without a source. -/
def makeUnpacker (input : List Cell) : Unpacker := { input := input, source := none }

/-- All three advance as much, and a copy comes out. Other data may follow in the memory. -/
def Interpups (fields : ℕ → Ty) (h : Heap ω α) (v : Val (Ptr ω α)) (t : Ty) : Prop :=
  ∃ N, ∀ n ≥ N, ∀ rest, ∃ sizer toMem v' fromMem f,
    pup h (pupObject h n) v makeSerdes = .ok sizer ∧
    pup h (pupObject h n) v makeSerdes = .ok toMem ∧
    unpack (unpackFields fields n) t .member (makeUnpacker (toMem.written ++ rest)) =
      .ok (v', fromMem) ∧
    size toMem.written = size sizer.written ∧ fromMem.offset = size sizer.written ∧
    fromMem.input = rest ∧ CopyOf h v fromMem.heap v' f

section Counting

variable {h : Heap ω α} {L : Labels ω} {mem : Ptr ω α → Prop} {behind : Option ω → List (Ptr ω α)}
variable {v : Val (Ptr ω α)} {V W : List (Option ω)} {x : List Cell} {p : Ptr ω α}

/-- Each owner has one pointer, and leads to the same pointers wherever it is met. -/
structure Counts (h : Heap ω α) (L : Labels ω) (mem : Ptr ω α → Prop)
    (behind : Option ω → List (Ptr ω α)) : Prop where
  step : ∀ p q, mem p → Edge h p q → mem q
  owner_inj : ∀ p q, mem p → mem q → p.owner = q.owner → p = q
  behind_eq : ∀ p o, mem p → h.lookup p.addr = some o → behind p.owner = o.value.ptrs
  not_defers : ∀ p, mem p → L.defers p.owner = false

theorem Counts.count_owner (hc : Counts h L mem behind) (hp : mem p) {q : Ptr ω α} (hq : mem q)
    (U : List (Option ω)) :
    (q.owner :: U).count p.owner = U.count p.owner + if q = p then 1 else 0 := by
  rw [List.count_cons]
  by_cases he : q = p
  · simp [he]
  · have hne : q.owner ≠ p.owner := fun ho => he (hc.owner_inj q p hq hp ho)
    simp [he, hne]

theorem Counts.count_eq (hc : Counts h L mem behind) (hp : mem p) (hb : IsBytes h p)
    (hl : Lin h L (fun p => ¬ IsBytes h p) v V x W) (hv : ∀ q ∈ v.ptrs, mem q) :
    ∃ U, W = V ++ U ∧ v.ptrs.count p + (U.flatMap behind).count p = U.count p.owner := by
  induction hl with
  | pair _ _ iha ihb | cons _ _ iha ihb =>
    simp only [Val.ptrs_pair, Val.ptrs_cons, List.mem_append] at hv
    obtain ⟨U, rfl, ha⟩ := iha fun q hq => hv q (.inl hq)
    obtain ⟨U', rfl, hb⟩ := ihb fun q hq => hv q (.inr hq)
    refine ⟨U ++ U', List.append_assoc _ _ _, ?_⟩
    simp only [Val.ptrs_pair, Val.ptrs_cons, List.count_append, List.flatMap_append]
    omega
  | list _ ih | map _ ih | unique _ ih | poly _ ih => exact ih hv
  | null V hs => exact ⟨[], by simp, by cases hs <;> simp⟩
  | reference hs hr hm hd =>
    refine ⟨[], by simp, ?_⟩
    rw [hs.ptrs_eq, List.count_cons_of_ne]
    · rfl
    · rintro rfl
      exact hr hb
  | again hs hm hd | defer hs hm hd =>
    rw [hc.not_defers _ (hv _ hs.mem_ptrs)] at hd
    cases hd
  | @«instance» v k q o V x W hs hm hd ho hl ih =>
    have hq := hv q hs.mem_ptrs
    obtain ⟨U, rfl, hU⟩ := ih fun r hr => hc.step q r hq ⟨o, ho, hr⟩
    refine ⟨q.owner :: U, by simp, ?_⟩
    rw [hs.ptrs_eq, hc.count_owner hp hq, List.flatMap_cons, hc.behind_eq q o hq ho,
      List.count_append, List.count_cons, List.count_nil, ← hU]
    simp only [beq_iff_eq]
    omega
  | _ => exact ⟨[], by simp, rfl⟩

/-- At most one pointer to each trivially copyable object is met from here on. -/
def Fresh (h : Heap ω α) (mem : Ptr ω α → Prop) (behind : Option ω → List (Ptr ω α))
    (ps : List (Ptr ω α)) (V U : List (Option ω)) : Prop :=
  ∀ p, mem p → IsBytes h p → V.count p.owner + ps.count p + (U.flatMap behind).count p ≤ 1

theorem Counts.seq (hc : Counts h L mem behind) {a b : Val (Ptr ω α)} {V₁ : List (Option ω)}
    {y : List Cell} (hva : ∀ q ∈ a.ptrs, mem q) {U : List (Option ω)} (hU : W = V ++ U)
    (hone : Fresh h mem behind (a.ptrs ++ b.ptrs) V U) (hV₁ : V <+: V₁) (hW : V₁ <+: W)
    (ha : ∀ {U}, V₁ = V ++ U → Fresh h mem behind a.ptrs V U →
      Lin h L (fun p => ¬ IsBytes h p) a V x V₁)
    (hb : ∀ {U}, W = V₁ ++ U → Fresh h mem behind b.ptrs V₁ U →
      Lin h L (fun p => ¬ IsBytes h p) b V₁ y W) :
    Lin h L (fun p => ¬ IsBytes h p) a V x V₁ ∧ Lin h L (fun p => ¬ IsBytes h p) b V₁ y W := by
  obtain ⟨U₁, rfl⟩ := hV₁
  obtain ⟨U₂, rfl⟩ := hW
  rw [List.append_assoc, List.append_cancel_left_eq] at hU
  subst hU
  simp only [Fresh, List.count_append, List.flatMap_append] at hone
  have ha := ha rfl fun p hp hb => by
    have := hone p hp hb
    omega
  refine ⟨ha, hb rfl fun p hp hb => ?_⟩
  obtain ⟨U, hU, hcount⟩ := hc.count_eq hp hb ha hva
  obtain rfl := List.append_cancel_left hU
  have := hone p hp hb
  rw [List.count_append]
  omega

theorem Counts.unrepeated (hc : Counts h L mem behind)
    (hl : Lin h L (fun _ => True) v V x W) (hv : ∀ q ∈ v.ptrs, mem q) {U : List (Option ω)}
    (hU : W = V ++ U) (hone : Fresh h mem behind v.ptrs V U) :
    Lin h L (fun p => ¬ IsBytes h p) v V x W := by
  induction hl generalizing U with
  | bytes b V => exact .bytes b V
  | builtin b V => exact .builtin b V
  | unit V => exact .unit V
  | nil V => exact .nil V
  | pair ha hb iha ihb =>
    rw [Val.ptrs_pair] at hone hv
    rw [List.forall_mem_append] at hv
    obtain ⟨ha, hb⟩ := hc.seq hv.1 hU hone ha.grows hb.grows (iha hv.1) (ihb hv.2)
    exact .pair ha hb
  | cons ha hb iha ihb =>
    rw [Val.ptrs_cons] at hone hv
    rw [List.forall_mem_append] at hv
    obtain ⟨ha, hb⟩ := hc.seq hv.1 hU hone ha.grows hb.grows (iha hv.1) (ihb hv.2)
    exact .cons ha hb
  | list _ ih => exact .list (ih hv hU hone)
  | map _ ih => exact .map (ih hv hU hone)
  | uniqueNull V => exact .uniqueNull V
  | unique _ ih => exact .unique (ih hv hU hone)
  | poly _ ih => exact .poly (ih hv hU hone)
  | null V hs => exact .null V hs
  | reference hs _ hm hd =>
    refine .reference hs (fun hb => ?_) hm hd
    have hle := hone _ (hv _ hs.mem_ptrs) hb
    have hpos := List.count_pos_iff.mpr hm
    rw [hs.ptrs_eq, List.count_cons_self] at hle
    omega
  | again hs hm hd => exact .again hs hm hd
  | defer hs hm hd => exact .defer hs hm hd
  | @«instance» v k q o V x W hs hm hd ho hl ih =>
    have hq := hv q hs.mem_ptrs
    obtain ⟨U', rfl⟩ := hl.grows
    refine .instance hs hm hd ho (ih (fun r hr => hc.step q r hq ⟨o, ho, hr⟩) rfl fun p hp hb => ?_)
    rw [List.append_assoc, List.append_cancel_left_eq] at hU
    have hle := hone p hp hb
    rw [← hU, hs.ptrs_eq, List.singleton_append, List.flatMap_cons, hc.behind_eq q o hq ho,
      List.count_append, List.count_cons, List.count_nil] at hle
    simp only [beq_iff_eq] at hle
    rw [List.count_append, hc.count_owner hp hq, List.count_nil]
    omega

end Counting

section Pointers

variable {H : Heap Owner Place} {a b : Place} {o : Obj (Ptr Owner Place)} {A : List Place}

omit [DecidableEq ω] in
theorem ptrsAt_of_lookup {h : Heap ω α} {a : α} {o : Obj (Ptr ω α)} (ho : h.lookup a = some o) :
    ptrsAt h a = o.value.ptrs := by
  unfold ptrsAt
  rw [ho]

theorem ptrsAt_cons_self : ptrsAt ((b, o) :: H) b = o.value.ptrs :=
  ptrsAt_of_lookup (List.lookup_cons_self ..)

theorem ptrsAt_cons_ne (hab : a ≠ b) : ptrsAt ((b, o) :: H) a = ptrsAt H a := by
  unfold ptrsAt
  rw [List.lookup_cons, beq_eq_false_iff_ne.mpr hab]

theorem ptrsAt_subperm (hA : A.Nodup) : (A.flatMap (ptrsAt H)).Subperm (heapPtrs H) := by
  induction H generalizing A with
  | nil =>
    have hnil : A.flatMap (ptrsAt ([] : Heap Owner Place)) = [] :=
      List.flatMap_eq_nil_iff.mpr fun a _ => rfl
    rw [hnil]
    exact List.nil_subperm
  | cons e H ih =>
    obtain ⟨b, o⟩ := e
    have hrest {B : List Place} (hb : b ∉ B) :
        B.flatMap (ptrsAt ((b, o) :: H)) = B.flatMap (ptrsAt H) :=
      List.flatMap_congr fun a ha => ptrsAt_cons_ne fun hab => hb (hab ▸ ha)
    rw [heapPtrs_cons]
    by_cases hb : b ∈ A
    · have hperm := (List.perm_cons_erase hb).flatMap_right (ptrsAt ((b, o) :: H))
      rw [List.flatMap_cons, ptrsAt_cons_self, hrest (hA.not_mem_erase)] at hperm
      exact hperm.subperm.trans ((List.subperm_append_left _).mpr (ih (hA.erase b)))
    · rw [hrest hb]
      exact (ih hA).trans (List.sublist_append_right _ _).subperm

theorem count_offsets (ps : List (Ptr Owner Place)) (k : ℕ) :
    (offsets ps).count k = ps.countP fun p => p.addr = .message k := by
  unfold offsets
  rw [List.count_filterMap]
  refine List.countP_congr fun p _ => ?_
  cases hp : p.addr <;> simp

theorem count_le_offsets {f : Ptr ω α → Ptr Owner Place} {p : Ptr ω α} {k : ℕ}
    (hk : (f p).addr = .message k) (ps : List (Ptr ω α)) :
    ps.count p ≤ (offsets (ps.map f)).count k := by
  rw [count_offsets, List.countP_map]
  refine List.countP_mono_left fun q _ hq => ?_
  rw [eq_of_beq hq]
  exact decide_eq_true hk

end Pointers

section Bridge

variable {fields : ℕ → Ty} {h : Heap ω α} {v : Val (Ptr ω α)} {t : Ty} {p : Ptr ω α}

/-- What was unpacked without a source is a copy only of a value with one pointer to each trivially
copyable object. -/
theorem CopyOf.unrepeated {f : Ptr ω α → Ptr Owner Place} {u u' : Unpacker} {v' : UVal}
    (hc : CopyOf h v u'.heap v' f) (hm : Makes u v'.ptrs u') (hu : u.heap = []) :
    Unrepeated h v := by
  intro l hl hdistinct p hp
  obtain ⟨E, hE, hnodup, -, hbytes⟩ := hm.heap
  rw [hu, List.append_nil] at hE
  by_cases hmem : p ∈ v.ptrs ++ l.flatMap fun q => ptrsAt h q.addr
  · have hreach : Reach h v p := by
      rcases List.mem_append.mp hmem with hp | hp
      · exact .root hp
      · obtain ⟨q, hq, hp⟩ := List.mem_flatMap.mp hp
        unfold ptrsAt at hp
        split at hp
        · cases hp
        · next o ho => exact (hl q hq).step ⟨o, ho, hp⟩
    obtain ⟨n, b, hb⟩ := hp
    have hlook := hc.object p hreach
    rw [hb, hE] at hlook
    obtain ⟨l₁, l₂, hl', -⟩ := List.lookup_eq_some_iff.mp hlook
    obtain ⟨k, hk⟩ := hbytes _ n _ (hl' ▸ List.mem_append_right _ List.mem_cons_self)
    have hmap : (v.ptrs ++ l.flatMap fun q => ptrsAt h q.addr).map f =
        v'.ptrs ++ (l.map fun q => (f q).addr).flatMap (ptrsAt E) := by
      rw [List.map_append, hc.value, Val.ptrs_rename, List.map_flatMap, List.flatMap_map]
      congr 1
      refine List.flatMap_congr fun q hq => ?_
      have hobj := hc.object q (hl q hq)
      rw [hE] at hobj
      unfold ptrsAt
      rw [hobj]
      cases h.lookup q.addr with
      | none => rfl
      | some o => simp [Val.ptrs_rename]
    have hnd : (l.map fun q => (f q).addr).Nodup := by
      refine hdistinct.of_map.map_on fun q hq r hr he => ?_
      have haddr := (hc.addr_eq_iff q r (hl q hq) (hl r hr)).mp he
      exact List.inj_on_of_nodup_map hdistinct hq hr haddr
    calc (v.ptrs ++ l.flatMap fun q => ptrsAt h q.addr).count p
        ≤ (offsets (v'.ptrs ++ (l.map fun q => (f q).addr).flatMap (ptrsAt E))).count k :=
          hmap ▸ count_le_offsets hk _
      _ ≤ (offsets (v'.ptrs ++ heapPtrs E)).count k := by
          rw [count_offsets, count_offsets]
          exact ((List.subperm_append_left _).mpr (ptrsAt_subperm hnd)).countP_le _
      _ ≤ 1 := List.nodup_iff_count_le_one.mp hnodup k
  · rw [List.count_eq_zero_of_not_mem hmem]
    exact Nat.zero_le 1

theorem Valid.unrepeated_lin (hv : Valid fields h v t) (hs : Separate h v)
    (hone : Unrepeated h v) {L : Labels ω} {x : List Cell} {T : List (Option ω)}
    (hl : Lin h L (fun _ => True) v [] x T) (hd : ∀ p, Reach h v p → L.defers p.owner = false) :
    Lin h L (fun p => ¬ IsBytes h p) v [] x T := by
  have hc : Counts h L (Reach h v) (byOwner h v (fun o => o.value.ptrs) []) := {
    step := fun p q hp he => hp.step he
    owner_inj := by
      intro p q hp hq ho
      have ha := hs p q hp hq ho
      cases p
      cases q
      simp_all
    behind_eq := fun p o hp ho => byOwner_of_separate hv hs hp ho
    not_defers := hd }
  refine hc.unrepeated hl (fun p hp => .root hp) rfl fun p hp hb => ?_
  have : Nonempty (Ptr ω α) := ⟨p⟩
  choose! g hg howner using fun o (ho : o ∈ T) => (hl.met ho).resolve_left List.not_mem_nil
  have hnd : ((T.map g).map Ptr.addr).Nodup := by
    rw [List.map_map]
    refine (hl.nodup List.nodup_nil).map_on fun o ho q hq he => ?_
    rw [← howner o ho, ← howner q hq]
    exact hv.owner_eq _ _ (hg o ho) (hg q hq) he
  have hbehind : T.flatMap (byOwner h v (fun o => o.value.ptrs) []) =
      (T.map g).flatMap fun q => ptrsAt h q.addr := by
    rw [List.flatMap_map]
    refine List.flatMap_congr fun o ho => ?_
    obtain ⟨y, hy⟩ := Option.isSome_iff_exists.mp (hv.reach (hg o ho)).choose_spec.isSome
    rw [ptrsAt_of_lookup hy, ← howner o ho]
    exact byOwner_of_separate hv hs (hg o ho) (howner o ho ▸ hy)
  have hle := hone (T.map g) (List.forall_mem_map.mpr hg) hnd p hb
  rw [← hbehind, List.count_append] at hle
  rw [List.count_nil, Nat.zero_add]
  exact hle

/-- Pointers with one owner point to one object, if the value survives the round trip. -/
theorem Valid.separate_of_roundTrips (hv : Valid fields h v t) (hr : RoundTrips fields h v t) :
    Separate h v := by
  obtain ⟨N, hN⟩ := hr
  obtain ⟨msg, v', u', f, hp, hu, -, -, hc⟩ := hN N le_rfl
  unfold pack at hp
  obtain ⟨sizer, hsizer, hp⟩ := bind_eq_ok.mp hp
  obtain ⟨packer, hpacker, hp⟩ := bind_eq_ok.mp hp
  split_ifs at hp with hsize
  obtain rfl := Except.ok.inj hp
  exact hv.separate_of_unpack (met_acquire (own_of_pup hsizer)) rfl hpacker (bounded_nil rfl)
    (List.append_nil _).symm hu (fun _ _ => id) hc

omit [DecidableEq ω] in
theorem Done.finish {S : Setting ω α} {slot : Slot} {W : List (Option ω)} {x rest : List Cell}
    {u u' : Unpacker} (hd : Done S (fun _ => False) (fun _ => False) slot v W x rest u u') :
    Finished S slot v W x u (u'.skip [] []) where
  input := rfl
  offset := hd.offset
  grows := hd.grows.skip [] []
  inv := hd.inv.skip [] []
  held := hd.held
  safe := hd.safe

theorem Valid.exists_written (hv : Valid fields h v t) (hs : Separate h v) : ∃ L x T,
    (Setting.mk h false L (Reach h v) none).Graph fields ∧ Lin h L (fun _ => True) v [] x T ∧
      ∃ N, ∀ n ≥ N, ∃ s, pup h (pupObject h n) v makeSerdes = .ok s ∧ s.written = x := by
  obtain ⟨L, x, T, hS, hl, hT⟩ := hv.exists_lin (d := false) hs.mergeable nofun none
  obtain ⟨hfit, hstep⟩ := hv.suits hS
  obtain ⟨N, hN⟩ := (tracks_sizer hT).pup_of_lin hfit hstep hl List.prefix_rfl fun q hq =>
    ⟨.root (List.mem_map_of_mem hq), Typed.pointee ⟨t, .inl hv.hasTy⟩ q hq⟩
  refine ⟨L, x, T, hS, hl, N, fun n hn => ?_⟩
  obtain ⟨s, hpup, -, hw⟩ := hN n hn _ (Sizes.start L false)
  exact ⟨s, hpup, hw⟩

theorem Valid.bridged (hv : Valid fields h v t) (hs : Separate h v) (hone : Unrepeated h v) :
    ∃ L x T, (Setting.mk h false L (Reach h v) none).Graph fields ∧ ∃ N, ∀ n ≥ N, ∃ s,
      pup h (pupObject h n) v makeSerdes = .ok s ∧ s.written = x ∧ ∀ rest,
        Outcome (Setting.mk h false L (Reach h v) none) (fun _ => False) (fun _ => False) .member v
          T x rest (makeUnpacker (x ++ rest))
          (unpack (unpackFields fields n) t .member (makeUnpacker (x ++ rest))) := by
  obtain ⟨L, x, T, hS, hl, N, hN⟩ := hv.exists_written hs
  have hl' := hv.unrepeated_lin hs hone hl fun p hp => hS.not_defers hv hp
  refine ⟨L, x, T, hS, max N x.length, fun n hn => ?_⟩
  obtain ⟨s, hpup, hw⟩ := hN n (le_trans (le_max_left _ _) hn)
  refine ⟨s, hpup, hw, fun rest => ?_⟩
  exact (hl'.unpacks hS (fun _ _ hb => .inr hb) (Inv.start _ (x ++ rest) 0) rfl
    (le_trans (le_max_right _ _) hn) (fun p hp => .root hp) (fun o ho => ho.elim)).value t
    .member hv.hasTy

theorem Valid.interpups (hv : Valid fields h v t) (hs : Separate h v)
    (hsafe : AllSafe h false .member v) (hone : Unrepeated h v) : Interpups fields h v t := by
  obtain ⟨L, x, T, hS, N, hN⟩ := hv.bridged hs hone
  refine ⟨N, fun n hn rest => ?_⟩
  obtain ⟨s, hpup, rfl, ho⟩ := hN n hn
  rcases ho rest with ⟨u', he, hd⟩ | ⟨e, -, hu⟩
  · refine ⟨s, s, _, u', _, hpup, hpup, he, rfl, ?_, hd.input,
      hd.finish.copyOf hS rfl hs (fun p hp => (hv.reach hp).choose_spec.isSome) (fun _ _ => id) ?_⟩
    · rw [hd.offset]
      exact Nat.zero_add _
    · intro p o hp hdp
      rw [hS.not_defers hv hp] at hdp
      cases hdp
  · exact absurd hsafe (hu fun p q hp hq => hs p q hp hq)

theorem Valid.allSafe_of_unpack (hv : Valid fields h v t) (hs : Separate h v)
    (hone : Unrepeated h v) : ∃ N, ∀ n ≥ N, ∀ s rest r,
      pup h (pupObject h n) v makeSerdes = .ok s →
      unpack (unpackFields fields n) t .member (makeUnpacker (s.written ++ rest)) = .ok r →
      AllSafe h false .member v := by
  obtain ⟨L, x, T, hS, N, hN⟩ := hv.bridged hs hone
  refine ⟨N, fun n hn s rest r hpup hu => ?_⟩
  obtain ⟨s', hpup', rfl, ho⟩ := hN n hn
  cases hpup.symm.trans hpup'
  rcases ho rest with ⟨u', -, hd⟩ | ⟨e, he, -⟩
  · exact hd.finish.allSafe hS fun p hp => hp
  · cases hu.symm.trans he

theorem CopyOf.unrepeated_of_unpack {f : Ptr ω α → Ptr Owner Place} {n : ℕ} {input : List Cell}
    {u' : Unpacker} {v' : UVal} (hc : CopyOf h v u'.heap v' f)
    (hu : unpack (unpackFields fields n) t .member (makeUnpacker input) = .ok (v', u')) :
    Unrepeated h v := by
  have hstart : Sourceless (makeUnpacker input) := ⟨rfl, by simp [makeUnpacker]⟩
  exact hc.unrepeated (unpack_makes unpackFields_makes hstart hu) rfl

theorem unrepeated_of_interpups (hi : Interpups fields h v t) : Unrepeated h v := by
  obtain ⟨N, hN⟩ := hi
  obtain ⟨sizer, toMem, v', fromMem, f, -, -, hu, -, -, -, hc⟩ := hN N le_rfl []
  exact hc.unrepeated_of_unpack hu

/-- A value that survives the round trip survives the bridge iff no trivially copyable object is
pointed to from two places. -/
theorem interpups_iff (hv : Valid fields h v t) (hr : RoundTrips fields h v t) :
    Interpups fields h v t ↔ Unrepeated h v := by
  have hs := hv.separate_of_roundTrips hr
  constructor
  · exact unrepeated_of_interpups
  · exact hv.interpups hs (hv.allSafe_of_roundTrips hs.mergeable hr)

theorem ptrs_eq_of_reach_twoBytes {v : Val (Ptr ℕ ℕ)} (l : List (Ptr ℕ ℕ)) :
    (v.ptrs ++ l.flatMap fun q => ptrsAt twoBytes q.addr) = v.ptrs := by
  have hnil : (l.flatMap fun q => ptrsAt twoBytes q.addr) = [] := by
    refine List.flatMap_eq_nil_iff.mpr fun q _ => ?_
    unfold ptrsAt
    split
    · rfl
    · next o ho =>
      obtain ⟨b, rfl⟩ := twoBytes_object ho
      rfl
  rw [hnil, List.append_nil]

/-- Pointers to two different trivially copyable objects survive the bridge. -/
theorem two_bytes_interpups : Interpups (fun _ => .unit) twoBytes
    (.pair (.shared (.bytes 1) (some (own 0))) (.shared (.bytes 1) (some (own 1))))
    (.pair (.shared (.bytes 1)) (.shared (.bytes 1))) := by
  have hv := valid_twoBytes (v := .pair (.shared (.bytes 1) (some (own 0)))
    (.shared (.bytes 1) (some (own 1)))) (.pair (.shared rfl) (.shared rfl)) (by simp [own])
  have hr := hv.1.roundTrips_of_allSafe hv.2 (allSafe_twoBytes
    ⟨Val.safe_shared_member _ _, Val.safe_shared_member _ _⟩)
  refine (interpups_iff hv.1 hr).mpr fun l _ _ p _ => ?_
  rw [ptrs_eq_of_reach_twoBytes]
  refine List.nodup_iff_count_le_one.mp ?_ p
  decide

/-- Two pointers to one trivially copyable object survive the round trip, but not the bridge. -/
theorem shared_twice_not_interpups :
    let v : Val (Ptr ℕ ℕ) :=
      .pair (.shared (.bytes 1) (some (own 0))) (.shared (.bytes 1) (some (own 0)))
    let t : Ty := .pair (.shared (.bytes 1)) (.shared (.bytes 1))
    Valid (fun _ => .unit) twoBytes v t ∧ Separate twoBytes v ∧
      RoundTrips (fun _ => .unit) twoBytes v t ∧ ¬ Interpups (fun _ => .unit) twoBytes v t := by
  intro v t
  have hv := valid_twoBytes (v := v) (t := t) (.pair (.shared rfl) (.shared rfl))
    (by simp [v, own])
  have hsafe : AllSafe twoBytes false .member v := allSafe_twoBytes
    ⟨Val.safe_shared_member _ _, Val.safe_shared_member _ _⟩
  refine ⟨hv.1, hv.2, hv.1.roundTrips_of_allSafe hv.2 hsafe, fun hi => ?_⟩
  have hle := unrepeated_of_interpups hi [] (List.forall_mem_nil _) List.nodup_nil (own 0)
    ⟨1, _, rfl⟩
  rw [ptrs_eq_of_reach_twoBytes] at hle
  exact absurd hle (by decide)

end Bridge

end Hypercomm.Serialization
