import Hypercomm.Serialization.Linear

/-! # The packer writes the linearisation

A pass over a value writes its linear form, as long as the records treat each owner as
met before or not. A sizer numbers the owners in the order in which they are met, and
the packer that acquires its records uses the same numbers.
-/

namespace Hypercomm.Serialization

variable {ω α : Type*} [DecidableEq ω]

def Ty.defers (d : Bool) : Ty → Bool
  | .bytes n => d && decide (kZeroCopySize ≤ n)
  | _ => false

/-- The labels of an owner suit a pointer with it: data is tagged with its size when it is
deferred, and a polymorph with its class. -/
def Labels.Fits [DecidableEq α] (L : Labels ω) (h : Heap ω α) (d : Bool) :
    Option Ty → Ptr ω α → Prop
  | some t, p => L.defers p.owner = t.defers d ∧
      (t.defers d = true → t = .bytes (L.tag p.owner)) ∧ (t.defers d = false → L.tag p.owner = 0)
  | none, p => L.defers p.owner = false ∧ identify h p.addr = some (L.tag p.owner)

def Labels.metCells (L : Labels ω) (o : Option ω) : List Cell :=
  if L.defers o then [.byte 2, .word (L.ident o), .word (L.tag o)] else [.byte 3, .word (L.ident o)]

/-- The records of a serdes treat the owners met so far as met, and the others as new. -/
structure Tracks (L : Labels ω) (d : Bool) (T : List (Option ω))
    (I : Packer ω α → List (Option ω) → Prop) : Prop where
  deferrable : ∀ s V, I s V → s.deferrable = d
  copy : ∀ s V cs, I s V → I (s.copy cs) V
  again : ∀ s V o ty, I s V → o ∈ V → ∃ r s', s.getRecord o ty = (r, s') ∧ I s' V ∧
    s'.written = s.written ∧ r.kind ≠ .instance ∧ r.cells = L.metCells o
  visit : ∀ s V o, I s V → V ++ [o] <+: T → o ∉ V → L.defers o = false → ∃ r s',
    s.getRecord o (L.tag o) = (r, s') ∧ I s' (V ++ [o]) ∧ s'.written = s.written ∧
    r.kind = .instance ∧ r.cells = [.byte 4, .word (L.ident o), .word (L.tag o)]
  defer : ∀ s V o, I s V → V ++ [o] <+: T → o ∉ V → L.defers o = true → ∃ r s',
    s.getRecord o 0 = (r, s') ∧ s'.written = s.written ∧ r.kind = .instance ∧
    r.id = L.ident o ∧ ∀ (p : Ptr ω α) cs, p.owner = o →
      I (((s'.setRecord o { r with ty := L.tag o, kind := .deferred }).copy cs).putDeferred
        { r with ty := L.tag o, kind := .deferred } p) (V ++ [o])

variable {h : Heap ω α} {L : Labels ω} {R : Ptr ω α → Prop} {d : Bool} {T V W : List (Option ω)}
variable {I : Packer ω α → List (Option ω) → Prop} {v : Val (Ptr ω α)} {x : List Cell}
variable {s : Packer ω α} {follow : α → Packer ω α → Except Fault (Packer ω α)}

omit [DecidableEq ω] in
@[simp] theorem copy_written (s : Packer ω α) (cs : List Cell) :
    (s.copy cs).written = s.written ++ cs := rfl

theorem Tracks.pup_again [DecidableEq α] (hI : Tracks L d T I) {k : Option Ty} {p : Ptr ω α}
    (hs : v.IsShared (some p) k) (hf : L.Fits h d k p) (hp : p.owner ∈ V) (h0 : I s V) :
    ∃ s', pup h follow v s = .ok s' ∧ I s' V ∧ s'.written = s.written ++ L.metCells p.owner := by
  cases hs with
  | data t =>
    obtain ⟨r, s', hr, hi, hw, hk, hc⟩ := hI.again s V p.owner 0 h0 hp
    refine ⟨s'.copy r.cells, by simp [pup, hr, hk], hI.copy _ _ _ hi, ?_⟩
    rw [copy_written, hw, hc]
  | poly =>
    obtain ⟨-, hid⟩ := hf
    obtain ⟨r, s', hr, hi, hw, hk, hc⟩ := hI.again s V p.owner (L.tag p.owner) h0 hp
    refine ⟨s'.copy r.cells, by simp [pup, hid, hr, hk], hI.copy _ _ _ hi, ?_⟩
    rw [copy_written, hw, hc]

theorem Tracks.pup_instance [DecidableEq α] (hI : Tracks L d T I)
    (follow : α → Packer ω α → Except Fault (Packer ω α)) {k : Option Ty} {p : Ptr ω α}
    (hs : v.IsShared (some p) k) (hf : L.Fits h d k p) (hp : p.owner ∉ V)
    (hd : L.defers p.owner = false) (hT : V ++ [p.owner] <+: T) (h0 : I s V) :
    ∃ s', pup h follow v s = follow p.addr s' ∧ I s' (V ++ [p.owner]) ∧ s'.written =
      s.written ++ [.byte 4, .word (L.ident p.owner), .word (L.tag p.owner)] := by
  obtain ⟨r, s', hr, hi, hw, hk, hc⟩ := hI.visit s V p.owner h0 hT hp hd
  refine ⟨s'.copy r.cells, ?_, hI.copy _ _ _ hi, by rw [copy_written, hw, hc]⟩
  cases hs with
  | data t =>
    obtain ⟨hdt, -, htag⟩ := hf
    rw [hd] at hdt
    rw [htag hdt.symm] at hr
    have hdef := hI.deferrable _ _ hi
    cases t with
    | bytes n =>
      have hn : ¬ (s'.deferrable = true ∧ kZeroCopySize ≤ n) := by
        simpa [Ty.defers, hdef] using hdt.symm
      simp only [pup, hr, hk, packInstance, if_true, if_neg hn]
    | _ => simp only [pup, hr, hk, packInstance, if_true]
  | poly =>
    obtain ⟨-, hid⟩ := hf
    simp [pup, hid, hr, hk]

theorem Tracks.pup_defer [DecidableEq α] (hI : Tracks L d T I) {k : Option Ty} {p : Ptr ω α}
    (hs : v.IsShared (some p) k) (hf : L.Fits h d k p) (hp : p.owner ∉ V)
    (hd : L.defers p.owner = true) (hT : V ++ [p.owner] <+: T) (h0 : I s V) :
    ∃ s', pup h follow v s = .ok s' ∧ I s' (V ++ [p.owner]) ∧ s'.written =
      s.written ++ [.byte 2, .word (L.ident p.owner), .word (L.tag p.owner)] := by
  obtain ⟨r, s', hr, hw, hk, hid, hi⟩ := hI.defer s V p.owner h0 hT hp hd
  cases hs with
  | data t =>
    obtain ⟨hdt, ht, -⟩ := hf
    rw [hd] at hdt
    obtain rfl := ht hdt.symm
    have hdef := hI.deferrable _ _ (hi p [] rfl)
    change s'.deferrable = d at hdef
    have hn : s'.deferrable = true ∧ kZeroCopySize ≤ L.tag p.owner := by
      simpa [Ty.defers, hdef] using hdt.symm
    refine ⟨_, ?_, hi p (PtrRecord.cells { r with ty := L.tag p.owner, kind := .deferred }) rfl, ?_⟩
    · simp only [pup, hr, hk, packInstance, if_true, if_pos hn]
    · simp [Packer.putDeferred, Packer.setRecord, hw, PtrRecord.cells, hid]
  | poly => simp [Labels.Fits, hd] at hf

/-- A pass writes the linear form of a value, with enough fuel. -/
theorem Tracks.pup_of_lin [DecidableEq α] (hI : Tracks L d T I) {G : Option Ty × Ptr ω α → Prop}
    (hfit : ∀ s, G s → L.Fits h d s.1 s.2)
    (hstep : ∀ s o, G s → h.lookup s.2.addr = some o → ∀ q ∈ o.value.slots, G q)
    (hl : Lin h L R v V x W) (hT : W <+: T) (hg : ∀ q ∈ v.slots, G q) :
    ∃ N, ∀ n ≥ N, ∀ s, I s V → ∃ s', pup h (pupObject h n) v s = .ok s' ∧ I s' W ∧
      s'.written = s.written ++ x := by
  induction hl with
  | bytes b V => exact ⟨0, fun n _ s hs => ⟨_, rfl, hI.copy _ _ _ hs, rfl⟩⟩
  | builtin b V => exact ⟨0, fun n _ s hs => ⟨_, rfl, hI.copy _ _ _ hs, rfl⟩⟩
  | unit V => exact ⟨0, fun n _ s hs => ⟨_, rfl, hs, by simp⟩⟩
  | nil V => exact ⟨0, fun n _ s hs => ⟨_, rfl, hs, by simp⟩⟩
  | pair ha hb iha ihb | cons ha hb iha ihb =>
    simp only [Val.slots, List.mem_append] at hg
    obtain ⟨N, hN⟩ := iha (hb.grows.trans hT) fun q hq => hg q (.inl hq)
    obtain ⟨M, hM⟩ := ihb hT fun q hq => hg q (.inr hq)
    refine ⟨max N M, fun n hn s hs => ?_⟩
    obtain ⟨s₁, h₁, hi₁, hw₁⟩ := hN n (le_trans (le_max_left _ _) hn) s hs
    obtain ⟨s₂, h₂, hi₂, hw₂⟩ := hM n (le_trans (le_max_right _ _) hn) s₁ hi₁
    exact ⟨s₂, by simp [pup, h₁, h₂, Except.bind], hi₂, by rw [hw₂, hw₁, List.append_assoc]⟩
  | list _ ih | map _ ih | unique _ ih | poly _ ih =>
    obtain ⟨N, hN⟩ := ih hT hg
    refine ⟨N, fun n hn s hs => ?_⟩
    obtain ⟨s', h', hi, hw⟩ := hN n hn _ (hI.copy s _ _ hs)
    exact ⟨s', h', hi, by simp [hw]⟩
  | uniqueNull V => exact ⟨0, fun n _ s hs => ⟨_, rfl, hI.copy _ _ _ hs, rfl⟩⟩
  | null V hsh =>
    refine ⟨0, fun n _ s hs => ?_⟩
    cases hsh <;> exact ⟨_, rfl, hI.copy _ _ _ hs, rfl⟩
  | reference hsh _ hm hd =>
    refine ⟨0, fun n _ s hs => ?_⟩
    have hq := hg _ (by rw [hsh.slots_eq]; exact List.mem_singleton_self _)
    obtain ⟨s', h', hi, hw⟩ := hI.pup_again hsh (hfit _ hq) hm hs
    exact ⟨s', h', hi, by rw [hw, Labels.metCells, hd]; rfl⟩
  | again hsh hm hd =>
    refine ⟨0, fun n _ s hs => ?_⟩
    have hq := hg _ (by rw [hsh.slots_eq]; exact List.mem_singleton_self _)
    obtain ⟨s', h', hi, hw⟩ := hI.pup_again hsh (hfit _ hq) hm hs
    exact ⟨s', h', hi, by rw [hw, Labels.metCells, hd]; rfl⟩
  | defer hsh hm hd =>
    refine ⟨0, fun n _ s hs => ?_⟩
    have hq := hg _ (by rw [hsh.slots_eq]; exact List.mem_singleton_self _)
    exact hI.pup_defer hsh (hfit _ hq) hm hd hT hs
  | «instance» hsh hm hd hlook hl ih =>
    have hq := hg _ (by rw [hsh.slots_eq]; exact List.mem_singleton_self _)
    obtain ⟨N, hN⟩ := ih hT (hstep _ _ hq hlook)
    refine ⟨N + 1, fun n hn s hs => ?_⟩
    obtain ⟨n, rfl⟩ := Nat.exists_eq_add_of_le' (Nat.le_of_add_left_le hn)
    obtain ⟨s₁, h₁, hi₁, hw₁⟩ := hI.pup_instance (pupObject h (n + 1)) hsh (hfit _ hq) hm hd
      (hl.grows.trans hT) hs
    obtain ⟨s₂, h₂, hi₂, hw₂⟩ := hN n (Nat.le_of_succ_le_succ hn) s₁ hi₁
    refine ⟨s₂, ?_, hi₂, by rw [hw₂, hw₁, List.append_assoc]; rfl⟩
    rw [h₁, pupObject, hlook]
    exact h₂

@[simp] theorem setRecord_self (s : Packer ω α) (o : Option ω) (r : PtrRecord) :
    (s.setRecord o r).self = s.self := rfl

@[simp] theorem setRecord_written (s : Packer ω α) (o : Option ω) (r : PtrRecord) :
    (s.setRecord o r).written = s.written := rfl

section Records

variable {o q : Option ω} {r : PtrRecord} {ty : ℕ}

theorem lookup_setRecord (s : Packer ω α) (o q : Option ω) (r : PtrRecord) :
    (s.setRecord o r).records.lookup q =
      if q = o then (s.records.lookup o).map fun _ => r else s.records.lookup q := by
  unfold Packer.setRecord
  induction s.records with
  | nil => simp
  | cons e l ih =>
    obtain ⟨k, r'⟩ := e
    simp only [List.map_cons, List.lookup_cons] at ih ⊢
    rcases eq_or_ne k o with rfl | hk
    · rcases eq_or_ne q k with rfl | hq
      · simp
      · simpa [List.lookup_cons, beq_eq_false_iff_ne.mpr hq, hq] using ih
    · rcases eq_or_ne q k with rfl | hq
      · simp [hk]
      · simpa [hk, hk.symm, List.lookup_cons, beq_eq_false_iff_ne.mpr hq,
          beq_eq_false_iff_ne.mpr hk.symm] using ih

theorem getRecord_none (h : s.records.lookup o = none) : s.getRecord o ty =
    (⟨.instance, s.records.length + 1, ty, s.self⟩,
      { s with records := s.records ++ [(o, ⟨.instance, s.records.length + 1, ty, s.self⟩)] }) := by
  simp [Packer.getRecord, h]

theorem getRecord_own (h : s.records.lookup o = some r) (hs : r.progenitor = s.self) :
    s.getRecord o ty = (if r.kind = .instance then { r with kind := .reference } else r,
      s.setRecord o (if r.kind = .instance then { r with kind := .reference } else r)) := by
  simp [Packer.getRecord, h, hs]

theorem getRecord_acquired (h : s.records.lookup o = some r) (hs : r.progenitor ≠ s.self) :
    s.getRecord o ty = ({ r with kind := .instance, progenitor := s.self },
      s.setRecord o { r with kind := .instance, progenitor := s.self }) := by
  simp [Packer.getRecord, h, hs.symm]

end Records

/-- The records agree with the labels, and are this serdes's own for the owners met. -/
structure Met (L : Labels ω) (d : Bool) (s : Packer ω α) (V : List (Option ω)) : Prop where
  deferrable : s.deferrable = d
  mem_iff : ∀ o, o ∈ V ↔ ∃ r, s.records.lookup o = some r ∧ r.progenitor = s.self
  label : ∀ o r, s.records.lookup o = some r → r.id = L.ident o ∧ r.ty = L.tag o
  kind : ∀ o r, s.records.lookup o = some r → r.progenitor = s.self →
    r.kind = .deferred ∧ L.defers o = true ∨
      (r.kind = .instance ∨ r.kind = .reference) ∧ L.defers o = false

theorem Met.setRecord (hm : Met L d s V) {o : Option ω} {r : PtrRecord}
    (ho : (s.records.lookup o).isSome) (hp : r.progenitor = s.self)
    (hl : r.id = L.ident o ∧ r.ty = L.tag o)
    (hk : r.kind = .deferred ∧ L.defers o = true ∨
      (r.kind = .instance ∨ r.kind = .reference) ∧ L.defers o = false)
    (hW : ∀ q, q ∈ W ↔ q = o ∨ q ∈ V) : Met L d (s.setRecord o r) W where
  deferrable := hm.deferrable
  mem_iff q := by
    rw [hW, lookup_setRecord]
    obtain ⟨r', hr'⟩ := Option.isSome_iff_exists.mp ho
    rcases eq_or_ne q o with rfl | hq
    · simpa [hr'] using hp
    · simpa [hq] using hm.mem_iff q
  label q r' hr := by
    rw [lookup_setRecord] at hr
    rcases eq_or_ne q o with rfl | hq
    · simp only [if_true, Option.map_eq_some_iff] at hr
      obtain ⟨-, -, rfl⟩ := hr
      exact hl
    · exact hm.label q r' (by simpa [hq] using hr)
  kind q r' hr hp' := by
    rw [lookup_setRecord] at hr
    rcases eq_or_ne q o with rfl | hq
    · simp only [if_true, Option.map_eq_some_iff] at hr
      obtain ⟨-, -, rfl⟩ := hr
      exact hk
    · exact hm.kind q r' (by simpa [hq] using hr) hp'

theorem Met.again (hm : Met L d s V) {o : Option ω} (ho : o ∈ V) (ty : ℕ) : ∃ r,
    s.getRecord o ty = (r, s.setRecord o r) ∧ Met L d (s.setRecord o r) V ∧
      r.kind ≠ .instance ∧ r.cells = L.metCells o := by
  obtain ⟨r, hr, hp⟩ := (hm.mem_iff o).mp ho
  have hsome : (s.records.lookup o).isSome := by simp [hr]
  have hW : ∀ q, q ∈ V ↔ q = o ∨ q ∈ V := fun q =>
    ⟨.inr, fun h => h.elim (fun h => h ▸ ho) id⟩
  obtain ⟨hid, hty⟩ := hm.label o r hr
  rw [getRecord_own hr hp]
  rcases hm.kind o r hr hp with ⟨hk, hd⟩ | ⟨hk | hk, hd⟩
  · refine ⟨r, by simp [hk], hm.setRecord hsome hp ⟨hid, hty⟩ (.inl ⟨hk, hd⟩) hW, by simp [hk], ?_⟩
    simp [PtrRecord.cells, Labels.metCells, hk, hd, hid, hty]
  · refine ⟨{ r with kind := .reference }, by simp [hk],
      hm.setRecord hsome hp ⟨hid, hty⟩ (.inr ⟨.inr rfl, hd⟩) hW, by simp, ?_⟩
    simp [PtrRecord.cells, Labels.metCells, hd, hid]
  · refine ⟨r, by simp [hk], hm.setRecord hsome hp ⟨hid, hty⟩ (.inr ⟨.inr hk, hd⟩) hW,
      by simp [hk], ?_⟩
    simp [PtrRecord.cells, Labels.metCells, hk, hd, hid]

theorem Met.same (hm : Met L d s V) {t : Packer ω α} (hs : t.self = s.self)
    (hd : t.deferrable = s.deferrable) (hr : t.records = s.records) : Met L d t V := by
  refine ⟨hd.trans hm.deferrable, fun o => ?_, fun o r => ?_, fun o r => ?_⟩
  · rw [hs, hr]; exact hm.mem_iff o
  · rw [hr]; exact hm.label o r
  · rw [hs, hr]; exact hm.kind o r

theorem map_fst_setRecord (s : Packer ω α) (o : Option ω) (r : PtrRecord) :
    (s.setRecord o r).records.map Prod.fst = s.records.map Prod.fst := by
  simp only [Packer.setRecord, List.map_map]
  refine List.map_congr_left fun q _ => ?_
  by_cases hq : q.1 = o <;> simp [hq]

/-- A sizer without records numbers the owners in the order in which they are met. -/
structure Sizes (L : Labels ω) (d : Bool) (s : Packer ω α) (V : List (Option ω)) : Prop
    extends Met L d s V where
  self : s.self = 0
  keys : s.records.map Prod.fst = V

theorem lookup_eq_none_of_notMem {o : Option ω} (hk : s.records.map Prod.fst = V) (ho : o ∉ V) :
    s.records.lookup o = none := by
  rw [List.lookup_eq_none_iff]
  intro p hp
  simp only [bne_iff_ne]
  rintro rfl
  exact ho (hk ▸ List.mem_map_of_mem hp)

theorem Met.append (hs : Met L d s V) {o : Option ω} {r : PtrRecord}
    (hnone : s.records.lookup o = none) (hp : r.progenitor = s.self)
    (hl : r.id = L.ident o ∧ r.ty = L.tag o)
    (hk : r.kind = .deferred ∧ L.defers o = true ∨
      (r.kind = .instance ∨ r.kind = .reference) ∧ L.defers o = false) :
    Met L d { s with records := s.records ++ [(o, r)] } (V ++ [o]) where
  deferrable := hs.deferrable
  mem_iff q := by
    simp only [List.mem_append, List.mem_singleton, List.lookup_append, hs.mem_iff q]
    rcases eq_or_ne q o with rfl | hq
    · simp [hnone, hp]
    · simp [List.lookup_cons, beq_eq_false_iff_ne.mpr hq, hq]
  label q r' hr := by
    rcases eq_or_ne q o with rfl | hq
    · obtain rfl : r = r' := by simpa [List.lookup_append, hnone] using hr
      exact hl
    · exact hs.label q r' (by
        simpa [List.lookup_append, List.lookup_cons, beq_eq_false_iff_ne.mpr hq] using hr)
  kind q r' hr hp' := by
    rcases eq_or_ne q o with rfl | hq
    · obtain rfl : r = r' := by simpa [List.lookup_append, hnone] using hr
      exact hk
    · exact hs.kind q r' (by
        simpa [List.lookup_append, List.lookup_cons, beq_eq_false_iff_ne.mpr hq] using hr) hp'

theorem Sizes.append (hs : Sizes L d s V) {o : Option ω} {r : PtrRecord} (ho : o ∉ V)
    (hp : r.progenitor = s.self) (hl : r.id = L.ident o ∧ r.ty = L.tag o)
    (hk : r.kind = .deferred ∧ L.defers o = true ∨
      (r.kind = .instance ∨ r.kind = .reference) ∧ L.defers o = false) :
    Sizes L d { s with records := s.records ++ [(o, r)] } (V ++ [o]) where
  toMet := hs.toMet.append (lookup_eq_none_of_notMem hs.keys ho) hp hl hk
  self := hs.self
  keys := by simp [hs.keys]

theorem setRecord_append {o : Option ω} (hk : s.records.map Prod.fst = V) (ho : o ∉ V)
    (r r' : PtrRecord) : Packer.setRecord { s with records := s.records ++ [(o, r)] } o r' =
      { s with records := s.records ++ [(o, r')] } := by
  simp only [Packer.setRecord, List.map_append, List.map_cons, List.map_nil, if_true]
  congr 2
  refine (List.map_congr_left fun q hq => ?_).trans (List.map_id _)
  have : q.1 ≠ o := by
    rintro rfl
    exact ho (hk ▸ List.mem_map_of_mem hq)
  simp [this]

theorem tracks_sizer (hT : ∀ i o, T[i]? = some o → L.ident o = i + 1) :
    Tracks L d T fun (s : Packer ω α) V => Sizes L d s V where
  deferrable _ _ hs := hs.deferrable
  copy _ _ _ hs := ⟨hs.toMet.same rfl rfl rfl, hs.self, hs.keys⟩
  again s V o ty hs ho := by
    obtain ⟨r, hr, hm, hk, hc⟩ := hs.toMet.again ho ty
    exact ⟨r, _, hr, ⟨hm, hs.self, by rw [map_fst_setRecord, hs.keys]⟩, rfl, hk, hc⟩
  visit s V o hs hV ho hd := by
    have hid : L.ident o = s.records.length + 1 := by
      rw [← List.length_map (f := Prod.fst), hs.keys]
      refine hT _ _ ?_
      obtain ⟨U, rfl⟩ := hV
      simp
    rw [getRecord_none (lookup_eq_none_of_notMem hs.keys ho)]
    refine ⟨_, _, rfl, hs.append ho rfl ⟨hid.symm, rfl⟩ (.inr ⟨.inl rfl, hd⟩), rfl, rfl, ?_⟩
    simp [PtrRecord.cells, hid]
  defer s V o hs hV ho hd := by
    have hid : L.ident o = s.records.length + 1 := by
      rw [← List.length_map (f := Prod.fst), hs.keys]
      refine hT _ _ ?_
      obtain ⟨U, rfl⟩ := hV
      simp
    rw [getRecord_none (lookup_eq_none_of_notMem hs.keys ho)]
    refine ⟨_, _, rfl, rfl, rfl, hid.symm, fun p cs _ => ?_⟩
    rw [setRecord_append hs.keys ho]
    have := hs.append (r := ⟨.deferred, s.records.length + 1, L.tag o, s.self⟩) ho rfl
      ⟨hid.symm, rfl⟩ (.inl ⟨rfl, hd⟩)
    exact ⟨this.toMet.same rfl rfl rfl, this.self, this.keys⟩

theorem setRecord_setRecord (s : Packer ω α) (o : Option ω) (r r' : PtrRecord) :
    (s.setRecord o r).setRecord o r' = s.setRecord o r' := by
  simp only [Packer.setRecord, List.map_map]
  congr 1
  refine List.map_congr_left fun q _ => ?_
  by_cases hq : q.1 = o <;> simp [hq]

/-- A packer with the records of a sizer finds a record for every owner. -/
structure Packs (L : Labels ω) (d : Bool) (T : List (Option ω)) (s : Packer ω α)
    (V : List (Option ω)) : Prop extends Met L d s V where
  known : ∀ o ∈ T, (s.records.lookup o).isSome

theorem Packs.setRecord (hs : Packs L d T s V) {o : Option ω} {r : PtrRecord}
    (hm : Met L d (s.setRecord o r) W) : Packs L d T (s.setRecord o r) W := by
  refine ⟨hm, fun q hq => ?_⟩
  rw [lookup_setRecord]
  rcases eq_or_ne q o with rfl | hne
  · simpa using hs.known q hq
  · simpa [hne] using hs.known q hq

theorem Packs.acquired (hs : Packs L d T s V) {o : Option ω} (hT : o ∈ T) (ho : o ∉ V) : ∃ r,
    (s.records.lookup o).isSome ∧ r.id = L.ident o ∧ r.ty = L.tag o ∧ r.kind = .instance ∧
      r.progenitor = s.self ∧ ∀ ty, s.getRecord o ty = (r, s.setRecord o r) := by
  obtain ⟨r, hr⟩ := Option.isSome_iff_exists.mp (hs.known o hT)
  have hp : r.progenitor ≠ s.self := fun he => ho ((hs.mem_iff o).mpr ⟨r, hr, he⟩)
  obtain ⟨hid, hty⟩ := hs.label o r hr
  exact ⟨{ r with kind := .instance, progenitor := s.self }, hs.known o hT, hid, hty, rfl, rfl,
    fun ty => getRecord_acquired hr hp⟩

theorem tracks_packer : Tracks L d T fun (s : Packer ω α) V => Packs L d T s V where
  deferrable _ _ hs := hs.deferrable
  copy _ _ _ hs := ⟨hs.toMet.same rfl rfl rfl, hs.known⟩
  again s V o ty hs ho := by
    obtain ⟨r, hr, hm, hk, hc⟩ := hs.toMet.again ho ty
    exact ⟨r, _, hr, hs.setRecord hm, rfl, hk, hc⟩
  visit s V o hs hV ho hd := by
    obtain ⟨r, hsome, hid, hty, hk, hp, hr⟩ := hs.acquired (hV.subset (by simp)) ho
    refine ⟨r, _, hr _, hs.setRecord (hs.toMet.setRecord hsome hp ⟨hid, hty⟩
      (.inr ⟨.inl hk, hd⟩) fun q => by simp [or_comm]), rfl, hk, ?_⟩
    simp [PtrRecord.cells, hk, hid, hty]
  defer s V o hs hV ho hd := by
    obtain ⟨r, hsome, hid, hty, hk, hp, hr⟩ := hs.acquired (hV.subset (by simp)) ho
    refine ⟨r, _, hr _, rfl, hk, hid, fun p cs _ => ?_⟩
    rw [setRecord_setRecord]
    have hm : Packs L d T (s.setRecord o { r with ty := L.tag o, kind := .deferred }) (V ++ [o]) :=
      hs.setRecord (hs.toMet.setRecord hsome hp ⟨hid, rfl⟩ (.inl ⟨rfl, hd⟩) fun q => by
        simp [or_comm])
    exact ⟨hm.toMet.same rfl rfl rfl, hm.known⟩

theorem Sizes.start (L : Labels ω) (d : Bool) :
    Sizes L d ({ self := 0, deferrable := d } : Packer ω α) [] where
  deferrable := rfl
  mem_iff o := by simp
  label o r hr := by simp at hr
  kind o r hr := by simp at hr
  self := rfl
  keys := rfl

theorem Sizes.own (hs : Sizes L d s V) {o : Option ω} {r : PtrRecord}
    (hr : s.records.lookup o = some r) : r.progenitor = 0 := by
  have ho : o ∈ V := by
    by_contra ho
    rw [lookup_eq_none_of_notMem hs.keys ho] at hr
    cases hr
  obtain ⟨r', hr', hp⟩ := (hs.mem_iff o).mp ho
  cases hr.symm.trans hr'
  rw [hp, hs.self]

/-- A packer that starts with the records of a sizer. It may pack a part of what was sized, and
defer or not. -/
theorem Sizes.acquires (hs : Sizes L d s T) {d' : Bool} {U : List (Option ω)}
    (hU : ∀ o ∈ U, o ∈ T) : Packs L d' U (Packer.acquire { self := 1, deferrable := d' } s) [] where
  deferrable := rfl
  mem_iff o := by
    simp only [List.not_mem_nil, false_iff, not_exists, not_and]
    intro r hr hp
    exact absurd (hs.own hr ▸ hp) (by simp [Packer.acquire])
  label o r hr := hs.label o r hr
  kind o r hr hp := absurd (hs.own hr ▸ hp) (by simp [Packer.acquire])
  known o ho := by
    obtain ⟨r, hr, -⟩ := (hs.mem_iff o).mp (hU o ho)
    simp [Packer.acquire, hr]

theorem Sizes.acquire (hs : Sizes L d s T) :
    Packs L d T (Packer.acquire { self := 1, deferrable := d } s) [] :=
  hs.acquires fun _ => id

theorem pack_of_lin [DecidableEq α] {G : Option Ty × Ptr ω α → Prop}
    (hfit : ∀ s, G s → L.Fits h false s.1 s.2)
    (hstep : ∀ s o, G s → h.lookup s.2.addr = some o → ∀ q ∈ o.value.slots, G q)
    (hT : ∀ i o, T[i]? = some o → L.ident o = i + 1) (hl : Lin h L R v [] x T)
    (hg : ∀ q ∈ v.slots, G q) : ∃ N, ∀ n ≥ N, pack h n v = .ok x := by
  obtain ⟨N, hN⟩ := (tracks_sizer hT).pup_of_lin hfit hstep hl List.prefix_rfl hg
  obtain ⟨M, hM⟩ := tracks_packer.pup_of_lin hfit hstep hl List.prefix_rfl hg
  refine ⟨max N M, fun n hn => ?_⟩
  obtain ⟨s₁, h₁, hi₁, hw₁⟩ := hN n (le_trans (le_max_left _ _) hn) _ (Sizes.start L false)
  obtain ⟨s₂, h₂, -, hw₂⟩ := hM n (le_trans (le_max_right _ _) hn) _ hi₁.acquire
  rw [pack, h₁]
  simp only [Except.bind]
  rw [h₂]
  simp [hw₁, hw₂, Packer.acquire]

end Hypercomm.Serialization
