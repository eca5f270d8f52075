import Hypercomm.Serialization.RoundTrip

/-! # Two passes over a value

What a pass writes for an owner depends on whether this serdes met the owner before, and not on
the records that it started with. So two passes that start alike write as much, and a pass ends
because it follows only objects whose owner it did not meet.
-/

namespace Hypercomm.Serialization

variable {ω α : Type*} [DecidableEq ω] {h : Heap ω α}

section Records

variable {s s' t t' : Packer ω α} {o q : Option ω} {r r' : PtrRecord} {ty : ℕ}

def Packer.met (s : Packer ω α) (o : Option ω) : Option Kind :=
  ((s.records.lookup o).filter fun r => r.progenitor = s.self).map PtrRecord.kind

/-- The kind of the record that is written for an owner. -/
def Kind.next : Option Kind → Kind
  | none => .instance
  | some .instance => .reference
  | some k => k

theorem size_cells (hk : r.kind = r'.kind) : size r.cells = size r'.cells := by
  unfold PtrRecord.cells
  rw [hk]
  cases r'.kind <;> rfl

theorem met_setRecord (hs : (s.records.lookup o).isSome) (hp : r.progenitor = s.self) :
    (s.setRecord o r).met q = if q = o then some r.kind else s.met q := by
  obtain ⟨r', hr'⟩ := Option.isSome_iff_exists.mp hs
  unfold Packer.met
  rw [lookup_setRecord, setRecord_self]
  by_cases hq : q = o
  · simp [hq, hr', hp]
  · simp [hq]

/-- What becomes of the records when one is looked up. -/
structure Recorded (s s' : Packer ω α) (o : Option ω) (r : PtrRecord) : Prop where
  kind : r.kind = Kind.next (s.met o)
  progenitor : r.progenitor = s.self
  met : ∀ q, s'.met q = if q = o then some r.kind else s.met q
  lookup : (s'.records.lookup o).isSome
  own : (∀ e ∈ s.records, e.2.progenitor = s.self) → ∀ e ∈ s'.records, e.2.progenitor = s'.self
  self : s'.self = s.self
  deferrable : s'.deferrable = s.deferrable
  deferred : s'.deferred = s.deferred
  written : s'.written = s.written

theorem own_setRecord (hp : r.progenitor = s.self)
    (ho : ∀ e ∈ s.records, e.2.progenitor = s.self) :
    ∀ e ∈ (s.setRecord o r).records, e.2.progenitor = (s.setRecord o r).self := by
  intro e he
  obtain ⟨e', he', rfl⟩ := List.mem_map.mp he
  split_ifs
  · exact hp
  · exact ho e' he'

theorem Recorded.of_setRecord (hl : (s.records.lookup o).isSome) (hp : r.progenitor = s.self)
    (hk : r.kind = Kind.next (s.met o)) : Recorded s (s.setRecord o r) o r where
  kind := hk
  progenitor := hp
  met q := met_setRecord hl hp
  lookup := by
    obtain ⟨r', hr'⟩ := Option.isSome_iff_exists.mp hl
    simp [lookup_setRecord, hr']
  own := own_setRecord hp
  self := rfl
  deferrable := rfl
  deferred := rfl
  written := rfl

theorem recorded_getRecord (s : Packer ω α) (o : Option ω) (ty : ℕ) :
    Recorded s (s.getRecord o ty).2 o (s.getRecord o ty).1 := by
  cases hr : s.records.lookup o with
  | none =>
    have hm : s.met o = none := by simp [Packer.met, hr]
    rw [getRecord_none hr]
    refine ⟨by rw [hm]; rfl, rfl, fun q => ?_, by simp [List.lookup_append, hr], ?_, rfl, rfl, rfl,
      rfl⟩
    · unfold Packer.met
      by_cases hq : q = o
      · simp [hq, List.lookup_append, hr]
      · simp [hq, List.lookup_append, List.lookup_cons, beq_eq_false_iff_ne.mpr hq]
    · intro ho e he
      rcases List.mem_append.mp he with he | he
      · exact ho e he
      · rw [List.mem_singleton.mp he]
  | some r =>
    have hl : (s.records.lookup o).isSome := by simp [hr]
    by_cases hp : r.progenitor = s.self
    · have hm : s.met o = some r.kind := by simp [Packer.met, hr, hp]
      rw [getRecord_own hr hp]
      apply Recorded.of_setRecord hl
      · split_ifs <;> exact hp
      · rw [hm]
        cases hk : r.kind <;> simp [Kind.next, hk]
    · have hm : s.met o = none := by simp [Packer.met, hr, hp]
      rw [getRecord_acquired hr hp]
      apply Recorded.of_setRecord hl rfl
      rw [hm]
      rfl

theorem Recorded.met_eq_none {r : PtrRecord} (hr : Recorded s s' o r) (hk : r.kind = .instance) :
    s.met o = none := by
  have hkind := hr.kind.symm.trans hk
  cases hm : s.met o with
  | none => rfl
  | some k => cases k <;> simp [hm, Kind.next] at hkind

end Records

section Pointers

variable {follow : α → Packer ω α → Except Fault (Packer ω α)} {s s' t t' : Packer ω α}
variable {v : Val (Ptr ω α)} {p : Ptr ω α} {T : Ty} {ty k : ℕ} {E : Set (Option ω)} {P : Prop}

/-- Size or pack a pointer. A polymorph is treated like data that is never deferred. -/
def pupPtr (follow : α → Packer ω α → Except Fault (Packer ω α)) (T : Ty) (p : Ptr ω α) (ty : ℕ)
    (s : Packer ω α) : Except Fault (Packer ω α) :=
  let r := s.getRecord p.owner ty
  if r.1.kind = .instance then packInstance follow T p r.1 r.2 else .ok (r.2.copy r.1.cells)

theorem pup_sharedPoly [DecidableEq α] {c : ℕ} (hc : identify h p.addr = some c)
    (s : Packer ω α) : pup h follow (.sharedPoly (some p)) s = pupPtr follow .unit p c s := by
  simp only [pup, hc]
  rfl

def Ty.width : Ty → ℕ
  | .bytes n => n
  | _ => 0

def Packer.defer (s : Packer ω α) (T : Ty) (p : Ptr ω α) (r : PtrRecord) : Packer ω α :=
  let r := { r with ty := T.width, kind := .deferred }
  ((s.setRecord p.owner r).copy r.cells).putDeferred r p

theorem pupPtr_eq (follow : α → Packer ω α → Except Fault (Packer ω α)) (T : Ty)
    (p : Ptr ω α) (ty : ℕ) (s : Packer ω α) : pupPtr follow T p ty s =
      if (s.getRecord p.owner ty).1.kind = .instance then
        if T.defers s.deferrable then
          .ok ((s.getRecord p.owner ty).2.defer T p (s.getRecord p.owner ty).1)
        else follow p.addr ((s.getRecord p.owner ty).2.copy (s.getRecord p.owner ty).1.cells)
      else .ok ((s.getRecord p.owner ty).2.copy (s.getRecord p.owner ty).1.cells) := by
  unfold pupPtr
  rw [← (recorded_getRecord s p.owner ty).deferrable]
  cases T with
  | bytes n => simp [packInstance, Ty.defers, Ty.width, Packer.defer]
  | _ => rfl

theorem exists_pupPtr_eq (follow : α → Packer ω α → Except Fault (Packer ω α)) (T : Ty)
    (p : Ptr ω α) (ty : ℕ) (s : Packer ω α) : ∃ r s₁, Recorded s s₁ p.owner r ∧
      pupPtr follow T p ty s =
        if r.kind = .instance then
          if T.defers s.deferrable then .ok (s₁.defer T p r) else follow p.addr (s₁.copy r.cells)
        else .ok (s₁.copy r.cells) :=
  ⟨_, _, recorded_getRecord s p.owner ty, pupPtr_eq follow T p ty s⟩

/-- What a pass keeps: what was met stays met, and what was deferred stays deferred. -/
structure Grows (s s' : Packer ω α) : Prop where
  self : s'.self = s.self
  deferrable : s'.deferrable = s.deferrable
  deferred : s'.deferred = [] → s.deferred = []
  met : ∀ o, (s.met o).isSome → (s'.met o).isSome
  own : (∀ e ∈ s.records, e.2.progenitor = s.self) → ∀ e ∈ s'.records, e.2.progenitor = s'.self
  wrote : s.written <+: s'.written

theorem Grows.trans (hs : Grows s t) (ht : Grows t t') : Grows s t' where
  self := ht.self.trans hs.self
  deferrable := ht.deferrable.trans hs.deferrable
  deferred hd := hs.deferred (ht.deferred hd)
  met o ho := ht.met o (hs.met o ho)
  own ho := ht.own (hs.own ho)
  wrote := hs.wrote.trans ht.wrote

theorem Grows.copy (s : Packer ω α) (cs : List Cell) : Grows s (s.copy cs) :=
  ⟨rfl, rfl, id, fun _ => id, id, List.prefix_append _ _⟩

theorem Recorded.grows {o : Option ω} {r : PtrRecord} (hr : Recorded s s' o r) : Grows s s' where
  self := hr.self
  deferrable := hr.deferrable
  deferred hd := hr.deferred.symm.trans hd
  met q hq := by
    rw [hr.met]
    split_ifs
    · rfl
    · exact hq
  own := hr.own
  wrote := hr.written ▸ List.prefix_rfl

theorem upsert_ne_nil {β : Type*} (j : ℕ) (f : Option β → β) (l : List (ℕ × β)) :
    upsert j f l ≠ [] := by
  intro he
  have hj : j ∈ (upsert j f l).map Prod.fst := mem_upsert.mpr (.inl rfl)
  rw [he] at hj
  cases hj

theorem Recorded.met_defer {o : Option ω} {r : PtrRecord} (hr : Recorded s s' p.owner r) (T : Ty) :
    (s'.defer T p r).met o = if o = p.owner then some .deferred else s.met o := by
  change (s'.setRecord p.owner _).met o = _
  have hown : r.progenitor = s'.self := hr.progenitor.trans hr.self.symm
  rw [met_setRecord hr.lookup (by exact hown), hr.met]
  split_ifs <;> rfl

theorem Recorded.grows_defer {r : PtrRecord} (hr : Recorded s s' p.owner r) (T : Ty) :
    Grows s (s'.defer T p r) where
  self := hr.self
  deferrable := hr.deferrable
  deferred hd := absurd hd (upsert_ne_nil _ _ _)
  met q hq := by
    rw [hr.met_defer]
    split_ifs
    · rfl
    · exact hq
  own ho := by
    have hown : r.progenitor = s'.self := hr.progenitor.trans hr.self.symm
    exact own_setRecord (by exact hown) (hr.own ho)
  wrote := hr.written ▸ List.prefix_append _ _

theorem Grows.pupPtr (hf : ∀ a s s', follow a s = .ok s' → Grows s s')
    (hs : pupPtr follow T p ty s = .ok s') : Grows s s' := by
  obtain ⟨r, s₁, hr, he⟩ := exists_pupPtr_eq follow T p ty s
  rw [he] at hs
  split_ifs at hs with hk hd
  · exact Except.ok.inj hs ▸ hr.grows_defer T
  · exact (hr.grows.trans (.copy _ _)).trans (hf _ _ _ hs)
  · exact Except.ok.inj hs ▸ hr.grows.trans (.copy _ _)

/-- What every copy and every pointer of a value preserves is preserved by a pass over it. -/
theorem pup_preserves [DecidableEq α] {R : Packer ω α → Packer ω α → Prop} (hrefl : ∀ s, R s s)
    (htrans : ∀ s t u, R s t → R t u → R s u) (hcopy : ∀ s cs, R s (s.copy cs))
    (hptr : ∀ p ∈ v.ptrs, ∀ T ty s s', pupPtr follow T p ty s = .ok s' → R s s')
    (hs : pup h follow v s = .ok s') : R s s' := by
  induction v generalizing s s' with
  | bytes b | builtin b | uniqueNull => exact Except.ok.inj hs ▸ hcopy _ _
  | unit | nil => exact Except.ok.inj hs ▸ hrefl _
  | pair a b iha ihb | cons a b iha ihb =>
    simp only [Val.ptrs_pair, Val.ptrs_cons, List.mem_append] at hptr
    obtain ⟨t, ha, hb⟩ := bind_eq_ok.mp hs
    exact htrans _ _ _ (iha (fun p hp => hptr p (.inl hp)) ha)
      (ihb (fun p hp => hptr p (.inr hp)) hb)
  | list l ih | map l ih | unique l ih | poly _ l ih =>
    exact htrans _ _ _ (hcopy _ _) (ih hptr hs)
  | polyNull => cases hs
  | shared T p =>
    cases p with
    | none => exact Except.ok.inj hs ▸ hcopy _ _
    | some p => exact hptr p (by simp) T 0 s s' hs
  | sharedPoly p =>
    cases p with
    | none => exact Except.ok.inj hs ▸ hcopy _ _
    | some p =>
      cases hc : identify h p.addr with
      | none => simp [pup, hc] at hs
      | some c =>
        rw [pup_sharedPoly hc] at hs
        exact hptr p (by simp) _ _ s s' hs

theorem Grows.pup [DecidableEq α] (hf : ∀ a s s', follow a s = .ok s' → Grows s s')
    (hs : pup h follow v s = .ok s') : Grows s s' :=
  pup_preserves (R := Grows) (fun _ => ⟨rfl, rfl, id, fun _ => id, id, List.prefix_rfl⟩)
    (fun _ _ _ => .trans) .copy (fun _ _ _ _ _ _ => .pupPtr hf) hs

theorem grows_pupObject [DecidableEq α] (n : ℕ) {a : α} (hs : pupObject h n a s = .ok s') :
    Grows s s' := by
  induction n generalizing a s s' with
  | zero => cases hs
  | succ n ih =>
    unfold pupObject at hs
    cases ho : h.lookup a with
    | none => simp [ho] at hs
    | some o =>
      rw [ho] at hs
      exact .pup (fun _ _ _ => ih) hs

/-- Two passes that met the same owners, except some that do not matter from here on. The first
wrote `k` more, and nothing is deferred in it if only it may defer. -/
structure Alike (E : Set (Option ω)) (P : Prop) (k : ℕ) (s t : Packer ω α) : Prop where
  deferrable : t.deferrable = s.deferrable ∨ t.deferrable = false ∧ P
  met : ∀ o ∉ E, t.met o = s.met o
  written : size s.written = size t.written + k

theorem Alike.copy (ha : Alike E P k s t) {cs ds : List Cell} (hc : size cs = size ds) :
    Alike E P k (s.copy cs) (t.copy ds) where
  deferrable := ha.deferrable
  met := ha.met
  written := by
    have := ha.written
    simp only [copy_written, size_append]
    omega

theorem Alike.recorded (ha : Alike E P k s t) {o : Option ω} (ho : o ∉ E) {r r' : PtrRecord}
    (hs : Recorded s s' o r) (ht : Recorded t t' o r') :
    r'.kind = r.kind ∧ Alike E P k s' t' := by
  have hk : r'.kind = r.kind := by rw [hs.kind, ht.kind, ha.met o ho]
  refine ⟨hk, by rw [hs.deferrable, ht.deferrable]; exact ha.deferrable, fun q hq => ?_, ?_⟩
  · rw [hs.met, ht.met, hk, ha.met q hq]
  · rw [hs.written, ht.written]
    exact ha.written

theorem Alike.defer (ha : Alike E P k s t) {r r' : PtrRecord}
    (hs : Recorded s s' p.owner r) (ht : Recorded t t' p.owner r') :
    Alike E P k (s'.defer T p r) (t'.defer T p r') where
  deferrable := by
    change t'.deferrable = s'.deferrable ∨ t'.deferrable = false ∧ P
    rw [hs.deferrable, ht.deferrable]
    exact ha.deferrable
  met q hq := by rw [hs.met_defer, ht.met_defer, ha.met q hq]
  written := by
    change size ((s'.written ++ _)) = size (t'.written ++ _) + k
    have := ha.written
    simp only [size_append, hs.written, ht.written, PtrRecord.cells, size_cons, Cell.size]
    omega

def Follows (E : Set (Option ω)) (P : Prop) (k : ℕ)
    (f g : Packer ω α → Except Fault (Packer ω α)) : Prop :=
  ∀ s t s', Alike E P k s t → f s = .ok s' → (P → s'.deferred = []) →
    ∃ t', g t = .ok t' ∧ Alike E P k s' t'

variable {follow' : α → Packer ω α → Except Fault (Packer ω α)}

theorem follows_pupPtr (hp : p.owner ∉ E)
    (hf : Follows E P k (follow p.addr) (follow' p.addr)) :
    Follows E P k (pupPtr follow T p ty) (pupPtr follow' T p ty) := by
  intro s t s' ha hs hP
  obtain ⟨r, s₁, hr, he⟩ := exists_pupPtr_eq follow T p ty s
  obtain ⟨r', t₁, hr', he'⟩ := exists_pupPtr_eq follow' T p ty t
  obtain ⟨hk, ha₁⟩ := ha.recorded hp hr hr'
  rw [he] at hs
  rw [he', hk]
  split_ifs at hs with hi hd
  · -- nothing is deferred, unless both may defer
    have hdef : t.deferrable = s.deferrable := by
      rcases ha.deferrable with hdef | ⟨-, hn⟩
      · exact hdef
      · rw [← Except.ok.inj hs] at hP
        exact absurd (hP hn) (upsert_ne_nil _ _ _)
    rw [if_pos hi, hdef, if_pos hd]
    exact ⟨_, rfl, Except.ok.inj hs ▸ ha.defer hr hr'⟩
  · have hdef : ¬ T.defers t.deferrable = true := by
      rcases ha.deferrable with hdef | ⟨hdef, -⟩
      · rwa [hdef]
      · rw [hdef]
        cases T <;> simp [Ty.defers]
    rw [if_pos hi, if_neg hdef]
    exact hf _ _ _ (ha₁.copy (size_cells hk.symm)) hs hP
  · rw [if_neg hi]
    exact ⟨_, rfl, Except.ok.inj hs ▸ ha₁.copy (size_cells hk.symm)⟩

theorem follows_pup [DecidableEq α] {G : Ptr ω α → Prop} (hE : ∀ p, G p → p.owner ∉ E)
    (hg : ∀ a s s', follow a s = .ok s' → Grows s s')
    (hf : ∀ p, G p → Follows E P k (follow p.addr) (follow' p.addr)) (hv : ∀ p ∈ v.ptrs, G p) :
    Follows E P k (pup h follow v) (pup h follow' v) := by
  intro s t s' ha hs hP
  induction v generalizing s t s' with
  | bytes b | builtin b | uniqueNull => exact ⟨_, rfl, Except.ok.inj hs ▸ ha.copy rfl⟩
  | unit | nil => exact ⟨_, rfl, Except.ok.inj hs ▸ ha⟩
  | pair a b iha ihb | cons a b iha ihb =>
    simp only [Val.ptrs_pair, Val.ptrs_cons, List.mem_append] at hv
    obtain ⟨s₁, hs₁, hs₂⟩ := bind_eq_ok.mp hs
    obtain ⟨t₁, ht₁, ha₁⟩ := iha (fun p hp => hv p (.inl hp)) s t s₁ ha hs₁
      fun hp => (Grows.pup hg hs₂).deferred (hP hp)
    obtain ⟨t₂, ht₂, ha₂⟩ := ihb (fun p hp => hv p (.inr hp)) s₁ t₁ s' ha₁ hs₂ hP
    exact ⟨t₂, bind_eq_ok.mpr ⟨t₁, ht₁, ht₂⟩, ha₂⟩
  | list l ih | map l ih | unique l ih | poly _ l ih => exact ih hv _ _ s' (ha.copy rfl) hs hP
  | polyNull => cases hs
  | shared T p =>
    cases p with
    | none => exact ⟨_, rfl, Except.ok.inj hs ▸ ha.copy rfl⟩
    | some p =>
      have hp : G p := hv p (by simp)
      exact follows_pupPtr (hE p hp) (hf p hp) s t s' ha hs hP
  | sharedPoly p =>
    cases p with
    | none => exact ⟨_, rfl, Except.ok.inj hs ▸ ha.copy rfl⟩
    | some p =>
      have hp : G p := hv p (by simp)
      cases hc : identify h p.addr with
      | none => simp [pup, hc] at hs
      | some c =>
        rw [pup_sharedPoly hc] at hs ⊢
        exact follows_pupPtr (hE p hp) (hf p hp) s t s' ha hs hP

theorem follows_pupObject [DecidableEq α] {G : Ptr ω α → Prop} (hE : ∀ p, G p → p.owner ∉ E)
    (hstep : ∀ p q, G p → Edge h p q → G q) {n m : ℕ} (hnm : n ≤ m) :
    ∀ p, G p → Follows E P k (pupObject h n p.addr) (pupObject h m p.addr) := by
  induction n generalizing m with
  | zero => exact fun p hp s t s' _ hs => by cases hs
  | succ n ih =>
    obtain ⟨m, rfl⟩ := Nat.exists_eq_add_of_lt hnm
    intro p hp s t s' ha hs hP
    unfold pupObject at hs ⊢
    cases ho : h.lookup p.addr with
    | none => simp [ho] at hs
    | some o =>
      rw [ho] at hs
      exact follows_pup hE (fun _ _ _ => grows_pupObject n) (ih (by omega))
        (fun q hq => hstep p q hp ⟨o, ho, hq⟩) s t s' ha hs hP

def unmet (S : Finset (Option ω)) (s : Packer ω α) : Finset (Option ω) :=
  S.filter fun o => s.met o = none

variable {S : Finset (Option ω)}

theorem Grows.card_unmet (hg : Grows s s') : (unmet S s').card ≤ (unmet S s).card := by
  apply Finset.card_le_card
  intro o ho
  obtain ⟨hS, hn⟩ := Finset.mem_filter.mp ho
  apply Finset.mem_filter.mpr
  refine ⟨hS, Option.not_isSome_iff_eq_none.mp fun hm => ?_⟩
  simpa [hn] using hg.met o hm

theorem Recorded.card_unmet {o : Option ω} {r : PtrRecord} (hr : Recorded s s' o r)
    (ho : o ∈ S) (hk : r.kind = .instance) : (unmet S s').card < (unmet S s).card := by
  apply Finset.card_lt_card
  have hnone : s.met o = none := hr.met_eq_none hk
  refine Finset.ssubset_iff_subset_ne.mpr ⟨fun q hq => ?_, fun he => ?_⟩
  · obtain ⟨hS, hn⟩ := Finset.mem_filter.mp hq
    refine Finset.mem_filter.mpr ⟨hS, Option.not_isSome_iff_eq_none.mp fun hm => ?_⟩
    simpa [hn] using hr.grows.met q hm
  · have hmem : o ∈ unmet S s' := he ▸ Finset.mem_filter.mpr ⟨ho, hnone⟩
    simpa [hr.met] using (Finset.mem_filter.mp hmem).2

/-- A pass ends: each object that it follows has an owner that was not met. -/
theorem exists_pup [DecidableEq α] {fields : ℕ → Ty} {G : Ptr ω α → Prop} {n : ℕ}
    (hS : ∀ p, G p → p.owner ∈ S) (hg : ∀ a s s', follow a s = .ok s' → Grows s s')
    (hf : ∀ p s, G p → (unmet S s).card < n → ∃ s', follow p.addr s = .ok s')
    (hv : ∀ p ∈ v.ptrs, G p) (ht : Typed fields h v) (hn : (unmet S s).card ≤ n) :
    ∃ s', pup h follow v s = .ok s' := by
  have ptr {T : Ty} {p : Ptr ω α} {ty : ℕ} {s : Packer ω α} (hp : G p)
      (hn : (unmet S s).card ≤ n) : ∃ s', pupPtr follow T p ty s = .ok s' := by
    obtain ⟨r, s₁, hr, he⟩ := exists_pupPtr_eq follow T p ty s
    rw [he]
    split_ifs with hk hd
    · exact ⟨_, rfl⟩
    · have hlt := hr.card_unmet (hS p hp) hk
      have hle : (unmet S (s₁.copy r.cells)).card ≤ (unmet S s₁).card :=
        (Grows.copy s₁ r.cells).card_unmet
      exact hf p _ hp (by omega)
    · exact ⟨_, rfl⟩
  induction v generalizing s with
  | bytes b | builtin b | uniqueNull | unit | nil => exact ⟨_, rfl⟩
  | pair a b iha ihb =>
    simp only [Val.ptrs_pair, List.mem_append] at hv
    obtain ⟨s₁, ha⟩ := iha (fun p hp => hv p (.inl hp)) ht.pair.1 hn
    obtain ⟨s₂, hb⟩ := ihb (fun p hp => hv p (.inr hp)) ht.pair.2
      ((Grows.pup hg ha).card_unmet.trans hn)
    exact ⟨s₂, bind_eq_ok.mpr ⟨s₁, ha, hb⟩⟩
  | cons a b iha ihb =>
    simp only [Val.ptrs_cons, List.mem_append] at hv
    obtain ⟨s₁, ha⟩ := iha (fun p hp => hv p (.inl hp)) ht.cons.1 hn
    obtain ⟨s₂, hb⟩ := ihb (fun p hp => hv p (.inr hp)) ht.cons.2
      ((Grows.pup hg ha).card_unmet.trans hn)
    exact ⟨s₂, bind_eq_ok.mpr ⟨s₁, ha, hb⟩⟩
  | list l ih => exact ih hv ht.list ((Grows.copy s _).card_unmet.trans hn)
  | map l ih => exact ih hv ht.map ((Grows.copy s _).card_unmet.trans hn)
  | unique l ih => exact ih hv ht.unique ((Grows.copy s _).card_unmet.trans hn)
  | poly _ l ih => exact ih hv ht.poly ((Grows.copy s _).card_unmet.trans hn)
  | polyNull => exact absurd ht not_typed_polyNull
  | shared T p =>
    cases p with
    | none => exact ⟨_, rfl⟩
    | some p => exact ptr (hv p (by simp)) hn
  | sharedPoly p =>
    cases p with
    | none => exact ⟨_, rfl⟩
    | some p =>
      obtain ⟨c, w, hc⟩ := ht.sharedPoly
      have hid : identify h p.addr = some c := by simp [identify, hc]
      rw [pup_sharedPoly hid]
      exact ptr (hv p (by simp)) hn

theorem exists_pupObject [DecidableEq α] {fields : ℕ → Ty} {G : Ptr ω α → Prop}
    (hS : ∀ p, G p → p.owner ∈ S) (hstep : ∀ p q, G p → Edge h p q → G q)
    (hobj : ∀ p, G p → ∃ o, h.lookup p.addr = some o ∧ Typed fields h o.value) (n : ℕ) :
    ∀ p s, G p → (unmet S s).card < n → ∃ s', pupObject h n p.addr s = .ok s' := by
  induction n with
  | zero => exact fun p s _ hn => absurd hn (Nat.not_lt_zero _)
  | succ n ih =>
    intro p s hp hn
    obtain ⟨o, ho, ht⟩ := hobj p hp
    unfold pupObject
    rw [ho]
    exact exists_pup hS (fun _ _ _ => grows_pupObject n) ih (fun q hq => hstep p q hp ⟨o, ho, hq⟩)
      ht (Nat.le_of_lt_succ hn)

end Pointers

section Deferred

variable {follow : α → Packer ω α → Except Fault (Packer ω α)} {s s' : Packer ω α}
variable {v : Val (Ptr ω α)} {p : Ptr ω α} {G : Ptr ω α → Prop}

def DefersOnly (G : Ptr ω α → Prop) (s : Packer ω α) : Prop := ∀ d ∈ s.deferred, G d.2.2

theorem DefersOnly.defer (hs : DefersOnly G s) (hp : G p) (T : Ty) (r : PtrRecord) :
    DefersOnly G (s.defer T p r) := by
  intro d hd
  change d ∈ upsert r.id (fun d => (T.width, (d.map Prod.snd).getD p)) s.deferred at hd
  unfold DefersOnly at hs
  generalize s.deferred = l at hs hd
  induction l with
  | nil =>
    rw [List.mem_singleton.mp hd]
    exact hp
  | cons e l ih =>
    simp only [List.forall_mem_cons] at hs
    unfold upsert at hd
    split_ifs at hd with hlt heq
    · rcases List.mem_cons.mp hd with rfl | hd
      · exact hp
      · rcases List.mem_cons.mp hd with rfl | hd
        · exact hs.1
        · exact hs.2 d hd
    · rcases List.mem_cons.mp hd with rfl | hd
      · exact hs.1
      · exact hs.2 d hd
    · rcases List.mem_cons.mp hd with rfl | hd
      · exact hs.1
      · exact ih hs.2 hd

theorem DefersOnly.pup [DecidableEq α]
    (hf : ∀ p, G p → ∀ s s', follow p.addr s = .ok s' → DefersOnly G s → DefersOnly G s')
    (hv : ∀ p ∈ v.ptrs, G p) (hs : pup h follow v s = .ok s') (hd : DefersOnly G s) :
    DefersOnly G s' := by
  refine pup_preserves (R := fun s s' => DefersOnly G s → DefersOnly G s') (fun _ => id)
    (fun _ _ _ hst htu hs => htu (hst hs)) (fun _ _ => id) (fun p hp T ty s s' hs hd => ?_) hs hd
  obtain ⟨r, s₁, hr, he⟩ := exists_pupPtr_eq follow T p ty s
  have hd₁ : DefersOnly G s₁ := by
    unfold DefersOnly
    rw [hr.deferred]
    exact hd
  rw [he] at hs
  split_ifs at hs
  · exact Except.ok.inj hs ▸ hd₁.defer (hv p hp) T r
  · exact hf p (hv p hp) _ _ hs hd₁
  · exact Except.ok.inj hs ▸ hd₁

theorem defersOnly_pupObject [DecidableEq α] (hstep : ∀ p q, G p → Edge h p q → G q) (n : ℕ) :
    ∀ p, G p → ∀ s s', pupObject h n p.addr s = .ok s' → DefersOnly G s → DefersOnly G s' := by
  induction n with
  | zero => exact fun p _ s s' hs => by cases hs
  | succ n ih =>
    intro p hp s s' hs hd
    unfold pupObject at hs
    cases ho : h.lookup p.addr with
    | none => simp [ho] at hs
    | some o =>
      rw [ho] at hs
      exact .pup ih (fun q hq => hstep p q hp ⟨o, ho, hq⟩) hs hd

end Deferred

end Hypercomm.Serialization
