import Hypercomm.TreeBuilder.Replacement
import Hypercomm.TreeBuilder.Succession

/-! # The calls of an element in a tree that loses nodes

Whatever an element is called for, the tree follows it step by step, and afterwards no reducer is
complete or could take a value that waits for one of its ports.
-/

namespace Hypercomm.TreeBuilder.Destruction

open Contraction Transition

variable {ι V κ : Type*} [DecidableEq ι]

namespace Element

/-- Replace the slots of some reductions, and collect what was sent. -/
def outcome (e : Element ι V κ) (cs : List ReductionId)
    (f : ReductionId → Slot ι V κ × List (Result ι V κ)) :
    Element ι V κ × List (Contribution ι V κ) :=
  ({ e with slots := fun c => if c ∈ cs then (f c).1 else e.slots c },
    cs.flatMap fun c => (f c).2.map fun r => ⟨c, r.1, r.2⟩)

omit [DecidableEq ι] in
theorem forEach_atSlot {f : Slot ι V κ → Outcome (Slot ι V κ) (Result ι V κ)}
    {g : ReductionId → Slot ι V κ × List (Result ι V κ)} {cs : List ReductionId} (hnd : cs.Nodup)
    (e : Element ι V κ) (hf : ∀ c ∈ cs, f (e.slots c) = some (g c)) :
    forEach (atSlot f) cs e = some (e.outcome cs g) := by
  induction cs generalizing e with
  | nil => simp [forEach, outcome]
  | cons c cs ih =>
    obtain ⟨hc, hnd⟩ := List.nodup_cons.mp hnd
    have hhead : atSlot f c e = some ({ e with slots := Function.update e.slots c (g c).1 },
        (g c).2.map fun r => ⟨c, r.1, r.2⟩) := by
      unfold atSlot
      rw [hf c List.mem_cons_self]
      rfl
    unfold forEach Outcome.andThen
    rw [hhead, Option.bind_some, ih hnd]
    · have hslots : (fun d => if d ∈ cs then (g d).1 else Function.update e.slots c (g c).1 d) =
          fun d => if d ∈ c :: cs then (g d).1 else e.slots d := by
        funext d
        rcases eq_or_ne d c with rfl | hd <;> simp [*]
      simp [outcome, hslots]
    · intro d hd
      have hne : d ≠ c := fun he => hc (he ▸ hd)
      dsimp only
      rw [Function.update_of_ne hne]
      exact hf d (List.mem_cons_of_mem c hd)

end Element

namespace View

section Put

variable {v : View ι V κ} {x z : ι} {c : ReductionId} {slot : Slot ι V κ}
variable {r : Result ι V κ} {cs : List ReductionId}
variable {o : Element ι V κ × List (Contribution ι V κ)} {outs : List (Contribution ι V κ)}

omit [DecidableEq ι] in
@[simp] theorem foldl_send_elements : (outs.foldl (send x) v).elements = v.elements := by
  induction outs generalizing v with
  | nil => rfl
  | cons r outs ih => rw [List.foldl_cons, ih, send_elements]

omit [DecidableEq ι] in
@[simp] theorem foldl_send_alive : (outs.foldl (send x) v).alive = v.alive := by
  induction outs generalizing v with
  | nil => rfl
  | cons r outs ih => rw [List.foldl_cons, ih, send_alive]

omit [DecidableEq ι] in
@[simp] theorem foldl_send_records : (outs.foldl (send x) v).records = v.records := by
  induction outs generalizing v with
  | nil => rfl
  | cons r outs ih => rw [List.foldl_cons, ih, send_records]

@[simp] theorem put_alive : (v.put x o).alive = v.alive := foldl_send_alive

@[simp] theorem put_records : (v.put x o).records = v.records := foldl_send_records

theorem put_elements : (v.put x o).elements = Function.update v.elements x o.1 :=
  foldl_send_elements

@[simp] theorem put_elements_self : (v.put x o).elements x = o.1 := by
  rw [put_elements, Function.update_self]

omit [DecidableEq ι] in
theorem foldl_send_set (outs : List (Contribution ι V κ)) (elements : ι → Element ι V κ) :
    outs.foldl (send x) { v with elements } = { outs.foldl (send x) v with elements } := by
  induction outs generalizing v with
  | nil => rfl
  | cons r outs ih =>
    have hsend : send x { v with elements } r = { send x v r with elements } := by
      unfold send
      cases r.output <;> rfl
    rw [List.foldl_cons, hsend, ih]
    rfl

theorem put_setRecords {recs recs' : Multiset (ι × Event ι)} :
    { ({ v with records := recs' } : View ι V κ).put x o with records := recs } =
      ({ v with records := recs } : View ι V κ).put x o := by
  have hsend : ∀ w : View ι V κ, { o.2.foldl (send x) w with records := recs } =
      o.2.foldl (send x) { w with records := recs } := by
    induction o.2 with
    | nil => exact fun _ => rfl
    | cons r outs ih =>
      intro w
      have hr : send x { w with records := recs } r = { send x w r with records := recs } := by
        unfold send
        cases r.output <;> rfl
      rw [List.foldl_cons, ih, List.foldl_cons, hr]
  exact hsend _

theorem put_self : v.put x (v.elements x, []) = v := by
  unfold put
  rw [Function.update_eq_self]
  rfl

theorem put_put (o' : Element ι V κ × List (Contribution ι V κ)) :
    (v.put x o).put x o' = v.put x (o'.1, o.2 ++ o'.2) := by
  have hset : { v.put x o with elements := Function.update (v.put x o).elements x o'.1 } =
      o.2.foldl (send x) { v with elements := Function.update v.elements x o'.1 } := by
    rw [put_elements, Function.update_idem]
    exact (foldl_send_set (v := { v with elements := Function.update v.elements x o.1 }) _ _).symm
  unfold put at hset ⊢
  rw [hset, List.foldl_append]

theorem put_congr {w : View ι V κ} {e : Element ι V κ}
    (hw : w = { v with elements := Function.update v.elements x e }) : w.put x o = v.put x o := by
  unfold put
  rw [hw, Function.update_idem]

omit [DecidableEq ι] in
theorem outcome_nil (e : Element ι V κ) (g : ReductionId → Slot ι V κ × List (Result ι V κ)) :
    e.outcome [] g = (e, []) := by
  simp [Element.outcome]

theorem put_outcome_cons (g : ReductionId → Slot ι V κ × List (Result ι V κ)) :
    v.put x ((v.elements x).outcome (c :: cs) g) =
      let w := v.put x ((v.elements x).outcome [c] g)
      w.put x ((w.elements x).outcome cs g) := by
  have hslots : (fun d => if d ∈ c :: cs then (g d).1 else (v.elements x).slots d) =
      fun d => if d ∈ cs then (g d).1 else if d ∈ [c] then (g d).1
        else (v.elements x).slots d := by
    funext d
    by_cases hd : d ∈ cs <;> simp [hd]
  dsimp only
  rw [put_put, put_elements_self]
  unfold Element.outcome
  rw [hslots]
  simp

theorem put_outcome_singleton (g : ReductionId → Slot ι V κ × List (Result ι V κ)) :
    v.put x ((v.elements x).outcome [c] g) =
      (g c).2.foldl (fun v r => v.send x ⟨c, r.1, r.2⟩) (v.setSlot x c (g c).1) := by
  have hslots : (fun d => if d ∈ [c] then (g d).1 else (v.elements x).slots d) =
      Function.update (v.elements x).slots c (g c).1 := by
    funext d
    rcases eq_or_ne d c with rfl | hd <;> simp [*]
  unfold put Element.outcome
  rw [hslots, List.flatMap_singleton, List.foldl_map]
  rfl

theorem put_outcome_slots (g : ReductionId → Slot ι V κ × List (Result ι V κ)) {d : ReductionId} :
    ((v.put x ((v.elements x).outcome cs g)).elements z).slots d =
      if z = x ∧ d ∈ cs then (g d).1 else (v.elements z).slots d := by
  rw [put_elements]
  rcases eq_or_ne z x with rfl | hz
  · simp [Element.outcome]
  · simp [hz]

theorem setSlot_setSlot (slot' : Slot ι V κ) :
    (v.setSlot x c slot).setSlot x c slot' = v.setSlot x c slot' := by
  simp [setSlot]

end Put

end View

variable {T : RankedTree ι} {as : List (Action ι V κ)} {v : View ι V κ} {A : State ι V}
variable {x y z : ι} {c d : ReductionId} {s t : Slot ι V κ} {r : Reducer ι V κ}

/-- A change of a slot that the tree can follow. -/
def Simulated (T : RankedTree ι) (as : List (Action ι V κ)) (x : ι) (c : ReductionId)
    (s t : Slot ι V κ) : Prop :=
  ∀ (v : View ι V κ) (A : State ι V), Corresponds T as v A → (v.elements x).slots c = s →
    ∃ B, Corresponds T as (v.setSlot x c t) B

theorem Simulated.refl (s : Slot ι V κ) : Simulated T as x c s s := by
  intro v A h hs
  exact ⟨A, (setSlot_self hs).symm ▸ h⟩

theorem Simulated.trans {u : Slot ι V κ} (h : Simulated T as x c s t)
    (h' : Simulated T as x c t u) : Simulated T as x c s u := by
  intro v A hv hs
  obtain ⟨B, hB⟩ := h v A hv hs
  obtain ⟨C, hC⟩ := h' _ B hB (by rw [View.setSlot_slots, if_pos ⟨rfl, rfl⟩])
  exact ⟨C, View.setSlot_setSlot u ▸ hC⟩

theorem Simulated.flush (hy : ∀ r, s.rdcr = some r → y ∈ r.ports) :
    Simulated T as x c s (s.flush y) := by
  intro v A h hs
  unfold Slot.flush
  cases hr : s.rdcr with
  | none => exact Simulated.refl s v A h hs
  | some r => exact h.flush hs hr (hy r hr) rfl (.inl rfl)

def Flushed (s : Slot ι V κ) : Prop :=
  ∀ r, s.rdcr = some r → ∀ i ∈ r.ports, s.portQueue i = []

omit [DecidableEq ι] in
theorem SettledAt.flushed (h : SettledAt s) : Flushed s := fun r hr => (h r hr).2

omit [DecidableEq ι] in
theorem Flushed.settle (h : Flushed s) : SettledAt s.settle.1 := by
  intro r hr
  cases hs : s.rdcr with
  | none =>
    unfold Slot.settle at hr
    rw [hs] at hr
    cases hs.symm.trans hr
  | some r' =>
    by_cases hlt : r'.devs.length < r'.nUstream
    · rw [Slot.settle_of_missing hs hlt] at hr ⊢
      obtain rfl := Option.some.inj (hs.symm.trans hr)
      exact ⟨hlt, h r' hs⟩
    · rw [Slot.settle_of_complete hs (not_lt.mp hlt)] at hr
      cases hr

theorem Flushed.flush (h : ∀ r, s.rdcr = some r → ∀ i ∈ r.ports, i = y ∨ s.portQueue i = []) :
    Flushed (s.flush y) := by
  intro r hr i hi
  cases hs : s.rdcr with
  | none =>
    unfold Slot.flush at hr
    rw [hs] at hr
    cases hs.symm.trans hr
  | some r' =>
    have hflush : s.flush y = ⟨some { r' with
        devs := r'.devs ++ (s.portQueue y).map fun v => (y, some v) },
        Function.update s.portQueue y []⟩ := by
      unfold Slot.flush
      rw [hs]
    rw [hflush] at hr ⊢
    obtain rfl := Option.some.inj hr
    rcases h r' hs i hi with rfl | hq
    · exact Function.update_self ..
    · rcases eq_or_ne i y with rfl | hne
      · exact Function.update_self ..
      · exact (Function.update_of_ne hne ..).trans hq

section Lasting

variable {st st' : List (Transaction ι)} {t : Transaction ι} {e : Element ι V κ}

omit [DecidableEq ι] in
theorem Slot.Lasts.settle (h : s.Lasts c st) : s.settle.1.Lasts c st := by
  intro r hr
  cases hs : s.rdcr with
  | none =>
    unfold Slot.settle at hr
    rw [hs] at hr
    cases hs.symm.trans hr
  | some r' =>
    by_cases hlt : r'.devs.length < r'.nUstream
    · rw [Slot.settle_of_missing hs hlt] at hr ⊢
      exact h r hr
    · rw [Slot.settle_of_complete hs (not_lt.mp hlt)] at hr
      cases hr

omit [DecidableEq ι] in
theorem Slot.Lasts.tail (h : s.Lasts c (t :: st)) : s.Lasts c st := by
  intro r hr
  rcases h r hr with hempty | hlt
  · exact .inl fun t ht => hempty t (List.mem_cons_of_mem _ ht)
  · rw [List.countP_cons] at hlt
    exact .inr (by omega)

omit [DecidableEq ι] in
theorem Element.Lasts.perm (h : e.Lasts st) (hp : st.Perm st') : e.Lasts st' := by
  intro c hc r hr
  rcases h c hc r hr with hempty | hlt
  · exact .inl fun t ht => hempty t (hp.mem_iff.mpr ht)
  · exact .inr (hp.countP_eq _ ▸ hlt)

theorem Slot.Lasts.flush (h : ∀ r ∈ s.rdcr,
    (∀ t ∈ st, t.stamp ≤ c → ∀ next ∈ t.to_, (s.portQueue next).isEmpty) ∨
      r.devs.length + (s.portQueue y).length + st.countP (fun t => t.stamp ≤ c) < r.nUstream) :
    (s.flush y).Lasts c st := by
  intro r hr
  cases hs : s.rdcr with
  | none =>
    unfold Slot.flush at hr
    rw [hs] at hr
    cases hs.symm.trans hr
  | some r' =>
    have hflush : s.flush y = ⟨some { r' with
        devs := r'.devs ++ (s.portQueue y).map fun v => (y, some v) },
        Function.update s.portQueue y []⟩ := by
      unfold Slot.flush
      rw [hs]
    rw [hflush] at hr ⊢
    obtain rfl := Option.some.inj hr
    refine (h r' hs).imp (fun hempty t ht htc next hnext => ?_) fun hlt => ?_
    · rcases eq_or_ne next y with rfl | hne
      · simp
      · simpa [hne] using hempty t ht htc next hnext
    · simpa using hlt

omit [DecidableEq ι] in
theorem Element.Lasts.outcome {g : ReductionId → Slot ι V κ × List (Result ι V κ)}
    (h : ∀ c < e.rednCount, c ∉ cs → (e.slots c).Lasts c st)
    (hcs : ∀ c ∈ cs, (g c).1.Lasts c st) : (e.outcome cs g).1.Lasts st := by
  intro c hc
  unfold Element.outcome
  dsimp only
  split_ifs with hmem
  · exact hcs c hmem
  · exact h c hc hmem

end Lasting

/-- The tree follows a reducer that completes, if it is complete. -/
theorem Corresponds.put_settle (h : Corresponds T as (v.setSlot x c s) A) :
    ∃ B, Corresponds T as (v.put x ((v.elements x).outcome [c] fun _ => s.settle)) B := by
  rw [View.put_outcome_singleton]
  cases hs : s.rdcr with
  | none =>
    have hsettle : s.settle = (s, []) := by
      unfold Slot.settle
      rw [hs]
    rw [hsettle]
    exact ⟨A, h⟩
  | some r =>
    by_cases hlt : r.devs.length < r.nUstream
    · rw [Slot.settle_of_missing hs hlt]
      exact ⟨A, h⟩
    · have hle := not_lt.mp hlt
      have hslot : ((v.setSlot x c s).elements x).slots c = s := by
        rw [View.setSlot_slots, if_pos ⟨rfl, rfl⟩]
      obtain ⟨B, hB⟩ := h.settle hslot hs hle
      rw [View.setSlot_setSlot] at hB
      rw [Slot.settle_of_complete hs hle]
      exact ⟨B, hB⟩

/-- A system between two calls: the tree follows it, and its reducers have taken all they can. -/
structure Settled (T : RankedTree ι) (as : List (Action ι V κ)) (v : View ι V κ) : Prop where
  corresponds : ∃ A, Corresponds T as v A
  settled : ∀ x c, SettledAt ((v.elements x).slots c)

theorem Settled.of_outcome {cs : List ReductionId} {g : ReductionId → Slot ι V κ} (hnd : cs.Nodup)
    (h : ∃ A, Corresponds T as v A)
    (hs : ∀ z c, ¬ (z = x ∧ c ∈ cs) → SettledAt ((v.elements z).slots c))
    (hg : ∀ c ∈ cs, Simulated T as x c ((v.elements x).slots c) (g c) ∧ Flushed (g c)) :
    Settled T as (v.put x ((v.elements x).outcome cs fun c => (g c).settle)) := by
  induction cs generalizing v with
  | nil =>
    rw [View.outcome_nil, View.put_self]
    exact ⟨h, fun z c => hs z c fun hc => List.not_mem_nil hc.2⟩
  | cons c cs ih =>
    obtain ⟨hc, hnd⟩ := List.nodup_cons.mp hnd
    obtain ⟨hsim, hflushed⟩ := hg c List.mem_cons_self
    obtain ⟨A, hA⟩ := h
    obtain ⟨B, hB⟩ := hsim v A hA rfl
    rw [View.put_outcome_cons]
    apply ih hnd
    · rw [View.put_outcome_singleton]
      obtain ⟨C, hC⟩ := hB.put_settle
      rw [View.put_outcome_singleton] at hC
      exact ⟨C, hC⟩
    · intro z d hz
      rw [View.put_outcome_slots]
      split_ifs with hzd
      · rw [List.mem_singleton.mp hzd.2]
        exact hflushed.settle
      · apply hs
        rintro ⟨rfl, hd⟩
        rcases List.mem_cons.mp hd with rfl | hd
        · exact hzd ⟨rfl, List.mem_singleton_self d⟩
        · exact hz ⟨rfl, hd⟩
    · intro d hd
      rw [View.put_outcome_slots, if_neg]
      · exact hg d (List.mem_cons_of_mem c hd)
      · rintro ⟨-, he⟩
        exact hc (List.mem_singleton.mp he ▸ hd)

section Calls

variable {u : ι} {next ds : List ι} {k : ReductionId} {recs : Multiset (ι × Event ι)}
variable {cs : List ReductionId} {f : Reducer ι V κ → Reducer ι V κ}

theorem View.amend_slots : ((v.amend x ds cs f recs).elements x).slots c =
    if c ∈ cs then { (v.elements x).slots c with rdcr := ((v.elements x).slots c).rdcr.map f }
    else (v.elements x).slots c := by
  simp [View.amend]

theorem View.amend_put_outcome (g : ReductionId → Slot ι V κ × List (Result ι V κ)) :
    (v.amend x ds cs f recs).put x (((v.amend x ds cs f recs).elements x).outcome cs g) =
      ({ v with records := recs } : View ι V κ).put x
        (Element.outcome { v.elements x with downstream := ds } cs g) := by
  have hslots : (fun c => if c ∈ cs then (g c).1
      else ((v.amend x ds cs f recs).elements x).slots c) =
        fun c => if c ∈ cs then (g c).1 else (v.elements x).slots c := by
    funext c
    rw [View.amend_slots]
    by_cases hc : c ∈ cs <;> simp [hc]
  unfold Element.outcome
  rw [hslots]
  unfold View.put View.amend
  simp only [Function.update_self, Function.update_idem]

theorem Settled.of_amend {g : ReductionId → Slot ι V κ} (h : Settled T as v) (hnd : cs.Nodup)
    (hA : Corresponds T as (v.amend x ds cs f recs) A)
    (hg : ∀ c ∈ cs, Simulated T as x c { (v.elements x).slots c with
        rdcr := ((v.elements x).slots c).rdcr.map f } (g c) ∧ Flushed (g c)) :
    Settled T as (({ v with records := recs } : View ι V κ).put x
      (Element.outcome { v.elements x with downstream := ds } cs fun c => (g c).settle)) := by
  rw [← View.amend_put_outcome (f := f)]
  apply Settled.of_outcome hnd ⟨A, hA⟩
  · intro z c hz
    have hsame : ((v.amend x ds cs f recs).elements z).slots c = (v.elements z).slots c := by
      rcases eq_or_ne z x with rfl | hne
      · rw [View.amend_slots, if_neg fun hc => hz ⟨rfl, hc⟩]
      · simp [View.amend, hne]
    rw [hsame]
    exact h.settled z c
  · intro c hc
    rw [View.amend_slots, if_pos hc]
    exact hg c hc

theorem Corresponds.queue_le_one (h : Corresponds T as v A) (x : ι) (c : ReductionId) (y : ι) :
    (((v.elements x).slots c).portQueue y).length ≤ 1 := by
  rcases h.queue_cases x c y with hq | ⟨a, hq, -⟩ <;> simp [hq]

theorem Corresponds.mem_ports (h : Corresponds T as v A) (hq : (x, ⟨u, next, k⟩) ∈ v.records)
    (hx : v.alive x = true) (hu : u ∈ (v.elements x).downstream) (hk : k ≤ c)
    (hr : ((v.elements x).slots c).rdcr = some r) : u ∈ r.ports := by
  have hux := (h.downstream x ((h.alive x).mp hx) u).mp hu
  have hku : k = (A.own u).length := (h.records _ hq).stamp
  obtain ⟨p, hp, hinv⟩ := h.reducer x c r hr
  have hnd : ¬ A.Done u c := fun hd => absurd hd.1 (not_lt.mpr (hku ▸ hk))
  have hup := (h.sound.inv.waits x c p hp u hux).resolve_right fun hc => hnd hc.1
  exact ((hinv.wait u).mp hup).1

theorem Corresponds.notMem_downstream (h : Corresponds T as v A)
    (hq : (x, ⟨u, next, k⟩) ∈ v.records) (hx : v.alive x = true) (hy : y ∈ next) :
    y ∉ (v.elements x).downstream := by
  have hxa := (h.alive x).mp hx
  have hrec := h.records _ hq
  intro hmem
  have hxu := h.sound.inv.unique x u y ((h.downstream x hxa y).mp hmem) ((hrec.children y).mp hy)
  exact hrec.dead (hxu ▸ hxa)

omit [DecidableEq ι] in
theorem Element.mem_affectedBy (e : Element ι V κ) (c : ReductionId) :
    c ∈ e.affectedBy k ↔ c < e.rednCount ∧ k ≤ c := by
  simp [Element.affectedBy]

omit [DecidableEq ι] in
theorem Element.nodup_affectedBy (e : Element ι V κ) : (e.affectedBy k).Nodup :=
  List.nodup_range.filter _

/-- What an element does to its children leaves its other fields alone. -/
structure Kept (e e' : Element ι V κ) : Prop where
  rednCount : e'.rednCount = e.rednCount
  staged : e'.staged = e.staged

theorem Settled.addDownstream (h : Settled T as v) (hrec : v.records = (x, ⟨u, next, k⟩) ::ₘ recs)
    (hx : v.alive x = true) (hy : y ∈ next) (hk : k ≤ (v.elements x).rednCount) :
    ∃ o, (v.elements x).addDownstream k y = some o ∧
      Settled T as (({ v with
        records := (x, ⟨u, next.erase y, k⟩) ::ₘ recs } : View ι V κ).put x o) ∧
      o.1.downstream = (v.elements x).downstream ++ [y] ∧ Kept (v.elements x) o.1 ∧
      ∀ st, (v.elements x).Lasts st → o.1.Lasts st := by
  obtain ⟨A, hA⟩ := h.corresponds
  have hxa := (hA.alive x).mp hx
  have hy' := hA.notMem_downstream (hrec ▸ Multiset.mem_cons_self _ recs) hx hy
  have hnd : ((v.elements x).downstream ++ [y]).Nodup :=
    (List.perm_append_singleton y _).nodup_iff.mpr (List.nodup_cons.mpr ⟨hy', hA.nodup x hxa⟩)
  obtain ⟨B, hB⟩ := hA.adopt hrec hx hy hk (v.elements x).mem_affectedBy hnd
    (by simp [or_comm])
  have hcs := (v.elements x).nodup_affectedBy (k := k)
  have hports : ∀ c ∈ (v.elements x).affectedBy k, ∀ r, ((v.elements x).slots c).rdcr = some r →
      r.active = true ∧ r.devs.length < r.nUstream ∧ y ∉ r.ports := by
    intro c hc r hr
    have hr' : (((v.amend x ((v.elements x).downstream ++ [y]) ((v.elements x).affectedBy k)
        (fun r => { r with nUstream := r.nUstream + 1, ports := r.ports ++ [y] })
        ((x, ⟨u, next.erase y, k⟩) ::ₘ recs)).elements x).slots c).rdcr = some { r with
          nUstream := r.nUstream + 1, ports := r.ports ++ [y] } := by
      rw [View.amend_slots, if_pos hc, hr]
      rfl
    obtain ⟨p, -, hinv⟩ := hB.reducer x c _ hr'
    refine ⟨hinv.active, (h.settled x c r hr).1, fun hmem => ?_⟩
    exact (List.nodup_append.mp hinv.nodup).2.2 y hmem y (List.mem_singleton_self y) rfl
  refine ⟨_, Element.forEach_atSlot hcs _ fun c hc =>
    Slot.addDownstream_eq (hA.queue_le_one x c y) (hports c hc), ?_, rfl, ⟨rfl, rfl⟩,
    fun st hl => ?_⟩
  · apply h.of_amend hcs hB
    intro c hc
    constructor
    · apply Simulated.flush
      intro r hr
      obtain ⟨r', -, rfl⟩ := Option.map_eq_some_iff.mp hr
      exact List.mem_append_right _ (List.mem_singleton_self y)
    · apply Flushed.flush
      intro r hr i hi
      obtain ⟨r', hr', rfl⟩ := Option.map_eq_some_iff.mp hr
      rcases List.mem_append.mp hi with hi | hi
      · exact .inr ((h.settled x c r' hr').2 i hi)
      · exact .inl (List.mem_singleton.mp hi)
  · refine Element.Lasts.outcome (fun c hc _ => hl c hc) fun c hc => ?_
    apply Slot.Lasts.settle
    apply Slot.Lasts.flush
    intro r hr
    obtain ⟨r', hr', rfl⟩ := Option.map_eq_some_iff.mp hr
    have hq := hA.queue_le_one x c y
    refine (hl c (((v.elements x).mem_affectedBy c).mp hc).1 r' hr').imp id fun hlt => ?_
    dsimp only
    omega

theorem View.amend_amend {ds' : List ι} {f' : Reducer ι V κ → Reducer ι V κ}
    {recs' : Multiset (ι × Event ι)} :
    (v.amend x ds cs f recs).amend x ds' cs f' recs' = v.amend x ds' cs (f' ∘ f) recs' := by
  have hslots : (fun c => if c ∈ cs then
        { ((v.amend x ds cs f recs).elements x).slots c with
          rdcr := (((v.amend x ds cs f recs).elements x).slots c).rdcr.map f' }
      else ((v.amend x ds cs f recs).elements x).slots c) =
        fun c => if c ∈ cs then { (v.elements x).slots c with
          rdcr := ((v.elements x).slots c).rdcr.map (f' ∘ f) } else (v.elements x).slots c := by
    funext c
    rw [View.amend_slots]
    by_cases hc : c ∈ cs <;> simp [hc]
  unfold View.amend at hslots ⊢
  dsimp only at hslots ⊢
  rw [hslots]
  simp only [Function.update_self, Function.update_idem]

def Transaction.event (t : Transaction ι) : Event ι := ⟨t.from_, t.to_.toList, t.stamp⟩

theorem Settled.delete (h : Settled T as v) (hrec : v.records = (x, ⟨u, [], k⟩) ::ₘ recs)
    (hx : v.alive x = true) (hu : u ∈ (v.elements x).downstream)
    (hk : k ≤ (v.elements x).rednCount) (hl : (v.elements x).Lasts (⟨u, none, k⟩ :: st)) :
    ∃ o, (v.elements x).resolve ⟨u, none, k⟩ = some o ∧
      Settled T as (({ v with records := recs } : View ι V κ).put x o) ∧
      o.1.downstream = (v.elements x).downstream.erase u ∧ Kept (v.elements x) o.1 ∧
      o.1.Lasts st := by
  obtain ⟨A, hA⟩ := h.corresponds
  have hxa := (hA.alive x).mp hx
  have hmem := hrec ▸ Multiset.mem_cons_self (x, (⟨u, [], k⟩ : Event ι)) recs
  obtain ⟨B, hB⟩ := hA.drop hrec hx hu hk (v.elements x).mem_affectedBy ((hA.nodup x hxa).erase u)
    (fun i => by rw [(hA.nodup x hxa).mem_erase_iff, and_comm])
    (f := fun r => { r with devs := r.devs ++ [(u, none)] })
    fun _ _ _ _ hs hsu hr hup => hr.delete hs hsu hup
  have hcs := (v.elements x).nodup_affectedBy (k := k)
  refine ⟨_, Element.forEach_atSlot hcs _ fun c hc => Slot.affectPorts_delete fun r hr => ?_, ?_,
    rfl, ⟨rfl, rfl⟩, ?_⟩
  · obtain ⟨p, -, hinv⟩ := hA.reducer x c r hr
    have hkc := (((v.elements x).mem_affectedBy c).mp hc).2
    exact ⟨hinv.active, (h.settled x c r hr).1, hA.mem_ports hmem hx hu hkc hr⟩
  · apply h.of_amend hcs hB
    intro c hc
    refine ⟨.refl _, fun r hr i hi => ?_⟩
    obtain ⟨r', hr', rfl⟩ := Option.map_eq_some_iff.mp hr
    exact (h.settled x c r' hr').2 i hi
  · refine Element.Lasts.outcome (fun c hc _ => (hl c hc).tail) fun c hc => ?_
    apply Slot.Lasts.settle
    intro r hr
    obtain ⟨r', hr', rfl⟩ := Option.map_eq_some_iff.mp hr
    obtain ⟨hc, hkc⟩ := ((v.elements x).mem_affectedBy c).mp hc
    refine (hl c hc r' hr').imp (fun hempty t ht => hempty t (List.mem_cons_of_mem _ ht))
      fun hlt => ?_
    rw [List.countP_cons_of_pos (by simpa using hkc)] at hlt
    dsimp only
    rw [List.length_append, List.length_singleton]
    omega

theorem Settled.replace (h : Settled T as v) (hrec : v.records = (x, ⟨u, [y], k⟩) ::ₘ recs)
    (hx : v.alive x = true) (hu : u ∈ (v.elements x).downstream)
    (hk : k ≤ (v.elements x).rednCount) (hl : (v.elements x).Lasts (⟨u, some y, k⟩ :: st)) :
    ∃ o, (v.elements x).resolve ⟨u, some y, k⟩ = some o ∧
      Settled T as (({ v with records := recs } : View ι V κ).put x o) ∧
      o.1.downstream = (v.elements x).downstream.replace u y ∧ Kept (v.elements x) o.1 ∧
      o.1.Lasts st := by
  obtain ⟨A, hA⟩ := h.corresponds
  have hxa := (hA.alive x).mp hx
  have hmem := hrec ▸ Multiset.mem_cons_self (x, (⟨u, [y], k⟩ : Event ι)) recs
  have hy := hA.notMem_downstream hmem hx (List.mem_singleton_self y)
  have hyu : y ≠ u := fun he => hy (he ▸ hu)
  have hnd : ((v.elements x).downstream ++ [y]).Nodup :=
    (List.perm_append_singleton y _).nodup_iff.mpr (List.nodup_cons.mpr ⟨hy, hA.nodup x hxa⟩)
  obtain ⟨B, hB⟩ := hA.adopt hrec hx (List.mem_singleton_self y) hk (v.elements x).mem_affectedBy
    hnd (by simp [or_comm])
  rw [List.erase_cons_head] at hB
  have hperm := Replacement.perm_replace y hu
  have hds : ∀ i, i ∈ (v.elements x).downstream.replace u y ↔
      i ∈ (v.elements x).downstream ++ [y] ∧ i ≠ u := by
    intro i
    rw [hperm.mem_iff, List.mem_cons, (hA.nodup x hxa).mem_erase_iff, List.mem_append,
      List.mem_singleton]
    constructor
    · rintro (rfl | ⟨hi, hmem⟩)
      · exact ⟨.inr rfl, hyu⟩
      · exact ⟨.inl hmem, hi⟩
    · rintro ⟨hmem | rfl, hi⟩
      · exact .inr ⟨hi, hmem⟩
      · exact .inl rfl
  have hnd' : ((v.elements x).downstream.replace u y).Nodup :=
    hperm.nodup_iff.mpr (List.nodup_cons.mpr
      ⟨fun hi => hy (List.mem_of_mem_erase hi), (hA.nodup x hxa).erase u⟩)
  have hrec' : (v.amend x ((v.elements x).downstream ++ [y]) ((v.elements x).affectedBy k)
      (fun r => { r with nUstream := r.nUstream + 1, ports := r.ports ++ [y] })
      ((x, ⟨u, [], k⟩) ::ₘ recs)).records = (x, ⟨u, [], k⟩) ::ₘ recs := rfl
  obtain ⟨C, hC⟩ := hB.drop hrec' hx
    (by rw [View.amend_downstream, if_pos rfl]; exact List.mem_append_left _ hu)
    (by rw [View.amend_rednCount]; exact hk)
    (by rw [View.amend_rednCount]; exact (v.elements x).mem_affectedBy) hnd'
    (by rw [View.amend_downstream, if_pos rfl]; exact hds)
    fun _ _ _ _ hs _ hr hup => hr.close hs hup
  rw [View.amend_amend] at hC
  have hcs := (v.elements x).nodup_affectedBy (k := k)
  have hports : ∀ c ∈ (v.elements x).affectedBy k, ∀ r, ((v.elements x).slots c).rdcr = some r →
      r.active = true ∧ r.devs.length < r.nUstream ∧ u ∈ r.ports ∧ y ∉ r.ports := by
    intro c hc r hr
    have hkc := (((v.elements x).mem_affectedBy c).mp hc).2
    obtain ⟨p, -, hinv⟩ := hB.reducer x c { r with
        nUstream := r.nUstream + 1
        ports := r.ports ++ [y] } (by rw [View.amend_slots, if_pos hc, hr]; rfl)
    refine ⟨hinv.active, (h.settled x c r hr).1, hA.mem_ports hmem hx hu hkc hr, fun hi => ?_⟩
    exact (List.nodup_append.mp hinv.nodup).2.2 y hi y (List.mem_singleton_self y) rfl
  have hlt : ∀ c ∈ (v.elements x).affectedBy k, ∀ r ∈ ((v.elements x).slots c).rdcr,
      (((v.elements x).slots c).portQueue y = [] ∧
        ∀ t ∈ st, t.stamp ≤ c → ∀ i ∈ t.to_, (((v.elements x).slots c).portQueue i).isEmpty) ∨
      r.devs.length + 1 + st.countP (fun t => t.stamp ≤ c) < r.nUstream := by
    intro c hc r hr
    obtain ⟨hc, hkc⟩ := ((v.elements x).mem_affectedBy c).mp hc
    refine (hl c hc r hr).imp (fun hempty => ⟨?_, ?_⟩) fun hlt => ?_
    · exact List.isEmpty_iff.mp (hempty _ List.mem_cons_self hkc y rfl)
    · exact fun t ht => hempty t (List.mem_cons_of_mem _ ht)
    · rw [List.countP_cons_of_pos (by simpa using hkc)] at hlt
      omega
  refine ⟨_, Element.forEach_atSlot hcs _ fun c hc =>
    Slot.affectPorts_replace (hA.queue_le_one x c y) (hports c hc) fun r hr =>
      (hlt c hc r hr).imp And.left (by omega), ?_, rfl, ⟨rfl, rfl⟩, ?_⟩
  swap
  · refine Element.Lasts.outcome (fun c hc _ => (hl c hc).tail) fun c hc => ?_
    apply Slot.Lasts.settle
    apply Slot.Lasts.flush
    intro r hr
    obtain ⟨r', hr', rfl⟩ := Option.map_eq_some_iff.mp hr
    have hq := hA.queue_le_one x c y
    refine (hlt c hc r' hr').imp And.right fun hlt => ?_
    dsimp only
    omega
  apply h.of_amend hcs hC
  intro c hc
  -- The port of the new child was opened after the other one was closed.
  have hmap : ((v.elements x).slots c).rdcr.map ((fun r => { r with
        nUstream := r.nUstream - 1
        ports := r.ports.erase u }) ∘ fun r => { r with
        nUstream := r.nUstream + 1
        ports := r.ports ++ [y] }) =
      ((v.elements x).slots c).rdcr.map fun r => { r with ports := r.ports.erase u ++ [y] } := by
    cases hr : ((v.elements x).slots c).rdcr with
    | none => rfl
    | some r =>
      have hur := (hports c hc r hr).2.2.1
      simp [List.erase_append_left _ hur]
  rw [hmap]
  constructor
  · apply Simulated.flush
    intro r hr
    obtain ⟨r', -, rfl⟩ := Option.map_eq_some_iff.mp hr
    exact List.mem_append_right _ (List.mem_singleton_self y)
  · apply Flushed.flush
    intro r hr i hi
    obtain ⟨r', hr', rfl⟩ := Option.map_eq_some_iff.mp hr
    rcases List.mem_append.mp hi with hi | hi
    · exact .inr ((h.settled x c r' hr').2 i (List.mem_of_mem_erase hi))
    · exact .inl (List.mem_singleton.mp hi)

theorem Settled.resolve {t : Transaction ι} (h : Settled T as v)
    (hrec : v.records = (x, t.event) ::ₘ recs) (hx : v.alive x = true)
    (hu : t.from_ ∈ (v.elements x).downstream) (hk : t.stamp ≤ (v.elements x).rednCount)
    (hl : (v.elements x).Lasts (t :: st)) :
    ∃ o, (v.elements x).resolve t = some o ∧
      Settled T as (({ v with records := recs } : View ι V κ).put x o) ∧
      (∀ i ∈ o.1.downstream, i ∈ (v.elements x).downstream ∨ t.to_ = some i) ∧
      Kept (v.elements x) o.1 ∧ o.1.Lasts st := by
  obtain ⟨u, to_, k⟩ := t
  cases to_ with
  | none =>
    obtain ⟨o, ho, hset, hds, hkept⟩ := h.delete hrec hx hu hk hl
    refine ⟨o, ho, hset, fun i hi => .inl ?_, hkept⟩
    exact List.mem_of_mem_erase (hds ▸ hi)
  | some y =>
    obtain ⟨o, ho, hset, hds, hkept⟩ := h.replace hrec hx hu hk hl
    refine ⟨o, ho, hset, fun i hi => ?_, hkept⟩
    rw [hds, (Replacement.perm_replace y hu).mem_iff] at hi
    rcases List.mem_cons.mp hi with rfl | hi
    · exact .inr rfl
    · exact .inl (List.mem_of_mem_erase hi)

theorem Settled.restage {o : Element ι V κ × List (Contribution ι V κ)}
    (h : Settled T as (v.put x o)) (staged : List (Transaction ι)) :
    Settled T as (v.put x ({ o.1 with staged }, o.2)) := by
  obtain ⟨w, hw⟩ : ∃ w, w = v.put x o := ⟨_, rfl⟩
  have hsame : v.put x ({ o.1 with staged }, o.2) =
      { w with elements := Function.update w.elements x { w.elements x with staged } } := by
    have hput := View.foldl_send_set (x := x)
      (v := { v with elements := Function.update v.elements x o.1 }) o.2
      (Function.update w.elements x { w.elements x with staged })
    rw [hw, View.put_elements_self, View.put_elements, Function.update_idem] at hput ⊢
    exact hput
  rw [← hw] at h
  obtain ⟨A, hA⟩ := h.corresponds
  have helt : ∀ z, (Function.update w.elements x { w.elements x with staged } z).slots =
      (w.elements z).slots := fun z => by
    rcases eq_or_ne z x with rfl | hz <;> simp [*]
  rw [hsame]
  refine ⟨⟨A, hA.congr rfl rfl ?_ ?_ ?_ ?_ ?_ hA.inFlight ?_ hA.records rfl⟩, ?_⟩
  · intro z
    rcases eq_or_ne z x with rfl | hz <;> simp [*]
  · intro z
    rcases eq_or_ne z x with rfl | hz <;> simp [*]
  · intro z
    rcases eq_or_ne z x with rfl | hz <;> simp [*]
  · intro z c
    rw [helt]
  · intro y c
    unfold View.sent View.copies
    simp only [helt]
  · intro z c y hz
    exact hA.queued z c y (helt z ▸ hz)
  · intro z c
    rw [helt]
    exact h.settled z c

def Element.records (x : ι) (e : Element ι V κ) : Multiset (ι × Event ι) :=
  (e.staged.map fun t => (x, t.event) : List _)

omit [DecidableEq ι] in
theorem Known.mono {ds' : List ι} {st st' : List (Transaction ι)} (h : Known ds' st' y)
    (hds : ∀ i ∈ ds', Known ds st i) (hst : ∀ t ∈ st', t ∈ st) : Known ds st y := by
  induction h with
  | child hi => exact hds _ hi
  | next ht _ hto ih => exact .next (hst _ ht) ih hto

/-- Staged transactions are applied until none is left whose child is known. -/
theorem Settled.resolveRounds (n : ℕ) (h : Settled T as v)
    (hrec : v.records = (v.elements x).records x + recs) (hx : v.alive x = true)
    (hn : n = (v.elements x).staged.length)
    (hknown : ∀ t ∈ (v.elements x).staged,
      Known (v.elements x).downstream (v.elements x).staged t.from_ →
        t.stamp ≤ (v.elements x).rednCount)
    (hl : (v.elements x).Lasts (v.elements x).staged) :
    ∃ o, (v.elements x).resolveRounds n = some o ∧
      Settled T as (({ v with records := o.1.records x + recs } : View ι V κ).put x o) ∧
      ∀ t ∈ o.1.staged, t.from_ ∉ o.1.downstream := by
  induction n generalizing v with
  | zero =>
    refine ⟨(v.elements x, []), rfl, ?_, fun t ht => ?_⟩
    · rw [← hrec]
      exact (View.put_self (v := v) (x := x)).symm ▸ h
    · rw [List.length_eq_zero_iff.mp hn.symm] at ht
      cases ht
  | succ n ih =>
    unfold Element.resolveRounds
    cases hfind : (v.elements x).staged.findFinIdx? fun t =>
        decide (t.from_ ∈ (v.elements x).downstream) with
    | none =>
      refine ⟨(v.elements x, []), rfl, ?_, fun t ht => ?_⟩
      · rw [← hrec]
        exact (View.put_self (v := v) (x := x)).symm ▸ h
      · simpa using List.findFinIdx?_eq_none_iff.mp hfind t ht
    | some i =>
      have hi : ((v.elements x).staged.get i).from_ ∈ (v.elements x).downstream := by
        simpa using (List.findFinIdx?_eq_some_iff.mp hfind).1
      have hmem : (v.elements x).staged.get i ∈ (v.elements x).staged := List.get_mem _ i
      dsimp only
      obtain ⟨t, ht⟩ : ∃ t, t = (v.elements x).staged.get i := ⟨_, rfl⟩
      obtain ⟨st, hst⟩ : ∃ st, st = (v.elements x).staged.eraseIdx i := ⟨_, rfl⟩
      have hperm : (v.elements x).staged.Perm (t :: st) :=
        ht ▸ hst ▸ (List.getElem_cons_eraseIdx_perm i.isLt).symm
      rw [← ht] at hi hmem ⊢
      rw [← hst]
      have hrec' : v.records = (x, t.event) ::ₘ
          ((st.map fun t => (x, t.event) : List _) + recs : Multiset (ι × Event ι)) := by
        rw [hrec, Element.records, Multiset.coe_eq_coe.mpr (hperm.map _), List.map_cons,
          ← Multiset.cons_coe, Multiset.cons_add]
      obtain ⟨⟨e, outs⟩, ho, hset, hds, hkept, hlast⟩ :=
        h.resolve hrec' hx hi (hknown t hmem (.child hi)) (hl.perm hperm)
      obtain ⟨w, hw⟩ : ∃ w, w = ({ v with
        records := (st.map fun t => (x, t.event) : List _) + recs } : View ι V κ).put x
          ({ e with staged := st }, outs) := ⟨_, rfl⟩
      have helt : w.elements x = { e with staged := st } := by rw [hw, View.put_elements_self]
      have hlen : n = (w.elements x).staged.length := by
        have hlen := hperm.length_eq
        rw [List.length_cons] at hlen
        rw [helt]
        dsimp only
        omega
      have hknown' : ∀ t' ∈ (w.elements x).staged,
          Known (w.elements x).downstream (w.elements x).staged t'.from_ →
            t'.stamp ≤ (w.elements x).rednCount := by
        rw [helt]
        intro t' ht' hk'
        dsimp only
        rw [hkept.rednCount]
        apply hknown t' (hperm.mem_iff.mpr (List.mem_cons_of_mem t ht'))
        apply hk'.mono
        · intro i hi'
          rcases hds i hi' with hi' | hto
          · exact .child hi'
          · exact .next hmem (.child hi) hto
        · exact fun t'' ht'' => hperm.mem_iff.mpr (List.mem_cons_of_mem t ht'')
      obtain ⟨o', ho', hset', hfix⟩ := ih (hw ▸ hset.restage st)
        (by rw [helt, hw]; exact View.put_records) (by rw [hw, View.put_alive]; exact hx) hlen
        hknown' (by rw [helt]; exact hlast)
      rw [helt] at ho'
      refine ⟨(o'.1, outs ++ o'.2), ?_, ?_, hfix⟩
      · unfold Outcome.andThen
        rw [ho, Option.bind_some]
        dsimp only
        rw [ho']
        rfl
      · rw [hw, View.put_setRecords, View.put_put] at hset'
        exact hset'

theorem Settled.addDownstreams (pre ys : List ι) (h : Settled T as v)
    (hrec : v.records = (x, ⟨u, pre ++ ys, k⟩) ::ₘ recs) (hx : v.alive x = true)
    (hk : ys ≠ [] → k ≤ (v.elements x).rednCount) :
    ∃ o, forEach (Element.addDownstream k) ys (v.elements x) = some o ∧
      Settled T as (({ v with records := (x, ⟨u, pre, k⟩) ::ₘ recs } : View ι V κ).put x o) ∧
      o.1.downstream = (v.elements x).downstream ++ ys ∧ Kept (v.elements x) o.1 ∧
      ∀ st, (v.elements x).Lasts st → o.1.Lasts st := by
  induction ys generalizing v with
  | nil =>
    refine ⟨(v.elements x, []), rfl, ?_, (List.append_nil _).symm, ⟨rfl, rfl⟩, fun _ hl => hl⟩
    rw [← List.append_nil pre, ← hrec]
    exact (View.put_self (v := v) (x := x)).symm ▸ h
  | cons y ys ih =>
    obtain ⟨A, hA⟩ := h.corresponds
    have hnd : (pre ++ y :: ys).Nodup :=
      (hA.records _ (hrec ▸ Multiset.mem_cons_self _ recs)).nodup
    have hy : y ∉ pre := fun hmem =>
      (List.nodup_append.mp hnd).2.2 y hmem y List.mem_cons_self rfl
    obtain ⟨o, ho, hset, hds, hkept, hlast⟩ := h.addDownstream hrec hx
      (List.mem_append_right pre List.mem_cons_self) (hk (List.cons_ne_nil y ys))
    rw [List.erase_append_right _ hy, List.erase_cons_head] at hset
    obtain ⟨w, hw⟩ : ∃ w, w = ({ v with
      records := (x, ⟨u, pre ++ ys, k⟩) ::ₘ recs } : View ι V κ).put x o := ⟨_, rfl⟩
    have helt : w.elements x = o.1 := by rw [hw, View.put_elements_self]
    obtain ⟨o', ho', hset', hds', hkept', hlast'⟩ := ih (hw ▸ hset)
      (by rw [hw]; exact View.put_records) (by rw [hw, View.put_alive]; exact hx)
      (fun _ => by rw [helt, hkept.rednCount]; exact hk (List.cons_ne_nil y ys))
    rw [helt] at ho' hds' hkept' hlast'
    refine ⟨(o'.1, o.2 ++ o'.2), ?_, ?_, ?_, ?_, fun st hl => hlast' st (hlast st hl)⟩
    · unfold forEach Outcome.andThen
      rw [ho, Option.bind_some, ho']
      rfl
    · rw [hw, View.put_setRecords, View.put_put] at hset'
      exact hset'
    · dsimp only
      rw [hds', hds, List.append_assoc]
      rfl
    · exact ⟨hkept'.rednCount.trans hkept.rednCount, hkept'.staged.trans hkept.staged⟩

/-- An element learns of the destruction of a child. -/
theorem Settled.replaceDownstream {event : Event ι} (h : Settled T as v)
    (hrec : v.records = (x, event) ::ₘ ((v.elements x).records x + recs)) (hx : v.alive x = true)
    (hk : event.to_.tail ≠ [] → event.stamp ≤ (v.elements x).rednCount)
    (hknown : ∀ t ∈ (v.elements x).staged ++ [event.transaction],
      Known ((v.elements x).downstream ++ event.to_.tail)
        ((v.elements x).staged ++ [event.transaction]) t.from_ →
          t.stamp ≤ (v.elements x).rednCount)
    (hl : (v.elements x).Lasts ((v.elements x).staged ++ [event.transaction])) :
    ∃ o, (v.elements x).replaceDownstream event = some o ∧
      Settled T as (({ v with records := o.1.records x + recs } : View ι V κ).put x o) ∧
      ∀ t ∈ o.1.staged, t.from_ ∉ o.1.downstream := by
  have hevent : event = ⟨event.from_, event.to_.head?.toList ++ event.to_.tail, event.stamp⟩ := by
    obtain ⟨u, to_, k⟩ := event
    cases to_ <;> rfl
  rw [hevent] at hrec
  obtain ⟨⟨e, outs⟩, ho, hset, hds, hkept, hlast⟩ := h.addDownstreams _ _ hrec hx hk
  obtain ⟨st, hst⟩ : ∃ st, st = (v.elements x).staged ++ [event.transaction] := ⟨_, rfl⟩
  obtain ⟨w, hw⟩ : ∃ w, w = ({ v with
    records := (x, ⟨event.from_, event.to_.head?.toList, event.stamp⟩) ::ₘ
      ((v.elements x).records x + recs) } : View ι V κ).put x ({ e with staged := st }, outs) :=
    ⟨_, rfl⟩
  have helt : w.elements x = { e with staged := st } := by rw [hw, View.put_elements_self]
  have hrec' : w.records = (w.elements x).records x + recs := by
    have hmap : (st.map fun t => (x, t.event) : Multiset (ι × Event ι)) =
        (x, event.transaction.event) ::ₘ (v.elements x).records x := by
      rw [hst, List.map_append, ← Multiset.coe_add, add_comm]
      rfl
    rw [helt, hw, View.put_records]
    unfold Element.records at hmap ⊢
    dsimp only
    rw [hmap, Multiset.cons_add]
    rfl
  have hknown' : ∀ t ∈ (w.elements x).staged,
      Known (w.elements x).downstream (w.elements x).staged t.from_ →
        t.stamp ≤ (w.elements x).rednCount := by
    rw [helt]
    dsimp only at hds ⊢
    rw [hds, hst, hkept.rednCount]
    exact hknown
  obtain ⟨o', ho', hset', hfix⟩ := Settled.resolveRounds _ (hw ▸ hset.restage st) hrec'
    (by rw [hw, View.put_alive]; exact hx) rfl hknown' (by rw [helt, hst]; exact hlast _ hl)
  rw [helt] at ho'
  refine ⟨(o'.1, outs ++ o'.2), ?_, ?_, hfix⟩
  · unfold Element.replaceDownstream Outcome.andThen
    rw [ho, Option.bind_some]
    unfold Element.resolveTransactions
    dsimp only
    rw [show e.staged = (v.elements x).staged from hkept.staged, ← hst, ho']
    rfl
  · rw [hw, View.put_setRecords, View.put_put] at hset'
    exact hset'

end Calls

section Values

variable {a : Multiset V} {rest : Multiset (Delivery ι V)} {value : V} {cb : κ}

omit [DecidableEq ι] in
theorem Element.atSlot_eq {f : Slot ι V κ → Outcome (Slot ι V κ) (Result ι V κ)}
    {p : Slot ι V κ × List (Result ι V κ)} {e : Element ι V κ} (hf : f (e.slots c) = some p) :
    atSlot f c e = some (e.outcome [c] fun _ => p) := by
  have hslots : Function.update e.slots c p.1 = fun d => if d ∈ [c] then p.1 else e.slots d := by
    funext d
    rcases eq_or_ne d c with rfl | hd <;> simp [*]
  unfold atSlot Element.outcome
  rw [hf, ← hslots, List.flatMap_singleton]
  rfl

theorem View.put_setSlot_outcome (p : Slot ι V κ × List (Result ι V κ)) :
    (v.setSlot x c s).put x (((v.setSlot x c s).elements x).outcome [c] fun _ => p) =
      v.put x ((v.elements x).outcome [c] fun _ => p) := by
  rw [View.put_outcome_singleton, View.put_outcome_singleton, View.setSlot_setSlot]

theorem Settled.of_slot (h : ∀ z d, ¬ (z = x ∧ d = c) → SettledAt ((v.elements z).slots d))
    (hA : Corresponds T as (v.setSlot x c s) A) (hst : Simulated T as x c s t) (ht : Flushed t) :
    Settled T as (v.put x ((v.elements x).outcome [c] fun _ => t.settle)) := by
  rw [← View.put_setSlot_outcome (s := s)]
  apply Settled.of_outcome (g := fun _ => t) (List.nodup_singleton c) ⟨A, hA⟩
  · intro z d hz
    rw [List.mem_singleton] at hz
    rw [View.setSlot_slots, if_neg hz]
    exact h z d hz
  · intro d hd
    obtain rfl := List.mem_singleton.mp hd
    rw [View.setSlot_slots, if_pos ⟨rfl, rfl⟩]
    exact ⟨hst, ht⟩

theorem Settled.receive (h : Settled T as v) (hm : v.contributions = ⟨x, c, y, a⟩ ::ₘ rest)
    (hx : v.alive x = true) :
    ∃ o, (v.elements x).receive (.contribution c y a) = some o ∧
      Settled T as (({ v with contributions := rest } : View ι V κ).put x o) ∧
      o.1.downstream = (v.elements x).downstream ∧ Kept (v.elements x) o.1 := by
  obtain ⟨A, hA⟩ := h.corresponds
  obtain ⟨s, hs⟩ : ∃ s, s = (v.elements x).slots c := ⟨_, rfl⟩
  have hnode : x ∈ T.nodes := hA.sound.inv.nodes x ((hA.alive x).mp hx)
  have hB := hA.enqueue hm hnode hs.symm
  have hset : SettledAt s := hs ▸ h.settled x c
  obtain ⟨t, ht⟩ : ∃ t, t = { s with
    portQueue := Function.update s.portQueue y (s.portQueue y ++ [a]) } := ⟨_, rfl⟩
  rw [← ht] at hB
  obtain ⟨t', hcall, hsim, hflushed⟩ : ∃ t', s.receive y a = some t'.settle ∧
      Simulated T as x c t t' ∧ Flushed t' := by
    by_cases hopen : s.isOpen y = true
    · -- The value goes to the reducer, as if it had been in the queue.
      refine ⟨t.flush y, ?_, ?_, ?_⟩
      · unfold Slot.isOpen at hopen
        obtain ⟨r, hr, hy⟩ := (Option.any_eq_true _ _).mp hopen
        obtain ⟨p, -, hinv⟩ := hA.reducer x c r (hs ▸ hr)
        have hq := (hset r hr).2 y (of_decide_eq_true hy)
        have hflush : t.flush y =
            { s with rdcr := some { r with devs := r.devs ++ [(y, some a)] } } := by
          have hself : Function.update s.portQueue y [] = s.portQueue := by
            rw [← hq, Function.update_eq_self]
          rw [ht]
          unfold Slot.flush
          dsimp only
          rw [hr]
          simp [hq, hself]
        unfold Slot.receive
        rw [if_pos (by unfold Slot.isOpen; exact hopen), Slot.passthru_active hr hinv.active,
          hflush]
      · apply Simulated.flush
        intro r hr
        rw [ht] at hr
        unfold Slot.isOpen at hopen
        obtain ⟨r', hr', hy⟩ := (Option.any_eq_true _ _).mp hopen
        obtain rfl := Option.some.inj (hr'.symm.trans hr)
        exact of_decide_eq_true hy
      · apply Flushed.flush
        intro r hr i hi
        rw [ht] at hr ⊢
        rcases eq_or_ne i y with rfl | hne
        · exact .inl rfl
        · exact .inr ((Function.update_of_ne hne ..).trans ((hset r hr).2 i hi))
    · have hport : ∀ r, s.rdcr = some r → y ∉ r.ports := by
        intro r hr hy
        apply hopen
        unfold Slot.isOpen
        rw [hr]
        exact decide_eq_true hy
      have hflushed : Flushed t := by
        intro r hr i hi
        rw [ht] at hr ⊢
        have hne : i ≠ y := fun he => hport r hr (he ▸ hi)
        exact (Function.update_of_ne hne ..).trans ((hset r hr).2 i hi)
      refine ⟨t, ?_, .refl t, hflushed⟩
      have hsettle : t.settle = (t, []) := by
        cases hr : s.rdcr with
        | none =>
          unfold Slot.settle
          rw [ht]
          dsimp only
          rw [hr]
        | some r => exact Slot.settle_of_missing (ht ▸ hr) (hset r hr).1
      unfold Slot.receive
      rw [if_neg hopen, hsettle, ht]
  refine ⟨_, Element.atSlot_eq (hs ▸ hcall), ?_, rfl, rfl, rfl⟩
  exact Settled.of_slot (v := { v with contributions := rest }) (fun z d _ => h.settled z d) hB
    hsim hflushed

omit [DecidableEq ι] in
theorem length_queued_le {q : ι → List (Multiset V)} {ports : List ι}
    (hq : ∀ i, (q i).length ≤ 1) : (Slot.queued q ports).length ≤ ports.length := by
  induction ports with
  | nil => rfl
  | cons i ports ih =>
    rw [Slot.queued_cons, List.length_append, List.length_map, List.length_cons]
    have hi := hq i
    omega

theorem Simulated.takeAll {q : ι → List (Multiset V)} (ys : List ι) (hnd : ys.Nodup)
    (hys : ∀ i ∈ ys, i ∈ r.ports) (hq : ∀ i, (q i).length ≤ 1) :
    Simulated T as x c ⟨some r, q⟩
      ⟨some { r with devs := (Slot.queued q ys).reverse ++ r.devs },
        fun i => if i ∈ ys then [] else q i⟩ := by
  induction ys generalizing r q with
  | nil =>
    have hself : (fun i => if i ∈ ([] : List ι) then [] else q i) = q := by simp
    rw [hself]
    exact .refl _
  | cons y ys ih =>
    obtain ⟨hy, hnd⟩ := List.nodup_cons.mp hnd
    have hrev : ((q y).map fun a => ((y, some a) : ι × Deliverable V)).reverse =
        (q y).map fun a => (y, some a) := by
      match hqy : q y with
      | [] => rfl
      | [a] => rfl
      | _ :: _ :: _ =>
        have hlen := hq y
        simp [hqy] at hlen
    have hfirst : Simulated T as x c ⟨some r, q⟩
        ⟨some { r with devs := ((q y).map fun a => (y, some a)) ++ r.devs },
          Function.update q y []⟩ := by
      intro v A h hs
      exact h.flush hs rfl (hys y List.mem_cons_self) rfl (.inr rfl)
    have hrest := ih (r := { r with devs := ((q y).map fun a => (y, some a)) ++ r.devs })
      (q := Function.update q y []) hnd (fun i hi => hys i (List.mem_cons_of_mem y hi))
      (fun i => by
        rcases eq_or_ne i y with rfl | hne
        · rw [Function.update_self]
          exact Nat.zero_le 1
        · rw [Function.update_of_ne hne]
          exact hq i)
    have hall := hfirst.trans hrest
    rw [Slot.queued_update hy, Slot.queues_update] at hall
    rw [Slot.queued_cons, List.reverse_append, hrev, List.append_assoc]
    exact hall

theorem Settled.localContribution (h : Settled T as v) (hx : v.alive x = true) (value : V)
    (cb : κ) :
    ∃ o, (v.elements x).localContribution x value cb = some o ∧
      Settled T (as ++ [.contribute x value cb]) (v.put x o) ∧
      o.1.downstream = (v.elements x).downstream ∧ o.1.staged = (v.elements x).staged := by
  obtain ⟨A, hA⟩ := h.corresponds
  obtain ⟨e, he⟩ : ∃ e, e = v.elements x := ⟨_, rfl⟩
  obtain ⟨s, hs⟩ : ∃ s, s = e.slots e.rednCount := ⟨_, rfl⟩
  have hnd : e.downstream.Nodup := he ▸ hA.nodup x ((hA.alive x).mp hx)
  have hq : ∀ i, (s.portQueue i).length ≤ 1 := fun i => by
    rw [hs, he]
    exact hA.queue_le_one x _ i
  obtain ⟨B, hB⟩ := hA.issue hx he.symm hs.symm value cb
  obtain ⟨w, hw⟩ : ∃ w, w = { v with
      elements := Function.update v.elements x { e with rednCount := e.rednCount + 1 } } := ⟨_, rfl⟩
  have helt : w.elements x = { e with rednCount := e.rednCount + 1 } := by
    rw [hw]
    exact Function.update_self ..
  rw [← hw] at hB
  have hcall := Slot.contribute_eq x e.downstream (e.output cb) value hnd
    (length_queued_le hq)
  rw [← he]
  unfold Element.localContribution
  refine ⟨_, Element.atSlot_eq (e := { e with rednCount := e.rednCount + 1 }) (hs ▸ hcall), ?_,
    rfl, rfl⟩
  rw [← View.put_congr hw, ← helt]
  apply Settled.of_slot _ hB
  · rw [← hs]
    exact Simulated.takeAll (r := ⟨_, _, _, _, _, _⟩) e.downstream hnd (fun i hi => hi) hq
  · intro r hr i hi
    obtain rfl := Option.some.inj hr
    exact if_pos hi
  · intro z d hz
    have hsame : (w.elements z).slots = (v.elements z).slots := by
      rcases eq_or_ne z x with rfl | hne
      · rw [helt, he]
      · rw [hw]
        simp [hne]
    rw [hsame]
    exact h.settled z d

end Values

end Hypercomm.TreeBuilder.Destruction
