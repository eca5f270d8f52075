import Hypercomm.Reductions.Simulation

/-! # Exactness and non-interference of reductions

Every run of separated sections refines gathering, so no call of such a run aborts, and
what a reduction yields was contributed to it. Over one duplicate-free section, every
reduction yields exactly one value of each member.
-/

namespace Hypercomm

open Transition Gather

variable {ι V κ : Type*} [DecidableEq ι]

namespace Reductions

variable {hashIdx : ι → HashCode} {sections : Set (VectorSection ι)}
variable {as : List (ReductionEvent ι V κ)} {s t : Reductions ι V κ} {A : Gatherings ι V}
variable {a : ReductionEvent ι V κ} {rest : Multiset (Delivery ι V)} {S : VectorSection ι} {x : ι}

theorem corresponds_initial :
    Corresponds hashIdx sections [] ({} : Reductions ι V κ) fun _ _ => {} where
  inv _ _ _ := inv_initial
  count _ _ := rfl
  given _ _ _ _ := rfl
  reducer _ _ _ h := by simp at h
  waiting _ _ _ _ _ _ h := by simp at h
  unique _ _ _ _ _ h := by simp at h
  entryPorts _ _ _ := by simp
  portQueue _ _ _ := rfl
  values _ _ := List.not_mem_nil
  copies _ _ _ _ _ _ _ := by simp [copies, State.flightFrom]
  called _ _ _ := rfl
  callback _ h := by simp at h

/-- No event of separated sections aborts, and every event keeps the correspondence. -/
theorem Corresponds.step (hsep : Separated hashIdx sections)
    (h : Corresponds hashIdx sections as s A) (hw : Waiting A s fun _ _ => False)
    (ha : s.Enabled sections a rest) :
    ∃ o A', s.outcome hashIdx a = some o ∧
      Corresponds hashIdx sections (as ++ [a])
        (({ s with inFlight := rest } : Reductions ι V κ).commit a.mine o) A' ∧
      Waiting A' (({ s with inFlight := rest } : Reductions ι V κ).commit a.mine o)
        fun _ _ => False := by
  obtain ⟨hvalid, hflight⟩ := ha
  cases a with
  | contribute S x v cb =>
    obtain rfl : s.inFlight = rest := by simpa [ReductionEvent.taken] using hflight
    obtain ⟨l, com, r, A₁, hcontrib, hr, h₁, hw₁, hp⟩ :=
      h.contribute hsep hw hvalid.1 hvalid.2 v cb
    obtain ⟨A', o, ho, h', hw'⟩ := h₁.passthru hsep hw₁ (r := r) (by simpa using hr) hp
    have hcommit : ({ s with localities := Function.update s.localities x l } :
        Reductions ι V κ).commit x o = s.commit x o := by
      simp [commit]
    rw [hcommit] at h' hw'
    exact ⟨o, A', by simpa [outcome, hcontrib] using ho, h', hw'⟩
  | deliver x port w =>
    have hf : s.inFlight = (x, port, w) ::ₘ rest := by
      simpa [ReductionEvent.taken] using hflight
    have hc : ∀ S y, contributed S y (as ++ [ReductionEvent.deliver x port w]) =
        contributed S y as := fun S y => contributed_deliver
    cases hp : (s.localities x).entryPorts port with
    | none =>
      obtain ⟨o, ho, h', hw'⟩ := h.enqueue hw hf hp
      exact ⟨o, A, ho, h'.of_contributed hc, hw'⟩
    | some com =>
      obtain ⟨r, hr, hport⟩ := (h.entryPorts x port com).mp hp
      obtain ⟨A₁, h₁, hw₁, hprog⟩ := h.take hsep hw hf hr hport
      obtain ⟨A', o, ho, h', hw'⟩ := h₁.passthru hsep hw₁ hr hprog
      exact ⟨o, A', by simpa [outcome, Locality.receive, hp] using ho, h'.of_contributed hc, hw'⟩

theorem exists_corresponds (hsep : Separated hashIdx sections)
    (h : Run (Step hashIdx sections) ({} : Reductions ι V κ) as s) :
    ∃ A, Corresponds hashIdx sections as s A ∧ Waiting A s fun _ _ => False :=
  h.invariant_labels
    (I := fun as s => ∃ A, Corresponds hashIdx sections as s A ∧ Waiting A s fun _ _ => False)
    ⟨_, corresponds_initial, fun _ _ _ h => by simp at h⟩ fun _ _ _ _ ⟨_, hc, hw⟩ hs => by
      obtain ⟨rest, o, ha, ho⟩ := hs
      obtain ⟨o', A', ho', h', hw'⟩ := hc.step hsep hw ha
      obtain rfl := Option.some.inj (ho.symm.trans ho')
      exact ⟨A', h', hw'⟩

theorem not_aborts (hsep : Separated hashIdx sections)
    (h : Run (Step hashIdx sections) ({} : Reductions ι V κ) as s) (a : ReductionEvent ι V κ) :
    ¬ s.Aborts hashIdx sections a := by
  rintro ⟨rest, ha, hnone⟩
  obtain ⟨A, hc, hw⟩ := exists_corresponds hsep h
  obtain ⟨o, -, ho, -⟩ := hc.step hsep hw ha
  simp [hnone] at ho

theorem run_snoc (h : Run (Step hashIdx sections) ({} : Reductions ι V κ) as s)
    (a : ReductionEvent ι V κ) (rest : Multiset (Delivery ι V)) (ha : s.Enabled sections a rest)
    (ho : (s.outcome hashIdx a).isSome) :
    Run (Step hashIdx sections) ({} : Reductions ι V κ) (as ++ [a])
      (({ s with inFlight := rest } : Reductions ι V κ).commit a.mine
        ((s.outcome hashIdx a).get ho)) :=
  h.snoc (.mk rest _ ha (Option.some_get ho).symm)

def calledFor (s : Reductions ι V κ) (S : VectorSection ι) (k : ReductionId) :
    List (Contribution (VectorSection ι) ι V κ) :=
  s.called.filter fun c => c.imprintable = S ∧ c.count = k

theorem contributed_eq_nil (h : Run (Step hashIdx sections) ({} : Reductions ι V κ) as s)
    (hx : x ∉ S.members) : contributed S x as = [] := by
  induction h with
  | nil => rfl
  | @snoc t u as a _ hs ih =>
    obtain ⟨rest, o, ha, -⟩ := hs
    cases a with
    | contribute S' y v cb =>
      rw [contributed_contribute, ih, if_neg]
      · rfl
      · rintro ⟨rfl, rfl⟩
        exact hx ha.1.2
    | deliver y port w => rw [contributed_deliver, ih]

theorem mem_called (hsep : Separated hashIdx sections) (hS : S ∈ sections)
    (h : Run (Step hashIdx sections) ({} : Reductions ι V κ) as s) {k : ReductionId}
    {c : Contribution (VectorSection ι) ι V κ} (hc : c ∈ s.calledFor S k) {v : V}
    (hv : v ∈ c.value) :
    ∃ y, (contributed S y as)[k]?.map Prod.fst = some v := by
  obtain ⟨A, hcorr, -⟩ := exists_corresponds hsep h
  have hmem : c.value ∈ (A S k).results := by
    rw [← hcorr.called S hS k]
    exact Multiset.mem_coe.mpr (List.mem_map_of_mem hc)
  obtain ⟨x, hgath⟩ := (hcorr.inv S hS k).yields _ hmem
  obtain ⟨y, hy⟩ := hgath.mem_given hv
  exact ⟨y, by rw [← hcorr.given S hS, hy]⟩

theorem separated_singleton (hnd : S.members.Nodup) : Separated hashIdx {S} where
  nodup := by
    rintro S' rfl x hx
    exact VectorSection.upstream_nodup hnd hx
  ports := by
    rintro S₁ rfl S₂ rfl
    simp
  messages := by
    rintro S₁ rfl S₂ rfl
    simp

/-- The result of a reduction: it is sent to the callback that the root gave, and
combines exactly one value of each member, which is the one it contributed. -/
def IsResult (S : VectorSection ι) (as : List (ReductionEvent ι V κ)) (k : ReductionId)
    (c : Contribution (VectorSection ι) ι V κ) : Prop :=
  (∃ r cb, S.pickRoot = some r ∧ c.output = .callback cb ∧
    (contributed S r as)[k]?.map Prod.snd = some cb) ∧
  c.value.map some = (S.members : Multiset ι).map fun y => (contributed S y as)[k]?.map Prod.fst

section Root

variable {r : ι} {k : ReductionId}

theorem Corresponds.root (hnd : S.members.Nodup)
    (h : Run (Step hashIdx {S}) ({} : Reductions ι V κ) as s)
    (hc : Corresponds hashIdx {S} as s A) (hr : S.pickRoot = some r) :
    ((A S k).phase r ≠ .done ∧ (A S k).results = 0) ∨
      ((A S k).phase r = .done ∧
        ∃ v, (A S k).results = {v} ∧ Gathered S.graph (A S k).given r v) := by
  obtain ⟨hmem, hroot⟩ := VectorSection.pickRoot_spec hnd hr
  refine (hc.inv S rfl k).root r (by simp [VectorSection.graph, hroot]) fun x hne hpar => ?_
  by_cases hx : x ∈ S.members
  · have hd : S.downstream x = [] := by simpa [VectorSection.graph, hx] using hpar
    exact absurd (VectorSection.eq_of_downstream_nil hnd hr hx hd) hne
  · refine (hc.inv S rfl k).idle_of_given ?_
    rw [hc.given S rfl, contributed_eq_nil h hx]
    rfl

theorem Corresponds.calledFor_map (hc : Corresponds hashIdx {S} as s A) :
    ((s.calledFor S k).map (·.value) : Multiset (Multiset V)) = (A S k).results :=
  hc.called S rfl k

theorem Corresponds.isResult (hnd : S.members.Nodup)
    (h : Run (Step hashIdx {S}) ({} : Reductions ι V κ) as s)
    (hc : Corresponds hashIdx {S} as s A) {c : Contribution (VectorSection ι) ι V κ}
    (hmem : c ∈ s.calledFor S k) : IsResult S as k c := by
  obtain ⟨hcalled, hS, hk⟩ : c ∈ s.called ∧ c.imprintable = S ∧ c.count = k := by
    simpa [calledFor] using hmem
  obtain ⟨x, hx, cb, hd, hout, hcb⟩ := hc.callback c hcalled
  rw [hS] at hx hd hcb
  obtain ⟨r, hr⟩ := VectorSection.exists_pickRoot hx
  obtain rfl := VectorSection.eq_of_downstream_nil hnd hr hx hd
  refine ⟨⟨x, cb, hr, hout, by rw [← hk, hcb]⟩, ?_⟩
  have hyield : c.value ∈ (A S k).results := by
    rw [← hc.calledFor_map]
    exact Multiset.mem_coe.mpr (List.mem_map_of_mem hmem)
  rcases hc.root (k := k) hnd h hr with ⟨-, hres⟩ | ⟨-, v, hres, hgath⟩
  · simp [hres] at hyield
  · rw [hres, Multiset.mem_singleton] at hyield
    have hmap := hgath.map_some (T := S.tree hnd hr) hnd
      (fun y hy => if_pos (show y ∈ S.members from hy)) hx
    have hbelow : (S.tree hnd hr).below x = S.members := RankedTree.below_root
    rw [hyield, hmap, hbelow]
    exact Multiset.map_congr rfl fun y _ => hc.given S rfl k y

theorem Corresponds.not_complete (hc : Corresponds hashIdx {S} as s A)
    (hw : Waiting A s fun _ _ => False) (acc : Multiset V) : (A S k).phase x ≠ .waiting 0 acc := by
  intro hp
  obtain ⟨com, r, hr, rfl, rfl⟩ := hc.waiting S rfl k x 0 acc hp
  obtain ⟨hlt, wait, hphase, hcard⟩ := hw x com r hr id
  rw [hp] at hphase
  obtain ⟨rfl, -⟩ := Phase.waiting.inj hphase
  simp at hcard
  omega

/-- Once nothing is in flight and all members have contributed, no message waits in a
queue. -/
theorem Corresponds.quiet (hnd : S.members.Nodup) (hc : Corresponds hashIdx {S} as s A)
    (hall : ∀ x ∈ S.members, k < (contributed S x as).length) (hzero : s.inFlight = 0) :
    (A S k).flight = 0 := by
  refine Multiset.eq_zero_of_forall_notMem ?_
  rintro ⟨c, v⟩ hv
  obtain ⟨-, ⟨x, hpar⟩, -⟩ := (hc.inv S rfl k).sent c v hv
  obtain ⟨hcm, hxc⟩ := VectorSection.graph_parent_eq_some_iff.mp hpar
  have hx := ((VectorSection.mem_downstream_iff hnd hcm).mp hxc).1
  have hcx := (VectorSection.mem_upstream_iff hnd hx).mpr ⟨hcm, hxc⟩
  have hfrom : v ∈ (A S k).flightFrom c := by
    simp only [State.flightFrom, Multiset.mem_map, Multiset.mem_filter]
    exact ⟨(c, v), ⟨hv, rfl⟩, rfl⟩
  have hcopies := hc.copies S rfl x hx c hcx k
  rw [if_pos hpar] at hcopies
  have hchild : c ∈ S.graph.children x := by simpa [VectorSection.graph, hx] using hcx
  have hphase := (hc.inv S rfl k).phase x
  cases hp : (A S k).phase x with
  | idle =>
    rw [hp] at hphase
    have hgiven := hphase.1
    rw [hc.given S rfl, List.getElem?_eq_getElem (hall x hx)] at hgiven
    simp at hgiven
  | waiting wait acc =>
    -- the port of the child is open, and its queue is empty
    obtain ⟨com, r, hr, rfl, rfl⟩ := hc.waiting S rfl k x wait acc hp
    have hport : (s.localities x).entryPorts (portFor hashIdx r.imprintable r.count c) = some com :=
      (hc.entryPorts x _ com).mpr ⟨r, hr, by
        rw [(hc.reducer x com r hr).ports]
        exact List.mem_map_of_mem hcx⟩
    have hqueue := hc.portQueue x _ (by rw [hport]; simp)
    rw [← hcopies] at hfrom
    simp [Reductions.copies, hzero, hqueue] at hfrom
  | done =>
    rw [hp] at hphase
    simp [(hphase.2 c hchild).2.2] at hfrom

end Root

/-- Over a duplicate-free section no call aborts, the `k`-th callback is sent at most once
and with the `k`-th values of all members, and it has been sent once all members have
contributed and nothing is in flight. -/
theorem called_exactly_once (hnd : S.members.Nodup)
    (h : Run (Step hashIdx {S}) ({} : Reductions ι V κ) as s) :
    (∀ a, ¬ s.Aborts hashIdx {S} a) ∧ ∀ k, (s.calledFor S k).length ≤ 1 ∧
      (∀ c ∈ s.calledFor S k, IsResult S as k c) ∧
      (S.members ≠ [] → (∀ x ∈ S.members, k < (contributed S x as).length) → s.inFlight = 0 →
        (s.calledFor S k).length = 1) := by
  have hsep : Separated hashIdx {S} := separated_singleton hnd
  obtain ⟨A, hc, hw⟩ := exists_corresponds hsep h
  refine ⟨not_aborts hsep h, fun k => ?_⟩
  have hlen : (s.calledFor S k).length = Multiset.card (A S k).results := by
    rw [← hc.calledFor_map, Multiset.coe_card, List.length_map]
  refine ⟨?_, fun c hmem => hc.isResult hnd h hmem, fun hne hall hzero => ?_⟩
  · by_cases hempty : s.calledFor S k = []
    · simp [hempty]
    · obtain ⟨c, hmem⟩ := List.exists_mem_of_ne_nil _ hempty
      obtain ⟨⟨r, cb, hr, -, -⟩, -⟩ := hc.isResult hnd h hmem
      rcases hc.root (k := k) hnd h hr with ⟨-, hres⟩ | ⟨-, v, hres, -⟩ <;> simp [hlen, hres]
  · obtain ⟨x, hx⟩ := List.exists_mem_of_ne_nil _ hne
    obtain ⟨r, hr⟩ := VectorSection.exists_pickRoot hx
    have hdone := (hc.inv S rfl k).done_of_quiet (T := S.tree hnd hr)
      (fun y hy => ⟨if_pos (show y ∈ S.members from hy), if_pos (show y ∈ S.members from hy)⟩)
      (fun y hy hidle => ?_) (fun y _ acc => hc.not_complete hw acc)
      (hc.quiet hnd hall hzero) r (VectorSection.pickRoot_spec hnd hr).1
    · rcases hc.root (k := k) hnd h hr with ⟨hnot, -⟩ | ⟨-, v, hres, -⟩
      · exact absurd hdone hnot
      · simp [hlen, hres]
    · have hgiven := (hc.inv S rfl k).phase y
      rw [hidle] at hgiven
      have := hgiven.1
      rw [hc.given S rfl, List.getElem?_eq_getElem (hall y hy)] at this
      simp at this

def pair : VectorSection ℕ := ⟨[3, 7], by decide⟩

def pairPort : ReductionPort ℕ := portFor (fun _ => 0) pair 0 7

/-- The contribution of the child overtakes the call at the root. -/
theorem called_pair :
    ∃ s : Reductions ℕ ℕ Unit, Run (Step (fun _ => 0) {pair}) {}
      [.contribute pair 7 8 (), .contribute pair 3 4 (), .deliver 3 pairPort {8}] s ∧
      (s.calledFor pair 0).length = 1 := by
  have h0 : Run (Step (fun _ => 0) {pair}) ({} : Reductions ℕ ℕ Unit) [] {} := .nil
  have h1 := run_snoc h0 (.contribute pair 7 8 ()) 0 ⟨⟨rfl, by decide⟩, by decide⟩ (by decide)
  have h2 := run_snoc h1 (.contribute pair 3 4 ()) {(3, pairPort, {8})}
    ⟨⟨rfl, by decide⟩, by decide⟩ (by decide)
  have h3 := run_snoc h2 (.deliver 3 pairPort {8}) 0 ⟨trivial, by decide⟩ (by decide)
  refine ⟨_, h3, ?_⟩
  exact ((called_exactly_once (by decide) h3).2 0).2.2 (by decide) (by decide) (by decide)

end Reductions

end Hypercomm
