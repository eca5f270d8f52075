import Hypercomm.Reductions.Refinement

/-! # The simulation of gathering by reductions

Delivering a contribution to an open port is a step of the node that waits for it. To
a port that is not open it is none: the contribution moves to the queue. A local
contribution gives a node its value, and the node takes what is in its queues.
-/

namespace Hypercomm

open Transition Gather

variable {ι V κ : Type*} [DecidableEq ι]

namespace Reductions

variable {hashIdx : ι → HashCode} {sections : Set (VectorSection ι)}
variable {as bs : List (ReductionEvent ι V κ)} {s : Reductions ι V κ} {A : Gatherings ι V}
variable {x : ι} {com : ComponentId} {r : Reducer (VectorSection ι) ι V κ} {dev : Deliverable V}
variable {port : ReductionPort ι} {w : Multiset V} {rest : Multiset (Delivery ι V)}

theorem Corresponds.of_contributed (h : Corresponds hashIdx sections as s A)
    (hc : ∀ S x, contributed S x bs = contributed S x as) :
    Corresponds hashIdx sections bs s A where
  __ := h
  count S x := by rw [hc, h.count]
  given S hS k x := by rw [hc, h.given S hS]
  reducer x com r hr := by
    have hinv := h.reducer x com r hr
    exact { hinv with output := by rw [hc]; exact hinv.output }
  callback c hmem := by
    obtain ⟨x, hx, cb, hrest⟩ := h.callback c hmem
    exact ⟨x, hx, cb, by rw [hc]; exact hrest⟩

theorem Corresponds.passthru (hsep : Separated hashIdx sections)
    (h : Corresponds hashIdx sections as s A) (hw : Waiting A s fun y c => y = x ∧ c = com)
    (hr : (s.localities x).components com = some r) (hp : Progress A x r [dev]) :
    ∃ A' o, (s.localities x).passthru com dev = some o ∧
      Corresponds hashIdx sections as (s.commit x o) A' ∧
      Waiting A' (s.commit x o) fun _ _ => False := by
  rcases lt_or_ge (r.devs.length + 1) r.nUstream with hlt | hle
  · exact ⟨A, h.keep hw hr hp hlt⟩
  · exact h.last hsep hw hr hp hle

theorem Corresponds.enqueue (h : Corresponds hashIdx sections as s A)
    (hw : Waiting A s fun _ _ => False) (hf : s.inFlight = (x, port, w) ::ₘ rest)
    (hp : (s.localities x).entryPorts port = none) :
    ∃ o, (s.localities x).receive port (some w) = some o ∧
      Corresponds hashIdx sections as (({ s with inFlight := rest } : Reductions ι V κ).commit x o)
        A ∧
      Waiting A (({ s with inFlight := rest } : Reductions ι V κ).commit x o) fun _ _ => False := by
  set queue := (s.localities x).portQueue port ++ [some w] with hqueue
  have hrecv : (s.localities x).receive port (some w) = some ({ s.localities x with
      portQueue := Function.update (s.localities x).portQueue port queue }, []) := by
    simp [Locality.receive, hp, hqueue]
  refine ⟨_, hrecv, ?_⟩
  obtain ⟨t, ht⟩ : ∃ t, t = ({ s with inFlight := rest } : Reductions ι V κ).commit x
    ({ s.localities x with
      portQueue := Function.update (s.localities x).portQueue port queue }, []) := ⟨_, rfl⟩
  rw [← ht]
  have hsame : ∀ y, (t.localities y).identities = (s.localities y).identities ∧
      (t.localities y).components = (s.localities y).components ∧
      (t.localities y).entryPorts = (s.localities y).entryPorts ∧
      (t.localities y).componentAuthority = (s.localities y).componentAuthority := by
    intro y
    rcases eq_or_ne y x with rfl | hy
    · simp [ht, commit]
    · simp [ht, commit, hy]
  have hq : ∀ y port', (t.localities y).portQueue port' =
      if y = x ∧ port' = port then queue else (s.localities y).portQueue port' := by
    intro y port'
    rcases eq_or_ne y x with rfl | hy
    · simp [ht, commit, Function.update_apply]
    · simp [ht, commit, hy]
  constructor
  · exact {
      inv := h.inv
      count := fun S y => by rw [(hsame y).1, h.count]
      given := h.given
      reducer := fun y c q hq => by
        rw [(hsame y).2.1] at hq
        exact (h.reducer y c q hq).congr (hsame y).2.2.2.ge q.devs
      waiting := fun S hS k y wait acc hp => by
        rw [(hsame y).2.1]
        exact h.waiting S hS k y wait acc hp
      unique := fun y => by rw [(hsame y).2.1]; exact h.unique y
      entryPorts := fun y => by rw [(hsame y).2.1, (hsame y).2.2.1]; exact h.entryPorts y
      portQueue := fun y port' hport => by
        rw [(hsame y).2.2.1] at hport
        rw [hq, if_neg, h.portQueue y port' hport]
        rintro ⟨rfl, rfl⟩
        exact hport hp
      values := fun y port' => by
        rw [hq]
        split
        · simpa [hqueue] using h.values x port
        · exact h.values y port'
      copies := fun S hS y hy c hc k => by
        rw [← h.copies S hS y hy c hc k,
          copies_cons (t := ({ s with inFlight := rest } : Reductions ι V κ)) hf rfl,
          Reductions.copies, Reductions.copies, hq, ht]
        by_cases hm : y = x ∧ portFor hashIdx S k c = port
        · obtain ⟨rfl, rfl⟩ := hm
          simp only [commit, hqueue, List.foldl_nil, List.filterMap_append, if_true, and_self,
            ← Multiset.coe_add]
          rw [add_comm ({w} : Multiset (Multiset V)), ← add_assoc]
          rfl
        · rw [if_neg hm, if_neg fun h' => hm ⟨h'.1.symm, h'.2.symm⟩, zero_add]
          rfl
      called := by rw [ht]; exact h.called
      callback := by rw [ht]; exact h.callback }
  · intro y c q hq _
    rw [(hsame y).2.1] at hq
    exact hw y c q hq id

theorem Corresponds.take (hsep : Separated hashIdx sections)
    (h : Corresponds hashIdx sections as s A) (hw : Waiting A s fun _ _ => False)
    (hf : s.inFlight = (x, port, w) ::ₘ rest)
    (hr : (s.localities x).components com = some r) (hp : port ∈ r.ports) :
    ∃ A', Corresponds hashIdx sections as { s with inFlight := rest } A' ∧
      Waiting A' { s with inFlight := rest } (fun y c => y = x ∧ c = com) ∧
      Progress A' x r [some w] := by
  have hinv := h.reducer x com r hr
  set S := r.imprintable with hS
  set k := r.count with hk
  obtain ⟨c, hc, rfl⟩ : ∃ c ∈ S.upstream x, portFor hashIdx S k c = port := by
    simpa [hinv.ports] using hp
  have hopen : (s.localities x).entryPorts (portFor hashIdx S k c) = some com :=
    (h.entryPorts x _ com).mpr ⟨r, hr, hp⟩
  have hcopies := h.copies S hinv.which x hinv.mem c hc k
  have hmem : w ∈ s.copies x (portFor hashIdx S k c) := by
    simp [Reductions.copies, hf]
  have hpar : S.graph.parent c = some x := by
    by_contra hne
    rw [hcopies, if_neg hne] at hmem
    simp at hmem
  rw [if_pos hpar] at hcopies
  rw [hcopies] at hmem
  obtain ⟨flight, hflight⟩ := exists_cons_of_flightFrom hmem
  obtain ⟨hlt, wait, hphase, hcard⟩ := hw x com r hr id
  have hchildren : S.graph.children x = S.upstream x := if_pos hinv.mem
  have hcwait : c ∈ wait := by
    have hinvx := (h.inv S hinv.which k).phase x
    rw [hphase] at hinvx
    by_contra hnot
    have hzero := ((hinvx.2.1 c (hchildren ▸ hc)).mp hnot).2.2
    rw [hzero] at hmem
    simp at hmem
  obtain ⟨wait, rfl⟩ := Multiset.exists_cons_of_mem hcwait
  have hnd : (S.graph.children x).Nodup := hchildren ▸ hsep.nodup S hinv.which x hinv.mem
  have hfrom := fun d => take_flightFrom (s := A S k) x wait (combine (r.devs ++ []) + w) d hflight
  have hA : ∀ S' k' y, ¬ (S' = S ∧ k' = k ∧ y = x) →
      ((A.set S k ((A S k).take x wait (combine (r.devs ++ []) + w) flight)) S' k').phase y =
        (A S' k').phase y := by
    intro S' k' y hne
    by_cases hSk : S' = S ∧ k' = k
    · obtain ⟨rfl, rfl⟩ := hSk
      have hy : y ≠ x := fun hy => hne ⟨rfl, rfl, hy⟩
      simp [State.take, hy]
    · rw [Gatherings.set_of_ne hSk]
  refine ⟨A.set S k ((A S k).take x wait (combine (r.devs ++ []) + w) flight), ?_, ?_, ?_⟩
  · exact {
      inv := fun S' hS' k' => by
        by_cases hSk : S' = S ∧ k' = k
        · obtain ⟨rfl, rfl⟩ := hSk
          rw [Gatherings.set_self]
          exact (h.inv _ hS' _).take hnd hphase hpar hflight
        · rw [Gatherings.set_of_ne hSk]
          exact h.inv S' hS' k'
      count := h.count
      given := fun S' hS' k' y => by
        rw [← h.given S' hS']
        by_cases hSk : S' = S ∧ k' = k
        · obtain ⟨rfl, rfl⟩ := hSk
          rw [Gatherings.set_self]; rfl
        · rw [Gatherings.set_of_ne hSk]
      reducer := fun y c q hq => 
        (h.reducer y c q hq).congr (t := { s with inFlight := rest }) le_rfl q.devs
      waiting := fun S' hS' k' y wait' acc hp => by
        by_cases hne : S' = S ∧ k' = k ∧ y = x
        · obtain ⟨rfl, rfl, rfl⟩ := hne
          exact ⟨com, r, hr, rfl, rfl⟩
        · rw [hA S' k' y hne] at hp
          exact h.waiting S' hS' k' y wait' acc hp
      unique := h.unique
      entryPorts := h.entryPorts
      portQueue := h.portQueue
      values := h.values
      copies := fun S' hS' y hy c' hc' k' => by
        have hold := h.copies S' hS' y hy c' hc' k'
        rw [copies_cons (t := ({ s with inFlight := rest } : Reductions ι V κ)) hf rfl] at hold
        by_cases hm : x = y ∧ portFor hashIdx S k c = portFor hashIdx S' k' c'
        · obtain ⟨rfl, hport⟩ := hm
          obtain ⟨hhash, rfl, rfl⟩ := ReductionPort.mk.inj hport
          obtain rfl : S = S' := hsep.ports S hinv.which S' hS' hhash x hinv.mem c hc hy hc'
          rw [if_pos ⟨rfl, rfl⟩, if_pos hpar, hfrom, if_pos rfl, add_right_inj] at hold
          rw [if_pos hpar, Gatherings.set_self, ← hold]
        · rw [if_neg hm, zero_add] at hold
          rw [hold]
          by_cases hSk : S' = S ∧ k' = k
          · obtain ⟨rfl, rfl⟩ := hSk
            rw [Gatherings.set_self, hfrom]
            split
            case isTrue hpc =>
              have hcc : c ≠ c' := by
                rintro rfl
                exact hm ⟨Option.some.inj (hpar.symm.trans hpc), rfl⟩
              rw [if_neg hcc, zero_add]
            case isFalse => rfl
          · rw [Gatherings.set_of_ne hSk]
      called := fun S' hS' k' => by
        rw [h.called S' hS' k']
        by_cases hSk : S' = S ∧ k' = k
        · obtain ⟨rfl, rfl⟩ := hSk
          rw [Gatherings.set_self]; rfl
        · rw [Gatherings.set_of_ne hSk]
      callback := h.callback }
  · intro y c q hq hne
    obtain ⟨hlt', wait', hp', hcard'⟩ := hw y c q hq id
    refine ⟨hlt', wait', ?_, hcard'⟩
    rw [hA, hp']
    rintro ⟨h1, h2, rfl⟩
    exact hne ⟨rfl, h.unique y c com q r hq hr h1 h2⟩
  · refine ⟨wait, ?_, ?_⟩
    · simp [State.take, combine, ← hS, ← hk]
    · simp at hcard ⊢; omega

theorem contributed_prefix (as : List (ReductionEvent ι V κ)) (a : ReductionEvent ι V κ)
    (S : VectorSection ι) (x : ι) : contributed S x as <+: contributed S x (as ++ [a]) := by
  simp [contributed]

theorem getElem?_contributed {S : VectorSection ι} {k : ℕ} {cb : κ} (a : ReductionEvent ι V κ)
    (h : (contributed S x as)[k]?.map Prod.snd = some cb) :
    (contributed S x (as ++ [a]))[k]?.map Prod.snd = some cb := by
  obtain ⟨p, hp, rfl⟩ := Option.map_eq_some_iff.mp h
  obtain ⟨l, hl⟩ := contributed_prefix as a S x
  rw [← hl, List.getElem?_append_left (List.getElem?_eq_some_iff.mp hp).1, hp]
  rfl

/-- The queue of the port of a child is empty, or holds the one message of the child. -/
theorem Corresponds.queue_cases (h : Corresponds hashIdx sections as s A) {S : VectorSection ι}
    (hS : S ∈ sections) (hx : x ∈ S.members) {c : ι} (hc : c ∈ S.upstream x) (k : ReductionId) :
    (s.localities x).portQueue (portFor hashIdx S k c) = [] ∨
      ∃ w, (s.localities x).portQueue (portFor hashIdx S k c) = [some w] ∧
        S.graph.parent c = some x ∧ (A S k).flightFrom c = {w} ∧
        (s.inFlight.filter fun m => m.1 = x ∧ m.2.1 = portFor hashIdx S k c) = 0 := by
  cases hq : (s.localities x).portQueue (portFor hashIdx S k c) with
  | nil => exact .inl rfl
  | cons dev queue =>
    have hval := h.values x (portFor hashIdx S k c)
    rw [hq] at hval
    obtain ⟨w, rfl⟩ : ∃ w, dev = some w :=
      Option.ne_none_iff_exists'.mp fun hn => hval (by simp [hn])
    have hcopies := h.copies S hS x hx c hc k
    rw [Reductions.copies, hq] at hcopies
    have hpar : S.graph.parent c = some x := by
      by_contra hne
      rw [if_neg hne] at hcopies
      simpa using congrArg Multiset.card hcopies
    have honce := (h.inv S hS k).once c
    rw [if_pos hpar] at hcopies
    rw [← hcopies] at honce
    have hflight : (s.inFlight.filter fun m => m.1 = x ∧ m.2.1 = portFor hashIdx S k c) = 0 := by
      rw [← Multiset.card_eq_zero]
      simp at honce; omega
    have hqueue : queue = [] := by
      cases queue with
      | nil => rfl
      | cons dev' queue =>
        obtain ⟨w', rfl⟩ : ∃ w', dev' = some w' :=
          Option.ne_none_iff_exists'.mp fun hn => hval (by simp [hn])
        simp at honce; omega
    subst hqueue
    refine .inr ⟨w, rfl, hpar, ?_, hflight⟩
    rw [← hcopies, hflight]
    simp

theorem Corresponds.fresh (hsep : Separated hashIdx sections)
    (h : Corresponds hashIdx sections as s A) (hw : Waiting A s fun _ _ => False)
    {S : VectorSection ι} (hS : S ∈ sections) (hx : x ∈ S.members) {k : ReductionId}
    (hk : (contributed S x as).length ≤ k) :
    (A S k).phase x = .idle ∧
    (∀ com r, (s.localities x).components com = some r → r.imprintable = S → r.count ≠ k) ∧
    ∀ c ∈ S.upstream x, (s.localities x).entryPorts (portFor hashIdx S k c) = none := by
  have hidle : (A S k).phase x = .idle := by
    refine (h.inv S hS k).idle_of_given ?_
    rw [h.given S hS, List.getElem?_eq_none hk]
    rfl
  have hstamp : ∀ com r, (s.localities x).components com = some r → r.imprintable = S →
      r.count ≠ k := by
    rintro com r hr rfl rfl
    obtain ⟨-, wait, hp, -⟩ := hw x com r hr id
    rw [hidle] at hp
    cases hp
  refine ⟨hidle, hstamp, fun c hc => Option.eq_none_iff_forall_ne_some.mpr fun com hcom => ?_⟩
  obtain ⟨r, hr, hport⟩ := (h.entryPorts x _ com).mp hcom
  have hinv := h.reducer x com r hr
  rw [hinv.ports] at hport
  obtain ⟨c', hc', he⟩ := List.mem_map.mp hport
  obtain ⟨hhash, hcount, rfl⟩ := ReductionPort.mk.inj he
  have hSr := hsep.ports S hS r.imprintable hinv.which hhash.symm x hx c' hc hinv.mem hc'
  exact hstamp com r hr hSr.symm hcount

theorem ReducerInv.extend {t : Reductions ι V κ} (a : ReductionEvent ι V κ)
    (h : ReducerInv hashIdx sections as s x com r)
    (ha : (s.localities x).componentAuthority ≤ (t.localities x).componentAuthority) :
    ReducerInv hashIdx sections (as ++ [a]) t x com r := by
  obtain ⟨cb, hcb, hout⟩ := h.output
  exact { h with
    created := h.created.trans ha
    output := ⟨cb, getElem?_contributed a hcb, hout⟩ }

/-- A member gives its value to its node, which takes the messages that are queued. -/
theorem Corresponds.contribute (hsep : Separated hashIdx sections)
    (h : Corresponds hashIdx sections as s A) (hw : Waiting A s fun _ _ => False)
    {S : VectorSection ι} (hS : S ∈ sections) (hx : x ∈ S.members) (v : V) (cb : κ) :
    ∃ l com r A', (s.localities x).localContribution S (S.hash hashIdx) x (S.upstream x)
        (S.downstream x) v cb = l.passthru com (some {v}) ∧ l.components com = some r ∧
      Corresponds hashIdx sections (as ++ [.contribute S x v cb])
        { s with localities := Function.update s.localities x l } A' ∧
      Waiting A' { s with localities := Function.update s.localities x l }
        (fun y c => y = x ∧ c = com) ∧
      Progress A' x r [some {v}] := by
  set k := ((s.localities x).identities S).rednCount with hk
  have hkl : k = (contributed S x as).length := h.count S x
  obtain ⟨hidle, hstamp, hfresh⟩ := h.fresh hsep hw hS hx hkl.ge
  set com := (s.localities x).componentAuthority + 1 with hcom
  set ports := (S.upstream x).map (portFor hashIdx S k) with hports
  obtain ⟨output, hout⟩ : ∃ output, Locality.outputFor (S.downstream x)
      (portFor hashIdx S k x) cb = some output := by
    have hlen := S.downstream_length_le (x := x)
    match hd : S.downstream x with
    | [] => exact ⟨_, rfl⟩
    | [d] => exact ⟨_, rfl⟩
    | _ :: _ :: _ => simp [hd] at hlen
  -- the messages that are queued
  set msgs : ι → Option (Multiset V) := fun c =>
    ((s.localities x).portQueue (portFor hashIdx S k c)).head?.join with hmsgs
  have hcases := fun c hc => h.queue_cases (x := x) hS hx (c := c) hc k
  have hqueue : ports.flatMap (s.localities x).portQueue =
      ((S.upstream x).filterMap msgs).map some := by
    rw [hports, List.flatMap_map, List.filterMap_eq_flatMap_toList, List.map_flatMap]
    refine List.flatMap_congr fun c hc => ?_
    rcases hcases c hc with hq | ⟨w, hq, -⟩ <;> simp [hmsgs, hq]
  set devs := (ports.flatMap (s.localities x).portQueue).reverse with hdevs
  have hlen : devs.length = ((S.upstream x).filterMap msgs).length := by simp [hdevs, hqueue]
  have hcombine : combine devs = ((S.upstream x).filterMap msgs).sum := by
    rw [hdevs, hqueue, ← List.map_reverse, combine_map_some, List.sum_reverse]
  have hcontrib := Locality.localContribution_eq (l := s.localities x) S v hout hports
    (hsep.nodup S hS x hx) (by simpa [hports] using hfresh) hdevs
    (by rw [hlen]; exact List.length_filterMap_le ..)
  -- the node takes the queued messages
  have hchildren : S.graph.children x = S.upstream x := if_pos hx
  have hnd : ∀ y, (S.graph.children y).Nodup := fun y => by
    by_cases hy : y ∈ S.members
    · simpa [VectorSection.graph, hy] using hsep.nodup S hS y hy
    · simp [VectorSection.graph, hy]
  have hissued : ((A S k).issue S.graph x v).phase x = .waiting (S.upstream x) {v} := by
    simp [State.issue, hchildren]
  obtain ⟨a, wait, hainv, hagiven, haresults, haphase, hacard, haflight⟩ :=
    ((h.inv S hS k).issue v hidle).takes hnd (S.upstream x) msgs (hsep.nodup S hS x hx) hissued
      fun c hc w hw' => by
        rcases hcases c hc with hq | ⟨w', hq, hpar, hfrom, -⟩
        · simp [hmsgs, hq] at hw'
        · obtain rfl : w' = w := by simpa [hmsgs, hq] using hw'
          exact ⟨hc, hpar, hfrom⟩
  have hphase : ∀ y, y ≠ x → a.phase y = (A S k).phase y := fun y hy => by
    rw [haphase]; simp [State.issue, hy]
  generalize hl : ({ s.localities x with
    identities := Function.update (s.localities x).identities S
      { (s.localities x).identities S with rednCount := k + 1 }
    componentAuthority := com
    entryPorts := fun port => if port ∈ ports then some com else (s.localities x).entryPorts port
    portQueue := fun port => if port ∈ ports then [] else (s.localities x).portQueue port
    components := Function.update (s.localities x).components com
      (some ⟨S, k, (S.upstream x).length + 1, ports, output, devs, [], true⟩) } :
        Locality (VectorSection ι) ι V κ) = l at hcontrib
  generalize hr : (⟨S, k, (S.upstream x).length + 1, ports, output, devs, [], true⟩ :
    Reducer (VectorSection ι) ι V κ) = r at hl
  -- the state before the local value is handed over
  obtain ⟨t, ht⟩ : ∃ t : Reductions ι V κ,
    t = { s with localities := Function.update s.localities x l } := ⟨_, rfl⟩
  have hnone : (s.localities x).components com = none :=
    Option.eq_none_iff_forall_ne_some.mpr fun q hq => by
      exact absurd (h.reducer x com q hq).created (Nat.not_succ_le_self _)
  have hcomp : ∀ y c q, (t.localities y).components c = some q ↔
      (y = x ∧ c = com ∧ r = q) ∨ (s.localities y).components c = some q := by
    intro y c q
    rcases eq_or_ne y x with rfl | hy
    · have hlc : (t.localities y).components =
          Function.update (s.localities y).components com (some r) := by simp [ht, ← hl]
      rw [hlc]
      rcases eq_or_ne c com with rfl | hc
      · simp [hnone]
      · simp [hc]
    · simp [ht, hy]
  have hentry : ∀ y port, (t.localities y).entryPorts port =
      if y = x ∧ port ∈ ports then some com else (s.localities y).entryPorts port := by
    intro y port
    rcases eq_or_ne y x with rfl | hy
    · simp [ht, ← hl]
    · simp [ht, hy]
  have hque : ∀ y port, (t.localities y).portQueue port =
      if y = x ∧ port ∈ ports then [] else (s.localities y).portQueue port := by
    intro y port
    rcases eq_or_ne y x with rfl | hy
    · simp [ht, ← hl]
    · simp [ht, hy]
  have hcount : ∀ S' y, ((t.localities y).identities S').rednCount =
      ((s.localities y).identities S').rednCount + if S = S' ∧ x = y then 1 else 0 := by
    intro S' y
    rcases eq_or_ne x y with rfl | hy
    · rcases eq_or_ne S S' with rfl | hSS
      · simp [ht, ← hl, hk]
      · simp [ht, ← hl, hSS, hSS.symm]
    · simp [ht, hy, hy.symm]
  have hauth : ∀ y, (s.localities y).componentAuthority ≤ (t.localities y).componentAuthority := by
    intro y
    rcases eq_or_ne y x with rfl | hy
    · simp [ht, ← hl, hcom]
    · simp [ht, hy]
  have hset : ∀ S' k' y, ¬ (S' = S ∧ k' = k ∧ y = x) →
      (A.set S k a S' k').phase y = (A S' k').phase y := by
    intro S' k' y hne
    by_cases hSk : S' = S ∧ k' = k
    · obtain ⟨rfl, rfl⟩ := hSk
      rw [Gatherings.set_self, hphase y fun hy => hne ⟨rfl, rfl, hy⟩]
    · rw [Gatherings.set_of_ne hSk]
  refine ⟨l, com, r, A.set S k a, hcontrib, by simp [← hl], ?_, ?_, ?_⟩
  · rw [← ht]
    exact {
      inv := fun S' hS' k' => by
        by_cases hSk : S' = S ∧ k' = k
        · obtain ⟨rfl, rfl⟩ := hSk
          rwa [Gatherings.set_self]
        · rw [Gatherings.set_of_ne hSk]
          exact h.inv S' hS' k'
      count := fun S' y => by
        rw [hcount, h.count, contributed_contribute]
        split <;> simp
      given := fun S' hS' k' y => by
        rw [contributed_contribute]
        by_cases hSk : S' = S ∧ k' = k
        · obtain ⟨rfl, rfl⟩ := hSk
          rw [Gatherings.set_self, hagiven]
          rcases eq_or_ne x y with rfl | hy
          · simp [State.issue, hkl]
          · simp [State.issue, hy, hy.symm, h.given _ hS']
        · rw [Gatherings.set_of_ne hSk, h.given S' hS']
          split
          case isTrue hSx =>
            obtain ⟨rfl, rfl⟩ := hSx
            have hne : k' ≠ (contributed S x as).length := fun hk' => hSk ⟨rfl, hk'.trans hkl.symm⟩
            rcases lt_or_gt_of_ne hne with hlt | hgt
            · rw [List.getElem?_append_left hlt]
            · rw [List.getElem?_eq_none hgt.le,
                List.getElem?_eq_none (by simpa using Nat.succ_le_of_lt hgt)]
          case isFalse => simp
      reducer := fun y c q hq => by
        rcases (hcomp y c q).mp hq with ⟨rfl, rfl, rfl⟩ | hq
        · rw [← hr]
          refine ⟨hS, hx, ?_, rfl, rfl, rfl, hports, cb, ?_, hout⟩
          · simp [ht, ← hl]
          · simp [contributed_contribute, hkl]
        · exact (h.reducer y c q hq).extend _ (hauth y)
      waiting := fun S' hS' k' y wait' acc hp => by
        by_cases hne : S' = S ∧ k' = k ∧ y = x
        · obtain ⟨rfl, rfl, rfl⟩ := hne
          exact ⟨com, r, (hcomp y com r).mpr (.inl ⟨rfl, rfl, rfl⟩), by simp [← hr], by simp [← hr]⟩
        · rw [hset S' k' y hne] at hp
          obtain ⟨c, q, hq, hstampq⟩ := h.waiting S' hS' k' y wait' acc hp
          exact ⟨c, q, (hcomp y c q).mpr (.inr hq), hstampq⟩
      unique := fun y c c' q q' hq hq' hi hk' => by
        rcases (hcomp y c q).mp hq with ⟨rfl, rfl, rfl⟩ | hq
        · rcases (hcomp y c' q').mp hq' with ⟨-, rfl, -⟩ | hq'
          · rfl
          · exact absurd (by simp [← hk', ← hr]) (hstamp c' q' hq' (by simp [← hi, ← hr]))
        · rcases (hcomp y c' q').mp hq' with ⟨rfl, rfl, rfl⟩ | hq'
          · exact absurd (by simp [hk', ← hr]) (hstamp c q hq (by simp [hi, ← hr]))
          · exact h.unique y c c' q q' hq hq' hi hk'
      entryPorts := fun y port c => by
        rw [hentry]
        by_cases hport : y = x ∧ port ∈ ports
        · rw [if_pos hport]
          obtain ⟨rfl, hport⟩ := hport
          constructor
          · intro hc
            obtain rfl := Option.some.inj hc
            exact ⟨r, (hcomp y com r).mpr (.inl ⟨rfl, rfl, rfl⟩), by rwa [← hr]⟩
          · rintro ⟨q, hq, hmem⟩
            rcases (hcomp y c q).mp hq with ⟨-, rfl, -⟩ | hq
            · rfl
            · have hold := (h.entryPorts y port c).mpr ⟨q, hq, hmem⟩
              obtain ⟨up, hup, rfl⟩ := List.mem_map.mp hport
              rw [hfresh up hup] at hold
              cases hold
        · rw [if_neg hport, h.entryPorts]
          constructor
          · rintro ⟨q, hq, hmem⟩
            exact ⟨q, (hcomp y c q).mpr (.inr hq), hmem⟩
          · rintro ⟨q, hq, hmem⟩
            rcases (hcomp y c q).mp hq with ⟨rfl, rfl, rfl⟩ | hq
            · exact absurd ⟨rfl, by rwa [← hr] at hmem⟩ hport
            · exact ⟨q, hq, hmem⟩
      portQueue := fun y port hport => by
        rw [hentry] at hport
        rw [hque]
        split
        · rfl
        case isFalse hne =>
          rw [if_neg hne] at hport
          exact h.portQueue y port hport
      values := fun y port => by
        rw [hque]
        split
        · exact List.not_mem_nil
        · exact h.values y port
      copies := fun S' hS' y hy c hc k' => by
        have hold := h.copies S' hS' y hy c hc k'
        have hflight : t.inFlight = s.inFlight := by rw [ht]
        by_cases hport : y = x ∧ portFor hashIdx S' k' c ∈ ports
        · rw [Reductions.copies, hque, if_pos hport, hflight]
          obtain ⟨rfl, hport⟩ := hport
          obtain ⟨up, hup, he⟩ := List.mem_map.mp hport
          obtain ⟨hhash, rfl, rfl⟩ := ReductionPort.mk.inj he
          obtain rfl : S = S' := hsep.ports S hS S' hS' hhash y hx up hup hy hc
          rw [Gatherings.set_self, haflight]
          rcases hcases up hup with hq | ⟨w, hq, hpar, -, hzero⟩
          · rw [Reductions.copies, hq] at hold
            have hnomsg : ¬ (up ∈ S.upstream y ∧ msgs up ≠ none) := by simp [hmsgs, hq]
            rw [if_neg hnomsg]
            exact hold
          · have hmsg : msgs up = some w := by simp [hmsgs, hq]
            rw [if_pos hpar, if_pos ⟨hup, by simp [hmsg]⟩, hzero]
            rfl
        · have hsame : t.copies y (portFor hashIdx S' k' c) =
              s.copies y (portFor hashIdx S' k' c) := by
            rw [Reductions.copies, Reductions.copies, hque, if_neg hport, hflight]
          rw [hsame, hold]
          by_cases hSk : S' = S ∧ k' = k
          · obtain ⟨rfl, rfl⟩ := hSk
            rw [Gatherings.set_self]
            split
            case isTrue hpar =>
              have hnomsg : ¬ (c ∈ S'.upstream x ∧ msgs c ≠ none) := by
                rintro ⟨hcx, hmsg⟩
                rcases hcases c hcx with hq | ⟨-, -, hpar', -⟩
                · exact hmsg (by simp [hmsgs, hq])
                · exact hport ⟨Option.some.inj (hpar.symm.trans hpar'), List.mem_map_of_mem hcx⟩
              rw [haflight, if_neg hnomsg]
              rfl
            case isFalse => rfl
          · rw [Gatherings.set_of_ne hSk]
      called := fun S' hS' k' => by
        rw [ht, h.called S' hS' k']
        by_cases hSk : S' = S ∧ k' = k
        · obtain ⟨rfl, rfl⟩ := hSk
          rw [Gatherings.set_self, haresults]; rfl
        · rw [Gatherings.set_of_ne hSk]
      callback := fun c hc => by
        rw [ht] at hc
        obtain ⟨y, hy, cb', hd, ho, hcb⟩ := h.callback c hc
        exact ⟨y, hy, cb', hd, ho, getElem?_contributed _ hcb⟩ }
  · rw [← ht]
    intro y c q hq hne
    rcases (hcomp y c q).mp hq with ⟨rfl, rfl, rfl⟩ | hq
    · exact absurd ⟨rfl, rfl⟩ hne
    · obtain ⟨hlt, wait', hp, hcard⟩ := hw y c q hq id
      refine ⟨hlt, wait', ?_, hcard⟩
      rw [hset, hp]
      rintro ⟨h1, h2, rfl⟩
      exact hstamp c q hq h1 h2
  · refine ⟨wait, ?_, ?_⟩
    · simp [← hr, haphase, hcombine, add_comm]
    · rw [Multiset.coe_card] at hacard
      simp [← hr, hlen]
      omega

end Reductions

end Hypercomm
