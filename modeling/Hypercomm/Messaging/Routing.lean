import Hypercomm.Messaging.Network

/-! # Messages reach the end of their records

Once the home PE of every index knows where its element is, following the entries of the
other PEs ends at newer ones, and the forwarding records end, each message is received by
the element at the end of its records or buffered at the home PE of that index, in a
bounded number of hops and whatever the order of the deliveries.
-/

namespace Hypercomm.Interceptor

/-- Where the elements are, and how old the entries of the PEs for them are. -/
structure Whereabouts (Idx : Type*) where
  host : Idx → Option ℕ
  lag : ℕ → Idx → ℕ
  maxLag : ℕ

/-- The ends of the records of the indices as well, and how far they are from them. -/
structure Survey (Idx : Type*) extends Whereabouts Idx where
  dest : Idx → Idx
  depth : Idx → ℕ
  maxDepth : ℕ

variable {Idx Msg : Type*}

def Branch.put (b : Branch Idx Msg) (pushed : List (Idx × Msg)) (given : List Msg) :
    Branch Idx Msg :=
  { b with pushed, given }

namespace Survey

/-- The hops of a message on a PE, once no record changes its index any more. -/
def rest (v : Survey Idx) (home : Idx → ℕ) (pe : ℕ) (idx : Idx) : ℕ :=
  if v.host idx = some pe then 0 else if pe = home idx then 1 else v.lag pe idx + 2

def hops (v : Survey Idx) (home : Idx → ℕ) (pe : ℕ) (idx : Idx) : ℕ :=
  v.depth idx * (v.maxLag + 3) + v.rest home pe idx

def redirected (v : Survey Idx) (x : Idx × Msg) : Idx × Msg := (v.dest x.1, x.2)

end Survey

namespace Network

variable [DecidableEq Idx] {numPes : ℕ} {home : Idx → ℕ} {v : Survey Idx} {n m : Network Idx Msg}
  {pe : ℕ} {pre post idx : Idx} {msg : Msg} {immediate : Bool}

def record (home : Idx → ℕ) (n : Network Idx Msg) (idx : Idx) : Option Idx :=
  (n.branches (home idx)).record idx

/-- The home PE knows where the element is, and an entry of another PE leads to a newer
one. -/
structure Located (numPes : ℕ) (home : Idx → ℕ) (w : Whereabouts Idx) (n : Network Idx Msg) :
    Prop where
  here : ∀ pe < numPes, ∀ idx, (n.branches pe).location idx = .here ↔ w.host idx = some pe
  tracked : ∀ idx pe, w.host idx = some pe → pe ≠ home idx →
    (n.branches (home idx)).location idx = .cached (some pe)
  absent : ∀ idx pe, w.host idx = none →
    (n.branches (home idx)).location idx = .cached (some pe) → pe = home idx
  newer : ∀ pe < numPes, ∀ idx q, pe ≠ home idx →
    (n.branches pe).location idx = .cached (some q) →
    q ≠ pe ∧ (q = home idx ∨ w.host idx = some q ∨ w.lag q idx < w.lag pe idx)
  lag_le : ∀ pe idx, w.lag pe idx ≤ w.maxLag

/-- Moreover no record redirects a message for an element, and the records end. -/
structure Settled (numPes : ℕ) (home : Idx → ℕ) (v : Survey Idx) (n : Network Idx Msg) : Prop
    extends Located numPes home v.toWhereabouts n where
  unrecorded : ∀ idx, v.host idx ≠ none → n.record home idx = none
  ends : ∀ idx, Transition.Leads (n.record home) idx (v.dest idx)
  falls : ∀ idx next, n.record home idx = some next → v.depth next < v.depth idx
  depth_le : ∀ idx, v.depth idx ≤ v.maxDepth

theorem Settled.rest_lt (hv : Settled numPes home v n) (pe : ℕ) (idx : Idx) :
    v.rest home pe idx < v.maxLag + 3 := by
  have := hv.lag_le pe idx
  unfold Survey.rest
  split
  · omega
  · split <;> omega

theorem Settled.hops_lt (hv : Settled numPes home v n) (pe : ℕ) (idx : Idx) :
    v.hops home pe idx < (v.maxDepth + 1) * (v.maxLag + 3) := by
  have hd := Nat.mul_le_mul_right (v.maxLag + 3) (hv.depth_le idx)
  have hr := hv.rest_lt pe idx
  unfold Survey.hops
  rw [Nat.succ_mul]
  omega

theorem Settled.dest_eq (hv : Settled numPes home v n) (h : n.record home idx = none) :
    v.dest idx = idx :=
  (hv.ends idx).unique (.stop h)

theorem record_of_kept (hk : ∀ p ∈ (n.branches pe).fwdReqs, home p.1 = pe) {next : Idx}
    (h : (n.branches pe).record idx = some next) :
    home idx = pe ∧ n.record home idx = some next := by
  obtain ⟨p, hp, rfl⟩ := Branch.record_ne_none_iff.mp (h ▸ Option.some_ne_none next :
    (n.branches pe).record idx ≠ none)
  obtain rfl := hk p hp
  exact ⟨rfl, h⟩

theorem Settled.dealiased (hv : Settled numPes home v n)
    (hk : ∀ p ∈ (n.branches pe).fwdReqs, home p.1 = pe)
    (h : Transition.Leads (n.branches pe).record pre post) :
    v.dest post = v.dest pre ∧ v.hops home pe post ≤ v.hops home pe pre := by
  constructor
  · have hpart := h.of_part (fun x y hx => (record_of_kept hk hx).2) (hv.ends pre)
    exact (hv.ends post).unique hpart
  · induction h with
    | stop => exact le_rfl
    | @next a b c ha _ ih =>
      refine ih.trans ?_
      have hd := hv.falls a b (record_of_kept hk ha).2
      have hd := Nat.mul_le_mul_right (v.maxLag + 3) (Nat.succ_le_of_lt hd)
      have hr := hv.rest_lt pe b
      unfold Survey.hops
      rw [Nat.succ_mul] at hd
      omega

/-- A message leaves a PE for one from which it has fewer hops before it. -/
theorem Settled.nearer (hv : Settled numPes home v n) (hpe : pe < numPes)
    (hhere : (n.branches pe).location post ≠ .here) {q : ℕ} (hq : q ≠ pe)
    (h : q = home post ∨ (n.branches pe).location post = .cached (some q)) :
    v.hops home q post < v.hops home pe post := by
  have hhost : v.host post ≠ some pe := fun hh => hhere ((hv.here pe hpe post).mpr hh)
  apply Nat.add_lt_add_left
  rcases eq_or_ne pe (home post) with hhome | hhome
  · -- the home PE sends it to the element
    have hcached := h.resolve_left fun he => hq (he.trans hhome.symm)
    have hq' : v.host post = some q := by
      cases hr : v.host post with
      | none =>
        have he := hv.absent post q hr (hhome ▸ hcached)
        exact absurd (he.trans hhome.symm) hq
      | some r =>
        have ht := hv.tracked post r hr fun he => hhost (by rw [hr, he, hhome])
        rw [← hhome, hcached] at ht
        simpa using ht.symm
    have hqh : q ≠ home post := hhome ▸ hq
    simp [Survey.rest, hq', hhome, hqh]
  · -- another PE sends it home, or along newer entries
    have hrest : v.rest home pe post = v.lag pe post + 2 := by simp [Survey.rest, hhost, hhome]
    rw [hrest]
    have hnewer : q = home post ∨ v.host post = some q ∨ v.lag q post < v.lag pe post :=
      h.elim .inl fun hc => (hv.newer pe hpe post q hhome hc).2
    unfold Survey.rest
    split
    · omega
    · split
      · omega
      · rcases hnewer with he | he | he
        · contradiction
        · contradiction
        · omega

/-- A delivery hands a message to its element, buffers it when there is none, or sends it
to a PE from which it has fewer hops before it. -/
theorem Settled.deliver (hv : Settled numPes home v n) (hpe : pe < numPes)
    (hk : ∀ p ∈ (n.branches pe).fwdReqs, home p.1 = pe) (pre : Idx) (msg : Msg)
    (immediate : Bool) :
    ∃ post, v.dest post = v.dest pre ∧ v.hops home pe post ≤ v.hops home pe pre ∧
      (v.host post = some pe ∧ v.dest post = post ∧
          (n.branches pe).deliver pe home pre msg immediate =
            some ((n.branches pe).process post msg immediate) ∨
        home post = pe ∧ v.host post = none ∧ v.dest post = post ∧
          (n.branches pe).deliver pe home pre msg immediate =
            some { (n.branches pe).refresh home post with
              queued := (n.branches pe).queued ++ [(post, msg)]
              qdCreated := (n.branches pe).qdCreated + 1 } ∨
        ∃ q, v.hops home q post < v.hops home pe post ∧
          (n.branches pe).deliver pe home pre msg immediate =
            some { (n.branches pe).refresh home post with
              sent := (n.branches pe).sent ++ [(q, post, msg)] }) := by
  have hc : ∀ i, (n.branches pe).location i = .cached (some pe) → home i = pe := by
    intro i hi
    by_contra hne
    exact (hv.newer pe hpe i pe (Ne.symm hne) hi).1 rfl
  have hleads : ∃ post, Transition.Leads (n.branches pe).record pre post := by
    have hg := hv.ends pre
    generalize v.dest pre = d at hg
    induction hg with
    | @stop a ha =>
      refine ⟨a, .stop ?_⟩
      by_contra hne
      obtain ⟨next, hnext⟩ := Option.ne_none_iff_exists'.mp hne
      simp [(record_of_kept hk hnext).2] at ha
    | @next a b _ ha _ ih =>
      obtain ⟨post, hp⟩ := ih
      cases hr : (n.branches pe).record a with
      | none => exact ⟨a, .stop hr⟩
      | some b' =>
        obtain rfl : b' = b := by
          have := (record_of_kept hk hr).2
          simpa [ha, eq_comm] using this
        exact ⟨post, .next hr hp⟩
  obtain ⟨_, hp⟩ := hleads
  obtain ⟨t, ht, -⟩ := Branch.exists_deliver msg immediate hc hp
  obtain ⟨post, hp, hcases⟩ := Branch.deliver_eq_some ht
  obtain ⟨hdest, hhops⟩ := hv.dealiased hk hp
  refine ⟨post, hdest, hhops, ?_⟩
  rcases hcases with ⟨hl, rfl⟩ | ⟨hh, htr, rfl⟩ | ⟨q, hq, hl, hqc, rfl⟩
  · have hhost := (hv.here pe hpe post).mp hl
    have hd := hv.dest_eq (hv.unrecorded post (by simp [hhost]))
    exact .inl ⟨hhost, hd, ht⟩
  · have hhost : v.host post = none := by
      by_contra hne
      obtain ⟨q, hq⟩ := Option.ne_none_iff_exists'.mp hne
      apply htr
      rcases eq_or_ne q pe with rfl | hqpe
      · exact .inl ((hv.here q hpe post).mpr hq)
      · refine .inr ⟨q, hqpe, ?_⟩
        rw [← hh]
        exact hv.tracked post q hq (hh ▸ hqpe)
    have hd : v.dest post = post := by
      apply hv.dest_eq
      subst hh
      exact hp.end_eq_none
    exact .inr (.inl ⟨hh, hhost, hd, ht⟩)
  · exact .inr (.inr ⟨q, hv.nearer hpe hl hq hqc, ht⟩)

theorem Settled.congr (hv : Settled numPes home v n)
    (hr : ∀ pe, (m.branches pe).fwdReqs = (n.branches pe).fwdReqs)
    (hl : ∀ pe i, (m.branches pe).location i = (n.branches pe).location i ∨
      (n.branches pe).location i = .cached none ∧
        (m.branches pe).location i = .cached (some (home i))) :
    Settled numPes home v m := by
  have hrec : m.record home = n.record home := by
    funext i
    simp only [record, Branch.record, hr]
  refine ⟨⟨fun pe hpe i => ?_, fun i pe hh hne => ?_, fun i pe hh hc => ?_,
    fun pe hpe i q hne hc => ?_, hv.lag_le⟩, ?_, ?_, ?_, hv.depth_le⟩
  · rcases hl pe i with he | ⟨hn, he⟩
    · rw [he]; exact hv.here pe hpe i
    · rw [← hv.here pe hpe i, he, hn]; simp
  · have ht := hv.tracked i pe hh hne
    rcases hl (home i) i with he | ⟨hn, -⟩
    · rw [he]; exact ht
    · simp [hn] at ht
  · rcases hl (home i) i with he | ⟨-, he⟩
    · exact hv.absent i pe hh (he ▸ hc)
    · simpa [he, eq_comm] using hc
  · rcases hl pe i with he | ⟨-, he⟩
    · exact hv.newer pe hpe i q hne (he ▸ hc)
    · obtain rfl : home i = q := by simpa [he] using hc
      exact ⟨Ne.symm hne, .inl rfl⟩
  · rw [hrec]; exact hv.unrecorded
  · rw [hrec]; exact hv.ends
  · rw [hrec]; exact hv.falls

section Ledger

open Finset

/-- The messages that are still to be received or buffered. -/
def pending (numPes : ℕ) (n : Network Idx Msg) : Multiset (Idx × Msg) :=
  ∑ pe ∈ range numPes, ((n.branches pe).pushed : Multiset (Idx × Msg)) +
    (n.inFlight.map Prod.snd : Multiset (Idx × Msg))

/-- The hops that these messages have before them, and one more for each of them. -/
def potential (numPes : ℕ) (home : Idx → ℕ) (v : Survey Idx) (n : Network Idx Msg) : ℕ :=
  ∑ pe ∈ range numPes, ((n.branches pe).pushed.map fun x => v.hops home pe x.1 + 1).sum +
    (n.inFlight.map fun x => v.hops home x.1 x.2.1 + 1).sum

/-- What became of the messages that were pending or given meanwhile. -/
structure Delivered (numPes : ℕ) (home : Idx → ℕ) (v : Survey Idx) (n : Network Idx Msg)
    (given : List (Idx × Msg)) (m : Network Idx Msg) (received queued : ℕ → List (Idx × Msg)) :
    Prop where
  received_eq : ∀ pe, (m.branches pe).received = (n.branches pe).received ++ received pe
  hosted : ∀ pe, ∀ x ∈ received pe, v.host x.1 = some pe
  queued_eq : ∀ pe, (m.branches pe).queued = (n.branches pe).queued ++ queued pe
  homeless : ∀ pe, ∀ x ∈ queued pe, home x.1 = pe ∧ v.host x.1 = none
  total : ∑ pe ∈ range numPes, ((received pe : Multiset (Idx × Msg)) + queued pe) +
    (m.pending numPes).map v.redirected =
      (n.pending numPes + (given : Multiset (Idx × Msg))).map v.redirected

omit [DecidableEq Idx] in
theorem Delivered.trans {k : Network Idx Msg} {given given' : List (Idx × Msg)}
    {received queued received' queued' : ℕ → List (Idx × Msg)}
    (h : Delivered numPes home v n given m received queued)
    (h' : Delivered numPes home v m given' k received' queued') :
    Delivered numPes home v n (given ++ given') k (fun pe => received pe ++ received' pe)
      (fun pe => queued pe ++ queued' pe) where
  received_eq pe := by rw [h'.received_eq, h.received_eq, List.append_assoc]
  hosted pe x hx := (List.mem_append.mp hx).elim (h.hosted pe x) (h'.hosted pe x)
  queued_eq pe := by rw [h'.queued_eq, h.queued_eq, List.append_assoc]
  homeless pe x hx := (List.mem_append.mp hx).elim (h.homeless pe x) (h'.homeless pe x)
  total := by
    have ht := h.total
    have ht' := h'.total
    rw [Multiset.map_add] at ht ht'
    simp only [← Multiset.coe_add, Multiset.map_add, sum_add_distrib] at ht ht' ⊢
    have hsum := congrArg₂ (· + ·) ht ht'
    apply add_right_cancel (b := (m.pending numPes).map v.redirected)
    convert hsum using 1 <;> abel

variable {b : Branch Idx Msg} {p : List (Idx × Msg)} {s : List (ℕ × Idx × Msg)}

omit [DecidableEq Idx] in
theorem pending_setBranch (hpe : pe < numPes) (hp : b.pushed = (n.branches pe).pushed ++ p)
    (hs : b.sent = (n.branches pe).sent ++ s) :
    (n.setBranch pe b).pending numPes = n.pending numPes +
      ((p : Multiset (Idx × Msg)) + (s.map Prod.snd : Multiset (Idx × Msg))) := by
  have hsum := sum_update (fun _ b => (b.pushed : Multiset (Idx × Msg))) n.branches hpe b
  rw [hp, ← Multiset.coe_add, add_left_comm, add_comm] at hsum
  have hsum := add_left_cancel hsum
  simp only [pending, setBranch, hs, List.drop_left, List.map_append, ← Multiset.coe_add, hsum]
  abel

omit [DecidableEq Idx] in
theorem potential_setBranch (hpe : pe < numPes) (hp : b.pushed = (n.branches pe).pushed ++ p)
    (hs : b.sent = (n.branches pe).sent ++ s) :
    (n.setBranch pe b).potential numPes home v = n.potential numPes home v +
      ((p.map fun x => v.hops home pe x.1 + 1).sum +
        (s.map fun x => v.hops home x.1 x.2.1 + 1).sum) := by
  have hsum := sum_update (fun q b => (b.pushed.map fun x => v.hops home q x.1 + 1).sum)
    n.branches hpe b
  rw [hp, List.map_append, List.sum_append] at hsum
  simp only [potential, setBranch, hs, List.drop_left, List.map_append, List.sum_append]
  omega

omit [DecidableEq Idx] in
theorem Delivered.of_branch (hpe : pe < numPes) {r k : List (Idx × Msg)}
    (hr : b.received = (n.branches pe).received ++ r)
    (hk : b.queued = (n.branches pe).queued ++ k)
    (hp : b.pushed = (n.branches pe).pushed ++ p) (hs : b.sent = (n.branches pe).sent ++ s)
    (hhosted : ∀ x ∈ r, v.host x.1 = some pe)
    (hhomeless : ∀ x ∈ k, home x.1 = pe ∧ v.host x.1 = none)
    (ht : (r : Multiset (Idx × Msg)) + k +
      ((p : Multiset (Idx × Msg)) + (s.map Prod.snd : Multiset (Idx × Msg))).map v.redirected =
        {v.redirected (idx, msg)}) :
    Delivered numPes home v n [(idx, msg)] (n.setBranch pe b) (fun q => if q = pe then r else [])
      (fun q => if q = pe then k else []) where
  received_eq q := by
    rcases eq_or_ne q pe with rfl | hne
    · simp [setBranch, hr]
    · simp [setBranch, hne]
  hosted q x hx := by
    rcases eq_or_ne q pe with rfl | hne
    · exact hhosted x (by simpa using hx)
    · simp [hne] at hx
  queued_eq q := by
    rcases eq_or_ne q pe with rfl | hne
    · simp [setBranch, hk]
    · simp [setBranch, hne]
  homeless q x hx := by
    rcases eq_or_ne q pe with rfl | hne
    · exact hhomeless x (by simpa using hx)
    · simp [hne] at hx
  total := by
    have hsum : ∑ q ∈ range numPes, (((if q = pe then r else [] : List _) : Multiset (Idx × Msg)) +
        ((if q = pe then k else [] : List _) : Multiset (Idx × Msg))) = r + k := by
      rw [sum_eq_single_of_mem pe (mem_range.mpr hpe)]
      · simp
      · intro q _ hq
        simp [hq]
    rw [hsum, pending_setBranch hpe hp hs, Multiset.coe_singleton, Multiset.map_add,
      Multiset.map_add v.redirected (n.pending numPes) {(idx, msg)}, Multiset.map_singleton, ← ht]
    exact add_left_comm _ _ _

theorem Settled.carry (hv : Settled numPes home v n) (hpe : pe < numPes)
    (hk : ∀ p ∈ (n.branches pe).fwdReqs, home p.1 = pe) (idx : Idx) (msg : Msg)
    (immediate : Bool) :
    ∃ b, (n.branches pe).deliver pe home idx msg immediate = some b ∧
      Settled numPes home v (n.setBranch pe b) ∧
      (∃ received queued, Delivered numPes home v n [(idx, msg)] (n.setBranch pe b) received
        queued) ∧
      (n.setBranch pe b).potential numPes home v + (if immediate then 1 else 0) ≤
        n.potential numPes home v + (v.hops home pe idx + 1) := by
  have hcongr {b : Branch Idx Msg} (hr : b.fwdReqs = (n.branches pe).fwdReqs)
      (hl : ∀ i, b.location i = (n.branches pe).location i ∨
        (n.branches pe).location i = .cached none ∧ b.location i = .cached (some (home i))) :
      Settled numPes home v (n.setBranch pe b) := by
    apply hv.congr
    · intro q
      rcases eq_or_ne q pe with rfl | hne
      · simpa [setBranch] using hr
      · simp [setBranch, hne]
    · intro q i
      rcases eq_or_ne q pe with rfl | hne
      · simpa [setBranch] using hl i
      · simp [setBranch, hne]
  obtain ⟨post, hd, hh, ⟨hhost, hdp, he⟩ | ⟨hhome, hhost, hdp, he⟩ | ⟨q, hq, he⟩⟩ :=
    hv.deliver hpe hk idx msg immediate
  · have hred : v.redirected (idx, msg) = (post, msg) := by simp [Survey.redirected, ← hd, hdp]
    cases immediate with
    | true =>
      refine ⟨_, he, hcongr rfl fun _ => .inl rfl, ⟨_, _, Delivered.of_branch hpe
        (r := [(post, msg)]) (k := []) (p := []) (s := []) rfl (by simp [Branch.process])
        (by simp [Branch.process]) (by simp [Branch.process]) (by simp [hhost]) (by simp)
        (by simp [hred])⟩, ?_⟩
      rw [potential_setBranch hpe (p := []) (s := []) (by simp [Branch.process])
        (by simp [Branch.process])]
      simp
    | false =>
      refine ⟨_, he, hcongr rfl fun _ => .inl rfl, ⟨_, _, Delivered.of_branch hpe
        (r := []) (k := []) (p := [(post, msg)]) (s := []) (by simp [Branch.process])
        (by simp [Branch.process]) rfl (by simp [Branch.process]) (by simp) (by simp)
        (by simp [Survey.redirected, hd])⟩, ?_⟩
      rw [potential_setBranch hpe (p := [(post, msg)]) (s := []) rfl (by simp [Branch.process])]
      simpa using hh
  · have hred : v.redirected (idx, msg) = (post, msg) := by simp [Survey.redirected, ← hd, hdp]
    refine ⟨_, he, hcongr rfl Branch.refresh_location, ⟨_, _, Delivered.of_branch hpe
      (r := []) (k := [(post, msg)]) (p := []) (s := []) (by simp [Branch.refresh]) rfl
      (by simp [Branch.refresh]) (by simp [Branch.refresh]) (by simp) (by simp [hhome, hhost])
      (by simp [hred])⟩, ?_⟩
    rw [potential_setBranch hpe (p := []) (s := []) (by simp [Branch.refresh])
      (by simp [Branch.refresh])]
    split <;> simp
  · refine ⟨_, he, hcongr rfl Branch.refresh_location, ⟨_, _, Delivered.of_branch hpe
      (r := []) (k := []) (p := []) (s := [(q, post, msg)]) (by simp [Branch.refresh])
      (by simp [Branch.refresh]) (by simp [Branch.refresh]) rfl (by simp) (by simp)
      (by simp [Survey.redirected, hd])⟩, ?_⟩
    rw [potential_setBranch hpe (p := []) (s := [(q, post, msg)]) (by simp [Branch.refresh]) rfl]
    have : (if immediate then 1 else 0) ≤ 1 := by split <;> omega
    simp only [List.map_nil, List.map_cons, List.sum_nil, List.sum_cons]
    omega

def replace (n : Network Idx Msg) (pe : ℕ) (b : Branch Idx Msg)
    (inFlight : List (ℕ × Idx × Msg)) (given : List Msg) : Network Idx Msg :=
  { branches := Function.update n.branches pe b, inFlight, given }

variable {inFlight f : List (ℕ × Idx × Msg)} {given : List Msg}

omit [DecidableEq Idx] in
theorem pending_replace (hpe : pe < numPes) (hp : (n.branches pe).pushed.Perm (p ++ b.pushed))
    (hf : n.inFlight.Perm (f ++ inFlight)) :
    n.pending numPes = (n.replace pe b inFlight given).pending numPes +
      ((p : Multiset (Idx × Msg)) + (f.map Prod.snd : Multiset (Idx × Msg))) := by
  have hsum := sum_update (fun _ b => (b.pushed : Multiset (Idx × Msg))) n.branches hpe b
  have hp := Multiset.coe_eq_coe.mpr hp
  have hf := Multiset.coe_eq_coe.mpr (hf.map Prod.snd)
  rw [hp, ← Multiset.coe_add, ← add_assoc] at hsum
  simp only [pending, replace, hf, List.map_append, ← Multiset.coe_add, ← add_right_cancel hsum]
  abel

omit [DecidableEq Idx] in
theorem potential_replace (hpe : pe < numPes)
    (hp : (n.branches pe).pushed.Perm (p ++ b.pushed)) (hf : n.inFlight.Perm (f ++ inFlight)) :
    n.potential numPes home v = (n.replace pe b inFlight given).potential numPes home v +
      ((p.map fun x => v.hops home pe x.1 + 1).sum +
        (f.map fun x => v.hops home x.1 x.2.1 + 1).sum) := by
  have hsum := sum_update (fun q b => (b.pushed.map fun x => v.hops home q x.1 + 1).sum)
    n.branches hpe b
  have hp := (hp.map fun x => v.hops home pe x.1 + 1).sum_eq
  have hf := (hf.map fun x => v.hops home x.1 x.2.1 + 1).sum_eq
  rw [List.map_append, List.sum_append] at hp hf
  simp only [potential, replace]
  omega

omit [DecidableEq Idx] in
theorem replace_eq {α : Type*} (g : Branch Idx Msg → α) (hg : g b = g (n.branches pe)) (q : ℕ) :
    g ((n.replace pe b inFlight given).branches q) = g (n.branches q) := by
  rcases eq_or_ne q pe with rfl | hne
  · simp [replace, hg]
  · simp [replace, hne]

theorem Settled.take (hv : Settled numPes home v n) (hpe : pe < numPes)
    (hk : ∀ p ∈ (n.branches pe).fwdReqs, home p.1 = pe) (pushed : List (Idx × Msg))
    (log : List Msg) (inFlight : List (ℕ × Idx × Msg)) (given : List Msg)
    (new : List (Idx × Msg)) (hp : (n.branches pe).pushed.Perm (p ++ pushed))
    (hf : n.inFlight.Perm (f ++ inFlight)) (hnew : p ++ f.map Prod.snd ++ new = [(idx, msg)])
    (immediate : Bool) :
    ∃ b, ((n.branches pe).put pushed log).deliver pe home idx msg immediate = some b ∧
      Settled numPes home v (({ n with inFlight, given } : Network Idx Msg).setBranch pe b) ∧
      (∃ received queued, Delivered numPes home v n new
        (({ n with inFlight, given } : Network Idx Msg).setBranch pe b) received queued) ∧
      (({ n with inFlight, given } : Network Idx Msg).setBranch pe b).potential numPes home v +
          (if immediate then 1 else 0) +
          ((p.map fun x => v.hops home pe x.1 + 1).sum +
            (f.map fun x => v.hops home x.1 x.2.1 + 1).sum) ≤
        n.potential numPes home v + (v.hops home pe idx + 1) := by
  set n₁ := n.replace pe ((n.branches pe).put pushed log) inFlight given with hn₁
  have hbranch : n₁.branches pe = (n.branches pe).put pushed log := by simp [hn₁, replace]
  have hv₁ : Settled numPes home v n₁ := by
    apply hv.congr
    · intro q
      rw [hn₁, replace_eq Branch.fwdReqs]
      rfl
    · intro q i
      left
      rw [hn₁, replace_eq Branch.location]
      rfl
  have hk₁ : ∀ p ∈ (n₁.branches pe).fwdReqs, home p.1 = pe := by
    rw [hbranch]
    exact hk
  obtain ⟨b, hb, hvb, ⟨received, queued, hd⟩, hpot⟩ := hv₁.carry hpe hk₁ idx msg immediate
  have hset : n₁.setBranch pe b =
      ({ n with inFlight, given } : Network Idx Msg).setBranch pe b := by
    simp only [setBranch, hbranch]
    simp [hn₁, replace, Branch.put]
  rw [hset] at hvb hd hpot
  rw [hbranch] at hb
  refine ⟨b, hb, hvb, ⟨received, queued, ?_⟩, ?_⟩
  · constructor
    · intro q
      rw [hd.received_eq, hn₁, replace_eq Branch.received]
      rfl
    · exact hd.hosted
    · intro q
      rw [hd.queued_eq, hn₁, replace_eq Branch.queued]
      rfl
    · exact hd.homeless
    · rw [hd.total, pending_replace (b := (n.branches pe).put pushed log) hpe hp hf, ← hn₁,
        ← hnew, add_assoc]
      simp only [← Multiset.coe_add]
  · rw [potential_replace (b := (n.branches pe).put pushed log) hpe hp hf, ← hn₁]
    omega

end Ledger

def Event.Carries : Event Idx Msg → Prop
  | .on _ (.deliver _ _ _) => True
  | .on _ (.handle _ _) => True
  | .on _ _ => False
  | .arrive _ _ _ => True

def Event.fresh : Event Idx Msg → List (Idx × Msg)
  | .on _ (.deliver idx msg _) => [(idx, msg)]
  | _ => []

def Event.hops : Event Idx Msg → ℕ
  | .on _ (.handle _ _) => 1
  | .arrive _ _ _ => 1
  | _ => 0

section Run

variable [DecidableEq Msg] {e : Event Idx Msg} {es : List (Event Idx Msg)}

theorem Settled.step (hw : Wired numPes home n) (hv : Settled numPes home v n) (hc : e.Carries)
    (hp : Permitted numPes home n e) :
    ∃ m, Step numPes home n e m ∧ Settled numPes home v m ∧
      (∃ received queued, Delivered numPes home v n e.fresh m received queued) ∧
      m.potential numPes home v + e.hops ≤
        n.potential numPes home v + e.fresh.length * ((v.maxDepth + 1) * (v.maxLag + 3)) := by
  cases e with
  | on pe e =>
    obtain ⟨hpe, hperm, hnames⟩ := hp
    cases e with
    | deliver idx msg immediate =>
      obtain ⟨b, hb, hvb, hd, hpot⟩ := hv.take (p := []) (f := []) hpe (hw.kept pe hpe)
        (n.branches pe).pushed ((n.branches pe).given ++ [msg]) n.inFlight (n.given ++ [msg])
        [(idx, msg)] (.refl _) (.refl _) rfl immediate
      refine ⟨_, ⟨⟨hpe, hperm, hnames⟩, ?_⟩, hvb, hd, ?_⟩
      · simp only [Network.step, Interceptor.step]
        exact congrArg (fun o => (orEndless o).map _) hb
      · have hlt := hv.hops_lt pe idx
        simp only [Event.fresh, Event.hops, List.length_singleton, one_mul]
        omega
    | handle idx msg =>
      obtain ⟨b, hb, hvb, hd, hpot⟩ := hv.take (p := [(idx, msg)]) (f := []) hpe
        (hw.kept pe hpe) ((n.branches pe).pushed.erase (idx, msg)) (n.branches pe).given
        n.inFlight (n.given ++ []) [] (List.perm_cons_erase hperm) (.refl _) rfl true
      refine ⟨_, ⟨⟨hpe, hperm, hnames⟩, ?_⟩, hvb, hd, ?_⟩
      · simp only [Network.step, Interceptor.step]
        exact congrArg (fun o => (orEndless o).map _) hb
      · simp only [Event.fresh, Event.hops, List.length_nil, zero_mul]
        simp only [if_true, List.map_cons, List.map_nil, List.sum_cons, List.sum_nil] at hpot
        omega
    | forward | stopForwarding | create | destroy | locate => cases hc
  | arrive pe idx msg =>
    have hpe : pe < numPes := hw.addressed _ hp
    obtain ⟨b, hb, hvb, hd, hpot⟩ := hv.take (p := []) (f := [(pe, idx, msg)]) hpe
      (hw.kept pe hpe) (n.branches pe).pushed ((n.branches pe).given ++ [msg])
      (n.inFlight.erase (pe, idx, msg)) n.given [] (.refl _) (List.perm_cons_erase hp) rfl true
    refine ⟨_, ⟨hp, ?_⟩, hvb, hd, ?_⟩
    · simp only [Network.step, Interceptor.step]
      exact congrArg (fun o => (orEndless o).map _) hb
    · simp only [Event.fresh, Event.hops, List.length_nil, zero_mul]
      simp only [if_true, List.map_cons, List.map_nil, List.sum_cons, List.sum_nil] at hpot
      omega

omit [DecidableEq Idx] [DecidableEq Msg] in
theorem exists_permitted (h : n.pending numPes ≠ 0) :
    ∃ e : Event Idx Msg, e.hops = 1 ∧ e.Carries ∧ Permitted numPes home n e := by
  cases hf : n.inFlight with
  | cons x inFlight =>
    refine ⟨.arrive x.1 x.2.1 x.2.2, rfl, trivial, ?_⟩
    simp [Permitted, hf]
  | nil =>
    have hsum :
        ∑ pe ∈ Finset.range numPes, ((n.branches pe).pushed : Multiset (Idx × Msg)) ≠ 0 := by
      intro h0
      simp [pending, hf, h0] at h
    obtain ⟨pe, hpe, hne⟩ := Finset.exists_ne_zero_of_sum_ne_zero hsum
    obtain ⟨x, hx⟩ := List.exists_mem_of_ne_nil _ (by simpa using hne)
    exact ⟨.on pe (.handle x.1 x.2), rfl, trivial, Finset.mem_range.mp hpe, hx, trivial⟩

structure Routed (numPes : ℕ) (home : Idx → ℕ) (v : Survey Idx) (n : Network Idx Msg)
    (es : List (Event Idx Msg)) (m : Network Idx Msg) : Prop where
  delivered : ∃ received queued,
    Delivered numPes home v n (es.flatMap Event.fresh) m received queued
  hops_le : (es.map Event.hops).sum + m.potential numPes home v ≤ n.potential numPes home v +
    (es.flatMap Event.fresh).length * ((v.maxDepth + 1) * (v.maxLag + 3))
  returns : ∀ e, e.Carries → Permitted numPes home m e → ∃ k, Step numPes home m e k
  goes_on : m.pending numPes ≠ 0 → ∃ e k, e.hops = 1 ∧ Step numPes home m e k

theorem Settled.routed (hh : ∀ i, home i < numPes) (hw : Wired numPes home n)
    (hv : Settled numPes home v n)
    (h : Transition.Run (Transition.restrict (Step numPes home) fun _ e => e.Carries) n es m) :
    Routed numPes home v n es m := by
  have hrun : Wired numPes home m ∧ Settled numPes home v m ∧
      (∃ received queued,
        Delivered numPes home v n (es.flatMap Event.fresh) m received queued) ∧
      (es.map Event.hops).sum + m.potential numPes home v ≤ n.potential numPes home v +
        (es.flatMap Event.fresh).length * ((v.maxDepth + 1) * (v.maxLag + 3)) := by
    induction h with
    | nil =>
      refine ⟨hw, hv, ⟨fun _ => [], fun _ => [], ?_⟩, by simp⟩
      constructor <;> simp
    | @snoc k k' es e hr hs ih =>
      obtain ⟨hwk, hvk, ⟨received, queued, hd⟩, hpot⟩ := ih
      obtain ⟨k'', hs', hvk', ⟨received', queued', hd'⟩, hpot'⟩ := hvk.step hwk hs.1 hs.2.1
      obtain rfl : k'' = k' := Except.ok.inj (hs'.2.symm.trans hs.2.2)
      have htrans := hd.trans hd'
      rw [show es.flatMap Event.fresh ++ e.fresh = (es ++ [e]).flatMap Event.fresh by simp]
        at htrans
      refine ⟨hwk.step hh hs', hvk', ⟨_, _, htrans⟩, ?_⟩
      simp only [List.map_append, List.sum_append, List.flatMap_append, List.length_append,
        List.flatMap_singleton, List.map_singleton, List.sum_singleton,
        Nat.add_mul _ _ ((v.maxDepth + 1) * (v.maxLag + 3))]
      omega
  obtain ⟨hwm, hvm, hd, hpot⟩ := hrun
  refine ⟨hd, hpot, fun e hc hp => ?_, fun hne => ?_⟩
  · obtain ⟨k, hs, -⟩ := hvm.step hwm hc hp
    exact ⟨k, hs⟩
  · obtain ⟨e, hhops, hc, hp⟩ := exists_permitted hne
    obtain ⟨k, hs, -⟩ := hvm.step hwm hc hp
    exact ⟨e, k, hhops, hs⟩

/-- Whatever the order of the deliveries in a settled network, each message that was
pending or is given meanwhile is received by the element at the end of its records, or
buffered at the home PE of that index when there is no element. No delivery fails, the
hops are bounded, and there is always one to make while a message is pending. -/
theorem routed_of_settled {es₀ : List (Event Idx Msg)} (hh : ∀ i, home i < numPes)
    (h₀ : Transition.Run (Step numPes home) {} es₀ n) (hv : Settled numPes home v n)
    (h : Transition.Run (Transition.restrict (Step numPes home) fun _ e => e.Carries) n es m) :
    Routed numPes home v n es m := by
  have hi : Inv numPes home n := h₀.invariant (fun _ _ _ hi hs => hi.step hh hs) inv_init
  exact hv.routed hh hi.toWired h

/-- One element on PE 1, and an index whose messages are redirected to it. -/
def forwarded : Survey ℕ where
  host idx := if idx = 7 then some 1 else none
  dest idx := if idx = 5 then 7 else idx
  depth idx := if idx = 5 then 1 else 0
  lag _ _ := 0
  maxDepth := 1
  maxLag := 0

def redirecting : Network ℕ ℕ where
  branches := Function.update (Function.update (fun _ => {}) 1
    { location := Function.update (fun _ => .unknown) 7 .here
      created := Function.update (fun _ => false) 7 true }) 0
    { fwdReqs := [(5, 7)]
      location := Function.update (fun _ => .unknown) 7 (.cached (some 1))
      created := Function.update (fun _ => false) 7 true }

theorem run_redirecting : Transition.Run (Step 2 fun _ => 0) ({} : Network ℕ ℕ)
    [.on 1 (.create 7 .here), .on 0 (.forward 5 7), .on 0 (.create 7 (.cached (some 1)))]
    redirecting := by
  refine .snoc (.snoc (.snoc .nil ⟨⟨by decide, .inl rfl, by simp [Event.Names]⟩, rfl⟩)
    ⟨⟨by decide, trivial, trivial⟩, rfl⟩)
    ⟨⟨by decide, .inr ⟨rfl, .inr ⟨1, by decide, rfl⟩⟩, by simp [Event.Names]⟩, ?_⟩
  apply congrArg Except.ok
  simp [setBranch, redirecting, Branch.stopForwarding, Interceptor.Event.given]

theorem settled_redirecting : Settled 2 (fun _ => 0) forwarded redirecting := by
  have hrec : ∀ idx, redirecting.record (fun _ => 0) idx = if idx = 5 then some 7 else none := by
    intro idx
    simp only [record, redirecting, Branch.record, Function.update_self, List.lookup_cons,
      List.lookup_nil]
    split <;> simp_all
  have hloc : ∀ pe < 2, ∀ idx, (redirecting.branches pe).location idx =
      if idx = 7 then (if pe = 0 then .cached (some 1) else .here) else .unknown := by
    intro pe hpe idx
    obtain rfl | rfl : pe = 0 ∨ pe = 1 := by omega
    all_goals rcases eq_or_ne idx 7 with rfl | hne <;> simp_all [redirecting]
  refine ⟨⟨?_, ?_, ?_, ?_, ?_⟩, ?_, ?_, ?_, ?_⟩
  · intro pe hpe idx
    rw [hloc pe hpe]
    obtain rfl | rfl : pe = 0 ∨ pe = 1 := by omega
    all_goals
      simp only [forwarded]
      split <;> simp
  · intro idx pe hh hne
    rw [hloc 0 (by decide)]
    simp only [forwarded] at hh
    split at hh <;> simp_all
  · intro idx pe hh hc
    rw [hloc 0 (by decide)] at hc
    simp only [forwarded] at hh
    split at hh <;> simp_all
  · intro pe hpe idx q hne hc
    rw [hloc pe hpe] at hc
    split at hc <;> simp_all
  · intro pe idx
    simp [forwarded]
  · intro idx hh
    rw [hrec]
    simp only [forwarded] at hh
    split at hh <;> simp_all
  · intro idx
    rcases eq_or_ne idx 5 with rfl | hne
    · exact .next (b := 7) (by simp [hrec]) (.stop (by simp [hrec]))
    · simpa [forwarded, hne] using Transition.Leads.stop (by simp [hrec, hne])
  · intro idx next hr
    rw [hrec] at hr
    split at hr <;> simp_all [forwarded]
    omega
  · intro idx
    simp only [forwarded]
    split <;> simp

/-- A message takes the way over the home PE to the element of another index. -/
theorem routed_of_forwarded : ∃ m : Network ℕ ℕ, (m.branches 1).received = [(7, 42)] ∧
    ∃ received queued, Delivered 2 (fun _ => 0) forwarded redirecting [(5, 42)] m received
      queued := by
  have h : Transition.Run (Transition.restrict (Step 2 fun _ => 0) fun _ e => e.Carries)
      redirecting [.on 1 (.deliver 5 42 false), .arrive 0 5 42, .arrive 1 7 42] _ :=
    .snoc (.snoc (.snoc .nil ⟨trivial, ⟨by decide, trivial, trivial⟩, rfl⟩)
      ⟨trivial, List.mem_of_elem_eq_true rfl, rfl⟩) ⟨trivial, List.mem_of_elem_eq_true rfl, rfl⟩
  exact ⟨_, rfl, (routed_of_settled (fun _ => by decide) run_redirecting settled_redirecting h).1⟩

end Run

end Network

end Hypercomm.Interceptor
