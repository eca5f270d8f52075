import Hypercomm.Sections.Broadcast
import Hypercomm.TreeBuilder.Survival

/-! # Broadcasts over the elements of the tree

A broadcaster is executed at an element, and sends copies to the children that the element has
then. Messages for an element that was destroyed go on to its parent, which executes the
broadcaster once more: copies reach the children that it has adopted since, and each element
accepts a broadcast once.
-/

namespace Hypercomm.TreeBuilder.Destruction

variable {ι V κ M : Type*}

/-- The elements with the broadcasters in flight to them, and what their localities received, with
the count of each broadcast. -/
structure Broadcasting (ι V κ M : Type*) where
  system : System ι V κ
  bcastCount : ι → ReductionId := fun _ => 0
  inFlight : Multiset (ι × Broadcaster ι M) := 0
  received : ι → List (ReductionId × M) := fun _ => []

namespace Broadcasting

inductive Label (ι V κ M : Type*) where
  | system (a : Action ι V κ)
  /-- `broadcast_to`, or `vil::broadcast`: a task without stamp is sent to the root -/
  | broadcast (msg : M)
  | execute (mine : ι) (task : Broadcaster ι M)
  | redirect (x : ι) (task : Broadcaster ι M)

def identity (s : Broadcasting ι V κ M) (x : ι) : Identity where
  rednCount := (s.system.elements x).rednCount
  bcastCount := s.bcastCount x

/-- The broadcasts that were begun at the root, and how many were before an element was created. -/
structure History (ι M : Type*) where
  begun : List M := []
  since : ι → ℕ := fun _ => 0

def History.At (h : History ι M) (p : ReductionId × M) : Prop :=
  0 < p.1 ∧ h.begun[p.1 - 1]? = some p.2

variable [DecidableEq ι]

/-- `broadcaster::action`, with the identity of a managed element. -/
def action (task : Broadcaster ι M) (mine : ι) (s : Broadcasting ι V κ M) :
    Broadcasting ι V κ M :=
  let count := task.count (s.identity mine)
  let next : Broadcaster ι M := { task with stamp := some (task.root mine, count) }
  let accepted := (s.identity mine).acceptBroadcast count
  { s with
    bcastCount := Function.update s.bcastCount mine accepted.2.bcastCount
    inFlight := s.inFlight +
      ((s.system.elements mine).downstream.map (·, next) : Multiset (ι × Broadcaster ι M))
    received := if accepted.1
      then Function.update s.received mine (s.received mine ++ [(count, task.msg)])
      else s.received }

/-- Any task in flight is delivered next. The endpoint is the root. -/
inductive Step (s : Broadcasting ι V κ M) : Label ι V κ M → Broadcasting ι V κ M → Prop
  | system {a : Action ι V κ} {t : System ι V κ} (h : System.Step s.system a t) :
      Step s (.system a) { s with system := t }
  | broadcast {r : ι} (msg : M) (hr : s.system.alive r)
      (hup : (s.system.elements r).upstream = none) :
      Step s (.broadcast msg) { s with inFlight := (r, ⟨none, msg⟩) ::ₘ s.inFlight }
  | execute {mine : ι} {task : Broadcaster ι M} {rest : Multiset (ι × Broadcaster ι M)}
      (hm : s.inFlight = (mine, task) ::ₘ rest) (hx : s.system.alive mine) :
      Step s (.execute mine task) (action task mine { s with inFlight := rest })
  | redirect {x next : ι} {task : Broadcaster ι M} {rest : Multiset (ι × Broadcaster ι M)}
      (hm : s.inFlight = (x, task) ::ₘ rest) (hf : s.system.forwards x = some next) :
      Step s (.redirect x task) { s with inFlight := (next, task) ::ₘ rest }

/-- Broadcasts do not touch the tree, but the news of a destruction has to arrive late enough. -/
def Timely (s : Broadcasting ι V κ M) : Label ι V κ M → Prop
  | .system a => Destruction.Timely s.system a
  | _ => True

/-- A task that is executed was not overtaken: its broadcast is later than the last one that the
element accepted, or the element has accepted it. -/
def InOrder (s : Broadcasting ι V κ M) : Label ι V κ M → Prop
  | .execute mine task =>
      s.bcastCount mine < task.count (s.identity mine) ∨
        task.count (s.identity mine) ∈ (s.received mine).map Prod.fst
  | _ => True

def Label.record (h : History ι M) : Label ι V κ M → History ι M
  | .system (.create _ child) =>
      { h with since := Function.update h.since child h.begun.length }
  | .execute _ ⟨none, msg⟩ => { h with begun := h.begun ++ [msg] }
  | _ => h

def history (as : List (Label ι V κ M)) : History ι M := as.foldl Label.record {}

@[simp] theorem history_snoc (as : List (Label ι V κ M)) (a : Label ι V κ M) :
    history (as ++ [a]) = a.record (history as) := by
  simp [history]

omit [DecidableEq ι] in
def changes (as : List (Label ι V κ M)) : List (Action ι V κ) :=
  as.filterMap fun
    | .system a => some a
    | _ => none

/-- Nothing is under way any more: what is in flight is for elements that were destroyed and had
no children. -/
def AtRest (s : Broadcasting ι V κ M) : Prop :=
  ∀ p ∈ s.inFlight, ¬ s.system.alive p.1 ∧ s.system.forwards p.1 = none

variable {T T' : RankedTree ι} {s t : Broadcasting ι V κ M} {a : Label ι V κ M}
variable {as : List (Label ι V κ M)} {acts : List (Action ι V κ)} {h : History ι M}
variable {x mine : ι} {task : Broadcaster ι M} {rest : Multiset (ι × Broadcaster ι M)}

omit [DecidableEq ι] in
theorem History.At.snoc {p : ReductionId × M} {since : ι → ℕ} (hp : h.At p) (msg : M) :
    History.At { h with begun := h.begun ++ [msg], since := since } p := by
  refine ⟨hp.1, ?_⟩
  have hlt := (List.getElem?_eq_some_iff.mp hp.2).1
  exact (List.getElem?_append_left hlt).trans hp.2

/-- What is received has the counts of the broadcasts, in order, and so have the tasks. -/
structure Carried (T : RankedTree ι) (h : History ι M) (s : Broadcasting ι V κ M) : Prop where
  root : s.bcastCount T.root = h.begun.length
  since : ∀ x, h.since x ≤ h.begun.length
  sorted : ∀ x, (s.received x).Pairwise fun p q => p.1 < q.1
  le : ∀ x, ∀ p ∈ s.received x, p.1 ≤ s.bcastCount x
  begun : ∀ x, ∀ p ∈ s.received x, h.At p
  unstamped : ∀ p ∈ s.inFlight, p.2.stamp = none → p.1 = T.root
  stamped : ∀ p ∈ s.inFlight, ∀ q, p.2.stamp = some q → h.At (q.2, p.2.msg)

/-- A broadcast that was begun when an element was there has been accepted by it, or is on its way
to it. -/
def Owed (T : RankedTree ι) (h : History ι M) (s : Broadcasting ι V κ M) : Prop :=
  ∀ x, s.system.alive x → ∀ i, h.since x ≤ i → i < h.begun.length →
    i + 1 ∈ (s.received x).map Prod.fst ∨
      ∃ p ∈ s.inFlight, T.Above p.1 x ∧ ∃ r, p.2.stamp = some (r, i + 1)

omit [DecidableEq ι] in
theorem Carried.start (T : RankedTree ι) (S : System ι V κ) :
    Carried T {} ({ system := S } : Broadcasting ι V κ M) where
  root := rfl
  since _ := le_rfl
  sorted _ := .nil
  le _ _ hp := absurd hp List.not_mem_nil
  begun _ _ hp := absurd hp List.not_mem_nil
  unstamped p hp := absurd hp (Multiset.notMem_zero p)
  stamped p hp := absurd hp (Multiset.notMem_zero p)

omit [DecidableEq ι] in
theorem Owed.start (T : RankedTree ι) (S : System ι V κ) :
    Owed T {} ({ system := S } : Broadcasting ι V κ M) :=
  fun _ _ i _ hi => absurd hi (Nat.not_lt_zero i)

omit [DecidableEq ι] in
theorem Carried.congr (hc : Carried T h s) (hg : T.Grows T') (hb : t.bcastCount = s.bcastCount)
    (hr : t.received = s.received) (hf : t.inFlight = s.inFlight) : Carried T' h t where
  root := by rw [hg.root, hb, hc.root]
  since := hc.since
  sorted x := by rw [hr]; exact hc.sorted x
  le x p hp := by rw [hb]; exact hc.le x p (hr ▸ hp)
  begun x p hp := hc.begun x p (hr ▸ hp)
  unstamped p hp hs := (hc.unstamped p (hf ▸ hp) hs).trans hg.root.symm
  stamped p hp := hc.stamped p (hf ▸ hp)

section Action

variable {p : ι × Broadcaster ι M}

theorem action_received (x : ι) : (action task mine s).received x =
    if x = mine ∧ s.bcastCount mine < task.count (s.identity mine) then
      s.received x ++ [(task.count (s.identity mine), task.msg)] else s.received x := by
  have hb : (s.identity mine).bcastCount = s.bcastCount mine := rfl
  unfold action
  dsimp only
  rw [Identity.acceptBroadcast_fst, hb]
  by_cases hlt : s.bcastCount mine < task.count (s.identity mine)
  · rcases eq_or_ne x mine with rfl | hne <;> simp [*]
  · simp [hlt]

theorem action_bcastCount (x : ι) : (action task mine s).bcastCount x =
    if x = mine then max (s.bcastCount mine) (task.count (s.identity mine))
    else s.bcastCount x := by
  unfold action Identity.acceptBroadcast
  rcases eq_or_ne x mine with rfl | hne
  · have hb : (s.identity x).bcastCount = s.bcastCount x := rfl
    simp only [Function.update_self, if_true, hb]
    split_ifs with hle
    · exact (max_eq_left hle).symm
    · exact (max_eq_right (not_le.mp hle).le).symm
  · simp [hne]

theorem mem_action : p ∈ (action task mine s).inFlight ↔ p ∈ s.inFlight ∨
    p.1 ∈ (s.system.elements mine).downstream ∧
      p.2 = { task with stamp := some (task.root mine, task.count (s.identity mine)) } := by
  unfold action
  obtain ⟨y, sent⟩ := p
  simp [eq_comm]

end Action

theorem Carried.action {h' : History ι M} (hc : Carried T h s)
    (hat : ∀ p, h.At p → h'.At p) (hs : ∀ x, h'.since x ≤ h'.begun.length)
    (htask : h'.At (task.count (s.identity mine), task.msg))
    (hroot : (action task mine s).bcastCount T.root = h'.begun.length) :
    Carried T h' (action task mine s) := by
  constructor
  · exact hroot
  · exact hs
  · intro x
    rw [action_received]
    split_ifs with hx
    · obtain ⟨rfl, hlt⟩ := hx
      rw [List.pairwise_append]
      refine ⟨hc.sorted x, List.pairwise_singleton _ _, fun p hp q hq => ?_⟩
      obtain rfl := List.mem_singleton.mp hq
      exact (hc.le x p hp).trans_lt hlt
    · exact hc.sorted x
  · intro x p hp
    rw [action_received] at hp
    rw [action_bcastCount]
    split_ifs at hp with hx
    · obtain ⟨rfl, hlt⟩ := hx
      rw [if_pos rfl]
      rcases List.mem_append.mp hp with hp | hp
      · exact (hc.le x p hp).trans (le_max_left _ _)
      · obtain rfl := List.mem_singleton.mp hp
        exact le_max_right _ _
    · split_ifs with hxm
      · exact hxm ▸ (hc.le x p hp).trans (le_max_left _ _)
      · exact hc.le x p hp
  · intro x p hp
    rw [action_received] at hp
    split_ifs at hp with hx
    · rcases List.mem_append.mp hp with hp | hp
      · exact hat p (hc.begun x p hp)
      · obtain rfl := List.mem_singleton.mp hp
        exact htask
    · exact hat p (hc.begun x p hp)
  · intro p hp hnone
    rcases mem_action.mp hp with hp | ⟨-, hp⟩
    · exact hc.unstamped p hp hnone
    · rw [hp] at hnone
      cases hnone
  · intro p hp q hq
    rcases mem_action.mp hp with hp | ⟨-, hp⟩
    · exact hat _ (hc.stamped p hp q hq)
    · rw [hp] at hq ⊢
      obtain rfl := Option.some.inj hq
      exact htask

omit [DecidableEq ι] in
theorem Carried.of_subset (hc : Carried T h s) (hb : t.bcastCount = s.bcastCount)
    (hr : t.received = s.received) (hf : ∀ p ∈ t.inFlight, p ∈ s.inFlight) : Carried T h t where
  root := by rw [hb, hc.root]
  since := hc.since
  sorted x := by rw [hr]; exact hc.sorted x
  le x p hp := by rw [hb]; exact hc.le x p (hr ▸ hp)
  begun x p hp := hc.begun x p (hr ▸ hp)
  unstamped p hp := hc.unstamped p (hf p hp)
  stamped p hp := hc.stamped p (hf p hp)

theorem Carried.step (hc : Carried T h s) (hsafe : System.Safe T acts s.system) (hs : Step s a t)
    (hsys : ∀ b, a ≠ .system b) : Carried T (a.record h) t := by
  obtain ⟨A, hA⟩ := hsafe.settled.corresponds
  have hinv := hA.sound.inv
  cases hs with
  | system => exact absurd rfl (hsys _)
  | @broadcast r msg hr hup =>
    have hroot : r = T.root := by
      by_contra hne
      obtain ⟨q, -, hq, -⟩ := T.exists_parent r (hsafe.mem_nodes hr) hne
      cases (hA.upstream r).symm.trans hup ▸ hq
    refine ⟨hc.root, hc.since, hc.sorted, hc.le, hc.begun, ?_, ?_⟩
    · intro p hp hnone
      rcases Multiset.mem_cons.mp hp with rfl | hp
      · exact hroot
      · exact hc.unstamped p hp hnone
    · intro p hp q hq
      rcases Multiset.mem_cons.mp hp with rfl | hp
      · cases hq
      · exact hc.stamped p hp q hq
  | @execute mine task rest hm hx =>
    have hrest : Carried T h ({ s with inFlight := rest } : Broadcasting ι V κ M) :=
      hc.of_subset rfl rfl fun p hp => hm ▸ Multiset.mem_cons_of_mem hp
    have hmem : (mine, task) ∈ s.inFlight := hm ▸ Multiset.mem_cons_self _ _
    obtain ⟨stamp, msg⟩ := task
    cases stamp with
    | none =>
      obtain rfl : mine = T.root := hc.unstamped _ hmem rfl
      change Carried T { h with begun := h.begun ++ [msg] } _
      refine hrest.action (fun p hp => hp.snoc msg) (fun x => ?_) ⟨Nat.succ_pos _, ?_⟩ ?_
      · rw [List.length_append]
        exact (hc.since x).trans (Nat.le_add_right _ _)
      · simp [Broadcaster.count, Identity.nextBroadcast, identity, hc.root]
      · rw [action_bcastCount, if_pos rfl]
        simp [Broadcaster.count, Identity.nextBroadcast, identity, hc.root]
    | some q =>
      have hat := hc.stamped _ hmem q rfl
      refine hrest.action (fun p hp => hp) hc.since hat ?_
      rw [action_bcastCount]
      split_ifs with hr
      · -- the root has accepted all broadcasts that were begun
        have hle := Nat.le_of_pred_lt (List.getElem?_eq_some_iff.mp hat.2).1
        rw [← hr, hc.root]
        exact max_eq_left hle
      · exact hc.root
  | @redirect x next task rest hm hf =>
    have hmem : (x, task) ∈ s.inFlight := hm ▸ Multiset.mem_cons_self _ _
    have hsub : ∀ p ∈ rest, p ∈ s.inFlight := fun p hp => hm ▸ Multiset.mem_cons_of_mem hp
    refine ⟨hc.root, hc.since, hc.sorted, hc.le, hc.begun, ?_, ?_⟩
    · intro p hp hnone
      rcases Multiset.mem_cons.mp hp with rfl | hp
      · -- the root is not destroyed
        have hr := hc.unstamped _ hmem hnone
        dsimp only at hr
        subst hr
        exact absurd ((hA.forwards _ _).mp hf).1 (hinv.not_forwards hinv.root)
      · exact hc.unstamped p (hsub p hp) hnone
    · intro p hp q hq
      rcases Multiset.mem_cons.mp hp with rfl | hp
      · exact hc.stamped _ hmem q hq
      · exact hc.stamped p (hsub p hp) q hq

/-- The elements below accept the broadcast, or a copy is on its way to them. -/
theorem passed_on (hsafe : System.Safe T acts s.system) (hm : s.system.alive mine = true)
    (hx : s.system.alive x = true) (habove : T.Above mine x)
    (hord : s.InOrder (.execute mine task)) :
    task.count (s.identity mine) ∈ ((action task mine s).received x).map Prod.fst ∨
      ∃ p ∈ (action task mine s).inFlight, T.Above p.1 x ∧
        ∃ r, p.2.stamp = some (r, task.count (s.identity mine)) := by
  obtain ⟨A, hA⟩ := hsafe.settled.corresponds
  have hinv := hA.sound.inv
  have hma := (hA.alive mine).mp hm
  by_cases hne : mine = x
  · subst hne
    left
    rw [action_received]
    rcases hord with hlt | hmem
    · simp [hlt]
    · split_ifs
      · simp
      · exact hmem
  · right
    have hxr : x ≠ T.root := by
      rintro rfl
      rcases Relation.ReflTransGen.cases_head habove with he | ⟨q, hq, -⟩
      · exact hne he.symm
      · cases T.parent_root.symm.trans hq
    have howned := hinv.owned x ((hA.alive x).mp hx) hxr
    obtain ⟨w, hw, hwx⟩ := (hinv.forwards_or_child howned habove hne).resolve_left
      (hinv.not_forwards hma)
    refine ⟨(w, { task with stamp := some (task.root mine, task.count (s.identity mine)) }),
      mem_action.mpr (.inr ⟨(hA.downstream mine hma w).mpr hw, rfl⟩), hwx, _, rfl⟩

theorem Owed.step (ho : Owed T h s) (hc : Carried T h s) (hsafe : System.Safe T acts s.system)
    (hs : Step s a t) (hord : s.InOrder a) (hsys : ∀ b, a ≠ .system b) :
    Owed T (a.record h) t := by
  obtain ⟨A, hA⟩ := hsafe.settled.corresponds
  have hinv := hA.sound.inv
  cases hs with
  | system => exact absurd rfl (hsys _)
  | broadcast msg hr hup =>
    intro x hx i hsince hi
    refine (ho x hx i hsince hi).imp_right ?_
    rintro ⟨p, hp, hw⟩
    exact ⟨p, Multiset.mem_cons_of_mem hp, hw⟩
  | @execute mine task rest hm hmine =>
    have hmem : (mine, task) ∈ s.inFlight := hm ▸ Multiset.mem_cons_self _ _
    intro x hx i hsince hi
    have hpassed : T.Above mine x → task.count (s.identity mine) = i + 1 →
        i + 1 ∈ ((action task mine { s with inFlight := rest }).received x).map Prod.fst ∨
          ∃ p ∈ (action task mine { s with inFlight := rest }).inFlight, T.Above p.1 x ∧
            ∃ r, p.2.stamp = some (r, i + 1) := by
      intro habove he
      rw [← he]
      exact passed_on (s := { s with inFlight := rest }) hsafe hmine hx habove hord
    have hold : h.since x ≤ i → i < h.begun.length →
        i + 1 ∈ ((action task mine { s with inFlight := rest }).received x).map Prod.fst ∨
          ∃ p ∈ (action task mine { s with inFlight := rest }).inFlight, T.Above p.1 x ∧
            ∃ r, p.2.stamp = some (r, i + 1) := by
      intro hsince hi
      rcases ho x hx i hsince hi with hrec | ⟨p, hp, hpx, r, hstamp⟩
      · left
        rw [action_received]
        split_ifs
        · rw [List.map_append]
          exact List.mem_append_left _ hrec
        · exact hrec
      · rcases Multiset.mem_cons.mp (hm ▸ hp) with rfl | hp
        · apply hpassed hpx
          dsimp only at hstamp
          unfold Broadcaster.count
          rw [hstamp]
        · exact .inr ⟨p, mem_action.mpr (.inl hp), hpx, r, hstamp⟩
    obtain ⟨stamp, msg⟩ := task
    cases stamp with
    | none =>
      obtain rfl : mine = T.root := hc.unstamped _ hmem rfl
      have hi : i < h.begun.length + 1 := by
        change i < (h.begun ++ [msg]).length at hi
        rwa [List.length_append] at hi
      rcases Nat.lt_succ_iff_lt_or_eq.mp hi with hi | rfl
      · exact hold hsince hi
      · apply hpassed (RankedTree.root_above (hsafe.mem_nodes hx))
        simp [Broadcaster.count, Identity.nextBroadcast, identity, hc.root]
    | some q => exact hold hsince hi
  | @redirect x next task rest hm hf =>
    intro y hy i hsince hi
    refine (ho y hy i hsince hi).imp_right ?_
    rintro ⟨p, hp, hpy, hstamp⟩
    rcases Multiset.mem_cons.mp (hm ▸ hp) with rfl | hp
    · exact ⟨(next, task), Multiset.mem_cons_self _ _,
        (RankedTree.Above.of_parent ((hA.forwards x next).mp hf).2).trans hpy, hstamp⟩
    · exact ⟨p, Multiset.mem_cons_of_mem hp, hpy, hstamp⟩

theorem alive_of_step {S S' : System ι V κ} {b : Action ι V κ} (hs : System.Step S b S')
    (hx : S'.alive x = true) : S.alive x = true ∨ ∃ z, b = .create z x := by
  cases hs with
  | contribute =>
    rw [System.commit_alive] at hx
    exact .inl hx
  | @create z y =>
    rcases eq_or_ne x y with rfl | hne
    · exact .inr ⟨z, rfl⟩
    · exact .inl ((Function.update_of_ne hne ..).symm.trans hx)
  | @destroy z parent =>
    left
    rcases eq_or_ne x z with rfl | hne
    · simp [System.disassociate] at hx
    · exact (Function.update_of_ne hne ..).symm.trans hx
  | deliver =>
    rw [System.commit_alive] at hx
    exact .inl hx
  | redirect => exact .inl hx
  | loopback => exact .inl hx

theorem Carried.system {S : System ι V κ} (hc : Carried T h s) (hg : T.Grows T')
    (b : Action ι V κ) :
    Carried T' ((Label.system b : Label ι V κ M).record h) { s with system := S } := by
  have hkeep : Carried T' h { s with system := S } := hc.congr hg rfl rfl rfl
  cases b with
  | create z y =>
    refine ⟨hkeep.root, fun x => ?_, hkeep.sorted, hkeep.le, hkeep.begun, hkeep.unstamped,
      hkeep.stamped⟩
    change Function.update h.since y h.begun.length x ≤ h.begun.length
    rcases eq_or_ne x y with rfl | hne
    · rw [Function.update_self]
    · rw [Function.update_of_ne hne]
      exact hc.since x
  | _ => exact hkeep

theorem Owed.system {S : System ι V κ} {b : Action ι V κ} (ho : Owed T h s)
    (hsafe : System.Safe T acts s.system) (hg : T.Grows T') (hs : System.Step s.system b S) :
    Owed T' ((Label.system b : Label ι V κ M).record h) { s with system := S } := by
  intro x hx i hsince hi
  have hbegun : ((Label.system b : Label ι V κ M).record h).begun = h.begun := by
    cases b <;> rfl
  rw [hbegun] at hi
  rcases alive_of_step hs hx with ha | ⟨z, rfl⟩
  · have hx' : h.since x ≤ i := by
      cases hs with
      | @create z y _ hc =>
        have hne : x ≠ y := by
          rintro rfl
          rw [hsafe.members] at hc
          exact hc (hsafe.mem_nodes ha)
        change Function.update h.since y h.begun.length x ≤ i at hsince
        rwa [Function.update_of_ne hne] at hsince
      | _ => exact hsince
    refine (ho x ha i hx' hi).imp_right ?_
    rintro ⟨p, hp, hpx, hstamp⟩
    exact ⟨p, hp, hg.above _ _ (hsafe.mem_nodes ha) hpx, hstamp⟩
  · -- nothing was begun since then
    change Function.update h.since x h.begun.length x ≤ i at hsince
    rw [Function.update_self] at hsince
    exact absurd hi (not_lt.mpr hsince)

section History

variable {l : List (ReductionId × M)} {n : ℕ} {begun : List M} {since : ι → ℕ}

omit [DecidableEq ι] in
theorem History.At.cases {p : ReductionId × M} {msg : M}
    (hp : History.At ⟨begun ++ [msg], since⟩ p) :
    p = (begun.length + 1, msg) ∨ p.1 < begun.length + 1 ∧ History.At ⟨begun, since⟩ p := by
  obtain ⟨c, m⟩ := p
  obtain ⟨hpos, hget⟩ := hp
  obtain ⟨i, rfl⟩ := Nat.exists_eq_succ_of_ne_zero hpos.ne'
  rcases lt_trichotomy i begun.length with hlt | rfl | hgt
  · exact .inr ⟨Nat.succ_lt_succ hlt, hpos, (List.getElem?_append_left hlt).symm.trans hget⟩
  · left
    have hm : some msg = some m := by simpa using hget
    rw [Option.some.inj hm]
  · have hlt := (List.getElem?_eq_some_iff.mp hget).1
    rw [List.length_append] at hlt
    exact absurd hlt (not_lt.mpr hgt)

omit [DecidableEq ι] in
theorem History.At.of_lt {p : ReductionId × M} {msg : M}
    (hp : History.At ⟨begun ++ [msg], since⟩ p) (hlt : p.1 < begun.length + 1) :
    History.At ⟨begun, since⟩ p := by
  rcases hp.cases with rfl | hp
  · exact absurd hlt (lt_irrefl _)
  · exact hp.2

omit [DecidableEq ι] in
theorem sublist_begun (hl : l.Pairwise fun p q => p.1 < q.1)
    (hat : ∀ p ∈ l, History.At ⟨begun, since⟩ p) : (l.map Prod.snd).Sublist begun := by
  induction begun using List.reverseRecOn generalizing l with
  | nil =>
    obtain rfl : l = [] := List.eq_nil_iff_forall_not_mem.mpr fun p hp => by cases (hat p hp).2
    exact .slnil
  | append_singleton begun msg ih =>
    rcases List.eq_nil_or_concat' l with rfl | ⟨l, q, rfl⟩
    · exact List.nil_sublist _
    · obtain ⟨hl', -, hlast⟩ := List.pairwise_append.mp hl
      have hlt : ∀ p ∈ l, p.1 < q.1 := fun p hp => hlast p hp q (List.mem_singleton_self q)
      have hat' : ∀ p ∈ l, History.At ⟨begun ++ [msg], since⟩ p := fun p hp =>
        hat p (List.mem_append_left _ hp)
      rcases (hat q (by simp)).cases with rfl | ⟨hq, hqat⟩
      · rw [List.map_append]
        exact (ih hl' fun p hp => (hat' p hp).of_lt (hlt p hp)).append (.refl _)
      · refine (ih hl fun p hp => ?_).trans (List.sublist_append_left _ _)
        rcases List.mem_append.mp hp with hp | hp
        · exact (hat' p hp).of_lt ((hlt p hp).trans hq)
        · exact List.mem_singleton.mp hp ▸ hqat

omit [DecidableEq ι] in
theorem drop_suffix (hl : l.Pairwise fun p q => p.1 < q.1)
    (hat : ∀ p ∈ l, History.At ⟨begun, since⟩ p)
    (hall : ∀ i, n ≤ i → i < begun.length → i + 1 ∈ l.map Prod.fst) :
    begun.drop n <:+ l.map Prod.snd := by
  induction begun using List.reverseRecOn generalizing l with
  | nil =>
    rw [List.drop_nil]
    exact List.nil_suffix
  | append_singleton begun msg ih =>
    rcases lt_or_ge begun.length n with hn | hn
    · rw [List.drop_eq_nil_of_le]
      · exact List.nil_suffix
      · rwa [List.length_append]
    · obtain ⟨p, hp, hpc⟩ := List.mem_map.mp (hall begun.length hn (by simp))
      rcases List.eq_nil_or_concat' l with rfl | ⟨l, q, rfl⟩
      · exact absurd hp List.not_mem_nil
      · obtain ⟨hl', -, hlast⟩ := List.pairwise_append.mp hl
        have hlt : ∀ p ∈ l, p.1 < q.1 := fun p hp => hlast p hp q (List.mem_singleton_self q)
        have hle : p.1 ≤ q.1 := by
          rcases List.mem_append.mp hp with hp | hp
          · exact (hlt p hp).le
          · exact (List.mem_singleton.mp hp ▸ le_rfl)
        obtain rfl : q = (begun.length + 1, msg) :=
          (hat q (by simp)).cases.resolve_right fun hq =>
            absurd (hpc.symm.trans_le hle) (not_le.mpr hq.1)
        obtain ⟨l', hsuffix⟩ := ih hl'
          (fun p hp => (hat p (List.mem_append_left _ hp)).of_lt (hlt p hp)) fun i hni hi => by
            have hmem := hall i hni (by rw [List.length_append]; exact Nat.lt_succ_of_lt hi)
            simpa [hi.ne] using hmem
        refine ⟨l', ?_⟩
        rw [List.drop_append_of_le_length hn, ← List.append_assoc, hsuffix, List.map_append]
        rfl

end History

/-- What a step preserves: the tree grows, or stays as it is. -/
theorem Carried.next (hc : Carried T h s) (hsafe : System.Safe T acts s.system)
    (ht : s.Timely a) (hs : Step s a t) :
    ∃ T', System.Safe T' (acts ++ changes [a]) t.system ∧ Carried T' (a.record h) t ∧
      (Owed T h s → s.InOrder a → Owed T' (a.record h) t) := by
  by_cases hsys : ∃ b, a = .system b
  · obtain ⟨b, rfl⟩ := hsys
    cases hs with
    | system hs =>
      obtain ⟨T', hg, hsafe'⟩ := hsafe.step ht hs
      exact ⟨T', hsafe', hc.system hg b, fun ho _ => ho.system hsafe hg hs⟩
  · have hne : ∀ b, a ≠ .system b := fun b he => hsys ⟨b, he⟩
    refine ⟨T, ?_, hc.step hsafe hs hne, fun ho hord => ho.step hc hsafe hs hord hne⟩
    have hsame : t.system = s.system ∧ changes [a] = [] := by
      cases hs with
      | system => exact absurd rfl (hne _)
      | _ => exact ⟨rfl, rfl⟩
    rw [hsame.1, hsame.2, List.append_nil]
    exact hsafe

def start (T : RankedTree ι) : Broadcasting ι V κ M := { system := System.start T }

omit [DecidableEq ι] in
theorem changes_snoc (as : List (Label ι V κ M)) (a : Label ι V κ M) :
    changes (as ++ [a]) = changes as ++ changes [a] := List.filterMap_append

theorem carried_of_run (hrun : Transition.Run (Transition.restrict Step Timely) (start T) as s) :
    ∃ T', System.Safe T' (changes as) s.system ∧ Carried T' (history as) s := by
  refine hrun.invariant_labels (I := fun as s => ∃ T', System.Safe T' (changes as) s.system ∧
    Carried T' (history as) s) ?_ ?_
  · exact ⟨T, System.Safe.start T, .start T _⟩
  · rintro as s a t ⟨T', hsafe, hc⟩ ⟨ht, hs⟩
    obtain ⟨T'', hsafe', hc', -⟩ := hc.next hsafe ht hs
    rw [changes_snoc, history_snoc]
    exact ⟨T'', hsafe', hc'⟩

theorem owed_of_run (hrun : Transition.Run
      (Transition.restrict (Transition.restrict Step Timely) InOrder) (start T) as s) :
    ∃ T', System.Safe T' (changes as) s.system ∧ Carried T' (history as) s ∧
      Owed T' (history as) s := by
  refine hrun.invariant_labels (I := fun as s => ∃ T', System.Safe T' (changes as) s.system ∧
    Carried T' (history as) s ∧ Owed T' (history as) s) ?_ ?_
  · exact ⟨T, System.Safe.start T, .start T _, .start T _⟩
  · rintro as s a t ⟨T', hsafe, hc, ho⟩ ⟨hord, ht, hs⟩
    obtain ⟨T'', hsafe', hc', ho'⟩ := hc.next hsafe ht hs
    rw [changes_snoc, history_snoc]
    exact ⟨T'', hsafe', hc', ho' ho hord⟩

instance (s : Broadcasting ι V κ M) : DecidablePred s.InOrder
  | .execute _ _ => inferInstanceAs (Decidable (_ ∨ _))
  | .system _ | .broadcast _ | .redirect _ _ => .isTrue trivial

def perform [DecidableEq V] [DecidableEq M] (s : Broadcasting ι V κ M) :
    Label ι V κ M → Option (Broadcasting ι V κ M)
  | .system a =>
      if System.isTimely s.system a then (s.system.perform a).map fun t => { s with system := t }
      else none
  | .broadcast msg =>
      (s.system.members.find? fun r =>
        s.system.alive r && (s.system.elements r).upstream.isNone).map fun r =>
          { s with inFlight := (r, ⟨none, msg⟩) ::ₘ s.inFlight }
  | .execute mine task =>
      if (mine, task) ∈ s.inFlight ∧ s.system.alive mine ∧ s.InOrder (.execute mine task) then
        some (action task mine { s with inFlight := s.inFlight.erase (mine, task) })
      else none
  | .redirect x task =>
      (s.system.forwards x).bind fun next =>
        if (x, task) ∈ s.inFlight then
          some { s with inFlight := (next, task) ::ₘ s.inFlight.erase (x, task) }
        else none

theorem step_of_perform [DecidableEq V] [DecidableEq M] (hp : s.perform a = some t) :
    s.InOrder a ∧ s.Timely a ∧ Step s a t := by
  cases a with
  | system b =>
    obtain ⟨ht, hp⟩ := Option.ite_none_right_eq_some.mp hp
    obtain ⟨S, hS, rfl⟩ := Option.map_eq_some_iff.mp hp
    exact ⟨trivial, System.timely_of_isTimely ht, .system (.of_perform hS)⟩
  | broadcast msg =>
    obtain ⟨r, hr, rfl⟩ := Option.map_eq_some_iff.mp hp
    have hroot := List.find?_some hr
    obtain ⟨ha, hup⟩ := Bool.and_eq_true_iff.mp hroot
    exact ⟨trivial, trivial, .broadcast msg ha (Option.isNone_iff_eq_none.mp hup)⟩
  | execute mine task =>
    obtain ⟨⟨hm, hx, hord⟩, hp⟩ := Option.ite_none_right_eq_some.mp hp
    obtain rfl := Option.some.inj hp
    exact ⟨hord, trivial, .execute (Multiset.cons_erase hm).symm hx⟩
  | redirect x task =>
    obtain ⟨next, hf, hp⟩ := Option.bind_eq_some_iff.mp hp
    obtain ⟨hm, hp⟩ := Option.ite_none_right_eq_some.mp hp
    obtain rfl := Option.some.inj hp
    exact ⟨trivial, trivial, .redirect (Multiset.cons_erase hm).symm hf⟩

theorem run_of_exec_perform [DecidableEq V] [DecidableEq M]
    (hexec : Transition.exec perform s as = some t) :
    Transition.Run (Transition.restrict (Transition.restrict Step Timely) InOrder) s as t :=
  (Transition.run_of_exec hexec).mono fun _ _ _ hs => step_of_perform hs

/-- The element in the middle is destroyed before the broadcast gets there, and the root sends the
copy that comes back to the element below. Another element is created before the next broadcast. -/
def returned : List (Label ℕ ℕ Unit ℕ) :=
  [.broadcast 7, .execute 0 ⟨none, 7⟩, .system (.destroy 1), .redirect 1 ⟨some (0, 1), 7⟩,
    .system (.deliver ⟨0, .replaceDownstream ⟨1, [2], 0⟩⟩), .execute 0 ⟨some (0, 1), 7⟩,
    .execute 2 ⟨some (0, 1), 7⟩, .system (.create 0 3), .broadcast 8, .execute 0 ⟨none, 8⟩,
    .execute 3 ⟨some (0, 2), 8⟩, .execute 2 ⟨some (0, 2), 8⟩]

theorem exists_returned : ∃ s : Broadcasting ℕ ℕ Unit ℕ, Transition.Run
      (Transition.restrict (Transition.restrict Step Timely) InOrder) (start System.chain) returned
      s ∧
    s.inFlight = 0 ∧ s.system.alive 3 = true := by
  have hall : ((Transition.exec perform (start System.chain : Broadcasting ℕ ℕ Unit ℕ)
      returned).any fun s => decide (s.inFlight = 0 ∧ s.system.alive 3 = true)) = true := by
    decide +kernel
  obtain ⟨s, hs, hd⟩ := (Option.any_eq_true _ _).mp hall
  exact ⟨s, run_of_exec_perform hs, of_decide_eq_true hd⟩

/-- No element receives a broadcast twice, or two of them in another order than they were begun
in. -/
theorem received_in_order
    (hrun : Transition.Run (Transition.restrict Step Timely) (start T) as s) (x : ι) :
    ((s.received x).map Prod.snd).Sublist (history as).begun := by
  obtain ⟨T', -, hc⟩ := carried_of_run hrun
  exact sublist_begun (hc.sorted x) (hc.begun x)

theorem received_in_order_returned : ∃ s : Broadcasting ℕ ℕ Unit ℕ,
    Transition.Run (Transition.restrict Step Timely) (start System.chain) returned s ∧
    ((s.received 2).map Prod.snd).Sublist [7, 8] := by
  obtain ⟨s, h, -⟩ := exists_returned
  have ht := h.mono fun _ _ _ hs => hs.2
  exact ⟨s, ht, received_in_order ht 2⟩

/-- When no task is overtaken, every element receives all broadcasts that were begun since it was
created. -/
theorem received_at_rest (hrun : Transition.Run
      (Transition.restrict (Transition.restrict Step Timely) InOrder) (start T) as s)
    (hrest : s.AtRest) (hx : s.system.alive x = true) :
    (history as).begun.drop ((history as).since x) <:+ (s.received x).map Prod.snd := by
  obtain ⟨T', hsafe, hc, ho⟩ := owed_of_run hrun
  obtain ⟨A, hA⟩ := hsafe.settled.corresponds
  have hinv := hA.sound.inv
  refine drop_suffix (hc.sorted x) (hc.begun x) fun i hsince hi => ?_
  refine (ho x hx i hsince hi).resolve_right ?_
  rintro ⟨p, hp, hpx, -⟩
  obtain ⟨hdead, hstop⟩ := hrest p hp
  have hpa : ¬ A.alive p.1 := fun ha => hdead ((hA.alive p.1).mpr ha)
  have hne : p.1 ≠ x := fun he => hdead (he ▸ hx)
  have hxr : x ≠ T'.root := by
    rintro rfl
    rcases Relation.ReflTransGen.cases_head hpx with he | ⟨q, hq, -⟩
    · exact hne he.symm
    · cases T'.parent_root.symm.trans hq
  have hf : A.forwards p.1 := by
    rcases hinv.forwards_or_child (hinv.owned x ((hA.alive x).mp hx) hxr) hpx hne with hf | hw
    · exact hf
    · exact (hinv.left p.1 hpa (hw.imp fun _ => And.left)).1
  have hpr : p.1 ≠ T'.root := fun he => hpa (he ▸ hinv.root)
  obtain ⟨q, -, hq, -⟩ := T'.exists_parent p.1 (hinv.forwards p.1 hf).1 hpr
  cases hstop.symm.trans ((hA.forwards p.1 q).mpr ⟨hf, hq⟩)

theorem received_at_rest_returned : ∃ s : Broadcasting ℕ ℕ Unit ℕ, Transition.Run
      (Transition.restrict (Transition.restrict Step Timely) InOrder) (start System.chain) returned
      s ∧
    [8] <:+ (s.received 3).map Prod.snd := by
  obtain ⟨s, h, hm, hx⟩ := exists_returned
  have hrest : s.AtRest := fun p hp => absurd (hm ▸ hp) (Multiset.notMem_zero p)
  exact ⟨s, h, received_at_rest h hrest hx⟩

end Broadcasting

end Hypercomm.TreeBuilder.Destruction
