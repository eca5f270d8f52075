import Hypercomm.Sections.Section
import Hypercomm.Transition.Run

/-! # Broadcasts over a section

A broadcaster is a task that is executed at a member of a section. It sends a copy
of itself to the children of the member, and then hands its message to the member
unless the member has already accepted one with a count as high.
-/

namespace Hypercomm

open Transition

variable {ι M : Type*}

/-- A broadcast on its way. The stamp, with the root and the count of the
broadcast, is missing until it reaches the root. -/
structure Broadcaster (ι M : Type*) where
  stamp : Option (ι × ReductionId)
  msg : M
  deriving DecidableEq

/-- The members of a section with the tasks in flight to them, and what their
localities received. -/
structure Broadcasts (ι M : Type*) where
  identities : ι → Identity := fun _ => {}
  inFlight : Multiset (ι × Broadcaster ι M) := 0
  received : ι → List M := fun _ => []

inductive BroadcastEvent (ι M : Type*) where
  /-- `broadcast_to`, or `vil::broadcast`: a task without stamp is sent to the root -/
  | broadcast (msg : M)
  | execute (mine : ι) (task : Broadcaster ι M)

def sent (as : List (BroadcastEvent ι M)) : List M :=
  as.filterMap fun
    | .broadcast msg => some msg
    | .execute .. => none

variable [DecidableEq ι]

def executed (x : ι) (as : List (BroadcastEvent ι M)) : List M :=
  as.filterMap fun
    | .broadcast _ => none
    | .execute y task => if y = x then some task.msg else none

section Labels

variable {as : List (BroadcastEvent ι M)} {x y : ι} {msg : M} {task : Broadcaster ι M}

omit [DecidableEq ι] in
@[simp] theorem sent_broadcast : sent (as ++ [.broadcast msg]) = sent as ++ [msg] := by
  simp [sent]

omit [DecidableEq ι] in
@[simp] theorem sent_execute : sent (as ++ [.execute y task]) = sent as := by simp [sent]

@[simp] theorem executed_broadcast : executed x (as ++ [.broadcast msg]) = executed x as := by
  simp [executed]

@[simp] theorem executed_execute : executed x (as ++ [.execute y task]) =
    executed x as ++ if y = x then [task.msg] else [] := by
  by_cases h : y = x <;> simp [executed, h]

end Labels

namespace Broadcaster

def count (task : Broadcaster ι M) (identity : Identity) : ReductionId :=
  match task.stamp with
  | some stamp => stamp.2
  | none => identity.nextBroadcast

def root (task : Broadcaster ι M) (mine : ι) : ι :=
  match task.stamp with
  | some stamp => stamp.1
  | none => mine

def action (S : VectorSection ι) (task : Broadcaster ι M) (mine : ι) (s : Broadcasts ι M) :
    Broadcasts ι M :=
  let count := task.count (s.identities mine)
  let next : Broadcaster ι M := { task with stamp := some (task.root mine, count) }
  let accepted := (s.identities mine).acceptBroadcast count
  { identities := Function.update s.identities mine accepted.2
    inFlight := s.inFlight + (S.upstream mine).map (·, next)
    received := if accepted.1
      then Function.update s.received mine (s.received mine ++ [task.msg]) else s.received }

end Broadcaster

namespace Broadcasts

variable {S : VectorSection ι} {s t : Broadcasts ι M} {a : BroadcastEvent ι M}
variable {as : List (BroadcastEvent ι M)} {x r : ι}

variable (S) in
/-- Any task in flight is delivered next. -/
inductive Step (s : Broadcasts ι M) : BroadcastEvent ι M → Broadcasts ι M → Prop
  | broadcast (msg : M) (r : ι) (hr : S.pickRoot = some r) :
      Step s (.broadcast msg) { s with inFlight := s.inFlight + {(r, ⟨none, msg⟩)} }
  | execute (mine : ι) (task : Broadcaster ι M) (rest : Multiset (ι × Broadcaster ι M))
      (h : s.inFlight = (mine, task) ::ₘ rest) :
      Step s (.execute mine task) (task.action S mine { s with inFlight := rest })

/-- A task executed at a member has a higher count than the last one accepted. -/
def InOrder (s : Broadcasts ι M) : BroadcastEvent ι M → Prop
  | .broadcast _ => True
  | .execute mine task => (s.identities mine).bcastCount < task.count (s.identities mine)

instance (s : Broadcasts ι M) : DecidablePred s.InOrder
  | .broadcast _ => .isTrue trivial
  | .execute mine task => inferInstanceAs (Decidable (_ < task.count (s.identities mine)))

def ToMembers (S : VectorSection ι) (s : Broadcasts ι M) : Prop :=
  ∀ p ∈ s.inFlight, p.1 ∈ S.members

theorem ToMembers.step (hnd : S.members.Nodup) (hi : s.ToMembers S) (h : Step S s a t) :
    t.ToMembers S := by
  cases h with
  | broadcast msg r hr =>
    intro p hp
    rcases Multiset.mem_add.mp hp with hp | hp
    · exact hi p hp
    · obtain rfl := Multiset.mem_singleton.mp hp
      exact ((VectorSection.indexAt_eq_some_iff hnd).mp hr).1
  | execute mine task rest hrest =>
    have hmine := hi (mine, task) (by simp [hrest])
    intro p hp
    rcases Multiset.mem_add.mp hp with hp | hp
    · exact hi p (by simp [hrest, hp])
    · obtain ⟨y, hy, rfl⟩ := List.mem_map.mp (Multiset.mem_coe.mp hp)
      exact ((VectorSection.mem_upstream_iff hnd hmine).mp hy).1

theorem toMembers_of_run (hnd : S.members.Nodup) (h : Run (Step S) ({} : Broadcasts ι M) as s) :
    s.ToMembers S :=
  h.invariant (fun _ _ _ hi hs => hi.step hnd hs) (by simp [ToMembers])

/-- The messages of the tasks on their way to a member. -/
noncomputable def awaited (T : RankedTree ι) (s : Broadcasts ι M) (x : ι) : Multiset M :=
  (T.onTheWay s.inFlight x).map Broadcaster.msg

/-- Executing a task takes it off the way to the members below, except that its copies
are on their way to all of them but the member itself. -/
theorem awaited_execute (T : RankedTree ι) {mine : ι} (task next : Broadcaster ι M)
    (rest : Multiset (ι × Broadcaster ι M)) (hx : x ∈ T.nodes) (hmine : mine ∈ T.nodes)
    (hmsg : next.msg = task.msg) :
    (T.onTheWay (rest + ((T.children mine).map (·, next) : Multiset (ι × Broadcaster ι M)))
      x).map Broadcaster.msg +
      (if x = mine then {task.msg} else (0 : Multiset M)) =
      (T.onTheWay ((mine, task) ::ₘ rest) x).map Broadcaster.msg := by
  have hc := congrArg (Multiset.map Broadcaster.msg) (T.onTheWay_children hx hmine next)
  have hif : Multiset.map Broadcaster.msg (if x = mine then {next} else (0 : Multiset _)) =
      if x = mine then {task.msg} else 0 := by
    split <;> simp [hmsg]
  rw [Multiset.map_add, hif] at hc
  rw [T.onTheWay_add, Multiset.map_add, Multiset.add_assoc, hc, ← Multiset.singleton_add,
    T.onTheWay_add, Multiset.map_add, Multiset.add_comm]
  congr 1
  by_cases h : T.Above mine x <;>
    simp [← Multiset.cons_zero, h, hmsg]

/-- The task of a broadcast is executed at a member once, or is on its way there. -/
theorem executed_add_awaited (hnd : S.members.Nodup) (hr : S.pickRoot = some r)
    (h : Run (Step S) ({} : Broadcasts ι M) as s) (hx : x ∈ S.members) :
    (executed x as : Multiset M) + s.awaited (S.tree hnd hr) x = sent as := by
  induction h with
  | nil => simp [executed, sent, awaited]
  | @snoc t u as a hrun hs ih =>
    have hmem := toMembers_of_run hnd hrun
    cases hs with
    | broadcast msg r' hr' =>
      obtain rfl : r' = r := Option.some.inj (hr'.symm.trans hr)
      have hroot : (S.tree hnd hr).Above r' x := RankedTree.root_above hx
      have hway : awaited (S.tree hnd hr)
          { t with inFlight := t.inFlight + {(r', ⟨none, msg⟩)} } x =
          t.awaited (S.tree hnd hr) x + {msg} := by
        simp [awaited, ← Multiset.cons_zero, hroot]
      rw [hway, executed_broadcast, sent_broadcast, ← Multiset.coe_add, ← ih, Multiset.add_assoc]
      rfl
    | execute mine task rest hrest =>
      have hmine := hmem (mine, task) (by simp [hrest])
      have hway := awaited_execute (S.tree hnd hr) task
        { task with stamp := some (task.root mine, task.count (t.identities mine)) } rest hx hmine
        rfl
      rw [awaited, hrest, ← hway] at ih
      rw [executed_execute, sent_execute, ← ih, ← Multiset.coe_add, Multiset.add_assoc]
      congr 1
      rw [Multiset.add_comm]
      congr 1
      rcases eq_or_ne mine x with rfl | h <;> simp [*, Ne.symm]

theorem received_step (h : Step S s a t) (x : ι) :
    ∃ l, l.Sublist (executed x [a]) ∧ t.received x = s.received x ++ l ∧
      (InOrder s a → l = executed x [a]) := by
  cases h with
  | broadcast msg r hr => exact ⟨[], by simp [executed]⟩
  | execute mine task rest hrest =>
    by_cases h : (s.identities mine).bcastCount < task.count (s.identities mine)
    · refine ⟨executed x [.execute mine task], .refl _, ?_, fun _ => rfl⟩
      rcases eq_or_ne x mine with rfl | hne
      · simp [Broadcaster.action, h, executed]
      · simp [Broadcaster.action, h, executed, hne, hne.symm]
    · refine ⟨[], List.nil_sublist _, ?_, fun ho => absurd ho h⟩
      simp [Broadcaster.action, h]

theorem received_mine_of_not_inOrder (h : Step S s a t) (ho : ¬ InOrder s a) :
    ∃ mine task, a = .execute mine task ∧ t.received mine = s.received mine := by
  cases h with
  | broadcast msg r hr => exact absurd trivial ho
  | execute mine task rest hrest =>
    have ho : ¬ (s.identities mine).bcastCount < task.count (s.identities mine) := ho
    exact ⟨mine, task, rfl, by simp [Broadcaster.action, ho]⟩

theorem executed_append (bs : List (BroadcastEvent ι M)) :
    executed x (as ++ bs) = executed x as ++ executed x bs := by
  simp [executed]

theorem received_sublist_executed (h : Run (Step S) ({} : Broadcasts ι M) as s) (x : ι) :
    (s.received x).Sublist (executed x as) := by
  induction h with
  | nil => exact List.nil_sublist _
  | snoc _ hs ih =>
    obtain ⟨l, hl, hr, -⟩ := received_step hs x
    rw [hr, executed_append]
    exact ih.append hl

theorem received_eq_executed_iff (hnd : S.members.Nodup)
    (h : Run (Step S) ({} : Broadcasts ι M) as s) :
    (∀ x ∈ S.members, s.received x = executed x as) ↔
      Run (restrict (Step S) InOrder) ({} : Broadcasts ι M) as s := by
  constructor
  · intro hall
    induction h with
    | nil => exact .nil
    | @snoc t u as a hrun hs ih =>
      have hsub := fun x => received_sublist_executed hrun x
      by_cases ho : InOrder t a
      · refine (ih fun x hx => ?_).snoc ⟨ho, hs⟩
        obtain ⟨l, -, hr, hl⟩ := received_step hs x
        have := hall x hx
        rw [hr, hl ho, executed_append] at this
        exact List.append_cancel_right this
      · obtain ⟨mine, task, rfl, hr⟩ := received_mine_of_not_inOrder hs ho
        have hmem : mine ∈ S.members := by
          cases hs with
          | execute _ _ rest hrest => exact toMembers_of_run hnd hrun (mine, task) (by simp [hrest])
        have hlen := (hsub mine).length_le
        have := hall mine hmem
        rw [hr, executed_execute, if_pos rfl] at this
        rw [this] at hlen
        simp at hlen
  · intro hrun x _
    clear h
    induction hrun with
    | nil => rfl
    | snoc _ hs ih =>
      obtain ⟨l, -, hr, hl⟩ := received_step hs.2 x
      rw [hr, hl hs.1, ih, executed_append]

theorem run_eq_nil_of_pickRoot (hr : S.pickRoot = none)
    (h : Run (Step S) ({} : Broadcasts ι M) as s) : as = [] ∧ s = {} := by
  induction h with
  | nil => exact ⟨rfl, rfl⟩
  | snoc _ hs ih =>
    obtain ⟨-, rfl⟩ := ih
    cases hs with
    | broadcast msg r hr' => simp [hr] at hr'
    | execute mine task rest hrest => simp at hrest

/-- When no task is in flight, every member has received every broadcast exactly once
iff the tasks were executed at each member in the order of their counts. In a run in
that order, what a member has not received is on its way to it. -/
theorem received_exactly_once_iff_inOrder (hnd : S.members.Nodup)
    (h : Run (Step S) ({} : Broadcasts ι M) as s) :
    (Run (restrict (Step S) InOrder) ({} : Broadcasts ι M) as s → ∀ r (hr : S.pickRoot = some r),
      ∀ x ∈ S.members, (s.received x : Multiset M) + s.awaited (S.tree hnd hr) x = sent as) ∧
    (s.inFlight = 0 → ((∀ x ∈ S.members, (s.received x).Perm (sent as)) ↔
      Run (restrict (Step S) InOrder) ({} : Broadcasts ι M) as s)) := by
  constructor
  · intro hrun r hr x hx
    rw [(received_eq_executed_iff hnd h).mpr hrun x hx, executed_add_awaited hnd hr h hx]
  · intro hzero
    rw [← received_eq_executed_iff hnd h]
    cases hr : S.pickRoot with
    | none =>
      obtain ⟨rfl, rfl⟩ := run_eq_nil_of_pickRoot hr h
      simp [sent, executed]
    | some r =>
      have hexec : ∀ x ∈ S.members, (executed x as).Perm (sent as) := fun x hx => by
        simpa [awaited, hzero] using executed_add_awaited hnd hr h hx
      refine forall₂_congr fun x hx => ⟨fun hp => ?_, fun he => he ▸ hexec x hx⟩
      exact (received_sublist_executed h x).eq_of_length
        (hp.length_eq.trans (hexec x hx).length_eq.symm)

def pair : VectorSection ℕ := ⟨[0, 1], by decide⟩

/-- Two broadcasts that are executed at the child in the order of their counts. -/
theorem received_exactly_once_pair :
    ∃ (as : List (BroadcastEvent ℕ Bool)) (s : Broadcasts ℕ Bool),
      Run (Step pair) {} as s ∧ sent as = [true, false] ∧
      ∀ x ∈ pair.members, (s.received x).Perm [true, false] := by
  have h0 : Run (restrict (Step pair) InOrder) ({} : Broadcasts ℕ Bool) [] {} := .nil
  have h1 := h0.snoc
    (a := .broadcast true) ⟨by decide, .broadcast _ 0 (by decide)⟩
  have h2 := h1.snoc (a := .execute 0 ⟨none, true⟩) ⟨by decide, .execute _ _ 0 (by decide)⟩
  have h3 := h2.snoc (a := .broadcast false) ⟨by decide, .broadcast _ 0 (by decide)⟩
  have h4 := h3.snoc (a := .execute 0 ⟨none, false⟩)
    ⟨by decide, .execute _ _ {(1, ⟨some (0, 1), true⟩)} (by decide)⟩
  have h5 := h4.snoc (a := .execute 1 ⟨some (0, 1), true⟩)
    ⟨by decide, .execute _ _ {(1, ⟨some (0, 2), false⟩)} (by decide)⟩
  have h6 := h5.snoc (a := .execute 1 ⟨some (0, 2), false⟩)
    ⟨by decide, .execute _ _ 0 (by decide)⟩
  exact ⟨_, _, h6.of_restrict, by decide,
    ((received_exactly_once_iff_inOrder (by decide) h6.of_restrict).2 (by decide)).mpr h6⟩

/-- The second broadcast overtakes the first on the way to the child, which then drops
the first. -/
theorem dropped_of_overtaking :
    ∃ (as : List (BroadcastEvent ℕ Bool)) (s : Broadcasts ℕ Bool),
      Run (Step pair) {} as s ∧ s.inFlight = 0 ∧ sent as = [true, false] ∧
      s.received 0 = [true, false] ∧ s.received 1 = [false] := by
  have h0 : Run (Step pair) ({} : Broadcasts ℕ Bool) [] {} := .nil
  have h1 := h0.snoc
    (a := .broadcast true) (.broadcast _ 0 (by decide))
  have h2 := h1.snoc (a := .execute 0 ⟨none, true⟩) (.execute _ _ 0 (by decide))
  have h3 := h2.snoc (a := .broadcast false) (.broadcast _ 0 (by decide))
  have h4 := h3.snoc (a := .execute 0 ⟨none, false⟩)
    (.execute _ _ {(1, ⟨some (0, 1), true⟩)} (by decide))
  have h5 := h4.snoc (a := .execute 1 ⟨some (0, 2), false⟩)
    (.execute _ _ {(1, ⟨some (0, 1), true⟩)} (by decide))
  have h6 := h5.snoc (a := .execute 1 ⟨some (0, 1), true⟩) (.execute _ _ 0 (by decide))
  exact ⟨_, _, h6, by decide, by decide, by decide, by decide⟩

end Broadcasts

end Hypercomm
