import Mathlib.Data.Multiset.Bind
import Hypercomm.Core.Locality

/-! # The replacement of children

An element is told that a child was replaced by other elements, or that it was deleted, from some
number of each reduction on. The other elements become children at once, and the replacement of
the child is staged until the child is known. The reducers that are under way get further inputs
for the new children, and a null value for a child that was deleted.
-/

namespace Hypercomm.TreeBuilder.Replacement

variable {α ι V : Type*}

abbrev Stamp (α : Type*) := α → Option ReductionId

structure Event (α ι : Type*) where
  from_ : ι
  to_ : List ι
  stamp : Stamp α

/-- What is staged: a deletion, or the replacement by one child. -/
structure Transaction (α ι : Type*) where
  from_ : ι
  to_ : Option ι
  stamp : Stamp α

def Event.transaction (e : Event α ι) : Transaction α ι := ⟨e.from_, e.to_.head?, e.stamp⟩

/-- A reducer that is under way, with the indices of its open ports. -/
structure Reducer (ι V : Type*) where
  nUstream : ℕ
  devs : List (Option V)
  ports : List ι

/-- The place of a reducer, which is empty once the reducer is complete, and the queues of the
ports that belong to the reduction. -/
structure Slot (α ι V : Type*) where
  imprintable : α
  count : ReductionId
  rdcr : Option (Reducer ι V)
  portQueue : ι → List (Option V)

structure Locality (α ι V : Type*) where
  downstream : List ι
  staged : List (Transaction α ι) := []
  slots : List (Slot α ι V)

namespace Slot

def affectedBy (s : Slot α ι V) (stamp : Stamp α) : Bool :=
  (stamp s.imprintable).any fun n => decide (n ≤ s.count)

/-- A reducer is complete, and its ports are closed, when it has its last value. -/
def action (s : Slot α ι V) (dev : Option V) : Slot α ι V :=
  match s.rdcr with
  | none => s
  | some r =>
      if r.devs.length + 1 < r.nUstream then
        { s with rdcr := some { r with devs := r.devs ++ [dev] } }
      else { s with rdcr := none }

variable [DecidableEq ι]

/-- Deliver queued values while the port is alive. A value that completes the reducer erases the
entry of the port, which is read next. -/
def resyncPortQueue (idx : ι) : List (Option V) → Slot α ι V → Option (Slot α ι V)
  | [], s => some { s with portQueue := Function.update s.portQueue idx [] }
  | dev :: buffer, s =>
      let s := s.action dev
      if s.rdcr.isSome then resyncPortQueue idx buffer s else none

/-- It is fatal to open a port twice. -/
def openPort (s : Slot α ι V) (r : Reducer ι V) (idx : ι) : Option (Slot α ι V) :=
  if idx ∈ r.ports then none
  else resyncPortQueue idx (s.portQueue idx)
    { s with rdcr := some { r with ports := r.ports ++ [idx] } }

def addDownstream (stamp : Stamp α) (s : Slot α ι V) (idx : ι) : Option (Slot α ι V) :=
  match s.rdcr with
  | none => some s
  | some r =>
      if s.affectedBy stamp then s.openPort { r with nUstream := r.nUstream + 1 } idx else some s

/-- `affect_ports`, at the ports of one reducer. A port that is reopened for another child goes on
to the same reducer, and a deletion sends it null. -/
def affectPorts (t : Transaction α ι) (s : Slot α ι V) : Option (Slot α ι V) :=
  match s.rdcr with
  | none => some s
  | some r =>
      if s.affectedBy t.stamp && decide (t.from_ ∈ r.ports) then
        match t.to_ with
        | none => some (s.action none)
        | some next => s.openPort { r with ports := r.ports.erase t.from_ } next
      else some s

end Slot

namespace Locality

variable [DecidableEq ι]

def addDownstream (stamp : Stamp α) (s : Locality α ι V) (idx : ι) : Option (Locality α ι V) :=
  (s.slots.mapM fun slot => Slot.addDownstream stamp slot idx).map fun slots =>
    { s with
      downstream := s.downstream ++ [idx]
      slots }

def resolve (s : Locality α ι V) (t : Transaction α ι) : Option (Locality α ι V) :=
  (s.slots.mapM (Slot.affectPorts t)).map fun slots =>
    { s with
      downstream := match t.to_ with
        | none => s.downstream.erase t.from_
        | some next => s.downstream.replace t.from_ next
      slots }

def resolveRounds : ℕ → Locality α ι V → Option (Locality α ι V)
  | 0, s => some s
  | n + 1, s =>
      match s.staged.findFinIdx? fun t => decide (t.from_ ∈ s.downstream) with
      | none => some s
      | some i => (s.resolve (s.staged.get i)).bind fun u =>
          resolveRounds n { u with staged := s.staged.eraseIdx i }

def resolveTransactions (s : Locality α ι V) : Option (Locality α ι V) :=
  resolveRounds s.staged.length s

/-- The children from the second on are added directly, then the first replaces the child. -/
def replaceDownstream (s : Locality α ι V) (e : Event α ι) : Option (Locality α ι V) :=
  (e.to_.tail.foldlM (addDownstream e.stamp) s).bind fun s =>
    resolveTransactions { s with staged := s.staged ++ [e.transaction] }

end Locality

/-- What becomes known when children are replaced. -/
inductive Known (downstream : List ι) (es : List (Event α ι)) : ι → Prop
  | initial {i : ι} : i ∈ downstream → Known downstream es i
  | child {e : Event α ι} {i : ι} : e ∈ es → Known downstream es e.from_ → i ∈ e.to_ →
      Known downstream es i

/-- Each child is replaced once, by new ones, and is there from the start or replaces another. -/
structure Family (s : Locality α ι V) (es : List (Event α ι)) : Prop where
  unstaged : s.staged = []
  once : (es.map Event.from_).Nodup
  disjoint : (es.flatMap Event.to_).Nodup
  fresh : ∀ e ∈ es, ∀ i ∈ e.to_, i ∉ s.downstream
  known : ∀ e ∈ es, Known s.downstream es e.from_

/-- A reducer waits for one value from each of the children in `W`. An event that affects it
replaces one of these, or one that another such event puts in and that has not sent its value yet,
by children whose ports are not open. If the first of these has sent its value, the events leave
the reducer waiting. -/
structure Waits (s : Slot α ι V) (r : Reducer ι V) (W : Finset ι) (es : List (Event α ι)) :
    Prop where
  nonempty : W.Nonempty
  ports : ∀ i ∈ W, i ∈ r.ports
  nUstream : r.nUstream = r.devs.length + W.card
  awaited : ∀ e ∈ es, s.affectedBy e.stamp → e.from_ ∈ W ∨
    ∃ e' ∈ es, s.affectedBy e'.stamp ∧ e.from_ ∈ e'.to_ ∧ s.portQueue e.from_ = []
  closed : ∀ e ∈ es, s.affectedBy e.stamp → ∀ i ∈ e.to_, i ∉ r.ports
  queued : ∀ e ∈ es, s.affectedBy e.stamp → ∀ i ∈ e.to_, (s.portQueue i).length ≤ 1
  lasts : (∀ e ∈ es, s.affectedBy e.stamp → ∀ i ∈ e.to_.head?, s.portQueue i = []) ∨
    (es.filter fun e => s.affectedBy e.stamp).length < W.card +
      ((es.filter fun e => s.affectedBy e.stamp).flatMap Event.to_).countP
        fun i => (s.portQueue i).isEmpty

structure Reducer.Agrees (r r' : Reducer ι V) : Prop where
  nUstream : r.nUstream = r'.nUstream
  devs : r.devs.Perm r'.devs
  ports : r.ports.Perm r'.ports

structure Slot.Agrees (s s' : Slot α ι V) : Prop where
  imprintable : s.imprintable = s'.imprintable
  count : s.count = s'.count
  rdcr : Option.Rel Reducer.Agrees s.rdcr s'.rdcr

structure Locality.Agrees (s s' : Locality α ι V) : Prop where
  staged : s.staged = [] ∧ s'.staged = []
  downstream : s.downstream.Perm s'.downstream
  slots : List.Forall₂ Slot.Agrees s.slots s'.slots

section Slots

variable [DecidableEq ι] {s t : Slot α ι V} {r r0 : Reducer ι V} {i : ι} {dev : Option V}
variable {stamp : Stamp α} {e : Event α ι}

theorem openPort_of_empty (hi : i ∉ r.ports) (hq : s.portQueue i = []) :
    s.openPort r i = some { s with
      rdcr := some { r with ports := r.ports ++ [i] }
      portQueue := Function.update s.portQueue i [] } := by
  simp [Slot.openPort, hi, hq, Slot.resyncPortQueue]

theorem openPort_of_queued (hi : i ∉ r.ports) (hq : s.portQueue i = [dev])
    (hlt : r.devs.length + 1 < r.nUstream) :
    s.openPort r i = some { s with
      rdcr := some { r with devs := r.devs ++ [dev], ports := r.ports ++ [i] }
      portQueue := Function.update s.portQueue i [] } := by
  unfold Slot.openPort
  rw [if_neg hi, hq]
  simp [Slot.resyncPortQueue, Slot.action, hlt]

end Slots

section Ledgers

variable [DecidableEq ι]

def tails (T : Multiset (Event α ι)) : Multiset ι := T.bind fun e => (e.to_.tail : Multiset ι)

def heads (R : Multiset (Event α ι)) : Multiset ι :=
  R.bind fun e => (e.to_.head?.toList : Multiset ι)

def replaced (R : Multiset (Event α ι)) : Multiset ι :=
  R.bind fun e => (e.to_.head?.toList.map fun _ => e.from_ : Multiset ι)

def deleted (R : Multiset (Event α ι)) : Multiset (Option V) :=
  R.bind fun e => (if e.to_ = [] then [none] else [] : List (Option V))

/-- A reducer after some children were added and some of the events that affect it took place: it
waits for the children in `A`, and is complete when there are none. -/
structure Holds (s0 : Slot α ι V) (r0 : Reducer ι V) (added : Multiset ι)
    (R : Multiset (Event α ι)) (A : Multiset ι) (r : Reducer ι V) : Prop where
  nUstream : r.nUstream = r0.nUstream + added.card
  awaited : r.nUstream = r.devs.length + A.card
  ports : (r.ports : Multiset ι) + replaced R = r0.ports + (added + heads R)
  devs : (r.devs : Multiset (Option V)) =
    (r0.devs : Multiset (Option V)) + deleted R +
      (added + heads R).bind fun i => (s0.portQueue i : Multiset (Option V))

structure Ledger (s0 : Slot α ι V) (r0 : Reducer ι V) (W : Finset ι) (added : Multiset ι)
    (R : Multiset (Event α ι)) (A : Multiset ι) (s : Slot α ι V) : Prop where
  imprintable : s.imprintable = s0.imprintable
  count : s.count = s0.count
  queue : ∀ i ∉ added + heads R, s.portQueue i = s0.portQueue i
  awaited : A + R.map Event.from_ = W.val + (added + heads R).filter fun i => s0.portQueue i = []
  complete : A = 0 → s.rdcr = none
  pending : A ≠ 0 → ∃ r, s.rdcr = some r ∧ Holds s0 r0 added R A r

section Events

variable {T R : Multiset (Event α ι)} {e : Event α ι} {i : ι}

omit [DecidableEq ι] in
@[simp] theorem tails_cons (e : Event α ι) (T : Multiset (Event α ι)) :
    tails (e ::ₘ T) = (e.to_.tail : Multiset ι) + tails T := Multiset.cons_bind ..

omit [DecidableEq ι] in
@[simp] theorem heads_cons (e : Event α ι) (R : Multiset (Event α ι)) :
    heads (e ::ₘ R) = (e.to_.head?.toList : Multiset ι) + heads R := Multiset.cons_bind ..

omit [DecidableEq ι] in
@[simp] theorem replaced_cons (e : Event α ι) (R : Multiset (Event α ι)) :
    replaced (e ::ₘ R) = (e.to_.head?.toList.map fun _ => e.from_ : Multiset ι) + replaced R :=
  Multiset.cons_bind ..

omit [DecidableEq ι] in
@[simp] theorem deleted_cons (e : Event α ι) (R : Multiset (Event α ι)) :
    deleted (e ::ₘ R) =
      ((if e.to_ = [] then [none] else [] : List (Option V)) : Multiset (Option V)) + deleted R :=
  Multiset.cons_bind ..

end Events

variable {s0 s : Slot α ι V} {r0 r : Reducer ι V} {W : Finset ι} {added A : Multiset ι}
variable {R : Multiset (Event α ι)} {e : Event α ι} {i : ι} {stamp : Stamp α}

omit [DecidableEq ι] in
theorem Ledger.affectedBy (h : Ledger s0 r0 W added R A s) (stamp : Stamp α) :
    s.affectedBy stamp = s0.affectedBy stamp := by
  unfold Slot.affectedBy
  rw [h.imprintable, h.count]

theorem Ledger.addDownstream (h : Ledger s0 r0 W added R A s) (hA : A ≠ 0)
    (hstamp : s0.affectedBy stamp) (hi : i ∉ added + heads R) (hport : i ∉ r0.ports)
    (hlen : (s0.portQueue i).length ≤ 1) :
    ∃ s', s.addDownstream stamp i = some s' ∧
      ∃ A' ≠ 0, Ledger s0 r0 W (i ::ₘ added) R A' s' := by
  obtain ⟨r, hr, hold⟩ := h.pending hA
  have hnot : i ∉ r.ports := by
    intro hmem
    have hin : i ∈ (r.ports : Multiset ι) + replaced R := Multiset.mem_add.mpr (.inl hmem)
    rw [hold.ports] at hin
    rcases Multiset.mem_add.mp hin with hin | hin
    · exact hport hin
    · exact hi hin
  have hqueue := h.queue i hi
  have hcard : 0 < A.card := Multiset.card_pos.mpr hA
  simp only [Slot.addDownstream, hr, h.affectedBy, hstamp, if_true]
  rcases hq : s0.portQueue i with _ | ⟨dev, rest⟩
  · rw [hq] at hqueue
    refine ⟨_, openPort_of_empty hnot hqueue, i ::ₘ A, Multiset.cons_ne_zero, h.imprintable,
      h.count, fun j hj => ?_, ?_, fun h0 => absurd h0 Multiset.cons_ne_zero, fun _ => ?_⟩
    · rw [Multiset.cons_add, Multiset.mem_cons, not_or] at hj
      dsimp only
      rw [Function.update_of_ne hj.1]
      exact h.queue j hj.2
    · rw [Multiset.cons_add, h.awaited, Multiset.cons_add, Multiset.filter_cons, if_pos hq,
        Multiset.singleton_add, Multiset.add_cons]
    · refine ⟨_, rfl, ?_, ?_, ?_, ?_⟩
      · dsimp only
        rw [hold.nUstream, Multiset.card_cons, Nat.add_assoc]
      · dsimp only
        rw [hold.awaited, Multiset.card_cons, Nat.add_assoc]
      · dsimp only
        rw [← Multiset.coe_add, add_right_comm, hold.ports, Multiset.cons_add, Multiset.add_cons]
        exact (Multiset.add_comm _ _).trans (Multiset.singleton_add _ _)
      · rw [Multiset.cons_add, Multiset.cons_bind, hq, Multiset.coe_nil, Multiset.zero_add]
        exact hold.devs
  · obtain rfl : rest = [] := by
      rw [hq, List.length_cons] at hlen
      exact List.length_eq_zero_iff.mp (Nat.le_zero.mp (Nat.le_of_succ_le_succ hlen))
    have hlt : r.devs.length + 1 < r.nUstream + 1 := by
      rw [hold.awaited]
      omega
    rw [hq] at hqueue
    refine ⟨_, openPort_of_queued hnot hqueue hlt, A, hA, h.imprintable, h.count, fun j hj => ?_,
      ?_, fun h0 => absurd h0 hA, fun _ => ?_⟩
    · rw [Multiset.cons_add, Multiset.mem_cons, not_or] at hj
      dsimp only
      rw [Function.update_of_ne hj.1]
      exact h.queue j hj.2
    · rw [h.awaited, Multiset.cons_add, Multiset.filter_cons, if_neg (by simp [hq]),
        Multiset.zero_add]
    · refine ⟨_, rfl, ?_, ?_, ?_, ?_⟩
      · dsimp only
        rw [hold.nUstream, Multiset.card_cons, Nat.add_assoc]
      · dsimp only
        rw [hold.awaited, List.length_append, List.length_singleton, Nat.add_right_comm]
      · dsimp only
        rw [← Multiset.coe_add, add_right_comm, hold.ports, Multiset.cons_add, Multiset.add_cons]
        exact (Multiset.add_comm _ _).trans (Multiset.singleton_add _ _)
      · dsimp only
        rw [← Multiset.coe_add, hold.devs, Multiset.cons_add, Multiset.cons_bind, hq, add_assoc,
          add_comm (Multiset.bind _ _)]

theorem Ledger.addChildren (hstamp : s0.affectedBy stamp) (l : List ι)
    (h : Ledger s0 r0 W added R A s) (hA : A ≠ 0) (hl : l.Nodup)
    (hnew : ∀ i ∈ l, i ∉ added + heads R ∧ i ∉ r0.ports ∧ (s0.portQueue i).length ≤ 1) :
    ∃ s', l.foldlM (Slot.addDownstream stamp) s = some s' ∧
      ∃ A' ≠ 0, Ledger s0 r0 W (l + added) R A' s' := by
  induction l generalizing s A added with
  | nil => exact ⟨s, rfl, A, hA, by simpa using h⟩
  | cons i l ih =>
    obtain ⟨hi, hport, hlen⟩ := hnew i List.mem_cons_self
    obtain ⟨hil, hl⟩ := List.nodup_cons.mp hl
    obtain ⟨s', hs', A', hA', h'⟩ := h.addDownstream hA hstamp hi hport hlen
    obtain ⟨t, ht, B, hB, h''⟩ := ih h' hA' hl fun j hj => by
      obtain ⟨hj', hrest⟩ := hnew j (List.mem_cons_of_mem _ hj)
      refine ⟨?_, hrest⟩
      rw [Multiset.cons_add, Multiset.mem_cons, not_or]
      exact ⟨fun heq => hil (heq ▸ hj), hj'⟩
    refine ⟨t, ?_, B, hB, ?_⟩
    · rw [List.foldlM_cons, hs']
      exact ht
    · rwa [← Multiset.cons_coe, Multiset.cons_add, ← Multiset.add_cons]

omit [DecidableEq ι] in
theorem Ledger.exists_pending (h : Ledger s0 r0 W added R A s) (he : e.from_ ∉ R.map Event.from_)
    (hports : ∀ i ∈ W, i ∈ r0.ports)
    (hfrom : e.from_ ∈ W ∨ e.from_ ∈ added + heads R ∧ s0.portQueue e.from_ = []) :
    e.from_ ∈ A ∧ ∃ r, s.rdcr = some r ∧ Holds s0 r0 added R A r ∧ e.from_ ∈ r.ports := by
  have hA : e.from_ ∈ A := by
    have hin : e.from_ ∈ A + R.map Event.from_ := by
      rw [h.awaited]
      rcases hfrom with hW | ⟨hopened, hq⟩
      · exact Multiset.mem_add.mpr (.inl hW)
      · exact Multiset.mem_add.mpr (.inr (Multiset.mem_filter.mpr ⟨hopened, hq⟩))
    exact (Multiset.mem_add.mp hin).resolve_right he
  obtain ⟨r, hr, hold⟩ := h.pending fun h0 => by
    rw [h0] at hA
    exact Multiset.notMem_zero _ hA
  refine ⟨hA, r, hr, hold, ?_⟩
  have hin : e.from_ ∈ (r.ports : Multiset ι) + replaced R := by
    rw [hold.ports]
    rcases hfrom with hW | ⟨hopened, -⟩
    · exact Multiset.mem_add.mpr (.inl (hports _ hW))
    · exact Multiset.mem_add.mpr (.inr hopened)
  refine (Multiset.mem_add.mp hin).resolve_right fun hrep => he ?_
  obtain ⟨e', he', hmem⟩ := Multiset.mem_bind.mp hrep
  rw [Multiset.mem_coe, List.mem_map] at hmem
  obtain ⟨-, -, heq⟩ := hmem
  exact Multiset.mem_map.mpr ⟨e', he', heq⟩

theorem Ledger.delete (h : Ledger s0 r0 W added R A s) (hstamp : s0.affectedBy e.stamp)
    (he : e.from_ ∉ R.map Event.from_) (hports : ∀ i ∈ W, i ∈ r0.ports)
    (hfrom : e.from_ ∈ W ∨ e.from_ ∈ added + heads R ∧ s0.portQueue e.from_ = [])
    (hto : e.to_ = []) :
    ∃ s', s.affectPorts e.transaction = some s' ∧
      ∃ A', Ledger s0 r0 W added (e ::ₘ R) A' s' := by
  obtain ⟨hA, r, hr, hold, hport⟩ := h.exists_pending he hports hfrom
  have hheads : heads (e ::ₘ R) = heads R := by simp [hto]
  have hcard := Multiset.card_erase_add_one hA
  have hlen := hold.awaited
  have hsplit : A.erase e.from_ + (e ::ₘ R).map Event.from_ = A + R.map Event.from_ := by
    rw [Multiset.map_cons, Multiset.add_cons, ← Multiset.cons_add, Multiset.cons_erase hA]
  refine ⟨s.action none, ?_, A.erase e.from_, ?_⟩
  · simp [Slot.affectPorts, hr, h.affectedBy, Event.transaction, hto, hstamp, hport]
  · unfold Slot.action
    simp only [hr]
    split_ifs with hlt
    · constructor
      · exact h.imprintable
      · exact h.count
      · rw [hheads]
        exact h.queue
      · rw [hsplit, h.awaited, hheads]
      · intro h0
        rw [h0, Multiset.card_zero] at hcard
        omega
      · intro _
        refine ⟨_, rfl, hold.nUstream, ?_, ?_, ?_⟩
        · dsimp only
          rw [List.length_append, List.length_singleton]
          omega
        · simpa [hto] using hold.ports
        · rw [← Multiset.coe_add, hold.devs, hheads]
          simp only [deleted_cons, hto, if_true]
          rw [add_right_comm, add_right_comm _ (deleted R), add_assoc _ _ (deleted R)]
    · constructor
      · exact h.imprintable
      · exact h.count
      · rw [hheads]
        exact h.queue
      · rw [hsplit, h.awaited, hheads]
      · exact fun _ => rfl
      · intro hne
        have := Multiset.card_pos.mpr hne
        omega

theorem Ledger.replace {next : ι} {rest : List ι} (h : Ledger s0 r0 W added R A s)
    (hstamp : s0.affectedBy e.stamp) (he : e.from_ ∉ R.map Event.from_)
    (hports : ∀ i ∈ W, i ∈ r0.ports)
    (hfrom : e.from_ ∈ W ∨ e.from_ ∈ added + heads R ∧ s0.portQueue e.from_ = [])
    (hto : e.to_ = next :: rest) (hnext : next ∉ added + heads R) (hclosed : next ∉ r0.ports)
    (hqueued : (s0.portQueue next).length ≤ 1) (hlast : s0.portQueue next = [] ∨ 1 < A.card) :
    ∃ s', s.affectPorts e.transaction = some s' ∧
      ∃ A', Ledger s0 r0 W added (e ::ₘ R) A' s' := by
  obtain ⟨hA, r, hr, hold, hport⟩ := h.exists_pending he hports hfrom
  have hopened : added + heads (e ::ₘ R) = next ::ₘ (added + heads R) := by
    rw [heads_cons, hto, List.head?_cons, Option.toList_some, Multiset.coe_singleton,
      Multiset.singleton_add, Multiset.add_cons]
  have hreplaced : replaced (e ::ₘ R) = e.from_ ::ₘ replaced R := by
    rw [replaced_cons, hto]
    rfl
  have hdeleted : (deleted (e ::ₘ R) : Multiset (Option V)) = deleted R := by
    rw [deleted_cons, hto, if_neg (List.cons_ne_nil _ _), Multiset.coe_nil, Multiset.zero_add]
  have hnot : next ∉ r.ports.erase e.from_ := by
    intro hmem
    have hin : next ∈ (r.ports : Multiset ι) + replaced R :=
      Multiset.mem_add.mpr (.inl (List.mem_of_mem_erase hmem))
    rw [hold.ports] at hin
    rcases Multiset.mem_add.mp hin with hin | hin
    · exact hclosed hin
    · exact hnext hin
  have hqueue := h.queue next hnext
  have hcard := Multiset.card_erase_add_one hA
  have hlen := hold.awaited
  have hports' : ((r.ports.erase e.from_ ++ [next] : List ι) : Multiset ι) + replaced (e ::ₘ R) =
      r0.ports + (added + heads (e ::ₘ R)) := by
    rw [hreplaced, hopened, ← Multiset.coe_add, ← Multiset.coe_erase, Multiset.add_cons,
      add_right_comm, ← Multiset.cons_add, ← Multiset.cons_add,
      Multiset.cons_erase (Multiset.mem_coe.mpr hport), hold.ports, Multiset.add_cons,
      Multiset.coe_singleton, Multiset.add_comm _ {next}, Multiset.singleton_add]
  have hsplit : A.erase e.from_ + (e ::ₘ R).map Event.from_ = A + R.map Event.from_ := by
    rw [Multiset.map_cons, Multiset.add_cons, ← Multiset.cons_add, Multiset.cons_erase hA]
  have haffect : s.affectPorts e.transaction =
      s.openPort { r with ports := r.ports.erase e.from_ } next := by
    simp [Slot.affectPorts, hr, h.affectedBy, Event.transaction, hto, hstamp, hport]
  have hother : ∀ j ∉ next ::ₘ (added + heads R),
      Function.update s.portQueue next [] j = s0.portQueue j := by
    intro j hj
    rw [Multiset.mem_cons, not_or] at hj
    rw [Function.update_of_ne hj.1]
    exact h.queue j hj.2
  rw [haffect]
  rcases hq : s0.portQueue next with _ | ⟨dev, queue⟩
  · rw [hq] at hqueue
    refine ⟨_, openPort_of_empty hnot hqueue, next ::ₘ A.erase e.from_, h.imprintable, h.count,
      ?_, ?_, fun h0 => absurd h0 Multiset.cons_ne_zero, fun _ => ⟨_, rfl, hold.nUstream, ?_,
      hports', ?_⟩⟩
    · rw [hopened]
      exact hother
    · rw [hopened, Multiset.cons_add, hsplit, h.awaited, Multiset.filter_cons, if_pos hq,
        Multiset.singleton_add, Multiset.add_cons]
    · rw [Multiset.card_cons]
      dsimp only
      omega
    · rw [hopened, hdeleted, Multiset.cons_bind, hq, Multiset.coe_nil, Multiset.zero_add]
      exact hold.devs
  · obtain rfl : queue = [] := by
      rw [hq, List.length_cons] at hqueued
      exact List.length_eq_zero_iff.mp (Nat.le_zero.mp (Nat.le_of_succ_le_succ hqueued))
    have hlt := hlast.resolve_left (by rw [hq]; exact List.cons_ne_nil _ _)
    rw [hq] at hqueue
    refine ⟨_, openPort_of_queued hnot hqueue (by dsimp only; omega), A.erase e.from_,
      h.imprintable, h.count, ?_, ?_, fun h0 => ?_, fun _ => ?_⟩
    · rw [hopened]
      exact hother
    · rw [hopened, hsplit, h.awaited, Multiset.filter_cons, if_neg (by simp [hq]),
        Multiset.zero_add]
    · rw [h0, Multiset.card_zero] at hcard
      omega
    · refine ⟨_, rfl, hold.nUstream, ?_, hports', ?_⟩
      · dsimp only
        rw [List.length_append, List.length_singleton]
        omega
      · dsimp only
        rw [hopened, hdeleted, Multiset.cons_bind, hq, ← Multiset.coe_add, hold.devs, add_assoc,
          add_comm (Multiset.bind _ _)]

end Ledgers

section Families

variable {loc : Locality α ι V} {es : List (Event α ι)} {e e' : Event α ι} {i : ι}

theorem Family.nodup (hf : Family loc es) : es.Nodup := hf.once.of_map _

theorem Family.from_inj (hf : Family loc es) (he : e ∈ es) (he' : e' ∈ es)
    (h : e.from_ = e'.from_) : e = e' :=
  List.inj_on_of_nodup_map hf.once he he' h

theorem Family.to_nodup (hf : Family loc es) (he : e ∈ es) : e.to_.Nodup :=
  (List.nodup_flatMap.mp hf.disjoint).1 e he

theorem Family.to_inj (hf : Family loc es) (he : e ∈ es) (he' : e' ∈ es) (hi : i ∈ e.to_)
    (hi' : i ∈ e'.to_) : e = e' := by
  by_contra hne
  have hdis := (List.nodup_flatMap.mp hf.disjoint).2
  have hsymm : Std.Symm (Function.onFun List.Disjoint (Event.to_ : Event α ι → List ι)) :=
    ⟨fun _ _ h => h.symm⟩
  exact hdis.forall he he' hne hi hi'

end Families

section Affecting

variable [DecidableEq ι] {loc : Locality α ι V} {es : List (Event α ι)} {e e' : Event α ι} {i : ι}
variable {s0 s : Slot α ι V} {r0 : Reducer ι V} {W : Finset ι} {T R : Multiset (Event α ι)}
variable {A : Multiset ι}

def affecting (s0 : Slot α ι V) (T : Multiset (Event α ι)) : Multiset (Event α ι) :=
  T.filter fun e => s0.affectedBy e.stamp

omit [DecidableEq ι] in
theorem mem_affecting : e ∈ affecting s0 T ↔ e ∈ T ∧ s0.affectedBy e.stamp := Multiset.mem_filter

omit [DecidableEq ι] in
theorem affecting_cons_pos (h : s0.affectedBy e.stamp) :
    affecting s0 (e ::ₘ T) = e ::ₘ affecting s0 T := Multiset.filter_cons_of_pos _ h

omit [DecidableEq ι] in
theorem affecting_cons_neg (h : ¬ s0.affectedBy e.stamp) :
    affecting s0 (e ::ₘ T) = affecting s0 T := Multiset.filter_cons_of_neg _ h

omit [DecidableEq ι] in
theorem mem_tails : i ∈ tails T ↔ ∃ e ∈ T, i ∈ e.to_.tail := by
  simp [tails, Multiset.mem_bind]

omit [DecidableEq ι] in
theorem mem_heads : i ∈ heads R ↔ ∃ e ∈ R, e.to_.head? = some i := by
  simp [heads, Multiset.mem_bind]

omit [DecidableEq ι] in
theorem mem_opened (hR : e ∈ R) (hT : e ∈ T) (hi : i ∈ e.to_) : i ∈ tails T + heads R := by
  rcases hto : e.to_ with _ | ⟨next, rest⟩
  · rw [hto] at hi
    cases hi
  · rw [hto] at hi
    rcases List.mem_cons.mp hi with rfl | hi
    · exact Multiset.mem_add.mpr (.inr (mem_heads.mpr ⟨e, hR, by rw [hto]; rfl⟩))
    · exact Multiset.mem_add.mpr (.inl (mem_tails.mpr ⟨e, hT, by rw [hto]; exact hi⟩))

omit [DecidableEq ι] in
theorem exists_of_mem_opened (h : i ∈ tails T + heads R) :
    (∃ e ∈ T, i ∈ e.to_.tail) ∨ ∃ e ∈ R, e.to_.head? = some i := by
  rcases Multiset.mem_add.mp h with h | h
  · exact .inl (mem_tails.mp h)
  · exact .inr (mem_heads.mp h)

omit [DecidableEq ι] in
theorem Family.notMem_from (hf : Family loc es) (hR : R ≤ es) (he : e ∈ es) (hnot : e ∉ R) :
    e.from_ ∉ (affecting s0 R).map Event.from_ := by
  intro hmem
  obtain ⟨e', he', heq⟩ := Multiset.mem_map.mp hmem
  have hin := (mem_affecting.mp he').1
  obtain rfl := hf.from_inj (Multiset.mem_coe.mp (Multiset.mem_of_le hR hin)) he heq
  exact hnot hin

omit [DecidableEq ι] in
/-- While an event that affects a reducer has not taken place, the reducer waits for the child
that this event replaces, or one that it comes from. -/
theorem Family.exists_awaited (hf : Family loc es) (hw : Waits s0 r0 W es) (hR : R ≤ T)
    (hk : Known loc.downstream es i)
    (he : e ∈ es) (hi : e.from_ = i) (ha : s0.affectedBy e.stamp) (hnot : e ∉ R) :
    ∃ e' ∈ es, e' ∉ R ∧ (e'.from_ ∈ W ∨ e'.from_ ∈ tails (affecting s0 T) +
      heads (affecting s0 R) ∧ s0.portQueue e'.from_ = []) := by
  -- along the events that made the child known
  induction hk generalizing e with
  | initial hds =>
    rcases hw.awaited e he ha with hW | ⟨e', he', -, hmem, -⟩
    · exact ⟨e, he, hnot, .inl hW⟩
    · exact absurd (hi ▸ hds) (hf.fresh e' he' _ hmem)
  | @child e'' i he'' hk hmem'' ih =>
    rcases hw.awaited e he ha with hW | ⟨e', he', ha', hmem, hq⟩
    · exact ⟨e, he, hnot, .inl hW⟩
    · obtain rfl := hf.to_inj he'' he' hmem'' (hi ▸ hmem)
      by_cases hin : e'' ∈ R
      · refine ⟨e, he, hnot, .inr ⟨?_, hq⟩⟩
        exact mem_opened (mem_affecting.mpr ⟨hin, ha'⟩)
          (mem_affecting.mpr ⟨Multiset.mem_of_le hR hin, ha'⟩) hmem
      · exact ih he'' rfl ha' hin

omit [DecidableEq ι] in
theorem Ledger.ne_zero (h : Ledger s0 r0 W (tails (affecting s0 T)) (affecting s0 R) A s)
    (hf : Family loc es) (hw : Waits s0 r0 W es) (hT : T ≤ es) (hR : R ≤ T) (he : e ∈ es)
    (ha : s0.affectedBy e.stamp) (hnot : e ∉ R) : A ≠ 0 := by
  obtain ⟨e', he', hnot', hfrom⟩ := hf.exists_awaited hw hR (hf.known e he) he rfl ha hnot
  have hA := (h.exists_pending (hf.notMem_from (hR.trans hT) he' hnot') hw.ports hfrom).1
  rintro rfl
  exact Multiset.notMem_zero _ hA

omit [DecidableEq ι] in
theorem tails_add_heads (l : List (Event α ι)) :
    tails (l : Multiset (Event α ι)) + heads (l : Multiset (Event α ι)) =
      (l.flatMap Event.to_ : List ι) := by
  induction l with
  | nil => rfl
  | cons e l ih =>
    have hto : (e.to_ : Multiset ι) = e.to_.tail + e.to_.head?.toList := by
      rcases e.to_ with _ | ⟨next, rest⟩
      · rfl
      · exact (Multiset.coe_eq_coe.mpr (List.perm_append_singleton next rest)).symm
    rw [← Multiset.cons_coe, tails_cons, heads_cons, add_add_add_comm, ih, List.flatMap_cons,
      ← Multiset.coe_add, hto]

omit [DecidableEq ι] in
theorem affecting_coe : affecting s0 (es : Multiset (Event α ι)) =
    (es.filter fun e => s0.affectedBy e.stamp : List (Event α ι)) := by
  simp [affecting]

/-- A reducer that is given a value for a child that it is reopened for waits for another one. -/
theorem Ledger.one_lt_card {next : ι} {rest : List ι}
    (h : Ledger s0 r0 W (tails (affecting s0 T)) (affecting s0 R) A s) (hf : Family loc es)
    (hw : Waits s0 r0 W es) (hT : T ≤ es) (hR : e ::ₘ R ≤ T) (ha : s0.affectedBy e.stamp)
    (hA : e.from_ ∈ A) (hto : e.to_ = next :: rest) (hq : s0.portQueue next ≠ []) :
    1 < A.card := by
  have hnodup : Multiset.Nodup (es : Multiset (Event α ι)) := Multiset.coe_nodup.mpr hf.nodup
  have hmem : ∀ e' ∈ e ::ₘ R, e' ∈ es := fun e' he' =>
    Multiset.mem_coe.mp (Multiset.mem_of_le (hR.trans hT) he')
  have he := hmem e (Multiset.mem_cons_self e R)
  have hheads : heads (affecting s0 (e ::ₘ R)) = next ::ₘ heads (affecting s0 R) := by
    rw [affecting_cons_pos ha, heads_cons, hto]
    rfl
  have hcard := Multiset.card_erase_add_one hA
  by_cases hall : ∃ e' ∈ es, s0.affectedBy e'.stamp ∧ e' ∉ e ::ₘ R
  · -- another event is outstanding, which replaces a child that is awaited
    obtain ⟨e', he', ha', hnot'⟩ := hall
    obtain ⟨e', he', hnot, hfrom⟩ :=
      hf.exists_awaited hw hR (hf.known e' he') he' rfl ha' hnot'
    rw [Multiset.mem_cons, not_or] at hnot
    have hfrom : e'.from_ ∈ W ∨ e'.from_ ∈ tails (affecting s0 T) + heads (affecting s0 R) ∧
        s0.portQueue e'.from_ = [] := by
      refine hfrom.imp id fun ⟨hopened, hempty⟩ => ⟨?_, hempty⟩
      rw [hheads, Multiset.add_cons, Multiset.mem_cons] at hopened
      exact hopened.resolve_left fun heq => hq (heq ▸ hempty)
    have hA' := (h.exists_pending (hf.notMem_from ((Multiset.le_cons_self R e).trans
      (hR.trans hT)) he' hnot.2) hw.ports hfrom).1
    have hne : e'.from_ ≠ e.from_ := fun heq => hnot.1 (hf.from_inj he' he heq)
    have hpos := Multiset.card_pos_iff_exists_mem.mpr ⟨_, (Multiset.mem_erase_of_ne hne).mpr hA'⟩
    omega
  · -- all events have taken place
    have hlasts := hw.lasts.resolve_left fun hempty =>
      hq (hempty e he ha next (by rw [hto]; rfl))
    have hes : affecting s0 (e ::ₘ R) = affecting s0 es := by
      apply le_antisymm (Multiset.filter_le_filter _ (hR.trans hT))
      apply (Multiset.le_iff_subset (hnodup.filter _)).mpr
      intro e' he'
      obtain ⟨he', ha'⟩ := mem_affecting.mp he'
      by_contra hnot
      exact hall ⟨e', Multiset.mem_coe.mp he', ha', fun hin => hnot (mem_affecting.mpr ⟨hin, ha'⟩)⟩
    have hT' : affecting s0 T = affecting s0 es :=
      le_antisymm (Multiset.filter_le_filter _ hT)
        (hes ▸ Multiset.filter_le_filter _ hR)
    have hopened : tails (affecting s0 es) + heads (affecting s0 es) =
        ((es.filter fun e => s0.affectedBy e.stamp).flatMap Event.to_ : List ι) := by
      rw [affecting_coe]
      exact tails_add_heads _
    have hcount := congrArg Multiset.card h.awaited
    rw [hT', Multiset.card_add, Multiset.card_map, Multiset.card_add, Finset.card_val] at hcount
    have hlen : (affecting s0 R).card + 1 = (es.filter fun e => s0.affectedBy e.stamp).length := by
      have hl := congrArg Multiset.card hes
      rwa [affecting_cons_pos ha, Multiset.card_cons, affecting_coe, Multiset.coe_card] at hl
    have hempty : (Multiset.filter (fun i => s0.portQueue i = [])
        (tails (affecting s0 es) + heads (affecting s0 R))).card =
          ((es.filter fun e => s0.affectedBy e.stamp).flatMap Event.to_).countP
            fun i => (s0.portQueue i).isEmpty := by
      have hfilter := congrArg (fun m => (Multiset.filter (fun i => s0.portQueue i = []) m).card)
        hopened
      rw [← hes, hheads, hes, Multiset.add_cons, 
        Multiset.filter_cons_of_neg (p := fun i => s0.portQueue i = []) _ hq,
        Multiset.filter_coe, Multiset.coe_card] at hfilter
      rw [hfilter, List.countP_eq_length_filter]
      congr 2
      funext i
      cases s0.portQueue i <;> rfl
    omega

/-- The slot of a reducer after the events in `T` arrived and those in `R` took place. -/
structure SlotInv (es : List (Event α ι)) (T R : Multiset (Event α ι)) (s0 s : Slot α ι V) :
    Prop where
  missing : s0.rdcr = none → s = s0
  ledger : ∀ r0, s0.rdcr = some r0 → ∃ W A, Waits s0 r0 W es ∧
    Ledger s0 r0 W (tails (affecting s0 T)) (affecting s0 R) A s

theorem addDownstream_of_missing (h : s.rdcr = none) (stamp : Stamp α) (l : List ι) :
    l.foldlM (Slot.addDownstream stamp) s = some s := by
  induction l with
  | nil => rfl
  | cons i l ih =>
    rw [List.foldlM_cons]
    simpa [Slot.addDownstream, h] using ih

theorem addDownstream_of_unaffected {stamp : Stamp α} (h : ¬ s.affectedBy stamp) (l : List ι) :
    l.foldlM (Slot.addDownstream stamp) s = some s := by
  induction l with
  | nil => rfl
  | cons i l ih =>
    rw [List.foldlM_cons]
    rcases hr : s.rdcr with _ | r <;> simpa [Slot.addDownstream, h, hr] using ih

theorem SlotInv.arrive (h : SlotInv es T R s0 s) (hf : Family loc es) (hT : T ≤ es) (hR : R ≤ T)
    (he : e ∈ es) (hnew : e ∉ T) :
    ∃ s', e.to_.tail.foldlM (Slot.addDownstream e.stamp) s = some s' ∧
      SlotInv es (e ::ₘ T) R s0 s' := by
  rcases hr : s0.rdcr with _ | r0
  · obtain rfl := h.missing hr
    refine ⟨s, addDownstream_of_missing hr _ _, fun _ => rfl, fun r0 hr0 => ?_⟩
    rw [hr] at hr0
    cases hr0
  · obtain ⟨W, A, hw, hl⟩ := h.ledger r0 hr
    by_cases ha : s0.affectedBy e.stamp
    · have hnot : e ∉ R := fun hin => hnew (Multiset.mem_of_le hR hin)
      have hA := hl.ne_zero hf hw hT hR he ha hnot
      have hnodup : e.to_.tail.Nodup := (hf.to_nodup he).tail
      obtain ⟨s', hs', A', -, hl'⟩ := hl.addChildren ha e.to_.tail hA hnodup fun i hi => by
        have hmem := List.mem_of_mem_tail hi
        refine ⟨fun hin => ?_, hw.closed e he ha i hmem, hw.queued e he ha i hmem⟩
        rcases exists_of_mem_opened hin with ⟨e', he', hi'⟩ | ⟨e', he', hi'⟩
        · have hin' := (mem_affecting.mp he').1
          obtain rfl := hf.to_inj he (Multiset.mem_coe.mp (Multiset.mem_of_le hT hin')) hmem
            (List.mem_of_mem_tail hi')
          exact hnew hin'
        · have hin' := Multiset.mem_of_le hR (mem_affecting.mp he').1
          obtain rfl := hf.to_inj he (Multiset.mem_coe.mp (Multiset.mem_of_le hT hin')) hmem
            (List.mem_of_mem_head? hi')
          exact hnew hin'
      refine ⟨s', hs', fun hnone => ?_, fun r hr' => ?_⟩
      · rw [hr] at hnone
        cases hnone
      · obtain rfl := Option.some.inj (hr.symm.trans hr')
        refine ⟨W, A', hw, ?_⟩
        rw [affecting_cons_pos ha, tails_cons]
        exact hl'
    · have hs : ¬ s.affectedBy e.stamp := by rwa [hl.affectedBy]
      refine ⟨s, addDownstream_of_unaffected hs _, fun hnone => h.missing hnone, fun r hr' => ?_⟩
      rw [affecting_cons_neg ha]
      exact h.ledger r hr'

theorem SlotInv.resolve (h : SlotInv es T R s0 s) (hf : Family loc es) (hT : T ≤ es) (hR : R ≤ T)
    (he : e ∈ T) (hnot : e ∉ R) (hk : e.from_ ∈ loc.downstream ∨ e.from_ ∈ tails T + heads R) :
    ∃ s', s.affectPorts e.transaction = some s' ∧ SlotInv es T (e ::ₘ R) s0 s' := by
  have hes : ∀ e ∈ T, e ∈ es := fun e he => Multiset.mem_coe.mp (Multiset.mem_of_le hT he)
  rcases hr : s0.rdcr with _ | r0
  · obtain rfl := h.missing hr
    refine ⟨s, by simp [Slot.affectPorts, hr], fun _ => rfl, fun r0 hr0 => ?_⟩
    rw [hr] at hr0
    cases hr0
  · obtain ⟨W, A, hw, hl⟩ := h.ledger r0 hr
    by_cases ha : s0.affectedBy e.stamp
    · have hfrom : e.from_ ∈ W ∨ e.from_ ∈ tails (affecting s0 T) + heads (affecting s0 R) ∧
          s0.portQueue e.from_ = [] := by
        rcases hw.awaited e (hes e he) ha with hW | ⟨e', he', ha', hmem, hq⟩
        · exact .inl hW
        · refine .inr ⟨?_, hq⟩
          rcases exists_of_mem_opened (hk.resolve_left (hf.fresh e' he' _ hmem)) with
            ⟨e'', he'', hi⟩ | ⟨e'', he'', hi⟩
          · obtain rfl := hf.to_inj he' (hes _ he'') hmem (List.mem_of_mem_tail hi)
            exact Multiset.mem_add.mpr
              (.inl (mem_tails.mpr ⟨e', mem_affecting.mpr ⟨he'', ha'⟩, hi⟩))
          · obtain rfl := hf.to_inj he' (hes _ (Multiset.mem_of_le hR he'')) hmem
              (List.mem_of_mem_head? hi)
            exact Multiset.mem_add.mpr
              (.inr (mem_heads.mpr ⟨e', mem_affecting.mpr ⟨he'', ha'⟩, hi⟩))
      have hnotR : e.from_ ∉ (affecting s0 R).map Event.from_ :=
        hf.notMem_from (hR.trans hT) (hes e he) hnot
      obtain ⟨s', hs', A', hl'⟩ : ∃ s', s.affectPorts e.transaction = some s' ∧ ∃ A',
          Ledger s0 r0 W (tails (affecting s0 T)) (e ::ₘ affecting s0 R) A' s' := by
        rcases hto : e.to_ with _ | ⟨next, rest⟩
        · exact hl.delete ha hnotR hw.ports hfrom hto
        · have hmem : next ∈ e.to_ := by
            rw [hto]
            exact List.mem_cons_self
          have hA := (hl.exists_pending hnotR hw.ports hfrom).1
          have hR' : e ::ₘ R ≤ T := Multiset.cons_le_of_notMem hnot |>.mpr ⟨he, hR⟩
          apply hl.replace ha hnotR hw.ports hfrom hto _ (hw.closed e (hes e he) ha _ hmem)
            (hw.queued e (hes e he) ha _ hmem)
            (or_iff_not_imp_left.mpr fun hq => hl.one_lt_card hf hw hT hR' ha hA hto hq)
          intro hin
          rcases exists_of_mem_opened hin with ⟨e', he', hi⟩ | ⟨e', he', hi⟩
          · obtain rfl := hf.to_inj (hes e he) (hes e' (mem_affecting.mp he').1) hmem
              (List.mem_of_mem_tail hi)
            have hnodup := hf.to_nodup (hes e he)
            rw [hto] at hi hnodup
            exact (List.nodup_cons.mp hnodup).1 hi
          · have hin' := (mem_affecting.mp he').1
            obtain rfl := hf.to_inj (hes e he) (hes e' (Multiset.mem_of_le hR hin')) hmem
              (List.mem_of_mem_head? hi)
            exact hnot hin'
      refine ⟨s', hs', fun hnone => ?_, fun r hr' => ?_⟩
      · rw [hr] at hnone
        cases hnone
      · obtain rfl := Option.some.inj (hr.symm.trans hr')
        refine ⟨W, A', hw, ?_⟩
        rw [affecting_cons_pos ha]
        exact hl'
    · have hs : ¬ s.affectedBy e.stamp := by rwa [hl.affectedBy]
      refine ⟨s, ?_, fun hnone => h.missing hnone, fun r hr' => ?_⟩
      · rcases hr' : s.rdcr with _ | r <;> simp [Slot.affectPorts, hr', Event.transaction, hs]
      · rw [affecting_cons_neg ha]
        exact h.ledger r hr'

end Affecting

section Slotwise

variable {β γ : Type*} {f : β → Option γ}

theorem mapM_eq_some {l : List β} {l' : List γ} (h : List.Forall₂ (fun a b => f a = some b) l l') :
    l.mapM f = some l' := by
  induction h with
  | nil => rfl
  | cons h _ ih => simp [List.mapM_cons, h, ih]

theorem exists_forall₂ {δ : Type*} {P Q : δ → β → Prop} {g : β → Option β} {l0 : List δ}
    {l : List β} (h : List.Forall₂ P l0 l) (hg : ∀ d b, P d b → ∃ b', g b = some b' ∧ Q d b') :
    ∃ l', List.Forall₂ (fun a b => g a = some b) l l' ∧ List.Forall₂ Q l0 l' := by
  induction h with
  | nil => exact ⟨[], .nil, .nil⟩
  | cons h _ ih =>
    obtain ⟨b', hb, hq⟩ := hg _ _ h
    obtain ⟨l', hl, hql⟩ := ih
    exact ⟨b' :: l', .cons hb hl, .cons hq hql⟩

theorem exists_forall₂_bind {g k : β → Option β} {l l' : List β}
    (h : List.Forall₂ (fun a b => (g a).bind k = some b) l l') :
    ∃ m, List.Forall₂ (fun a b => g a = some b) l m ∧
      List.Forall₂ (fun a b => k a = some b) m l' := by
  induction h with
  | nil => exact ⟨[], .nil, .nil⟩
  | cons h _ ih =>
    obtain ⟨c, hg, hk⟩ := Option.bind_eq_some_iff.mp h
    obtain ⟨m, hm, hm'⟩ := ih
    exact ⟨c :: m, .cons hg hm, .cons hk hm'⟩

theorem forall₂_of_forall₂ {δ : Type*} {P : δ → β → Prop} {Q : β → β → Prop} {l0 : List δ}
    {l l' : List β} (h : List.Forall₂ P l0 l) (h' : List.Forall₂ P l0 l')
    (hQ : ∀ d b b', P d b → P d b' → Q b b') : List.Forall₂ Q l l' := by
  induction h generalizing l' with
  | nil =>
    cases h'
    exact .nil
  | cons h _ ih =>
    cases h' with
    | cons h' hl' => exact .cons (hQ _ _ _ h h') (ih hl')

end Slotwise

section Runs

variable [DecidableEq ι] {loc s : Locality α ι V} {es as bs : List (Event α ι)}
variable {T R : Multiset (Event α ι)} {e : Event α ι} {i : ι}

theorem foldlM_addDownstream (stamp : Stamp α) (l : List ι) {slots : List (Slot α ι V)}
    (h : List.Forall₂ (fun a b => l.foldlM (Slot.addDownstream stamp) a = some b) s.slots slots) :
    l.foldlM (Locality.addDownstream stamp) s = some { s with
      downstream := s.downstream ++ l
      slots } := by
  induction l generalizing s with
  | nil =>
    have heq : List.Forall₂ (· = ·) s.slots slots := h.imp fun _ _ h => Option.some.inj h
    rw [List.forall₂_eq_eq_eq] at heq
    rw [List.append_nil, ← heq]
    rfl
  | cons i l ih =>
    simp only [List.foldlM_cons] at h
    obtain ⟨m, hm, hl⟩ := exists_forall₂_bind h
    have hstep : s.addDownstream stamp i = some { s with
        downstream := s.downstream ++ [i]
        slots := m } := by
      unfold Locality.addDownstream
      rw [mapM_eq_some hm]
      rfl
    rw [List.foldlM_cons, hstep]
    refine (ih hl).trans ?_
    simp

structure Inv (loc : Locality α ι V) (es : List (Event α ι)) (T R : Multiset (Event α ι))
    (s : Locality α ι V) : Prop where
  staged : ∃ P : List (Event α ι), s.staged = P.map Event.transaction ∧ R + P = T
  downstream : (s.downstream : Multiset ι) + R.map Event.from_ =
    loc.downstream + (tails T + heads R)
  slots : List.Forall₂ (SlotInv es T R) loc.slots s.slots

theorem perm_replace {l : List ι} {a : ι} (b : ι) (h : a ∈ l) :
    (l.replace a b).Perm (b :: l.erase a) := by
  induction l with
  | nil => cases h
  | cons c l ih =>
    by_cases hc : c = a
    · subst hc
      simp [List.replace]
    · have hca : (a == c) = false := by simpa using Ne.symm hc
      have hcb : (c == a) = false := by simpa using hc
      rw [List.replace_cons, hca, List.erase_cons, hcb]
      exact ((ih (List.mem_of_ne_of_mem (Ne.symm hc) h)).cons c).trans (.swap ..)

theorem Inv.resolve {P : List (Event α ι)} (h : Inv loc es T R s) (hf : Family loc es)
    (hT : T ≤ es) (hstaged : s.staged = P.map Event.transaction) (hP : R + P = T)
    (k : Fin s.staged.length) (hk : (s.staged.get k).from_ ∈ s.downstream) :
    ∃ u, s.resolve (s.staged.get k) = some u ∧ ∃ e ∈ P,
      Inv loc es T (e ::ₘ R) { u with staged := s.staged.eraseIdx k } := by
  have hlen : s.staged.length = P.length := by rw [hstaged, List.length_map]
  have hlt : k < P.length := hlen ▸ k.isLt
  have hget : s.staged.get k = P[k].transaction := by
    simp [hstaged]
  have hmem : P[k] ∈ P := List.getElem_mem hlt
  have hperm : (P : Multiset (Event α ι)) = P[k] ::ₘ (P.eraseIdx k : List (Event α ι)) :=
    Multiset.coe_eq_coe.mpr (List.getElem_cons_eraseIdx_perm hlt).symm
  generalize P[k] = e at hget hmem hperm
  rw [hget] at hk ⊢
  have hk : e.from_ ∈ s.downstream := hk
  have hR : R ≤ T := hP ▸ Multiset.le_add_right R P
  have hnot : e ∉ R := by
    have hnodup := Multiset.nodup_of_le hT (Multiset.coe_nodup.mpr hf.nodup)
    rw [← hP] at hnodup
    exact fun hin => Multiset.disjoint_left.mp (Multiset.nodup_add.mp hnodup).2.2 hin hmem
  have heT : e ∈ T := hP ▸ Multiset.mem_add.mpr (.inr hmem)
  have hknown : e.from_ ∈ loc.downstream ∨ e.from_ ∈ tails T + heads R := by
    have hin : e.from_ ∈ (s.downstream : Multiset ι) + R.map Event.from_ :=
      Multiset.mem_add.mpr (.inl hk)
    rw [h.downstream] at hin
    exact Multiset.mem_add.mp hin
  obtain ⟨slots, hslots, hinv⟩ := exists_forall₂ (Q := SlotInv es T (e ::ₘ R)) h.slots
    fun d b hb => hb.resolve hf hT hR heT hnot hknown
  have hdown : (s.downstream.erase e.from_ : Multiset ι) + (e ::ₘ R).map Event.from_ =
      loc.downstream + (tails T + heads R) := by
    rw [← h.downstream, Multiset.map_cons, Multiset.add_cons, ← Multiset.cons_add,
      ← Multiset.coe_erase, Multiset.cons_erase (Multiset.mem_coe.mpr hk)]
  refine ⟨{ s with
    downstream := match e.to_.head? with
      | none => s.downstream.erase e.from_
      | some next => s.downstream.replace e.from_ next
    slots := slots }, ?_, e, hmem, ⟨P.eraseIdx k, ?_, ?_⟩, ?_, hinv⟩
  · unfold Locality.resolve
    rw [mapM_eq_some hslots]
    rfl
  · exact (congrArg (List.eraseIdx · k) hstaged).trans (List.eraseIdx_map ..)
  · rw [← hP, hperm, Multiset.cons_add, Multiset.add_cons]
  · dsimp only
    rcases hto : e.to_ with _ | ⟨next, rest⟩
    · rw [heads_cons, hto]
      simpa using hdown
    · rw [heads_cons, hto, List.head?_cons]
      dsimp only
      rw [Multiset.coe_eq_coe.mpr (perm_replace next hk), ← Multiset.cons_coe, Multiset.cons_add,
        hdown, Option.toList_some, Multiset.coe_singleton, Multiset.singleton_add,
        Multiset.add_cons, Multiset.add_cons]

def Stuck (s : Locality α ι V) : Prop := ∀ t ∈ s.staged, t.from_ ∉ s.downstream

theorem Inv.resolveRounds (hf : Family loc es) (hT : T ≤ es) (n : ℕ) (h : Inv loc es T R s)
    (hn : s.staged.length = n) :
    ∃ u, Locality.resolveRounds n s = some u ∧ ∃ R', Inv loc es T R' u ∧ Stuck u := by
  induction n generalizing s R with
  | zero =>
    refine ⟨s, rfl, R, h, ?_⟩
    intro t ht
    rw [List.length_eq_zero_iff.mp hn] at ht
    cases ht
  | succ n ih =>
    obtain ⟨P, hstaged, hP⟩ := h.staged
    unfold Locality.resolveRounds
    split
    · rename_i hfind
      refine ⟨s, rfl, R, h, fun t ht => ?_⟩
      simpa using List.findFinIdx?_eq_none_iff.mp hfind t ht
    · rename_i k hfind
      have hk : (s.staged.get k).from_ ∈ s.downstream := by
        simpa using (List.findFinIdx?_eq_some_iff.mp hfind).1
      obtain ⟨u, hu, e, -, hinv⟩ := h.resolve hf hT hstaged hP k hk
      have hlen : (s.staged.eraseIdx k).length = n := by
        rw [List.length_eraseIdx_of_lt k.isLt, hn]
        rfl
      obtain ⟨v, hv, hres⟩ := ih hinv hlen
      refine ⟨v, ?_, hres⟩
      rw [hu]
      exact hv

theorem Inv.replaceDownstream (h : Inv loc es T R s) (hf : Family loc es) (hT : e ::ₘ T ≤ es) :
    ∃ u, s.replaceDownstream e = some u ∧ ∃ R', Inv loc es (e ::ₘ T) R' u ∧ Stuck u := by
  obtain ⟨P, hstaged, hP⟩ := h.staged
  have hR : R ≤ T := hP ▸ Multiset.le_add_right R P
  have hnew : e ∉ T :=
    (Multiset.nodup_cons.mp (Multiset.nodup_of_le hT (Multiset.coe_nodup.mpr hf.nodup))).1
  have he : e ∈ es := Multiset.mem_coe.mp (Multiset.mem_of_le hT (Multiset.mem_cons_self e T))
  have hT' : T ≤ es := (Multiset.le_cons_self T e).trans hT
  obtain ⟨slots, hslots, hinv⟩ := exists_forall₂ (Q := SlotInv es (e ::ₘ T) R) h.slots
    fun d b hb => hb.arrive hf hT' hR he hnew
  have harrived : Inv loc es (e ::ₘ T) R { s with
      downstream := s.downstream ++ e.to_.tail
      slots := slots
      staged := s.staged ++ [e.transaction] } := by
    refine ⟨⟨P ++ [e], ?_, ?_⟩, ?_, hinv⟩
    · dsimp only
      rw [hstaged, List.map_append]
      rfl
    · rw [← hP, ← Multiset.coe_add, Multiset.coe_singleton, ← add_assoc, Multiset.add_comm _ {e},
        Multiset.singleton_add]
    · dsimp only
      rw [← Multiset.coe_add, add_right_comm, h.downstream, tails_cons, add_assoc, add_right_comm,
        add_comm (e.to_.tail : Multiset ι)]
  obtain ⟨u, hu, hres⟩ := harrived.resolveRounds hf hT _ rfl
  refine ⟨u, ?_, hres⟩
  unfold Locality.replaceDownstream
  rw [foldlM_addDownstream _ _ hslots]
  exact hu

/-- Every order of the events is received without a failure. -/
theorem Inv.run (hf : Family loc es) (as : List (Event α ι)) (h : Inv loc es T R s) (hs : Stuck s)
    (has : T + as = es) :
    ∃ t, as.foldlM Locality.replaceDownstream s = some t ∧ ∃ R', Inv loc es es R' t ∧ Stuck t := by
  induction as generalizing s T R with
  | nil =>
    rw [Multiset.coe_nil, Multiset.add_zero] at has
    exact ⟨s, rfl, R, has ▸ h, hs⟩
  | cons e as ih =>
    have hT : (e ::ₘ T) + (as : Multiset (Event α ι)) = es := by
      rw [← has, ← Multiset.cons_coe, Multiset.cons_add, Multiset.add_cons]
    obtain ⟨u, hu, R', h', hs'⟩ := h.replaceDownstream hf (hT ▸ Multiset.le_add_right _ _)
    obtain ⟨t, ht, hres⟩ := ih h' hs' hT
    refine ⟨t, ?_, hres⟩
    rw [List.foldlM_cons, hu]
    exact ht

omit [DecidableEq ι] in
theorem Inv.notMem_staged {P : List (Event α ι)} (h : Inv loc es es R s) (hf : Family loc es)
    (hs : Stuck s) (hstaged : s.staged = P.map Event.transaction)
    (hP : R + P = (es : Multiset (Event α ι))) (hk : Known loc.downstream es i) (he : e ∈ P)
    (hi : e.from_ = i) : False := by
  have hmem : ∀ e ∈ P, e ∈ es := fun e he =>
    Multiset.mem_coe.mp (hP ▸ Multiset.mem_add.mpr (.inr he))
  have hdis : ∀ e ∈ P, e ∉ R := by
    have hnodup := Multiset.coe_nodup.mpr hf.nodup
    rw [← hP] at hnodup
    exact fun e he hin => Multiset.disjoint_left.mp (Multiset.nodup_add.mp hnodup).2.2 hin he
  -- a child that was there or was put in is still there
  have hstuck : ∀ e ∈ P, e.from_ ∉ (loc.downstream : Multiset ι) +
      (tails (es : Multiset (Event α ι)) + heads R) := by
    intro e he hin
    rw [← h.downstream] at hin
    rcases Multiset.mem_add.mp hin with hin | hin
    · exact hs e.transaction (hstaged ▸ List.mem_map_of_mem he) hin
    · obtain ⟨e', he', heq⟩ := Multiset.mem_map.mp hin
      have hes : e' ∈ es := Multiset.mem_coe.mp (hP ▸ Multiset.mem_add.mpr (.inl he'))
      obtain rfl := hf.from_inj hes (hmem e he) heq
      exact hdis _ he he'
  induction hk generalizing e with
  | initial hds => exact hstuck e he (Multiset.mem_add.mpr (.inl (hi ▸ hds)))
  | @child e' i he' hk hi' ih =>
    subst hi
    rcases Multiset.mem_add.mp (hP ▸ (Multiset.mem_coe.mpr he' : e' ∈ (es : Multiset _))) with
      hR | hP'
    · refine hstuck e he (Multiset.mem_add.mpr (.inr ?_))
      exact mem_opened hR (Multiset.mem_coe.mpr he') hi'
    · exact ih hP' rfl

omit [DecidableEq ι] in
theorem Inv.settled (h : Inv loc es es R s) (hf : Family loc es) (hs : Stuck s) :
    s.staged = [] ∧ Inv loc es es es s := by
  obtain ⟨P, hstaged, hP⟩ := h.staged
  have hnil : P = [] := by
    apply List.eq_nil_iff_forall_not_mem.mpr
    intro e he
    have hes : e ∈ es := Multiset.mem_coe.mp (hP ▸ Multiset.mem_add.mpr (.inr he))
    exact h.notMem_staged hf hs hstaged hP (hf.known e hes) he rfl
  subst hnil
  rw [Multiset.coe_nil, Multiset.add_zero] at hP
  exact ⟨hstaged, hP ▸ h⟩

omit [DecidableEq ι] in
theorem inv_start (hf : Family loc es)
    (hw : ∀ slot ∈ loc.slots, ∀ r, slot.rdcr = some r → ∃ W, Waits slot r W es) :
    Inv loc es 0 0 loc := by
  refine ⟨⟨[], hf.unstaged, rfl⟩, rfl, List.forall₂_same.mpr fun slot hslot => ?_⟩
  refine ⟨fun _ => rfl, fun r hr => ?_⟩
  obtain ⟨W, hW⟩ := hw slot hslot r hr
  refine ⟨W, W.val, hW, rfl, rfl, fun _ _ => rfl, ?_, fun h0 => ?_, fun _ => ⟨r, hr, ?_⟩⟩
  · simp [affecting, tails, heads]
  · exact absurd (Finset.val_eq_zero.mp h0) hW.nonempty.ne_empty
  · refine ⟨?_, hW.nUstream, ?_, ?_⟩ <;> simp [affecting, tails, heads, replaced, deleted]

theorem SlotInv.agrees {s0 s s' : Slot α ι V} (h : SlotInv es T R s0 s)
    (h' : SlotInv es T R s0 s') : s.Agrees s' := by
  rcases hr : s0.rdcr with _ | r0
  · rw [h.missing hr, h'.missing hr]
    refine ⟨rfl, rfl, ?_⟩
    rw [hr]
    exact .none
  · obtain ⟨W, A, hw, hl⟩ := h.ledger r0 hr
    obtain ⟨W', A', hw', hl'⟩ := h'.ledger r0 hr
    have hcard : W.card = W'.card := by
      have := hw.nUstream.symm.trans hw'.nUstream
      omega
    have hA : A.card = A'.card := by
      have hl := congrArg Multiset.card hl.awaited
      have hl' := congrArg Multiset.card hl'.awaited
      simp only [Multiset.card_add, Finset.card_val] at hl hl'
      omega
    refine ⟨hl.imprintable.trans hl'.imprintable.symm, hl.count.trans hl'.count.symm, ?_⟩
    by_cases h0 : A = 0
    · have h0' : A' = 0 := by
        rw [h0, Multiset.card_zero] at hA
        exact Multiset.card_eq_zero.mp hA.symm
      rw [hl.complete h0, hl'.complete h0']
      exact .none
    · have h0' : A' ≠ 0 := by
        rintro rfl
        exact h0 (Multiset.card_eq_zero.mp hA)
      obtain ⟨r, hr, hold⟩ := hl.pending h0
      obtain ⟨r', hr', hold'⟩ := hl'.pending h0'
      rw [hr, hr']
      refine .some ⟨?_, ?_, ?_⟩
      · rw [hold.nUstream, hold'.nUstream]
      · exact Multiset.coe_eq_coe.mp (hold.devs.trans hold'.devs.symm)
      · exact Multiset.coe_eq_coe.mp (add_right_cancel (hold.ports.trans hold'.ports.symm))

/-- Replacements commute: every order of the events is received, nothing stays staged, and the
children and the reducers that are under way end up the same. -/
theorem replacements_commute (hf : Family loc es)
    (hw : ∀ slot ∈ loc.slots, ∀ r, slot.rdcr = some r → ∃ W, Waits slot r W es)
    (has : as.Perm es) (hbs : bs.Perm es) :
    ∃ t u, as.foldlM Locality.replaceDownstream loc = some t ∧
      bs.foldlM Locality.replaceDownstream loc = some u ∧ t.Agrees u := by
  have hstuck : Stuck loc := by
    intro t ht
    rw [hf.unstaged] at ht
    cases ht
  have hstart := inv_start hf hw
  obtain ⟨t, ht, R, h, hs⟩ := hstart.run hf as hstuck (by simpa using has)
  obtain ⟨u, hu, R', h', hs'⟩ := hstart.run hf bs hstuck (by simpa using hbs)
  obtain ⟨hnil, h⟩ := h.settled hf hs
  obtain ⟨hnil', h'⟩ := h'.settled hf hs'
  refine ⟨t, u, ht, hu, ⟨hnil, hnil'⟩, ?_, ?_⟩
  · have heq := h.downstream.trans h'.downstream.symm
    exact Multiset.coe_eq_coe.mp (add_right_cancel heq)
  · exact forall₂_of_forall₂ h.slots h'.slots fun _ _ _ hd hd' => hd.agrees hd'

/-- Child 1 is replaced by 2 and 3, and 3 is deleted. -/
def chain : List (Event Unit ℕ) := [⟨1, [2, 3], fun _ => some 0⟩, ⟨3, [], fun _ => some 0⟩]

def waiting : Locality Unit ℕ ℕ :=
  ⟨[1], [], [⟨(), 0, some ⟨2, [some 5], [1]⟩, fun _ => []⟩]⟩

theorem commute_chain : ∃ t u, chain.foldlM Locality.replaceDownstream waiting = some t ∧
    chain.reverse.foldlM Locality.replaceDownstream waiting = some u ∧ t.Agrees u := by
  have hknown : Known waiting.downstream chain 1 := .initial (List.mem_singleton_self _)
  have hf : Family waiting chain := by
    refine ⟨rfl, by decide, by decide, by decide, fun e he => ?_⟩
    rcases List.mem_pair.mp he with rfl | rfl
    · exact hknown
    · exact .child List.mem_cons_self hknown (by decide)
  apply replacements_commute hf _ (.refl _) (List.reverse_perm _)
  intro slot hslot r hr
  obtain rfl := List.mem_singleton.mp hslot
  cases hr
  refine ⟨{1}, by decide, by decide, rfl, fun e he _ => ?_, fun e he _ => ?_, fun e he _ => ?_,
    .inl fun _ _ _ _ _ => rfl⟩
  · rcases List.mem_pair.mp he with rfl | rfl
    · exact .inl (Finset.mem_singleton_self _)
    · exact .inr ⟨_, List.mem_cons_self, rfl, by decide, rfl⟩
  · rcases List.mem_pair.mp he with rfl | rfl <;> decide
  · intro i _
    exact Nat.zero_le 1

/-- Child 1 is replaced for a reduction that it has contributed to, and 2 is deleted, which the
reducer waits for. -/
def contributed : Locality Unit ℕ ℕ :=
  ⟨[1, 2], [], [⟨(), 0, some ⟨3, [some 5, some 6], [1, 2]⟩, fun _ => []⟩]⟩

def pendingSlots (loc : Locality Unit ℕ ℕ) : List Bool :=
  loc.slots.map fun s => s.rdcr.isSome

theorem pendingSlots_eq {t u : Locality Unit ℕ ℕ} (h : t.Agrees u) :
    pendingSlots t = pendingSlots u := by
  have hslots := h.slots
  unfold pendingSlots
  generalize t.slots = l at hslots
  generalize u.slots = l' at hslots
  induction hslots with
  | nil => rfl
  | @cons s s' _ _ hs _ ih =>
    have hs : s.rdcr.isSome = s'.rdcr.isSome := by
      have hrdcr := hs.rdcr
      generalize s.rdcr = r at hrdcr
      generalize s'.rdcr = r' at hrdcr
      cases hrdcr with
      | some _ => rfl
      | none => rfl
    rw [List.map_cons, List.map_cons, ih, hs]

/-- The reducer is complete if it hears of the deletion first. -/
theorem not_commute_contributed : ¬ ∀ (loc : Locality Unit ℕ ℕ) (es as bs : List (Event Unit ℕ)),
    Family loc es → as.Perm es → bs.Perm es →
    ∃ t u, as.foldlM Locality.replaceDownstream loc = some t ∧
      bs.foldlM Locality.replaceDownstream loc = some u ∧ t.Agrees u := by
  intro hall
  let replace : Event Unit ℕ := ⟨1, [3, 4], fun _ => some 0⟩
  let delete : Event Unit ℕ := ⟨2, [], fun _ => some 0⟩
  have hf : Family contributed [replace, delete] := by
    refine ⟨rfl, by decide, by decide, by decide, fun e he => .initial ?_⟩
    rcases List.mem_pair.mp he with rfl | rfl <;> decide
  obtain ⟨t, u, ht, hu, h⟩ := hall _ _ _ [delete, replace] hf (.refl _) (.swap ..)
  have hpending : some [true] = some (pendingSlots t) := congrArg (Option.map pendingSlots) ht
  have hcomplete : some [false] = some (pendingSlots u) := congrArg (Option.map pendingSlots) hu
  rw [← pendingSlots_eq h, ← hpending] at hcomplete
  cases hcomplete

end Runs

end Hypercomm.TreeBuilder.Replacement
