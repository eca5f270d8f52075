import Mathlib.Algebra.Order.BigOperators.Group.Finset
import Mathlib.Tactic.Abel
import Hypercomm.Tree.Contraction
import Hypercomm.TreeBuilder.Destruction

/-! # Elements and the nodes of a tree that loses nodes

The elements of a system are the nodes of a tree. A reducer is what a node waits for, and what is in
flight or in a port queue was sent and not taken. The children of an element that was destroyed are
recorded in one place, in a message or in a staged transaction.
-/

namespace Hypercomm.TreeBuilder.Destruction

open Contraction

variable {ι V κ : Type*}

structure Delivery (ι V : Type*) where
  dest : ι
  count : ReductionId
  index : ι
  value : Multiset V

/-- What there is to see of a system: a record is the place where a destroyed element is recorded,
and what is recorded about it. -/
structure View (ι V κ : Type*) where
  elements : ι → Element ι V κ
  alive : ι → Bool
  forwards : ι → Option ι
  contributions : Multiset (Delivery ι V)
  records : Multiset (ι × Event ι)
  called : List (ReductionId × κ × Multiset V)

variable [DecidableEq ι]

namespace View

def setSlot (v : View ι V κ) (x : ι) (c : ReductionId) (slot : Slot ι V κ) : View ι V κ :=
  { v with elements := Function.update v.elements x { v.elements x with
      slots := Function.update (v.elements x).slots c slot } }

omit [DecidableEq ι] in
/-- Hand a result to the callback, or send it to the parent. -/
def send (mine : ι) (v : View ι V κ) (c : Contribution ι V κ) : View ι V κ :=
  match c.output with
  | .callback cb => { v with called := v.called ++ [(c.count, cb, c.value)] }
  | .forward up => { v with contributions := ⟨up, c.count, mine, c.value⟩ ::ₘ v.contributions }

def put (v : View ι V κ) (x : ι) (o : Element ι V κ × List (Contribution ι V κ)) : View ι V κ :=
  o.2.foldl (send x) { v with elements := Function.update v.elements x o.1 }

def amend (v : View ι V κ) (x : ι) (ds : List ι) (cs : List ReductionId)
    (f : Reducer ι V κ → Reducer ι V κ) (recs : Multiset (ι × Event ι)) : View ι V κ :=
  { v with
    elements := Function.update v.elements x { v.elements x with
      downstream := ds
      slots := fun c =>
        if c ∈ cs then
          { (v.elements x).slots c with rdcr := ((v.elements x).slots c).rdcr.map f }
        else (v.elements x).slots c }
    records := recs }

/-- The contributions of an element to a reduction, in flight or in a queue. -/
def copies (T : RankedTree ι) (v : View ι V κ) (y : ι) (c : ReductionId) : Multiset (Multiset V) :=
  (v.contributions.filter fun m => m.count = c ∧ m.index = y).map Delivery.value +
    ∑ x ∈ T.nodes.toFinset, (((v.elements x).slots c).portQueue y : Multiset (Multiset V))

/-- What an element sent in a reduction and nobody took. The endpoint sends to its callback. -/
def sent (T : RankedTree ι) (v : View ι V κ) (y : ι) (c : ReductionId) : Multiset (Multiset V) :=
  if y = T.root then ((v.called.filter fun r => r.1 = c).map fun r => r.2.2 : List (Multiset V))
  else v.copies T y c

section Lemmas

variable {v : View ι V κ} {x z : ι} {c d : ReductionId} {slot : Slot ι V κ}
variable {r : Contribution ι V κ}

theorem setSlot_slots : ((v.setSlot x c slot).elements z).slots d =
    if z = x ∧ d = c then slot else (v.elements z).slots d := by
  rcases eq_or_ne z x with rfl | hz
  · rcases eq_or_ne d c with rfl | hd <;> simp [setSlot, *]
  · simp [setSlot, hz]

@[simp] theorem setSlot_rednCount :
    ((v.setSlot x c slot).elements z).rednCount = (v.elements z).rednCount := by
  rcases eq_or_ne z x with rfl | hz <;> simp [setSlot, *]

@[simp] theorem setSlot_upstream :
    ((v.setSlot x c slot).elements z).upstream = (v.elements z).upstream := by
  rcases eq_or_ne z x with rfl | hz <;> simp [setSlot, *]

@[simp] theorem setSlot_downstream :
    ((v.setSlot x c slot).elements z).downstream = (v.elements z).downstream := by
  rcases eq_or_ne z x with rfl | hz <;> simp [setSlot, *]

section Amend

variable {ds : List ι} {cs : List ReductionId} {f : Reducer ι V κ → Reducer ι V κ}
variable {recs : Multiset (ι × Event ι)}

theorem amend_rdcr : (((v.amend x ds cs f recs).elements z).slots c).rdcr =
    if z = x ∧ c ∈ cs then ((v.elements z).slots c).rdcr.map f
    else ((v.elements z).slots c).rdcr := by
  rcases eq_or_ne z x with rfl | hz
  · by_cases hc : c ∈ cs <;> simp [amend, hc]
  · simp [amend, hz]

@[simp] theorem amend_portQueue : (((v.amend x ds cs f recs).elements z).slots c).portQueue =
    ((v.elements z).slots c).portQueue := by
  rcases eq_or_ne z x with rfl | hz
  · by_cases hc : c ∈ cs <;> simp [amend, hc]
  · simp [amend, hz]

@[simp] theorem amend_upstream : ((v.amend x ds cs f recs).elements z).upstream =
    (v.elements z).upstream := by
  rcases eq_or_ne z x with rfl | hz <;> simp [amend, *]

@[simp] theorem amend_rednCount : ((v.amend x ds cs f recs).elements z).rednCount =
    (v.elements z).rednCount := by
  rcases eq_or_ne z x with rfl | hz <;> simp [amend, *]

theorem amend_downstream : ((v.amend x ds cs f recs).elements z).downstream =
    if z = x then ds else (v.elements z).downstream := by
  rcases eq_or_ne z x with rfl | hz <;> simp [amend, *]

end Amend

omit [DecidableEq ι] in
@[simp] theorem send_elements : (v.send x r).elements = v.elements := by
  unfold send
  cases r.output <;> rfl

omit [DecidableEq ι] in
@[simp] theorem send_alive : (v.send x r).alive = v.alive := by
  unfold send
  cases r.output <;> rfl

omit [DecidableEq ι] in
@[simp] theorem send_forwards : (v.send x r).forwards = v.forwards := by
  unfold send
  cases r.output <;> rfl

omit [DecidableEq ι] in
@[simp] theorem send_records : (v.send x r).records = v.records := by
  unfold send
  cases r.output <;> rfl

omit [DecidableEq ι] in
theorem mem_send {m : Delivery ι V} (hm : m ∈ (v.send x r).contributions) :
    m ∈ v.contributions ∨ ∃ up, r.output = .forward up ∧ m = ⟨up, r.count, x, r.value⟩ := by
  unfold send at hm
  cases ho : r.output with
  | callback cb =>
    rw [ho] at hm
    exact .inl hm
  | forward up =>
    rw [ho] at hm
    dsimp only at hm
    rcases Multiset.mem_cons.mp hm with hm | hm
    · exact .inr ⟨up, rfl, hm⟩
    · exact .inl hm

end Lemmas

end View

def pieces {V : Type*} (o : Option (Multiset V)) : Multiset (Multiset V) := (o.toList : List _)

/-- The output of a reducer leads to the parent, or to a callback at the endpoint. -/
def OutputFor (T : RankedTree ι) (x : ι) : Output ι κ → Prop
  | .callback _ => T.parent x = none
  | .forward up => T.parent x = some up

variable (T : RankedTree ι) (as : List (Action ι V κ))

/-- A reducer waits for the ports that no value has come to yet. -/
structure ReducerInv (A : State ι V) (x : ι) (c : ReductionId) (r : Reducer ι V κ)
    (p : Finset ι × Multiset V) : Prop where
  active : r.active = true
  nodup : r.ports.Nodup
  wait : ∀ i, i ∈ p.1 ↔ i ∈ r.ports ∧ i ∉ r.devs.map Prod.fst
  acc : combine (r.devs.map Prod.snd) = p.2
  nUstream : r.nUstream = r.devs.length + p.1.card
  output : OutputFor T x r.output
  source : ∀ i ∈ r.devs.map Prod.fst, i = x ∨ i ∈ r.ports
  silent : ∀ i ∈ r.ports, i ∉ p.1 → i ∈ T.nodes ∧ A.Silent i c

/-- What is recorded about an element that was destroyed. -/
structure Recorded (A : State ι V) (q : ι × Event ι) : Prop where
  dead : ¬ A.alive q.2.from_
  owned : A.Owned q.2.from_
  stamp : q.2.stamp = (A.own q.2.from_).length
  nodup : q.2.to_.Nodup
  children : ∀ i, i ∈ q.2.to_ ↔ i ∈ A.children q.2.from_
  under : Under T A q.2.from_ q.1

structure Corresponds (v : View ι V κ) (A : State ι V) : Prop where
  sound : Sound T A
  own : ∀ x, A.own x = contributed as x
  alive : ∀ x, v.alive x = true ↔ A.alive x
  forwards : ∀ x y, v.forwards x = some y ↔ A.forwards x ∧ T.parent x = some y
  upstream : ∀ x, (v.elements x).upstream = T.parent x
  count : ∀ x, (v.elements x).rednCount = (A.own x).length
  nodup : ∀ x, A.alive x → (v.elements x).downstream.Nodup
  downstream : ∀ x, A.alive x → ∀ i, i ∈ (v.elements x).downstream ↔ i ∈ A.children x
  idle : ∀ x c, ((v.elements x).slots c).rdcr = none → A.pending x c = none
  reducer : ∀ x c r, ((v.elements x).slots c).rdcr = some r →
    ∃ p, A.pending x c = some p ∧ ReducerInv T A x c r p
  sent : ∀ y c, v.sent T y c = pieces (A.sent y c)
  inFlight : ∀ m ∈ v.contributions, Under T A m.index m.dest
  queued : ∀ x c y, ((v.elements x).slots c).portQueue y ≠ [] → x ∈ T.nodes ∧ Under T A y x
  records : ∀ q ∈ v.records, Recorded T A q
  once : (v.records.map fun q => q.2.from_).Nodup
  recorded : ∀ u, ¬ A.alive u → A.Owned u → u ∈ v.records.map fun q => q.2.from_

section Micro

variable {T as} {v : View ι V κ} {A B : State ι V} {x y z : ι} {c d : ReductionId}
variable {slot : Slot ι V κ} {r : Reducer ι V κ} {p : Finset ι × Multiset V} {q : ι × Event ι}

omit [DecidableEq ι] in
theorem ReducerInv.mono (h : ReducerInv T A x c r p) (hs : ∀ i c, A.Silent i c → B.Silent i c) :
    ReducerInv T B x c r p :=
  ⟨h.active, h.nodup, h.wait, h.acc, h.nUstream, h.output, h.source,
    fun i hi hp => (h.silent i hi hp).imp_right (hs i c)⟩

omit [DecidableEq ι] in
theorem Recorded.mono (h : Recorded T A q) (ha : B.alive q.2.from_ → A.alive q.2.from_)
    (ho : B.Owned q.2.from_) (hl : B.own q.2.from_ = A.own q.2.from_)
    (hc : B.children q.2.from_ = A.children q.2.from_) (hf : ∀ z, A.forwards z → B.forwards z) :
    Recorded T B q :=
  ⟨fun hb => h.dead (ha hb), ho, by rw [hl]; exact h.stamp, h.nodup, by rw [hc]; exact h.children,
    h.under.mono hf⟩

theorem copies_setSlot (hq : slot.portQueue = ((v.elements x).slots c).portQueue) :
    (v.setSlot x c slot).copies T y d = v.copies T y d := by
  unfold View.copies
  refine congrArg _ (Finset.sum_congr rfl fun z _ => ?_)
  rw [View.setSlot_slots]
  split_ifs with hz
  · rw [hq, hz.1, hz.2]
  · rfl

theorem sent_setSlot (hq : slot.portQueue = ((v.elements x).slots c).portQueue) :
    (v.setSlot x c slot).sent T y d = v.sent T y d := by
  unfold View.sent
  rw [copies_setSlot hq]
  rfl

theorem sent_send (hx : x ∈ T.nodes) {o : Output ι κ} (ho : OutputFor T x o) (a : Multiset V) :
    (v.send x ⟨c, o, a⟩).sent T y d = (if y = x ∧ d = c then {a} else 0) + v.sent T y d := by
  cases o with
  | callback cb =>
    have hroot : x = T.root := by
      by_contra hne
      obtain ⟨q, -, hq, -⟩ := T.exists_parent x hx hne
      cases ho.symm.trans hq
    subst hroot
    by_cases hy : y = T.root
    · by_cases hd : d = c
      · simp [View.sent, View.send, hy, hd]
      · have hcd : ¬ c = d := fun hc => hd hc.symm
        simp [View.sent, View.send, hy, hd, hcd]
    · simp [View.sent, View.send, View.copies, hy]
  | forward up =>
    have hroot : x ≠ T.root := by
      rintro rfl
      cases ho.symm.trans T.parent_root
    by_cases hy : y = T.root
    · have hyx : y ≠ x := fun he => hroot (he ▸ hy)
      simp [View.sent, View.send, hy, hroot.symm]
    · by_cases hyd : y = x ∧ d = c
      · simp [View.sent, View.send, View.copies, hyd, hroot]
      · have hne : ¬ (c = d ∧ x = y) := fun h => hyd ⟨h.2.symm, h.1.symm⟩
        simp [View.sent, View.send, View.copies, hy, hyd, hne]

theorem Corresponds.settle (h : Corresponds T as v A) (hs : (v.elements x).slots c = slot)
    (hr : slot.rdcr = some r) (hle : r.nUstream ≤ r.devs.length) :
    ∃ B, Corresponds T as ((v.setSlot x c { slot with rdcr := none }).send x
      ⟨c, r.output, combine (r.devs.map Prod.snd)⟩) B := by
  obtain ⟨⟨w, acc⟩, hp, hinv⟩ := h.reducer x c r (hs ▸ hr)
  obtain rfl : w = ∅ := by
    have hn := hinv.nUstream
    dsimp only at hn
    exact Finset.card_eq_zero.mp (by omega)
  have hacc : combine (r.devs.map Prod.snd) = acc := hinv.acc
  have hstep : Contraction.Step T A (A.complete x c acc) := .complete hp
  have hx : x ∈ T.nodes := h.sound.inv.nodes x (h.sound.inv.pending x c _ hp).1
  refine ⟨A.complete x c acc, ?_⟩
  constructor
  · exact h.sound.step hstep
  · exact h.own
  · rw [View.send_alive]
    exact h.alive
  · rw [View.send_forwards]
    exact h.forwards
  · intro z
    rw [View.send_elements, View.setSlot_upstream, h.upstream]
  · intro z
    rw [View.send_elements, View.setSlot_rednCount]
    exact h.count z
  · intro z
    rw [View.send_elements, View.setSlot_downstream]
    exact h.nodup z
  · intro z
    rw [View.send_elements, View.setSlot_downstream]
    exact h.downstream z
  · intro z d hz
    rw [View.send_elements, View.setSlot_slots] at hz
    by_cases hzd : z = x ∧ d = c
    · obtain ⟨rfl, rfl⟩ := hzd
      exact assign_self
    · rw [if_neg hzd] at hz
      exact (assign_of_ne hzd).trans (h.idle z d hz)
  · intro z d r' hz
    rw [View.send_elements, View.setSlot_slots] at hz
    by_cases hzd : z = x ∧ d = c
    · rw [if_pos hzd] at hz
      cases hz
    · rw [if_neg hzd] at hz
      obtain ⟨p', hp', hinv'⟩ := h.reducer z d r' hz
      refine ⟨p', (assign_of_ne hzd).trans hp', hinv'.mono fun i e hi => ?_⟩
      exact hstep.silent h.sound.inv hi
  · intro y d
    rw [sent_send hx hinv.output, sent_setSlot (by rw [hs]), h.sent, hacc]
    by_cases hy : y = x ∧ d = c
    · obtain ⟨rfl, rfl⟩ := hy
      have hnone := h.sound.inv.sent_eq_none (fun hd : A.Done y d => by cases hp.symm.trans hd.2)
      have hsome : (A.complete y d acc).sent y d = some acc := assign_self
      rw [if_pos ⟨rfl, rfl⟩, hnone, hsome]
      rfl
    · have hsame : (A.complete x c acc).sent y d = A.sent y d := assign_of_ne hy
      rw [if_neg hy, hsame, zero_add]
  · intro m hm
    rcases View.mem_send hm with hm | ⟨up, ho, rfl⟩
    · exact h.inFlight m hm
    · have hout := hinv.output
      dsimp only at ho
      rw [ho] at hout
      exact ⟨up, hout, .refl⟩
  · intro z d y hz
    rw [View.send_elements, View.setSlot_slots] at hz
    by_cases hzd : z = x ∧ d = c
    · rw [if_pos hzd] at hz
      obtain ⟨rfl, rfl⟩ := hzd
      exact h.queued z d y (hs ▸ hz)
    · rw [if_neg hzd] at hz
      exact h.queued z d y hz
  · rw [View.send_records]
    exact fun q hq =>
      (h.records q hq).mono id (h.records q hq).owned rfl rfl fun _ hz => hz
  · rw [View.send_records]
    exact h.once
  · rw [View.send_records]
    exact h.recorded

theorem setSlot_self (hs : (v.elements x).slots c = slot) : v.setSlot x c slot = v := by
  unfold View.setSlot
  rw [← hs, Function.update_eq_self]
  exact congrArg (fun e => { v with elements := e }) (Function.update_eq_self x v.elements)

theorem copies_setSlot_add (hx : x ∈ T.nodes) (slot : Slot ι V κ) :
    (v.setSlot x c slot).copies T y c + (((v.elements x).slots c).portQueue y : Multiset _) =
      v.copies T y c + (slot.portQueue y : Multiset _) := by
  have hmem : x ∈ T.nodes.toFinset := List.mem_toFinset.mpr hx
  have hrest : ∑ z ∈ T.nodes.toFinset.erase x,
      ((((v.setSlot x c slot).elements z).slots c).portQueue y : Multiset (Multiset V)) =
        ∑ z ∈ T.nodes.toFinset.erase x, (((v.elements z).slots c).portQueue y : Multiset _) := by
    refine Finset.sum_congr rfl fun z hz => ?_
    rw [View.setSlot_slots, if_neg fun he => Finset.ne_of_mem_erase hz he.1]
  have hcon : (v.setSlot x c slot).contributions = v.contributions := rfl
  unfold View.copies
  rw [← Finset.add_sum_erase _ _ hmem, ← Finset.add_sum_erase _ _ hmem, hrest, hcon,
    View.setSlot_slots, if_pos ⟨rfl, rfl⟩]
  abel

theorem copies_setSlot_of_ne (slot : Slot ι V κ)
    (hne : d = c → slot.portQueue y = ((v.elements x).slots c).portQueue y) :
    (v.setSlot x c slot).copies T y d = v.copies T y d := by
  unfold View.copies
  refine congrArg _ (Finset.sum_congr rfl fun z _ => ?_)
  rw [View.setSlot_slots]
  split_ifs with hz
  · rw [hne hz.2, hz.1, hz.2]
  · rfl

theorem Corresponds.queue_cases (h : Corresponds T as v A) (x : ι) (c : ReductionId) (y : ι) :
    ((v.elements x).slots c).portQueue y = [] ∨
      ∃ a, ((v.elements x).slots c).portQueue y = [a] ∧ A.sent y c = some a ∧
        x ∈ T.nodes ∧ Under T A y x ∧ v.copies T y c = {a} := by
  by_cases hq : ((v.elements x).slots c).portQueue y = []
  · exact .inl hq
  · obtain ⟨hx, hyx⟩ := h.queued x c y hq
    have hsent := h.sent y c
    unfold View.sent at hsent
    rw [if_neg hyx.ne_root] at hsent
    have hle : (((v.elements x).slots c).portQueue y : Multiset (Multiset V)) ≤
        v.copies T y c := by
      refine le_trans ?_ (Multiset.le_add_left _ _)
      exact Finset.single_le_sum
        (f := fun z => (((v.elements z).slots c).portQueue y : Multiset (Multiset V)))
        (fun _ _ => Multiset.zero_le _) (List.mem_toFinset.mpr hx)
    rw [hsent] at hle
    cases ha : A.sent y c with
    | none =>
      rw [ha] at hle
      exact absurd (List.length_eq_zero_iff.mp (Nat.le_zero.mp (Multiset.card_le_card hle))) hq
    | some a =>
      rw [ha] at hle hsent
      have hlen : (((v.elements x).slots c).portQueue y).length ≤ 1 := Multiset.card_le_card hle
      obtain ⟨b, hb⟩ := List.length_eq_one_iff.mp
        (le_antisymm hlen (List.length_pos_iff.mpr hq))
      rw [hb] at hle
      obtain rfl : b = a := by
        have hmem := Multiset.mem_of_le hle (List.mem_singleton_self b)
        exact List.mem_singleton.mp hmem
      exact .inr ⟨b, hb, rfl, hx, hyx, hsent⟩

theorem Corresponds.flush (h : Corresponds T as v A) (hs : (v.elements x).slots c = slot)
    (hr : slot.rdcr = some r) (hy : y ∈ r.ports) {queue devs : List (ι × Deliverable V)}
    (hqueue : queue = (slot.portQueue y).map fun a => (y, some a))
    (hdevs : devs = r.devs ++ queue ∨ devs = queue ++ r.devs) :
    ∃ B, Corresponds T as (v.setSlot x c
      ⟨some { r with devs }, Function.update slot.portQueue y []⟩) B := by
  rcases h.queue_cases x c y with hq | ⟨a, hq, hsent, hx, hyx, hcopies⟩
  · rw [hs] at hq
    have hsame : devs = r.devs := by
      rw [hqueue, hq, List.map_nil, List.append_nil, List.nil_append] at hdevs
      exact hdevs.elim id id
    rw [hsame, ← hq, Function.update_eq_self, ← hr, setSlot_self hs]
    exact ⟨A, h⟩
  · obtain ⟨p, hp, hinv⟩ := h.reducer x c r (hs ▸ hr)
    rw [hs] at hq
    have hperm : devs.Perm ((y, some a) :: r.devs) := by
      rw [hqueue, hq] at hdevs
      rcases hdevs with rfl | rfl
      · exact List.perm_append_singleton _ _
      · exact .refl _
    have hyp : y ∈ p.1 := by
      by_contra hnot
      cases hsent.symm.trans (hinv.silent y hy hnot).2.1
    have hstep : Contraction.Step T A (A.take x y c (p.1.erase y) (p.2 + a)) := .take hp hyp hsent
    have hsome : A.sent y c ≠ none := by
      rw [hsent]
      exact Option.some_ne_none a
    have hdone : A.Done y c := (h.sound.inv.sent y c hsome).1
    have hyn : y ∈ T.nodes := h.sound.inv.mem_of_sent hsome
    refine ⟨A.take x y c (p.1.erase y) (p.2 + a), ?_⟩
    constructor
    · exact h.sound.step hstep
    · exact h.own
    · exact h.alive
    · exact h.forwards
    · intro z
      rw [View.setSlot_upstream, h.upstream]
    · intro z
      rw [View.setSlot_rednCount]
      exact h.count z
    · intro z
      rw [View.setSlot_downstream]
      exact h.nodup z
    · intro z
      rw [View.setSlot_downstream]
      exact h.downstream z
    · intro z d hz
      rw [View.setSlot_slots] at hz
      split_ifs at hz with hzd
      exact (assign_of_ne hzd).trans (h.idle z d hz)
    · intro z d r' hz
      rw [View.setSlot_slots] at hz
      by_cases hzd : z = x ∧ d = c
      · rw [if_pos hzd] at hz
        obtain ⟨rfl, rfl⟩ := hzd
        obtain rfl := Option.some.inj hz
        refine ⟨(p.1.erase y, p.2 + a), assign_self, hinv.active, hinv.nodup, ?_, ?_, ?_,
          hinv.output, ?_, ?_⟩
        · intro i
          rw [Finset.mem_erase, hinv.wait, (hperm.map Prod.fst).mem_iff, List.map_cons,
            List.mem_cons]
          tauto
        · have hacc := (((hperm.map Prod.snd).filterMap id).sum_eq).trans List.sum_cons
          rw [← hinv.acc, add_comm]
          exact hacc
        · have hcard := Finset.card_erase_add_one hyp
          have hn := hinv.nUstream
          have hlen := hperm.length_eq
          rw [List.length_cons] at hlen
          dsimp only
          omega
        · intro i hi
          rw [(hperm.map Prod.fst).mem_iff, List.map_cons, List.mem_cons] at hi
          rcases hi with rfl | hi
          · exact .inr hy
          · exact hinv.source i hi
        · intro i hi hip
          by_cases hiy : i = y
          · subst hiy
            exact ⟨hyn, assign_self, .inl ((Inv.take_done _ _ _ hp).mpr hdone)⟩
          · have hnot : i ∉ p.1 := fun hmem => hip (Finset.mem_erase_of_ne_of_mem hiy hmem)
            exact (hinv.silent i hi hnot).imp_right (hstep.silent h.sound.inv)
      · rw [if_neg hzd] at hz
        obtain ⟨p', hp', hinv'⟩ := h.reducer z d r' hz
        refine ⟨p', (assign_of_ne hzd).trans hp', hinv'.mono fun i e hi => ?_⟩
        exact hstep.silent h.sound.inv hi
    · intro z d
      have hold := h.sent z d
      by_cases hz : z = y ∧ d = c
      · obtain ⟨rfl, rfl⟩ := hz
        have hnone : (A.take x z d (p.1.erase z) (p.2 + a)).sent z d = none := assign_self
        have hadd := copies_setSlot_add (v := v) (y := z) (c := d) hx
          ⟨some { r with devs }, Function.update slot.portQueue z []⟩
        dsimp only at hadd
        rw [hs, hq, hcopies, Function.update_self] at hadd
        unfold View.sent
        rw [if_neg hyx.ne_root, hnone]
        exact add_right_cancel (hadd.trans (add_comm _ _))
      · have hsame : (A.take x y c (p.1.erase y) (p.2 + a)).sent z d = A.sent z d :=
          assign_of_ne hz
        rw [hsame, ← hold]
        unfold View.sent
        rw [copies_setSlot_of_ne]
        · rfl
        · intro hd
          have hne : z ≠ y := fun he => hz ⟨he, hd⟩
          dsimp only
          rw [hs, Function.update_of_ne hne]
    · exact h.inFlight
    · intro z d w hz
      rw [View.setSlot_slots] at hz
      by_cases hzd : z = x ∧ d = c
      · rw [if_pos hzd] at hz
        obtain ⟨rfl, rfl⟩ := hzd
        rcases eq_or_ne w y with rfl | hne
        · exact absurd (Function.update_self ..) hz
        · dsimp only at hz
          rw [Function.update_of_ne hne] at hz
          exact h.queued z d w (hs ▸ hz)
      · rw [if_neg hzd] at hz
        exact h.queued z d w hz
    · exact fun q hq => (h.records q hq).mono id (h.records q hq).owned rfl rfl fun _ hz => hz
    · exact h.once
    · exact h.recorded

theorem Corresponds.congr {w : View ι V κ} (h : Corresponds T as v A) (ha : w.alive = v.alive)
    (hf : w.forwards = v.forwards)
    (hu : ∀ z, (w.elements z).upstream = (v.elements z).upstream)
    (hc : ∀ z, (w.elements z).rednCount = (v.elements z).rednCount)
    (hd : ∀ z, (w.elements z).downstream = (v.elements z).downstream)
    (hr : ∀ z d, ((w.elements z).slots d).rdcr = ((v.elements z).slots d).rdcr)
    (hs : ∀ y d, w.sent T y d = v.sent T y d)
    (hm : ∀ m ∈ w.contributions, Under T A m.index m.dest)
    (hq : ∀ z d y, ((w.elements z).slots d).portQueue y ≠ [] → z ∈ T.nodes ∧ Under T A y z)
    (hrec : ∀ q ∈ w.records, Recorded T A q)
    (hfrom : (w.records.map fun q => q.2.from_) = v.records.map fun q => q.2.from_) :
    Corresponds T as w A where
  sound := h.sound
  own := h.own
  alive := by
    rw [ha]
    exact h.alive
  forwards := by
    rw [hf]
    exact h.forwards
  upstream z := (hu z).trans (h.upstream z)
  count z := (hc z).trans (h.count z)
  nodup z := by
    rw [hd]
    exact h.nodup z
  downstream z := by
    rw [hd]
    exact h.downstream z
  idle z d hz := h.idle z d ((hr z d).symm.trans hz)
  reducer z d r hz := h.reducer z d r ((hr z d).symm.trans hz)
  sent y d := (hs y d).trans (h.sent y d)
  inFlight := hm
  queued := hq
  records := hrec
  once := by
    rw [hfrom]
    exact h.once
  recorded := by
    rw [hfrom]
    exact h.recorded

theorem Corresponds.under_next (h : Corresponds T as v A) (hf : v.forwards z = some x)
    (hy : Under T A y z) : Under T A y x := by
  obtain ⟨q, hq, hr⟩ := hy
  exact ⟨q, hq, hr.tail ((h.forwards z x).mp hf)⟩

theorem Corresponds.redirect {rest : Multiset (Delivery ι V)} {m : Delivery ι V}
    (h : Corresponds T as v A) (hm : v.contributions = m ::ₘ rest)
    (hf : v.forwards m.dest = some x) :
    Corresponds T as { v with contributions := { m with dest := x } ::ₘ rest } A := by
  apply h.congr
  · rfl
  · rfl
  · exact fun _ => rfl
  · exact fun _ => rfl
  · exact fun _ => rfl
  · exact fun _ _ => rfl
  · intro y d
    by_cases hmd : m.count = d ∧ m.index = y <;> simp [View.sent, View.copies, hm, hmd]
  · intro m' hm'
    rcases Multiset.mem_cons.mp hm' with rfl | hm'
    · exact h.under_next hf (h.inFlight m (hm ▸ Multiset.mem_cons_self m rest))
    · exact h.inFlight m' (hm ▸ Multiset.mem_cons_of_mem hm')
  · exact h.queued
  · exact h.records
  · rfl

theorem Corresponds.redirect_record {rest : Multiset (ι × Event ι)}
    (h : Corresponds T as v A) (hq : v.records = q ::ₘ rest) (hf : v.forwards q.1 = some x) :
    Corresponds T as { v with records := (x, q.2) ::ₘ rest } A := by
  apply h.congr
  · rfl
  · rfl
  · exact fun _ => rfl
  · exact fun _ => rfl
  · exact fun _ => rfl
  · exact fun _ _ => rfl
  · exact fun _ _ => rfl
  · exact h.inFlight
  · exact h.queued
  · intro q' hq'
    rcases Multiset.mem_cons.mp hq' with rfl | hq'
    · have hrec := h.records q (hq ▸ Multiset.mem_cons_self q rest)
      exact ⟨hrec.dead, hrec.owned, hrec.stamp, hrec.nodup, hrec.children,
        h.under_next hf hrec.under⟩
    · exact h.records q' (hq ▸ Multiset.mem_cons_of_mem hq')
  · rw [hq, Multiset.map_cons, Multiset.map_cons]

theorem Corresponds.enqueue {rest : Multiset (Delivery ι V)} {a : Multiset V}
    (h : Corresponds T as v A) (hm : v.contributions = ⟨x, c, y, a⟩ ::ₘ rest)
    (hx : x ∈ T.nodes) (hs : (v.elements x).slots c = slot) :
    Corresponds T as (({ v with contributions := rest } : View ι V κ).setSlot x c { slot with
      portQueue := Function.update slot.portQueue y (slot.portQueue y ++ [a]) }) A := by
  have hmem : ∀ m ∈ rest, m ∈ v.contributions := fun m hm' => hm ▸ Multiset.mem_cons_of_mem hm'
  have hyx := h.inFlight _ (hm ▸ Multiset.mem_cons_self _ rest)
  apply h.congr
  · rfl
  · rfl
  · exact fun _ => View.setSlot_upstream
  · exact fun _ => View.setSlot_rednCount
  · exact fun _ => View.setSlot_downstream
  · intro z d
    rw [View.setSlot_slots]
    split_ifs with hz
    · rw [hz.1, hz.2, hs]
    · rfl
  · intro z d
    unfold View.sent
    split_ifs with hz
    · rfl
    · by_cases hzd : z = y ∧ d = c
      · obtain ⟨rfl, rfl⟩ := hzd
        have hadd := copies_setSlot_add (v := { v with contributions := rest }) (y := z) (c := d) hx
          { slot with portQueue := Function.update slot.portQueue z (slot.portQueue z ++ [a]) }
        dsimp only at hadd
        rw [hs, Function.update_self, ← Multiset.coe_add, ← add_assoc, add_right_comm] at hadd
        rw [add_right_cancel hadd]
        simp [View.copies, hm, add_comm]
      · rw [copies_setSlot_of_ne]
        · have hne : ¬ (c = d ∧ y = z) := fun he => hzd ⟨he.2.symm, he.1.symm⟩
          simp [View.copies, hm, hne]
        · intro hd
          have hne : z ≠ y := fun he => hzd ⟨he, hd⟩
          dsimp only
          rw [hs, Function.update_of_ne hne]
  · exact fun m hm' => h.inFlight m (hmem m hm')
  · intro z d w hz
    rw [View.setSlot_slots] at hz
    by_cases hzd : z = x ∧ d = c
    · rw [if_pos hzd] at hz
      obtain ⟨rfl, rfl⟩ := hzd
      rcases eq_or_ne w y with rfl | hne
      · exact ⟨hx, hyx⟩
      · dsimp only at hz
        rw [Function.update_of_ne hne] at hz
        exact h.queued z d w (hs ▸ hz)
    · rw [if_neg hzd] at hz
      exact h.queued z d w hz
  · exact h.records
  · rfl

theorem Corresponds.loopback {buffer : List (Multiset V)} {a : Multiset V}
    (h : Corresponds T as v A) (hs : (v.elements x).slots c = slot)
    (hq : slot.portQueue y = a :: buffer) :
    Corresponds T as (({ v with
      contributions := ⟨x, c, y, a⟩ ::ₘ v.contributions } : View ι V κ).setSlot x c { slot with
        portQueue := Function.update slot.portQueue y buffer }) A := by
  obtain ⟨hx, hyx⟩ := h.queued x c y (by rw [hs, hq]; exact List.cons_ne_nil _ _)
  apply h.congr
  · rfl
  · rfl
  · exact fun _ => View.setSlot_upstream
  · exact fun _ => View.setSlot_rednCount
  · exact fun _ => View.setSlot_downstream
  · intro z d
    rw [View.setSlot_slots]
    split_ifs with hz
    · rw [hz.1, hz.2, hs]
    · rfl
  · intro z d
    unfold View.sent
    split_ifs with hz
    · rfl
    · by_cases hzd : z = y ∧ d = c
      · obtain ⟨rfl, rfl⟩ := hzd
        have hadd := copies_setSlot_add
          (v := { v with contributions := ⟨x, d, z, a⟩ ::ₘ v.contributions }) (y := z) (c := d) hx
          { slot with portQueue := Function.update slot.portQueue z buffer }
        dsimp only at hadd
        rw [hs, Function.update_self, hq, ← Multiset.cons_coe, ← Multiset.singleton_add a,
          ← add_assoc] at hadd
        have hcons := add_right_cancel hadd
        have hcopies : View.copies T
            { v with contributions := ⟨x, d, z, a⟩ ::ₘ v.contributions } z d =
              v.copies T z d + {a} := by
          simp [View.copies, add_comm]
        rw [hcopies] at hcons
        exact add_right_cancel hcons
      · rw [copies_setSlot_of_ne]
        · have hne : ¬ (c = d ∧ y = z) := fun he => hzd ⟨he.2.symm, he.1.symm⟩
          simp [View.copies, hne]
        · intro hd
          have hne : z ≠ y := fun he => hzd ⟨he, hd⟩
          dsimp only
          rw [hs, Function.update_of_ne hne]
  · intro m hm
    rcases Multiset.mem_cons.mp hm with rfl | hm
    · exact hyx
    · exact h.inFlight m hm
  · intro z d w hz
    rw [View.setSlot_slots] at hz
    by_cases hzd : z = x ∧ d = c
    · rw [if_pos hzd] at hz
      obtain ⟨rfl, rfl⟩ := hzd
      rcases eq_or_ne w y with rfl | hne
      · exact ⟨hx, hyx⟩
      · dsimp only at hz
        rw [Function.update_of_ne hne] at hz
        exact h.queued z d w (hs ▸ hz)
    · rw [if_neg hzd] at hz
      exact h.queued z d w hz
  · exact h.records
  · rfl

theorem Corresponds.issue (h : Corresponds T as v A) (hx : v.alive x = true) {e : Element ι V κ}
    (he : v.elements x = e) (hs : e.slots e.rednCount = slot) (value : V) (cb : κ) :
    ∃ B, Corresponds T (as ++ [.contribute x value cb])
      (({ v with
        elements := Function.update v.elements x { e with
          rednCount := e.rednCount + 1 } } : View ι V κ).setSlot x e.rednCount { slot with
            rdcr := some {
              nUstream := e.downstream.length + 1
              output := e.output cb
              ports := e.downstream
              devs := [(x, some {value})]
              active := true } }) B := by
  have hxa := (h.alive x).mp hx
  have hstep : Contraction.Step T A (A.issue x value) := .issue hxa value
  have hn : e.rednCount = (A.own x).length := by rw [← he, h.count]
  obtain ⟨w, hw⟩ : ∃ w : View ι V κ, w = { v with
      elements := Function.update v.elements x { e with rednCount := e.rednCount + 1 } } := ⟨_, rfl⟩
  rw [← hw]
  have helt : ∀ z, (w.elements z).slots = (v.elements z).slots ∧
      (w.elements z).upstream = (v.elements z).upstream ∧
      (w.elements z).downstream = (v.elements z).downstream ∧
      (w.elements z).rednCount = (v.elements z).rednCount + if z = x then 1 else 0 := by
    intro z
    rcases eq_or_ne z x with rfl | hz
    · simp [hw, he]
    · simp [hw, hz]
  have hpending : ∀ z d, ¬ (z = x ∧ d = e.rednCount) →
      (A.issue x value).pending z d = A.pending z d := fun z d hz => by
    rw [hn] at hz
    exact assign_of_ne hz
  have hself : x ∉ e.downstream := by
    intro hmem
    rw [← he] at hmem
    exact h.sound.inv.ne_of_mem ((h.downstream x hxa x).mp hmem) rfl
  refine ⟨A.issue x value, ?_⟩
  constructor
  · exact h.sound.step hstep
  · intro z
    rw [contributed_snoc]
    change Function.update A.own x (A.own x ++ [some value]) z = _
    rcases eq_or_ne z x with rfl | hz
    · simp [Action.record, h.own]
    · simp [Action.record, h.own, hz]
  · rw [hw]
    exact h.alive
  · rw [hw]
    exact h.forwards
  · intro z
    rw [View.setSlot_upstream, (helt z).2.1, h.upstream]
  · intro z
    rw [View.setSlot_rednCount, (helt z).2.2.2]
    change _ = (Function.update A.own x (A.own x ++ [some value]) z).length
    rw [h.count]
    rcases eq_or_ne z x with rfl | hz
    · simp
    · simp [hz]
  · intro z
    rw [View.setSlot_downstream, (helt z).2.2.1]
    exact h.nodup z
  · intro z
    rw [View.setSlot_downstream, (helt z).2.2.1]
    exact h.downstream z
  · intro z d hz
    rw [View.setSlot_slots, (helt z).1] at hz
    by_cases hzd : z = x ∧ d = e.rednCount
    · rw [if_pos hzd] at hz
      cases hz
    · rw [if_neg hzd] at hz
      exact (hpending z d hzd).trans (h.idle z d hz)
  · intro z d r hz
    rw [View.setSlot_slots, (helt z).1] at hz
    by_cases hzd : z = x ∧ d = e.rednCount
    · rw [if_pos hzd] at hz
      obtain ⟨rfl, rfl⟩ := hzd
      obtain rfl := Option.some.inj hz
      have hp : (A.issue z value).pending z e.rednCount = some (A.children z, {value}) := by
        rw [hn]
        exact assign_self
      refine ⟨_, hp, rfl, ?_, ?_, ?_, ?_, ?_, ?_, ?_⟩
      · rw [← he]
        exact h.nodup z hxa
      · intro i
        dsimp only
        rw [← h.downstream z hxa i, he]
        refine (and_iff_left_of_imp fun hi => ?_).symm
        rw [List.map_singleton, List.mem_singleton]
        rintro rfl
        exact hself hi
      · exact combine_singleton _
      · have hcard : (A.children z).card = e.downstream.length := by
          have hset : A.children z = e.downstream.toFinset := by
            ext i
            rw [← h.downstream z hxa i, he, List.mem_toFinset]
          rw [hset, List.toFinset_card_of_nodup (he ▸ h.nodup z hxa)]
        dsimp only
        rw [hcard, List.length_singleton, Nat.add_comm]
      · unfold Element.output
        rw [← he, h.upstream]
        cases hpar : T.parent z <;> exact hpar
      · intro i hi
        exact .inl (List.mem_singleton.mp hi)
      · intro i hi hip
        refine absurd ?_ hip
        rw [← he] at hi
        exact (h.downstream z hxa i).mp hi
    · rw [if_neg hzd] at hz
      obtain ⟨p, hp, hinv⟩ := h.reducer z d r hz
      refine ⟨p, (hpending z d hzd).trans hp, hinv.mono fun i c hi => ?_⟩
      exact hstep.silent h.sound.inv hi
  · intro y d
    refine Eq.trans ?_ (h.sent y d)
    rw [sent_setSlot]
    · unfold View.sent View.copies
      simp only [helt]
      rw [hw]
    · rw [(helt x).1, he, hs]
  · rw [hw]
    exact h.inFlight
  · intro z d y hz
    rw [View.setSlot_slots, (helt z).1] at hz
    by_cases hzd : z = x ∧ d = e.rednCount
    · rw [if_pos hzd] at hz
      refine h.queued z d y ?_
      rw [hzd.1, hzd.2, he, hs]
      exact hz
    · rw [if_neg hzd] at hz
      exact h.queued z d y hz
  · rw [hw]
    intro q hq
    have hrec := h.records q hq
    refine hrec.mono id hrec.owned ?_ rfl fun _ hz => hz
    have hne : q.2.from_ ≠ x := fun heq => hrec.dead (heq ▸ hxa)
    exact Function.update_of_ne hne _ _
  · rw [hw]
    exact h.once
  · rw [hw]
    exact h.recorded

section Amend

variable {ds : List ι} {cs : List ReductionId} {f : Reducer ι V κ → Reducer ι V κ}
variable {recs : Multiset (ι × Event ι)}

theorem Corresponds.amend (h : Corresponds T as v A) (hstep : Contraction.Step T A B)
    (halive : B.alive = A.alive) (hforwards : B.forwards = A.forwards) (hown : B.own = A.own)
    (hsent : B.sent = A.sent) (hnd : ds.Nodup) (hds : ∀ i, i ∈ ds ↔ i ∈ B.children x)
    (hch : ∀ z, z ≠ x → A.alive z → B.children z = A.children z)
    (hnone : ∀ z c, A.pending z c = none → B.pending z c = none)
    (hother : ∀ z c p, ¬ (z = x ∧ c ∈ cs) → A.pending z c = some p → B.pending z c = some p)
    (hself : ∀ c ∈ cs, ∀ r p, A.pending x c = some p → ReducerInv T A x c r p →
      ∃ p', B.pending x c = some p' ∧ ReducerInv T B x c (f r) p')
    (hrecs : ∀ q ∈ recs, Recorded T B q) (honce : (recs.map fun q => q.2.from_).Nodup)
    (hrecorded : ∀ u, ¬ B.alive u → B.Owned u → u ∈ recs.map fun q => q.2.from_) :
    Corresponds T as (v.amend x ds cs f recs) B where
  sound := h.sound.step hstep
  own := by
    rw [hown]
    exact h.own
  alive := by
    rw [halive]
    exact h.alive
  forwards := by
    rw [hforwards]
    exact h.forwards
  upstream z := by
    rw [View.amend_upstream, h.upstream]
  count z := by
    rw [View.amend_rednCount, hown]
    exact h.count z
  nodup z hz := by
    rw [halive] at hz
    rw [View.amend_downstream]
    split_ifs
    · exact hnd
    · exact h.nodup z hz
  downstream z hz i := by
    rw [halive] at hz
    rw [View.amend_downstream]
    split_ifs with hzx
    · rw [hzx, hds]
    · rw [h.downstream z hz, hch z hzx hz]
  idle z c hz := by
    apply hnone
    apply h.idle
    rw [View.amend_rdcr] at hz
    split_ifs at hz
    · exact Option.map_eq_none_iff.mp hz
    · exact hz
  reducer z c r hz := by
    rw [View.amend_rdcr] at hz
    by_cases hzc : z = x ∧ c ∈ cs
    · rw [if_pos hzc] at hz
      obtain ⟨rfl, hc⟩ := hzc
      obtain ⟨r, hr, rfl⟩ := Option.map_eq_some_iff.mp hz
      obtain ⟨p, hp, hinv⟩ := h.reducer z c r hr
      exact hself c hc r p hp hinv
    · rw [if_neg hzc] at hz
      obtain ⟨p, hp, hinv⟩ := h.reducer z c r hz
      exact ⟨p, hother z c p hzc hp, hinv.mono fun i d hi => hstep.silent h.sound.inv hi⟩
  sent y c := by
    rw [hsent, ← h.sent]
    unfold View.sent View.copies
    simp only [View.amend_portQueue]
    rfl
  inFlight m hm := (h.inFlight m hm).mono fun z hz => hstep.forwards h.sound.inv hz
  queued z c y hz := by
    rw [View.amend_portQueue] at hz
    obtain ⟨hzn, hy⟩ := h.queued z c y hz
    exact ⟨hzn, hy.mono fun w hw => hstep.forwards h.sound.inv hw⟩
  records := hrecs
  once := honce
  recorded := hrecorded

variable {u : ι} {next : List ι} {k : ReductionId}

theorem Corresponds.affected (h : Corresponds T as v A)
    (hcs : ∀ c, c ∈ cs ↔ c < (v.elements x).rednCount ∧ k ≤ c) (hp : A.pending x c = some p) :
    c ∈ cs ↔ k ≤ c := by
  rw [hcs, h.count]
  exact and_iff_right (h.sound.inv.pending x c p hp).2.1

/-- A child of an element that was destroyed is added to the children of the element where this is
recorded. Each reducer that is affected waits for it. -/
theorem Corresponds.adopt (h : Corresponds T as v A) (hrec : v.records = (x, ⟨u, next, k⟩) ::ₘ recs)
    (hx : v.alive x = true) (hy : y ∈ next) (hk : k ≤ (v.elements x).rednCount)
    (hcs : ∀ c, c ∈ cs ↔ c < (v.elements x).rednCount ∧ k ≤ c) (hnd : ds.Nodup)
    (hds : ∀ i, i ∈ ds ↔ i = y ∨ i ∈ (v.elements x).downstream) :
    ∃ B, Corresponds T as (v.amend x ds cs
      (fun r => { r with nUstream := r.nUstream + 1, ports := r.ports ++ [y] })
      ((x, ⟨u, next.erase y, k⟩) ::ₘ recs)) B := by
  have hinv := h.sound.inv
  have hxa := (h.alive x).mp hx
  have hR := h.records _ (hrec ▸ Multiset.mem_cons_self _ recs)
  have hyu : y ∈ A.children u := (hR.children y).mp hy
  have hku : k = (A.own u).length := hR.stamp
  have hxu : x ≠ u := by
    rintro rfl
    exact hR.dead hxa
  have hle : (A.own u).length ≤ (A.own x).length := by
    rw [← hku, ← h.count]
    exact hk
  have hstep : Contraction.Step T A (A.adopt x u y) := .adopt hxa hR.dead hR.under hyu hle
  have hyx : y ≠ x := by
    have hrank := ((hinv.under u y hyu).tail (hinv.left u hR.dead ⟨y, hyu⟩).1 hR.under).rank_lt
      (hinv.mem u y hyu)
    rintro rfl
    exact lt_irrefl _ hrank.2
  have hnot : y ∉ A.children x := fun hyx' => hxu (hinv.unique x u y hyx' hyu)
  have hfrom : ∀ q ∈ recs, q.2.from_ ≠ u := by
    intro q hq heq
    have honce := h.once
    rw [hrec, Multiset.map_cons] at honce
    have hmem := Multiset.mem_map_of_mem (fun q : ι × Event ι => q.2.from_) hq
    rw [heq] at hmem
    exact (Multiset.nodup_cons.mp honce).1 hmem
  refine ⟨A.adopt x u y, h.amend hstep rfl rfl rfl rfl hnd ?_ ?_ ?_ ?_ ?_ ?_ ?_ ?_⟩
  · intro i
    rw [hds, h.downstream x hxa, Inv.mem_adopt hxu]
    constructor
    · rintro (rfl | hi)
      · exact .inl ⟨rfl, rfl⟩
      · exact .inr ⟨hi, fun he => hxu he.1⟩
    · rintro (⟨-, rfl⟩ | ⟨hi, -⟩)
      · exact .inl rfl
      · exact .inr hi
  · intro z hz hza
    have hzu : z ≠ u := fun he => hR.dead (he ▸ hza)
    simp [State.adopt, hz, hzu]
  · exact fun z c hp => Inv.rewait_eq_none.mpr hp
  · intro z c p hzc hp
    refine Inv.rewait_eq_some.mpr (.inr ⟨?_, hp⟩)
    rintro ⟨rfl, hc⟩
    rw [← hku] at hc
    exact hzc ⟨rfl, (h.affected hcs hp).mpr hc⟩
  · intro c hc r p hp hr
    have hkc : k ≤ c := (h.affected hcs hp).mp hc
    have hyp : y ∉ p.1 := by
      intro hyp
      rcases hinv.awaited x c p hp y hyp with ⟨hyx', -⟩ | ⟨ho, -⟩
      · exact hnot hyx'
      · exact ho ⟨u, hyu⟩
    have hport : y ∉ r.ports := by
      intro hport
      obtain ⟨-, hs, hd | ⟨-, ho⟩⟩ := hr.silent y hport hyp
      · exact hinv.early u c (hku ▸ hkc) y hyu hd hs
      · exact ho ⟨u, hyu⟩
    have hdev : y ∉ r.devs.map Prod.fst := by
      intro hmem
      rcases hr.source y hmem with he | hmem
      · exact hyx he
      · exact hport hmem
    refine ⟨(insert y p.1, p.2), Inv.rewait_eq_some.mpr (.inl ⟨rfl, hku ▸ hkc, p, hp, rfl⟩), ?_⟩
    constructor
    · exact hr.active
    · refine List.nodup_append.mpr ⟨hr.nodup, List.nodup_singleton y, fun i hi j hj => ?_⟩
      rintro rfl
      exact hport (List.mem_singleton.mp hj ▸ hi)
    · intro i
      rw [Finset.mem_insert, hr.wait, List.mem_append, List.mem_singleton]
      constructor
      · rintro (rfl | hi)
        · exact ⟨.inr rfl, hdev⟩
        · exact ⟨.inl hi.1, hi.2⟩
      · rintro ⟨hi | rfl, hi'⟩
        · exact .inr ⟨hi, hi'⟩
        · exact .inl rfl
    · exact hr.acc
    · dsimp only
      rw [Finset.card_insert_of_notMem hyp, hr.nUstream, Nat.add_assoc]
    · exact hr.output
    · intro i hi
      exact (hr.source i hi).imp_right fun hmem => List.mem_append_left _ hmem
    · intro i hi hip
      rw [Finset.mem_insert, not_or] at hip
      rcases List.mem_append.mp hi with hi | hi
      · exact (hr.silent i hi hip.2).imp_right (hstep.silent hinv)
      · exact absurd (List.mem_singleton.mp hi) hip.1
  · intro q hq
    rcases Multiset.mem_cons.mp hq with rfl | hq
    · refine ⟨hR.dead, (Inv.adopt_owned hxu hyu).mpr hR.owned, hku, hR.nodup.erase y, ?_, hR.under⟩
      intro i
      dsimp only
      rw [hR.nodup.mem_erase_iff, Inv.mem_adopt hxu, hR.children]
      constructor
      · exact fun hi => .inr ⟨hi.2, fun he => hi.1 he.2⟩
      · rintro (⟨rfl, -⟩ | ⟨hi, he⟩)
        · exact absurd rfl hxu
        · exact ⟨fun hiy => he ⟨rfl, hiy⟩, hi⟩
    · have hq' := h.records q (hrec ▸ Multiset.mem_cons_of_mem hq)
      refine hq'.mono id ((Inv.adopt_owned hxu hyu).mpr hq'.owned) rfl ?_ fun _ hz => hz
      have hqx : q.2.from_ ≠ x := fun he => hq'.dead (he ▸ hxa)
      simp [State.adopt, hqx, hfrom q hq]
  · have honce := h.once
    rw [hrec, Multiset.map_cons] at honce
    rwa [Multiset.map_cons]
  · intro w hw ho
    have hmem := h.recorded w hw ((Inv.adopt_owned hxu hyu).mp ho)
    rw [hrec, Multiset.map_cons] at hmem
    rwa [Multiset.map_cons]

/-- An element that was destroyed and whose children are all adopted is dropped. The reducers that
are affected do not wait for it any more. -/
theorem Corresponds.drop (h : Corresponds T as v A) (hrec : v.records = (x, ⟨u, [], k⟩) ::ₘ recs)
    (hx : v.alive x = true) (hu : u ∈ (v.elements x).downstream) (hk : k ≤ (v.elements x).rednCount)
    (hcs : ∀ c, c ∈ cs ↔ c < (v.elements x).rednCount ∧ k ≤ c) (hnd : ds.Nodup)
    (hds : ∀ i, i ∈ ds ↔ i ∈ (v.elements x).downstream ∧ i ≠ u)
    (hf : ∀ (B : State ι V) c r p, (∀ i d, A.Silent i d → B.Silent i d) →
      u ∈ T.nodes ∧ B.Silent u c →
      ReducerInv T A x c r p → u ∈ p.1 → ReducerInv T B x c (f r) (p.1.erase u, p.2)) :
    ∃ B, Corresponds T as (v.amend x ds cs f recs) B := by
  have hinv := h.sound.inv
  have hxa := (h.alive x).mp hx
  have hR := h.records _ (hrec ▸ Multiset.mem_cons_self _ recs)
  have hux : u ∈ A.children x := (h.downstream x hxa u).mp hu
  have hku : k = (A.own u).length := hR.stamp
  have hle : (A.own u).length ≤ (A.own x).length := by
    rw [← hku, ← h.count]
    exact hk
  have hempty : A.children u = ∅ :=
    Finset.eq_empty_of_forall_notMem fun i hi => List.not_mem_nil ((hR.children i).mpr hi)
  have hstep : Contraction.Step T A (A.drop x u) := .drop hxa hR.dead hux hempty hle
  have hfrom : ∀ q ∈ recs, q.2.from_ ≠ u := by
    intro q hq heq
    have honce := h.once
    rw [hrec, Multiset.map_cons] at honce
    have hmem := Multiset.mem_map_of_mem (fun q : ι × Event ι => q.2.from_) hq
    rw [heq] at hmem
    exact (Multiset.nodup_cons.mp honce).1 hmem
  refine ⟨A.drop x u, h.amend hstep rfl rfl rfl rfl hnd ?_ ?_ ?_ ?_ ?_ ?_ ?_ ?_⟩
  · intro i
    rw [hds, h.downstream x hxa, hinv.mem_drop hux]
  · exact fun z hz _ => Function.update_of_ne hz _ _
  · exact fun z c hp => Inv.rewait_eq_none.mpr hp
  · intro z c p hzc hp
    refine Inv.rewait_eq_some.mpr (.inr ⟨?_, hp⟩)
    rintro ⟨rfl, hc⟩
    rw [← hku] at hc
    exact hzc ⟨rfl, (h.affected hcs hp).mpr hc⟩
  · intro c hc r p hp hr
    have hkc : (A.own u).length ≤ c := hku ▸ (h.affected hcs hp).mp hc
    have hnd : ¬ A.Done u c := fun hd => absurd hd.1 (not_lt.mpr hkc)
    have hup : u ∈ p.1 := (hinv.waits x c p hp u hux).resolve_right fun hc => hnd hc.1
    refine ⟨(p.1.erase u, p.2), Inv.rewait_eq_some.mpr (.inl ⟨rfl, hkc, p, hp, rfl⟩), ?_⟩
    apply hf _ c r p
    · exact fun i d hi => hstep.silent hinv hi
    · exact ⟨hinv.mem x u hux, hinv.sent_eq_none hnd,
        .inr ⟨hR.dead, fun ho => ((hinv.drop_owned hux).mp ho).2 rfl⟩⟩
    · exact hr
    · exact hup
  · intro q hq
    have hq' := h.records q (hrec ▸ Multiset.mem_cons_of_mem hq)
    have howned := (hinv.drop_owned hux).mpr ⟨hq'.owned, hfrom q hq⟩
    refine hq'.mono id howned rfl ?_ fun _ hz => hz
    have hqx : q.2.from_ ≠ x := fun he => hq'.dead (he ▸ hxa)
    exact Function.update_of_ne hqx _ _
  · have honce := h.once
    rw [hrec, Multiset.map_cons] at honce
    exact (Multiset.nodup_cons.mp honce).2
  · intro w hw ho
    obtain ⟨ho, hne⟩ := (hinv.drop_owned hux).mp ho
    have hmem := h.recorded w hw ho
    rw [hrec, Multiset.map_cons] at hmem
    exact (Multiset.mem_cons.mp hmem).resolve_left hne

end Amend

theorem ReducerInv.delete {u : ι} (h : ReducerInv T A x c r p)
    (hs : ∀ i d, A.Silent i d → B.Silent i d) (hsu : u ∈ T.nodes ∧ B.Silent u c) (hu : u ∈ p.1) :
    ReducerInv T B x c { r with devs := r.devs ++ [(u, none)] } (p.1.erase u, p.2) := by
  obtain ⟨hport, hdev⟩ := (h.wait u).mp hu
  constructor
  · exact h.active
  · exact h.nodup
  · intro i
    rw [Finset.mem_erase, h.wait]
    simp only [List.map_append, List.map_cons, List.map_nil, List.mem_append, List.mem_singleton]
    tauto
  · simp only [List.map_append, List.map_cons, List.map_nil, combine_append]
    rw [h.acc]
    exact add_zero p.2
  · have hcard := Finset.card_erase_add_one hu
    have hn := h.nUstream
    simp only [List.length_append, List.length_singleton]
    omega
  · exact h.output
  · intro i hi
    rw [List.map_append, List.mem_append] at hi
    rcases hi with hi | hi
    · exact h.source i hi
    · exact .inr (List.mem_singleton.mp hi ▸ hport)
  · intro i hi hip
    by_cases hiu : i = u
    · exact hiu ▸ hsu
    · have hnot : i ∉ p.1 := fun hmem => hip (Finset.mem_erase_of_ne_of_mem hiu hmem)
      exact (h.silent i hi hnot).imp_right (hs i c)

theorem ReducerInv.close {u : ι} (h : ReducerInv T A x c r p)
    (hs : ∀ i d, A.Silent i d → B.Silent i d) (hu : u ∈ p.1) :
    ReducerInv T B x c { r with nUstream := r.nUstream - 1, ports := r.ports.erase u }
      (p.1.erase u, p.2) := by
  obtain ⟨hport, hdev⟩ := (h.wait u).mp hu
  constructor
  · exact h.active
  · exact h.nodup.erase u
  · intro i
    dsimp only
    rw [Finset.mem_erase, h.wait, h.nodup.mem_erase_iff]
    tauto
  · exact h.acc
  · have hcard := Finset.card_erase_add_one hu
    have hn := h.nUstream
    dsimp only
    omega
  · exact h.output
  · intro i hi
    refine (h.source i hi).imp_right fun hmem => (h.nodup.mem_erase_iff).mpr ⟨?_, hmem⟩
    rintro rfl
    exact hdev hi
  · intro i hi hip
    obtain ⟨hiu, hi⟩ := h.nodup.mem_erase_iff.mp hi
    have hnot : i ∉ p.1 := fun hmem => hip (Finset.mem_erase_of_ne_of_mem hiu hmem)
    exact (h.silent i hi hnot).imp_right (hs i c)

theorem Corresponds.leave {parent : ι} (h : Corresponds T as v A) (hx : v.alive x = true)
    (hup : (v.elements x).upstream = some parent)
    (hidle : ∀ c, ((v.elements x).slots c).rdcr = none) :
    ∃ B, Corresponds T as { v with
      alive := Function.update v.alive x false
      forwards := if (v.elements x).downstream = [] then v.forwards
        else Function.update v.forwards x (some parent)
      records := (parent, ⟨x, (v.elements x).downstream, (v.elements x).rednCount⟩) ::ₘ
        v.records } B := by
  have hinv := h.sound.inv
  have hxa := (h.alive x).mp hx
  have hpar : T.parent x = some parent := (h.upstream x).symm.trans hup
  have hroot : x ≠ T.root := by
    rintro rfl
    cases hpar.symm.trans T.parent_root
  have hstep : Contraction.Step T A (A.leave x) :=
    .leave hxa hroot fun c => h.idle x c (hidle c)
  have hempty : (v.elements x).downstream = [] ↔ ¬ (A.children x).Nonempty := by
    rw [Finset.not_nonempty_iff_eq_empty, Finset.eq_empty_iff_forall_notMem,
      List.eq_nil_iff_forall_not_mem]
    exact forall_congr' fun i => not_congr (h.downstream x hxa i)
  have hmono : ∀ z, A.forwards z → (A.leave x).forwards z := fun z hz =>
    hstep.forwards hinv hz
  refine ⟨A.leave x, ?_⟩
  constructor
  · exact h.sound.step hstep
  · exact h.own
  · intro z
    rw [Inv.leave_alive, ← h.alive]
    rcases eq_or_ne z x with rfl | hz
    · simp
    · simp [hz]
  · intro z y
    rw [hinv.leave_forwards hxa]
    have hold := h.forwards z y
    by_cases hds : (v.elements x).downstream = []
    · have hne := hempty.mp hds
      simp only [hds, if_true, hne, and_false, false_or]
      exact hold
    · have hne : (A.children x).Nonempty := not_not.mp fun hn => hds (hempty.mpr hn)
      simp only [hds, if_false, hne, and_true]
      rcases eq_or_ne z x with rfl | hz
      · simp [hpar]
      · simp only [Function.update_of_ne hz, hz, false_or]
        exact hold
  · exact h.upstream
  · exact h.count
  · exact fun z hz => h.nodup z (Inv.leave_alive.mp hz).2
  · exact fun z hz => h.downstream z (Inv.leave_alive.mp hz).2
  · exact h.idle
  · intro z c r hz
    obtain ⟨p, hp, hr⟩ := h.reducer z c r hz
    exact ⟨p, hp, hr.mono fun i d hi => hstep.silent hinv hi⟩
  · exact h.sent
  · exact fun m hm => (h.inFlight m hm).mono hmono
  · exact fun z c y hz => ⟨(h.queued z c y hz).1, (h.queued z c y hz).2.mono hmono⟩
  · intro q hq
    rcases Multiset.mem_cons.mp hq with rfl | hq
    · refine ⟨fun ha => (Inv.leave_alive.mp ha).1 rfl, hinv.owned x hxa hroot, h.count x,
        h.nodup x hxa, h.downstream x hxa, parent, hpar, .refl⟩
    · have hrec := h.records q hq
      exact hrec.mono (fun ha => (Inv.leave_alive.mp ha).2) hrec.owned rfl rfl hmono
  · rw [Multiset.map_cons, Multiset.nodup_cons]
    refine ⟨fun hmem => ?_, h.once⟩
    obtain ⟨q, hq, hqx⟩ := Multiset.mem_map.mp hmem
    exact (h.records q hq).dead (hqx ▸ hxa)
  · intro u hu ho
    rw [Multiset.map_cons, Multiset.mem_cons]
    by_cases hux : u = x
    · exact .inl hux
    · exact .inr (h.recorded u (fun ha => hu (Inv.leave_alive.mpr ⟨hux, ha⟩)) ho)

end Micro

def SettledAt (s : Slot ι V κ) : Prop :=
  ∀ r, s.rdcr = some r → r.devs.length < r.nUstream ∧ ∀ i ∈ r.ports, s.portQueue i = []

end Hypercomm.TreeBuilder.Destruction
