import Mathlib.Algebra.BigOperators.Group.Finset.Basic
import Hypercomm.TreeBuilder.Creation

/-! # Reductions survive the destruction of elements

The tree follows every run in which the news of a destruction arrives when the element that gets it
has caught up, and grows with the elements that are created. So what the endpoint gets in a
reduction was contributed by every element that took part, and once nothing is under way any more,
every reduction that all elements contributed to has arrived.
-/

namespace Hypercomm.TreeBuilder.Destruction

open Contraction

variable {ι V κ : Type*}

def Message.delivery? (m : Message ι V) : Option (Delivery ι V) :=
  match m.body with
  | .contribution count index value => some ⟨m.dest, count, index, value⟩
  | .replaceDownstream _ => none

def Message.record? (m : Message ι V) : Option (ι × Event ι) :=
  match m.body with
  | .contribution .. => none
  | .replaceDownstream event => some (m.dest, event)

section Messages

variable {x y : ι} {c : ReductionId} {a : Multiset V} {event : Event ι}
variable {ms : Multiset (Message ι V)}

@[simp] theorem deliveries_contribution :
    (⟨x, .contribution c y a⟩ ::ₘ ms).filterMap Message.delivery? =
      ⟨x, c, y, a⟩ ::ₘ ms.filterMap Message.delivery? :=
  Multiset.filterMap_cons_some Message.delivery? _ _ rfl

@[simp] theorem deliveries_replaceDownstream :
    (⟨x, .replaceDownstream event⟩ ::ₘ ms).filterMap Message.delivery? =
      ms.filterMap (Message.delivery? (V := V)) :=
  Multiset.filterMap_cons_none _ _ rfl

@[simp] theorem records_contribution :
    (⟨x, .contribution c y a⟩ ::ₘ ms).filterMap Message.record? = ms.filterMap Message.record? :=
  Multiset.filterMap_cons_none _ _ rfl

@[simp] theorem records_replaceDownstream :
    (⟨x, .replaceDownstream event⟩ ::ₘ ms).filterMap Message.record? =
      (x, event) ::ₘ ms.filterMap (Message.record? (V := V)) :=
  Multiset.filterMap_cons_some Message.record? _ _ rfl

end Messages

variable [DecidableEq ι] {T : RankedTree ι} {as : List (Action ι V κ)} {a : Action ι V κ}
variable {s t : System ι V κ} {x y : ι} {c : ReductionId}
variable {o : Element ι V κ × List (Contribution ι V κ)}

theorem Settled.silent {as' : List (Action ι V κ)} {v : View ι V κ} (h : Settled T as v)
    (hc : contributed as' = contributed as) : Settled T as' v := by
  obtain ⟨⟨A, hA⟩, hset⟩ := h
  exact ⟨⟨A, { hA with own := fun x => by rw [hc, hA.own] }⟩, hset⟩

namespace System

/-- What there is to see: destroyed elements are recorded in messages and in staged transactions. -/
def view (T : RankedTree ι) (s : System ι V κ) : View ι V κ where
  elements := s.elements
  alive := s.alive
  forwards := s.forwards
  contributions := s.inFlight.filterMap Message.delivery?
  records := s.inFlight.filterMap Message.record? +
    ∑ x ∈ T.nodes.toFinset, (s.elements x).records x
  called := s.called

/-- What is recorded elsewhere than at an element. -/
def others (T : RankedTree ι) (s : System ι V κ) (x : ι) : Multiset (ι × Event ι) :=
  s.inFlight.filterMap Message.record? +
    ∑ z ∈ T.nodes.toFinset.erase x, (s.elements z).records z

theorem view_records (hx : x ∈ T.nodes) :
    (s.view T).records = (s.elements x).records x + s.others T x := by
  unfold view others
  dsimp only
  rw [← Finset.add_sum_erase _ _ (List.mem_toFinset.mpr hx)]
  exact add_left_comm _ _ _

theorem view_send (r : Contribution ι V κ) : (send x s r).view T = (s.view T).send x r := by
  unfold send View.send
  cases r.output with
  | callback cb => rfl
  | forward up =>
    unfold view
    dsimp only
    rw [deliveries_contribution, records_contribution]

theorem view_commit (hx : x ∈ T.nodes) : (s.commit x o).view T =
    ({ s.view T with records := o.1.records x + s.others T x } : View ι V κ).put x o := by
  have hfold : ∀ (outs : List (Contribution ι V κ)) (s : System ι V κ),
      (outs.foldl (send x) s).view T = outs.foldl (View.send x) (s.view T) := by
    intro outs
    induction outs with
    | nil => exact fun _ => rfl
    | cons r outs ih =>
      intro s
      rw [List.foldl_cons, ih, view_send]
      rfl
  have hset : view T { s with elements := Function.update s.elements x o.1 } =
      { s.view T with
        elements := Function.update s.elements x o.1
        records := o.1.records x + s.others T x } := by
    have hrest : others T { s with elements := Function.update s.elements x o.1 } x =
        s.others T x := by
      refine congrArg _ (Finset.sum_congr rfl fun z hz => ?_)
      dsimp only
      rw [Function.update_of_ne (Finset.ne_of_mem_erase hz)]
    have hrecords := view_records (s := { s with elements := Function.update s.elements x o.1 }) hx
    dsimp only at hrecords
    rw [hrest, Function.update_self] at hrecords
    rw [← hrecords]
    rfl
  unfold commit View.put
  rw [hfold, hset]
  rfl

omit [DecidableEq ι] in
theorem foldl_send_eq (outs : List (Contribution ι V κ)) (s : System ι V κ) :
    outs.foldl (send x) s = { s with
      inFlight := (outs.foldl (send x) s).inFlight
      called := (outs.foldl (send x) s).called } := by
  induction outs generalizing s with
  | nil => rfl
  | cons r outs ih =>
    have hsend : send x s r = { s with
        inFlight := (send x s r).inFlight, called := (send x s r).called } := by
      unfold send
      cases r.output <;> rfl
    rw [List.foldl_cons, ih, hsend]

theorem commit_eq : s.commit x o = { s with
    elements := Function.update s.elements x o.1
    inFlight := (s.commit x o).inFlight
    called := (s.commit x o).called } :=
  foldl_send_eq o.2 { s with elements := Function.update s.elements x o.1 }

theorem commit_elements (z : ι) :
    (s.commit x o).elements z = if z = x then o.1 else s.elements z := by
  rw [commit_eq]
  exact Function.update_apply ..

theorem commit_alive : (s.commit x o).alive = s.alive := by
  rw [commit_eq]

theorem commit_members : (s.commit x o).members = s.members := by
  rw [commit_eq]

/-- What is staged waits for another transaction, and nothing is staged at an element that was
destroyed. -/
structure Tidy (s : System ι V κ) : Prop where
  stuck : ∀ x, ∀ t ∈ (s.elements x).staged, t.from_ ∉ (s.elements x).downstream
  idle : ∀ x, ¬ s.alive x → (s.elements x).staged = []

theorem Tidy.commit (h : Tidy s) (hx : s.alive x = true) (helements : t.elements = s.elements)
    (halive : t.alive = s.alive) (hstuck : ∀ t ∈ o.1.staged, t.from_ ∉ o.1.downstream) :
    Tidy (t.commit x o) := by
  constructor
  · intro z
    rw [commit_elements, helements]
    split_ifs
    · exact hstuck
    · exact h.stuck z
  · intro z hz
    rw [commit_alive, halive] at hz
    rw [commit_elements, helements, if_neg]
    · exact h.idle z hz
    · rintro rfl
      exact hz hx

/-- A system in a run, which the tree follows. -/
structure Safe (T : RankedTree ι) (as : List (Action ι V κ)) (s : System ι V κ) : Prop where
  members : s.members = T.nodes
  settled : Settled T as (s.view T)
  tidy : Tidy s

theorem Safe.mem_nodes (h : Safe T as s) (hx : s.alive x = true) : x ∈ T.nodes := by
  obtain ⟨A, hA⟩ := h.settled.corresponds
  exact hA.sound.inv.nodes x ((hA.alive x).mp hx)

theorem Safe.localContribution (h : Safe T as s) (hx : s.alive x = true) (value : V) (cb : κ) :
    ∃ o, (s.elements x).localContribution x value cb = some o ∧
      Safe T (as ++ [.contribute x value cb]) (s.commit x o) := by
  obtain ⟨o, ho, hset, hds, hst⟩ := h.settled.localContribution hx value cb
  have hrec : o.1.records x + s.others T x = (s.view T).records := by
    rw [view_records (h.mem_nodes hx)]
    unfold Element.records
    rw [hst]
    rfl
  refine ⟨o, ho, commit_members.trans h.members, ?_, h.tidy.commit hx rfl rfl ?_⟩
  · rw [view_commit (h.mem_nodes hx), hrec]
    exact hset
  · rw [hst, hds]
    exact h.tidy.stuck x

theorem Safe.receive {m : Message ι V} {rest : Multiset (Message ι V)} (h : Safe T as s)
    (hm : s.inFlight = m ::ₘ rest) (hx : s.alive m.dest = true) (ht : Timely s (.deliver m)) :
    ∃ o, (s.elements m.dest).receive m.body = some o ∧
      Safe T as (({ s with inFlight := rest } : System ι V κ).commit m.dest o) := by
  have hnode := h.mem_nodes hx
  obtain ⟨x, body⟩ := m
  cases body with
  | contribution c y a =>
    have hcon : (s.view T).contributions = ⟨x, c, y, a⟩ ::ₘ rest.filterMap Message.delivery? := by
      unfold view
      rw [hm]
      exact deliveries_contribution
    obtain ⟨o, ho, hset, hds, hkept⟩ := h.settled.receive hcon hx
    refine ⟨o, ho, commit_members.trans h.members, ?_, h.tidy.commit hx rfl rfl ?_⟩
    · have hrec : o.1.records x + ({ s with inFlight := rest } : System ι V κ).others T x =
          (({ s with inFlight := rest } : System ι V κ).view T).records := by
        rw [view_records hnode]
        unfold Element.records
        rw [hkept.staged]
        rfl
      have hview : ({ s with inFlight := rest } : System ι V κ).view T =
          { s.view T with contributions := rest.filterMap Message.delivery? } := by
        unfold view
        rw [hm, records_contribution]
      rw [view_commit hnode, hrec]
      exact hview ▸ hset
    · rw [hkept.staged, hds]
      exact h.tidy.stuck x
  | replaceDownstream event =>
    have hview : s.view T = { ({ s with inFlight := rest } : System ι V κ).view T with
        records := (x, event) ::ₘ
          (({ s with inFlight := rest } : System ι V κ).view T).records } := by
      unfold view
      rw [hm, records_replaceDownstream, deliveries_replaceDownstream, Multiset.cons_add]
    have hrec : (s.view T).records = (x, event) ::ₘ (((s.view T).elements x).records x +
        ({ s with inFlight := rest } : System ι V κ).others T x) := by
      rw [hview, view_records hnode]
      rfl
    obtain ⟨o, ho, hset, hfix⟩ := h.settled.replaceDownstream hrec hx ht.1 ht.2.1 ht.2.2
    refine ⟨o, ho, commit_members.trans h.members, ?_, h.tidy.commit hx rfl rfl hfix⟩
    rw [hview] at hset
    rw [view_commit hnode]
    exact hset

theorem Safe.disassociate {parent : ι} (h : Safe T as s) (hx : s.alive x = true)
    (hup : (s.elements x).upstream = some parent)
    (hidle : ∀ count < (s.elements x).rednCount, ((s.elements x).slots count).rdcr = none)
    (hstaged : (s.elements x).staged = []) : Safe T as (s.disassociate x parent) := by
  obtain ⟨A, hA⟩ := h.settled.corresponds
  have hidle' : ∀ count, (((s.view T).elements x).slots count).rdcr = none := by
    intro count
    by_contra hne
    obtain ⟨r, hr⟩ := Option.ne_none_iff_exists'.mp hne
    obtain ⟨p, hp, -⟩ := hA.reducer x count r hr
    have hlt := (hA.sound.inv.pending x count p hp).2.1
    rw [← hA.count] at hlt
    exact hne (hidle count hlt)
  obtain ⟨B, hB⟩ := hA.leave hx hup hidle'
  refine ⟨h.members, ⟨⟨B, ?_⟩, h.settled.settled⟩, h.tidy.stuck, ?_⟩
  · have hview : (s.disassociate x parent).view T = { s.view T with
        alive := Function.update s.alive x false
        forwards := if (s.elements x).downstream = [] then s.forwards
          else Function.update s.forwards x (some parent)
        records := (parent, ⟨x, (s.elements x).downstream, (s.elements x).rednCount⟩) ::ₘ
          (s.view T).records } := by
      unfold view System.disassociate
      dsimp only
      rw [deliveries_replaceDownstream, records_replaceDownstream, Multiset.cons_add]
    rw [hview]
    exact hB
  · intro z hz
    rcases eq_or_ne z x with rfl | hne
    · exact hstaged
    · apply h.tidy.idle z
      intro ha
      exact hz ((Function.update_of_ne hne ..).trans ha)

theorem Safe.redirect {m : Message ι V} {rest : Multiset (Message ι V)} {next : ι}
    (h : Safe T as s) (hm : s.inFlight = m ::ₘ rest) (hf : s.forwards m.dest = some next) :
    Safe T as { s with inFlight := ⟨next, m.body⟩ ::ₘ rest } := by
  obtain ⟨A, hA⟩ := h.settled.corresponds
  refine ⟨h.members, ⟨⟨A, ?_⟩, h.settled.settled⟩, h.tidy.stuck, h.tidy.idle⟩
  obtain ⟨x, body⟩ := m
  cases body with
  | contribution c y a =>
    have hcon : (s.view T).contributions = ⟨x, c, y, a⟩ ::ₘ rest.filterMap Message.delivery? := by
      unfold view
      rw [hm]
      exact deliveries_contribution
    have hview : view T { s with inFlight := ⟨next, .contribution c y a⟩ ::ₘ rest } =
        { s.view T with
          contributions := ⟨next, c, y, a⟩ ::ₘ rest.filterMap Message.delivery? } := by
      unfold view
      dsimp only
      rw [deliveries_contribution, records_contribution, hm, records_contribution]
    rw [hview]
    exact hA.redirect hcon hf
  | replaceDownstream event =>
    obtain ⟨recs, hrecs⟩ : ∃ recs, recs = rest.filterMap Message.record? +
      ∑ x ∈ T.nodes.toFinset, (s.elements x).records x := ⟨_, rfl⟩
    have hrec : (s.view T).records = (x, event) ::ₘ recs := by
      unfold view
      dsimp only
      rw [hm, records_replaceDownstream, Multiset.cons_add, hrecs]
    have hview : view T { s with inFlight := ⟨next, .replaceDownstream event⟩ ::ₘ rest } =
        { s.view T with records := (next, event) ::ₘ recs } := by
      unfold view
      dsimp only
      rw [deliveries_replaceDownstream, records_replaceDownstream, Multiset.cons_add, hm,
        deliveries_replaceDownstream, hrecs]
    rw [hview]
    exact hA.redirect_record hrec hf

theorem Safe.loopback {value : Multiset V} {buffer : List (Multiset V)} (h : Safe T as s)
    (hx : ¬ s.alive x = true)
    (hq : ((s.elements x).slots c).portQueue y = value :: buffer) :
    Safe T as (s.loopback x c y value buffer) := by
  obtain ⟨A, hA⟩ := h.settled.corresponds
  have hview : (s.loopback x c y value buffer).view T = ({ s.view T with
      contributions := ⟨x, c, y, value⟩ ::ₘ (s.view T).contributions } : View ι V κ).setSlot x c
        { (s.elements x).slots c with
          portQueue := Function.update ((s.elements x).slots c).portQueue y buffer } := by
    have hrecords : ∀ z, ((s.loopback x c y value buffer).elements z).records z =
        (s.elements z).records z := fun z => by
      rcases eq_or_ne z x with rfl | hz
      · simp [System.loopback, Element.records]
      · simp [System.loopback, hz]
    unfold view
    simp only [hrecords]
    unfold System.loopback
    dsimp only
    rw [deliveries_contribution, records_contribution]
    rfl
  refine ⟨h.members, ⟨⟨A, ?_⟩, ?_⟩, ?_, ?_⟩
  · rw [hview]
    exact hA.loopback rfl hq
  · rw [hview]
    intro z d
    rw [View.setSlot_slots]
    split_ifs with hz
    · intro r hr
      obtain ⟨p, hp, -⟩ := hA.reducer x c r hr
      exact absurd ((hA.alive x).mpr (hA.sound.inv.pending x c p hp).1) hx
    · exact h.settled.settled z d
  · intro z
    rcases eq_or_ne z x with rfl | hz
    · simpa [System.loopback] using h.tidy.stuck z
    · simpa [System.loopback, hz] using h.tidy.stuck z
  · intro z hz
    rcases eq_or_ne z x with rfl | hne
    · simpa [System.loopback] using h.tidy.idle z hz
    · simpa [System.loopback, hne] using h.tidy.idle z hz

theorem Safe.createChild (h : Safe T as s) (hx : s.alive x = true) (hy : y ∉ s.members) :
    ∃ T', T.Grows T' ∧ Safe T' (as ++ [.create x y]) (s.createChild x y) := by
  have hxn := h.mem_nodes hx
  rw [h.members] at hy
  obtain ⟨A, hA⟩ := h.settled.corresponds
  have hxy : x ≠ y := fun he => hy (he ▸ hxn)
  have hstaged : ∀ z, ((s.createChild x y).elements z).staged =
      if z = y then [] else (s.elements z).staged := by
    intro z
    rcases eq_or_ne z y with rfl | hzy
    · simp [System.createChild]
    · rcases eq_or_ne z x with rfl | hzx <;> simp [System.createChild, *]
  have hview : (s.createChild x y).view (T.graft hxn hy) = (s.view T).create x y := by
    have hnodes : (T.graft hxn hy).nodes.toFinset = insert y T.nodes.toFinset := by
      simp [RankedTree.graft]
    have hnot : y ∉ T.nodes.toFinset := fun hmem => hy (List.mem_toFinset.mp hmem)
    have hrecords : ∑ z ∈ insert y T.nodes.toFinset, ((s.createChild x y).elements z).records z =
        ∑ z ∈ T.nodes.toFinset, (s.elements z).records z := by
      unfold Element.records
      rw [Finset.sum_insert hnot, hstaged, if_pos rfl]
      refine (zero_add _).trans (Finset.sum_congr rfl fun z hz => ?_)
      rw [hstaged, if_neg]
      exact fun he => hnot (he ▸ hz)
    unfold view
    rw [hnodes, hrecords]
    rfl
  refine ⟨T.graft hxn hy, RankedTree.grows_graft hxn hy, ?_, ?_, ?_, ?_⟩
  · change s.members ++ [y] = T.nodes ++ [y]
    rw [h.members]
  · rw [hview]
    exact h.settled.create hx hxn hy
  · intro z t ht
    rw [hstaged] at ht
    split_ifs at ht with hzy
    · exact absurd ht List.not_mem_nil
    · have hstuck := h.tidy.stuck z t ht
      rcases eq_or_ne z x with rfl | hzx
      · -- what is staged is about elements of the tree
        have hrec : (z, t.event) ∈ (s.view T).records := by
          rw [view_records hxn]
          exact Multiset.mem_add.mpr (.inl (List.mem_map.mpr ⟨t, ht, rfl⟩))
        obtain ⟨o, ho⟩ := (hA.records _ hrec).owned
        have hty : t.from_ ≠ y := fun he => hy (he ▸ hA.sound.inv.mem o _ ho)
        simp [System.createChild, hzy, hstuck, hty]
      · simpa [System.createChild, hzy, hzx] using hstuck
  · intro z hz
    have hzy : z ≠ y := by
      rintro rfl
      simp [System.createChild] at hz
    rw [hstaged, if_neg hzy]
    apply h.tidy.idle z
    simpa [System.createChild, hzy] using hz

theorem Safe.step (h : Safe T as s) (ht : Timely s a) (hs : Step s a t) :
    ∃ T', T.Grows T' ∧ Safe T' (as ++ [a]) t := by
  have hquiet {b : Action ι V κ} (hb : b.record (contributed as) = contributed as)
      (hsafe : Safe T as t) : ∃ T', T.Grows T' ∧ Safe T' (as ++ [b]) t := by
    refine ⟨T, .refl T, hsafe.members, hsafe.settled.silent ?_, hsafe.tidy⟩
    rw [contributed_snoc, hb]
  cases hs with
  | contribute hx ho =>
    obtain ⟨o, ho', hsafe⟩ := h.localContribution hx _ _
    obtain rfl := Option.some.inj (ho.symm.trans ho')
    exact ⟨T, .refl T, hsafe⟩
  | create hx hc => exact h.createChild hx hc
  | destroy hx hup hidle => exact hquiet rfl (h.disassociate hx hup hidle ht)
  | deliver hm hx ho =>
    obtain ⟨o, ho', hsafe⟩ := h.receive hm hx ht
    obtain rfl := Option.some.inj (ho.symm.trans ho')
    exact hquiet rfl hsafe
  | redirect hm hf => exact hquiet rfl (h.redirect hm hf)
  | loopback hx hq => exact hquiet rfl (h.loopback hx hq)

theorem Safe.not_aborts (h : Safe T as s) (ht : Timely s a) : ¬ s.Aborts a := by
  cases a with
  | contribute x value cb =>
    rintro ⟨hx, hnone⟩
    obtain ⟨o, ho, -⟩ := h.localContribution hx value cb
    cases ho.symm.trans hnone
  | deliver m =>
    rintro ⟨hm, hx, hnone⟩
    obtain ⟨rest, hrest⟩ := Multiset.exists_cons_of_mem hm
    obtain ⟨o, ho, -⟩ := h.receive hrest hx ht
    cases ho.symm.trans hnone
  | _ => exact id

theorem Safe.start (T : RankedTree ι) : Safe T [] (System.start T : System ι V κ) := by
  have hrecords : ((System.start T : System ι V κ).view T).records = 0 := by
    simp [view, System.start, Element.records]
  refine ⟨rfl, ⟨⟨State.start T, ?_⟩, fun x c r hr => by cases hr⟩, ?_, ?_⟩
  · constructor
    · exact Sound.start T
    · exact fun x => rfl
    · exact fun x => decide_eq_true_iff
    · exact fun x y => ⟨fun hf => (by cases hf), fun hf => hf.1.elim⟩
    · exact fun x => rfl
    · exact fun x => rfl
    · exact fun x hx => T.nodup_children x hx
    · intro x hx i
      rw [State.mem_start]
      exact (T.mem_children_iff x hx i).trans (and_iff_right hx).symm
    · exact fun x c _ => rfl
    · exact fun x c r hr => by cases hr
    · intro y c
      unfold View.sent
      split_ifs
      · rfl
      · simp [View.copies, view, System.start, State.start, pieces]
    · exact fun m hm => absurd hm (Multiset.notMem_zero m)
    · exact fun x c y hq => absurd rfl hq
    · rw [hrecords]
      exact fun q hq => absurd hq (Multiset.notMem_zero q)
    · rw [hrecords]
      exact Multiset.nodup_zero
    · rintro u hu ⟨x, hx⟩
      exact absurd (State.mem_start.mp hx).2.1 hu
  · exact fun x t ht => absurd ht List.not_mem_nil
  · exact fun x _ => rfl

def Timed (T : RankedTree ι) (as : List (Action ι V κ)) (s : System ι V κ) : Prop :=
  Transition.Run (Transition.restrict Step Timely) (System.start T) as s

theorem Timed.safe (h : Timed T as s) : ∃ T', Safe T' as s := by
  refine h.invariant_labels (I := fun as s => ∃ T', Safe T' as s) ⟨T, .start T⟩ ?_
  rintro _ _ _ _ ⟨T', hsafe⟩ hs
  exact (hsafe.step hs.1 hs.2).imp fun _ => And.right

def results (s : System ι V κ) (c : ReductionId) : List (Multiset V) :=
  (s.called.filter fun r => r.1 = c).map fun r => r.2.2

/-- Whatever is under way has arrived: no message is in flight, and no contribution is in the port
queue of an element that was destroyed. -/
structure AtRest (s : System ι V κ) : Prop where
  inFlight : s.inFlight = 0
  queues : ∀ x ∈ s.members, ¬ s.alive x → ∀ y ∈ s.members, ∀ c < (s.elements y).rednCount,
    ((s.elements x).slots c).portQueue y = []

def total (s : System ι V κ) (as : List (Action ι V κ)) (c : ReductionId) : Multiset V :=
  ∑ x ∈ s.members.toFinset, ((contributed as x)[c]?.join.toList : Multiset V)

theorem results_eq {A : State ι V} (h : Corresponds T as (s.view T) A) (c : ReductionId) :
    (s.results c : Multiset (Multiset V)) = pieces (A.sent T.root c) := by
  have hsent := h.sent T.root c
  unfold View.sent at hsent
  rw [if_pos rfl] at hsent
  exact hsent

theorem total_eq {A : State ι V} (h : Corresponds T as (s.view T) A) (hm : s.members = T.nodes)
    (c : ReductionId) : ∑ x ∈ T.nodes.toFinset, A.given x c = s.total as c := by
  unfold total
  rw [hm]
  refine Finset.sum_congr rfl fun x _ => ?_
  unfold State.given
  rw [h.own]

theorem results_of_sent {A : State ι V} (h : Corresponds T as (s.view T) A)
    (hm : s.members = T.nodes) {a : Multiset V} (ha : A.sent T.root c = some a) :
    s.results c = [s.total as c] := by
  have hres := results_eq h c
  rw [ha] at hres
  rw [Multiset.coe_eq_singleton.mp hres, h.sound.inv.exact h.sound.conserves ha,
    total_eq h hm]

def chain : RankedTree ℕ where
  nodes := [0, 1, 2]
  root := 0
  parent x := if x = 1 then some 0 else if x = 2 then some 1 else none
  children x := if x = 0 then [1] else if x = 1 then [2] else []
  rank x := x
  root_mem := by decide
  parent_root := by decide
  exists_parent := by decide
  mem_children_iff := by
    have hmem : ∀ x ∈ [0, 1, 2], ∀ y ∈ (if x = 0 then [1] else if x = 1 then [2] else []),
        y ∈ [1, 2] := by decide
    intro x hx y
    by_cases hy : y ∈ [1, 2]
    · revert y
      revert x
      decide
    · constructor
      · exact fun hyx => absurd (hmem x hx y hyx) hy
      · simp only [List.mem_cons, List.not_mem_nil, or_false, not_or] at hy
        simp [hy.1, hy.2]
  nodup_children := by decide

/-- The news of a destruction concerns no reduction that was not issued yet, staged or not. -/
def isTimely (s : System ι V κ) : Action ι V κ → Bool
  | .destroy x => (s.elements x).staged.isEmpty
  | .deliver ⟨x, .replaceDownstream event⟩ =>
      let staged := (s.elements x).staged ++ [event.transaction]
      (staged.all fun t => t.stamp ≤ (s.elements x).rednCount) &&
        decide ((s.elements x).Lasts staged)
  | _ => true

omit [DecidableEq ι] in
theorem timely_of_isTimely (h : isTimely s a = true) : Timely s a := by
  cases a with
  | destroy x => exact List.isEmpty_iff.mp h
  | deliver m =>
    obtain ⟨x, body⟩ := m
    cases body with
    | contribution c y a => trivial
    | replaceDownstream event =>
      obtain ⟨hall, hlast⟩ := (Bool.and_eq_true _ _).mp h
      have hall := List.all_eq_true.mp hall
      refine ⟨?_, ?_, of_decide_eq_true hlast⟩
      · exact fun _ => of_decide_eq_true (hall event.transaction (by simp))
      · exact fun t ht _ => of_decide_eq_true (hall t ht)
  | _ => trivial

theorem run_of_exec_perform [DecidableEq V]
    (h : Transition.exec (fun s a => if isTimely s a then s.perform a else none) s as = some t) :
    Transition.Run (Transition.restrict Step Timely) s as t :=
  (Transition.run_of_exec_restrict h).mono fun _ _ _ hs =>
    ⟨timely_of_isTimely hs.1, .of_perform hs.2⟩

/-- The element in the middle is destroyed after a reduction, and another one is created. In the
next reduction the value of the last element is there before the news of the destruction. -/
def replaced : List (Action ℕ ℕ Unit) :=
  [.contribute 2 7 (), .contribute 1 8 (), .contribute 0 9 (),
    .deliver ⟨1, .contribution 0 2 {7}⟩, .deliver ⟨0, .contribution 0 1 {8, 7}⟩, .destroy 1,
    .create 0 3, .contribute 0 6 (), .contribute 2 5 (), .redirect ⟨1, .contribution 1 2 {5}⟩,
    .deliver ⟨0, .contribution 1 2 {5}⟩, .deliver ⟨0, .replaceDownstream ⟨1, [2], 1⟩⟩,
    .contribute 3 4 (), .deliver ⟨0, .contribution 1 3 {4}⟩]

theorem exists_replaced : ∃ s : System ℕ ℕ Unit, Timed chain replaced s ∧ s.inFlight = 0 ∧
    (∀ x ∈ s.members, ¬ s.alive x → ∀ y ∈ s.members, ∀ c < (s.elements y).rednCount,
      ((s.elements x).slots c).portQueue y = []) ∧
    ∀ x ∈ s.members, s.alive x = true → 1 < (contributed replaced x).length := by
  have hall : ((Transition.exec (fun s a => if isTimely s a then s.perform a else none)
      (start chain) replaced).any fun s => decide (s.inFlight = 0 ∧
        (∀ x ∈ s.members, ¬ s.alive x → ∀ y ∈ s.members, ∀ c < (s.elements y).rednCount,
          ((s.elements x).slots c).portQueue y = []) ∧
        ∀ x ∈ s.members, s.alive x = true → 1 < (contributed replaced x).length)) = true := by
    decide +kernel
  obtain ⟨s, hs, hd⟩ := (Option.any_eq_true _ _).mp hall
  exact ⟨s, run_of_exec_perform hs, of_decide_eq_true hd⟩

/-- The endpoint gets all or nothing. -/
theorem Safe.results_cases (h : Safe T as s) (c : ReductionId) :
    s.results c = [] ∨ s.results c = [s.total as c] ∧
      ∀ x, s.alive x = true → c < (contributed as x).length := by
  obtain ⟨A, hA⟩ := h.settled.corresponds
  cases ha : A.sent T.root c with
  | none =>
    have hres := results_eq hA c
    rw [ha] at hres
    exact .inl (Multiset.coe_eq_zero _ |>.mp hres)
  | some a =>
    refine .inr ⟨results_of_sent hA h.members ha, fun x hx => ?_⟩
    have hd := (hA.sound.inv.sent T.root c (by rw [ha]; exact Option.some_ne_none a)).1
    rw [← hA.own]
    exact (hA.sound.inv.done_of_root hd ((hA.alive x).mp hx)).1

/-- No call fails an assertion, and whatever is handed to a callback in a reduction is all that was
contributed to it, once. -/
theorem survives (h : Timed T as s) : (∀ a, Timely s a → ¬ s.Aborts a) ∧
    ∀ c, s.results c = [] ∨ s.results c = [s.total as c] ∧
      ∀ x, s.alive x = true → c < (contributed as x).length := by
  obtain ⟨T', hsafe⟩ := h.safe
  exact ⟨fun a => hsafe.not_aborts, hsafe.results_cases⟩

theorem survives_replaced : ∃ s : System ℕ ℕ Unit, Timed chain replaced s ∧
    (∀ a, Timely s a → ¬ s.Aborts a) ∧
    ∀ c, s.results c = [] ∨ s.results c = [s.total replaced c] ∧
      ∀ x, s.alive x = true → c < (contributed replaced x).length := by
  obtain ⟨s, h, -⟩ := exists_replaced
  exact ⟨s, h, survives h⟩

/-- When the value that was there is the last one, the port is closed while it is reopened. -/
example : (Transition.exec perform (start chain : System ℕ ℕ Unit)
    [.destroy 1, .contribute 2 7 (), .redirect ⟨1, .contribution 0 2 {7}⟩,
      .deliver ⟨0, .contribution 0 2 {7}⟩, .contribute 0 9 ()]).any
    (fun s => ((s.elements 0).replaceDownstream ⟨1, [2], 0⟩).isNone) = true := by
  decide +kernel

/-- When the news comes too early, the parent does not wait for what the element contributed. -/
example : (Transition.exec perform (start chain : System ℕ ℕ Unit)
    [.contribute 2 7 (), .destroy 2, .deliver ⟨1, .replaceDownstream ⟨2, [], 1⟩⟩,
      .contribute 1 8 (), .contribute 0 9 (), .deliver ⟨0, .contribution 0 1 {8}⟩]).any
    (fun s => decide (s.results 0 = [{8, 9}])) = true := by
  decide +kernel

theorem Safe.owned_alive {A : State ι V} (h : Safe T as s) (hA : Corresponds T as (s.view T) A)
    (hrest : s.AtRest) (hy : A.Owned y) : A.alive y := by
  induction hn : T.rank y using Nat.strong_induction_on generalizing y with
  | _ n ih =>
    by_contra hdead
    obtain ⟨q, hq, rfl⟩ := Multiset.mem_map.mp (hA.recorded y hdead hy)
    have hinv := hA.sound.inv
    have hrec := hA.records q hq
    unfold view at hq
    dsimp only at hq
    rw [hrest.inFlight, Multiset.filterMap_zero, zero_add] at hq
    obtain ⟨x, -, hqx⟩ := Multiset.mem_sum.mp hq
    obtain ⟨t, ht, rfl⟩ := List.mem_map.mp hqx
    have hx : s.alive x = true := by
      by_contra hx
      rw [h.tidy.idle x hx] at ht
      cases ht
    have hxa := (hA.alive x).mp hx
    -- Its place is a child that is known, or a child of an element that was destroyed before.
    obtain ⟨z, hz⟩ := hy
    rcases hinv.owner_cases hxa hrec.under hz with rfl | ⟨hzd, hzx⟩
    · exact h.tidy.stuck z t ht ((hA.downstream z hxa _).mpr hz)
    · have hlt := ((hinv.under z _ hz).rank_lt (hinv.mem z _ hz)).2
      exact hzd (ih _ (hn ▸ hlt) (hinv.left z hzd ⟨_, hz⟩).2 rfl)

/-- At rest, nothing was sent that somebody waits for at a port. -/
theorem Safe.sent_eq_none {A : State ι V} {p : Finset ι × Multiset V}
    (h : Safe T as s) (hA : Corresponds T as (s.view T) A) (hrest : s.AtRest)
    (hp : A.pending x c = some p) (hy : y ∈ p.1)
    (hq : ((s.elements x).slots c).portQueue y = []) : A.sent y c = none := by
  have hinv := hA.sound.inv
  obtain ⟨hxa, -, hunder⟩ := hinv.pending x c p hp
  have hyx := hunder y hy
  have hsent := hA.sent y c
  unfold View.sent at hsent
  rw [if_neg hyx.ne_root] at hsent
  have hempty : (s.view T).copies T y c = 0 := by
    unfold View.copies view
    dsimp only
    rw [hrest.inFlight, Multiset.filterMap_zero, Multiset.filter_zero, Multiset.map_zero, zero_add]
    refine Finset.sum_eq_zero fun z _ => ?_
    by_contra hne
    have hz : ((s.elements z).slots c).portQueue y ≠ [] := fun he => hne (by rw [he]; rfl)
    obtain ⟨hzn, hyz⟩ := hA.queued z c y hz
    have hza : A.alive z := by
      rw [← hA.alive]
      by_contra hd
      obtain ⟨b, -, hb, -⟩ := (hA.queue_cases z c y).resolve_left hz
      have hsome : A.sent y c ≠ none := by
        rw [hb]
        exact Option.some_ne_none b
      have hlt := (hinv.sent y c hsome).1.1
      rw [← hA.count] at hlt
      have hyn := hinv.mem_of_sent hsome
      rw [← h.members] at hzn hyn
      exact hz (hrest.queues z hzn hd y hyn c hlt)
    obtain rfl := hinv.under_unique hxa hza hyx hyz
    exact hz hq
  rw [hempty] at hsent
  cases ha : A.sent y c with
  | none => rfl
  | some a =>
    rw [ha] at hsent
    cases congrArg Multiset.card hsent

theorem Safe.results_at_rest (h : Safe T as s) (hrest : s.AtRest)
    (hall : ∀ x, s.alive x = true → c < (contributed as x).length) :
    s.results c = [s.total as c] := by
  obtain ⟨A, hA⟩ := h.settled.corresponds
  have hinv := hA.sound.inv
  have hcount : ∀ x, A.alive x → c < (A.own x).length := by
    intro x hx
    rw [hA.own]
    exact hall x ((hA.alive x).mpr hx)
  have hdone : A.Done T.root c := by
    refine hinv.done_at_rest hcount (fun y => h.owned_alive hA hrest) ?_ hinv.root
    intro x p hp
    obtain ⟨r, hr⟩ : ∃ r, (((s.view T).elements x).slots c).rdcr = some r := by
      apply Option.ne_none_iff_exists'.mp
      intro hnone
      cases hp.symm.trans (hA.idle x c hnone)
    obtain ⟨p', hp', hred⟩ := hA.reducer x c r hr
    obtain rfl := Option.some.inj (hp.symm.trans hp')
    obtain ⟨hlt, hports⟩ := h.settled.settled x c r hr
    rw [hred.nUstream] at hlt
    refine ⟨Finset.card_pos.mp (by omega), fun y hy => ?_⟩
    exact h.sent_eq_none hA hrest hp hy (hports y ((hred.wait y).mp hy).1)
  obtain ⟨a, ha⟩ := hinv.sent_root hA.sound.conserves hA.sound.rooted hdone
  exact results_of_sent hA h.members ha

/-- At rest, every reduction that all elements contributed to has been handed to its callback. -/
theorem arrives (h : Timed T as s) (hrest : s.AtRest)
    (hall : ∀ x, s.alive x = true → c < (contributed as x).length) :
    s.results c = [s.total as c] := by
  obtain ⟨T', hsafe⟩ := h.safe
  exact hsafe.results_at_rest hrest hall

theorem arrives_replaced : ∃ s : System ℕ ℕ Unit, Timed chain replaced s ∧
    s.results 1 = [s.total replaced 1] := by
  obtain ⟨s, h, hm, hq, hall⟩ := exists_replaced
  obtain ⟨T', hsafe⟩ := h.safe
  refine ⟨s, h, arrives h ⟨hm, hq⟩ fun x hx => hall x ?_ hx⟩
  rw [hsafe.members]
  exact hsafe.mem_nodes hx

end System

end Hypercomm.TreeBuilder.Destruction
