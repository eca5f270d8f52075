import Hypercomm.Core.Locality
import Hypercomm.Transition.Run
import Hypercomm.TreeBuilder.Basic

/-! # Dynamic insertion

A child that is inserted below an element gets the stamp of the element: the numbers of
its next reductions. The child counts from there on, and the element opens a port for the
child in each reduction that it contributes to afterwards.
-/

namespace Hypercomm.TreeBuilder

open Transition

variable {ι V κ : Type*}

/-- The managed array, or a section of it. -/
inductive Imprintable (ι : Type*) where
  | managed
  | sect (S : VectorSection ι)
  deriving DecidableEq

abbrev Stamp (ι : Type*) := Imprintable ι → Option ReductionId

/-- An element. An identity that was not created yet has not been used. -/
structure Manageable (ι V κ : Type*) where
  index : ι
  association : Association ι
  locality : Locality (Imprintable ι) ι V κ := {}

variable [DecidableEq ι]

def Imprintable.isMember : Imprintable ι → ι → Bool
  | managed, _ => true
  | sect S, idx => S.isMember idx

namespace Manageable

def stamp (m : Manageable ι V κ) (idx : ι) : Stamp ι := fun which =>
  if which.isMember idx then some (m.locality.identities which).rednCount else none

/-- The identities of a child are created from the stamp. It is asserted that the child is a
member of each imprintable in the stamp. -/
def ofStamp (index : ι) (association : Association ι) (stamp : Stamp ι) : Manageable ι V κ :=
  { index := index
    association := association
    locality := { identities := fun which => { rednCount := (stamp which).getD 0 } } }

/-- Register a child, with the association and the stamp to construct it. -/
def createChild (m : Manageable ι V κ) (child : ι) :
    Manageable ι V κ × Association ι × Stamp ι :=
  ({ m with association :=
      { m.association with downstream := m.association.downstream ++ [child] } },
    { upstream := [m.index], validUpstream := true },
    m.stamp child)

def upstream (m : Manageable ι V κ) : Imprintable ι → List ι
  | .managed => m.association.downstream
  | .sect S => S.upstream m.index

/-- The parent of an element, which is asserted to be known. -/
def downstream (m : Manageable ι V κ) : Imprintable ι → Option (List ι)
  | .managed => if m.association.validUpstream then some m.association.upstream else none
  | .sect S => if S.isMember m.index then some (S.downstream m.index) else none

/-- A reducer as it is created by a local contribution. -/
structure Issued (ι κ : Type*) where
  imprintable : Imprintable ι
  count : ReductionId
  ports : List (ReductionPort ι)
  output : Destination ι κ

variable (hash : Imprintable ι → HashCode)

/-- The reducer of the next local contribution. -/
def issue (m : Manageable ι V κ) (which : Imprintable ι) (cb : κ) : Option (Issued ι κ) :=
  let count := (m.locality.identities which).rednCount
  (m.downstream which).bind fun dstream =>
    (Locality.outputFor dstream ⟨hash which, count, m.index⟩ cb).map fun output =>
      { imprintable := which
        count := count
        ports := (m.upstream which).map fun up => ⟨hash which, count, up⟩
        output := output }

def localContribution (m : Manageable ι V κ) (which : Imprintable ι) (value : V) (cb : κ) :
    Option (Manageable ι V κ) :=
  (m.downstream which).bind fun dstream =>
    (m.locality.localContribution which (hash which) m.index (m.upstream which) dstream value
      cb).map fun o => { m with locality := o.1 }

def receive (m : Manageable ι V κ) (port : ReductionPort ι) (dev : Deliverable V) :
    Option (Manageable ι V κ) :=
  (m.locality.receive port dev).map fun o => { m with locality := o.1 }

end Manageable

/-- A child that was inserted, with its stamp and the reducers that it created. -/
structure Child (ι V κ : Type*) where
  stamp : Stamp ι
  element : Manageable ι V κ
  issued : List (Manageable.Issued ι κ) := []

/-- An element and the children inserted below it, with the reducers that it created. The
elements of the array are known to the runtime. -/
structure Family (ι V κ : Type*) where
  parent : Manageable ι V κ
  children : ι → Option (Child ι V κ) := fun _ => none
  known : List ι
  issued : List (Manageable.Issued ι κ) := []

namespace Family

inductive Event (ι V κ : Type*)
  | createChild (child : ι)
  | localContribution (which : Imprintable ι) (value : V) (cb : κ)
  | receive (port : ReductionPort ι) (dev : Deliverable V)
  /-- a local contribution at a child -/
  | childContribution (child : ι) (which : Imprintable ι) (value : V) (cb : κ)
  | childReceive (child : ι) (port : ReductionPort ι) (dev : Deliverable V)

variable (hash : Imprintable ι → HashCode)

/-- No child was inserted yet. The children that the parent has are known. -/
def start (parent : Manageable ι V κ) (others : List ι) : Family ι V κ :=
  { parent := parent, known := parent.index :: parent.association.downstream ++ others }

/-- It is fatal to insert an element that exists. -/
def createChild (s : Family ι V κ) (child : ι) : Option (Family ι V κ) :=
  if child ∈ s.known then none
  else
    let created := s.parent.createChild child
    some { s with
      parent := created.1
      children := Function.update s.children child (some
        { stamp := created.2.2, element := .ofStamp child created.2.1 created.2.2 })
      known := child :: s.known }

def localContribution (s : Family ι V κ) (which : Imprintable ι) (value : V) (cb : κ) :
    Option (Family ι V κ) :=
  (s.parent.issue hash which cb).bind fun r =>
    (s.parent.localContribution hash which value cb).map fun parent =>
      { s with parent := parent, issued := s.issued ++ [r] }

def childContribution (s : Family ι V κ) (child : ι) (which : Imprintable ι) (value : V)
    (cb : κ) : Option (Family ι V κ) :=
  (s.children child).bind fun c => (c.element.issue hash which cb).bind fun r =>
    (c.element.localContribution hash which value cb).map fun element =>
      { s with children := Function.update s.children child (some
          { c with element := element, issued := c.issued ++ [r] }) }

def step (s : Family ι V κ) : Event ι V κ → Option (Family ι V κ)
  | .createChild child => s.createChild child
  | .localContribution which value cb => s.localContribution hash which value cb
  | .receive port dev => (s.parent.receive port dev).map fun parent => { s with parent := parent }
  | .childContribution child which value cb => s.childContribution hash child which value cb
  | .childReceive child port dev => (s.children child).bind fun c =>
      (c.element.receive port dev).map fun element =>
        { s with children := Function.update s.children child (some
            { c with element := element }) }

def managedOf (rs : List (Manageable.Issued ι κ)) : List (Manageable.Issued ι κ) :=
  rs.filter fun r => decide (r.imprintable = .managed)

/-- The reductions of the parent and of a child line up from a number on. -/
structure Aligned (s : Family ι V κ) (x : ι) (c : Child ι V κ) (k : ReductionId) : Prop where
  stamp : c.stamp .managed = some k
  /-- the parent opens a port for the child exactly in the reductions that the child uses -/
  opens : ∀ r ∈ managedOf s.issued, (⟨hash .managed, r.count, x⟩ ∈ r.ports ↔ k ≤ r.count)
  /-- the contributions of the child carry the numbers from there on, to these ports -/
  contributes : ∀ i r, (managedOf c.issued)[i]? = some r → r.count = k + i ∧
    r.output = .forward s.parent.index ⟨hash .managed, k + i, x⟩
  /-- a contribution of the child finds its port -/
  finds : ∀ r ∈ managedOf c.issued, ∀ r' ∈ managedOf s.issued, r'.count = r.count →
    ∃ port ∈ r'.ports, r.output = .forward s.parent.index port

end Family

section Identities

open Locality

variable {α β : Type*} [DecidableEq α] {l l' : Locality α ι V κ} {com : ComponentId}
variable {cs : List (Contribution α ι V κ)} {port : ReductionPort ι} {dev : Deliverable V}
variable {ids : α → Identity} {o : Outcome α ι V κ}

def Keeps (ids : α → Identity) (o : Outcome α ι V κ) : Prop :=
  ∀ p, o = some p → p.1.identities = ids

omit [DecidableEq ι] [DecidableEq α] in
theorem Keeps.andThen {f : Locality α ι V κ → Outcome α ι V κ} (ho : Keeps ids o)
    (hf : ∀ l : Locality α ι V κ, l.identities = ids → Keeps ids (f l)) :
    Keeps ids (o.andThen f) := by
  intro p h
  obtain ⟨q, hq, h⟩ := Option.bind_eq_some_iff.mp h
  obtain ⟨r, hr, rfl⟩ := Option.map_eq_some_iff.mp h
  exact hf q.1 (ho q hq) r hr

omit [DecidableEq α] in
theorem keeps_passthru (h : l.identities = ids) (com : ComponentId) (dev : Deliverable V) :
    Keeps ids (l.passthru com dev) := by
  intro p hp
  obtain ⟨rdcr, -, rfl⟩ := Option.map_eq_some_iff.mp hp
  unfold Locality.action
  dsimp only
  split_ifs <;> exact h

omit [DecidableEq ι] [DecidableEq α] in
theorem keeps_forEach {f : β → Locality α ι V κ → Outcome α ι V κ}
    (hf : ∀ b (l : Locality α ι V κ), l.identities = ids → Keeps ids (f b l)) (bs : List β)
    (h : l.identities = ids) : Keeps ids (forEach f bs l) := by
  induction bs generalizing l with
  | nil =>
    rintro _ ⟨⟩
    exact h
  | cons b bs ih => exact (hf b l h).andThen fun l h => ih h

omit [DecidableEq α] in
theorem keeps_resyncPortQueue (com : ComponentId) (port : ReductionPort ι)
    (buffer : List (Deliverable V)) (h : l.identities = ids) :
    Keeps ids (resyncPortQueue com port buffer l) := by
  induction buffer generalizing l with
  | nil =>
    rintro _ ⟨⟩
    exact h
  | cons dev buffer ih =>
    unfold resyncPortQueue
    split_ifs
    · exact (keeps_passthru (by exact h) com dev).andThen fun l h => ih h
    · rintro _ ⟨⟩
      exact h

omit [DecidableEq α] in
theorem keeps_openPort (com : ComponentId) (port : ReductionPort ι) (h : l.identities = ids) :
    Keeps ids (openPort com port l) := by
  unfold openPort
  split_ifs
  · rintro _ ⟨⟩
  · exact keeps_resyncPortQueue com port _ (by exact h)

omit [DecidableEq α] in
theorem keeps_activateComponent (com : ComponentId) (h : l.identities = ids) :
    Keeps ids (l.activateComponent com) := by
  intro p hp
  obtain ⟨rdcr, -, hp⟩ := Option.bind_eq_some_iff.mp hp
  exact keeps_forEach (fun dev l h => keeps_passthru h com dev) _ (by exact h) p hp

omit [DecidableEq α] in
theorem keeps_receive (h : l.identities = ids) (port : ReductionPort ι) (dev : Deliverable V) :
    Keeps ids (l.receive port dev) := by
  unfold Locality.receive
  split
  · rintro _ ⟨⟩
    exact h
  · exact keeps_passthru h _ dev

end Identities

namespace Manageable

variable {m m' : Manageable ι V κ} {which : Imprintable ι} {value : V} {cb : κ}
variable {hash : Imprintable ι → HashCode} {r : Issued ι κ} {port : ReductionPort ι}
variable {dev : Deliverable V}

def next (m : Manageable ι V κ) : ReductionId := (m.locality.identities .managed).rednCount

/-- The reducer that is issued is the one that the local contribution opens ports to. -/
theorem localContribution_of_issue (hr : m.issue hash which cb = some r) :
    m.localContribution hash which value cb =
      ((((Locality.forEach (Locality.openPort (m.locality.componentAuthority + 1)) r.ports
        { m.locality with
          identities := Function.update m.locality.identities which
            (m.locality.identities which).nextReduction.2
          componentAuthority := m.locality.componentAuthority + 1
          components := Function.update m.locality.components (m.locality.componentAuthority + 1)
            (some
              { imprintable := r.imprintable
                count := r.count
                nUstream := (m.upstream which).length + 1
                ports := r.ports
                output := r.output }) }).andThen
        (Locality.activateComponent · (m.locality.componentAuthority + 1))).andThen
        (Locality.passthru · (m.locality.componentAuthority + 1) (some {value}))).map
        fun o => { m with locality := o.1 }) := by
  obtain ⟨dstream, hd, hr⟩ := Option.bind_eq_some_iff.mp hr
  obtain ⟨output, ho, rfl⟩ := Option.map_eq_some_iff.mp hr
  unfold localContribution Locality.localContribution
  rw [hd, Option.bind_some]
  simp only [Identity.nextReduction, ho, Option.bind_some]

theorem localContribution_frame (hr : m.issue hash which cb = some r)
    (h : m.localContribution hash which value cb = some m') :
    m'.index = m.index ∧ m'.association = m.association ∧
      m'.next = m.next + if which = .managed then 1 else 0 := by
  rw [localContribution_of_issue hr] at h
  obtain ⟨o, ho, rfl⟩ := Option.map_eq_some_iff.mp h
  have hids : o.1.identities = Function.update m.locality.identities which
      (m.locality.identities which).nextReduction.2 :=
    (((keeps_forEach (fun port l h => keeps_openPort _ port h) _ (by rfl)).andThen
      fun l h => keeps_activateComponent _ h).andThen fun l h => keeps_passthru h _ _) _ ho
  refine ⟨rfl, rfl, ?_⟩
  unfold next
  dsimp only
  rw [hids]
  split_ifs with hw
  · rw [hw, Function.update_self]
    rfl
  · rw [Function.update_of_ne (Ne.symm hw)]
    rfl

theorem receive_frame (h : m.receive port dev = some m') :
    m'.index = m.index ∧ m'.association = m.association ∧ m'.next = m.next := by
  obtain ⟨o, ho, rfl⟩ := Option.map_eq_some_iff.mp h
  refine ⟨rfl, rfl, ?_⟩
  unfold next
  dsimp only
  rw [keeps_receive rfl port dev o ho]

theorem issue_imprintable (hr : m.issue hash which cb = some r) : r.imprintable = which := by
  obtain ⟨dstream, -, hr⟩ := Option.bind_eq_some_iff.mp hr
  obtain ⟨output, -, rfl⟩ := Option.map_eq_some_iff.mp hr
  rfl

theorem issue_managed (hr : m.issue hash .managed cb = some r) :
    r.count = m.next ∧
      (∀ x, ⟨hash .managed, r.count, x⟩ ∈ r.ports ↔ x ∈ m.association.downstream) ∧
      ∀ u, m.association.upstream = [u] →
        r.output = .forward u ⟨hash .managed, m.next, m.index⟩ := by
  obtain ⟨dstream, hd, hr⟩ := Option.bind_eq_some_iff.mp hr
  obtain ⟨output, ho, rfl⟩ := Option.map_eq_some_iff.mp hr
  refine ⟨rfl, fun x => ?_, fun u hu => ?_⟩
  · simp [upstream]
  · simp only [downstream] at hd
    split_ifs at hd
    obtain rfl := Option.some.inj hd
    rw [hu] at ho
    exact (Option.some.inj ho).symm

end Manageable

namespace Family

variable {s t : Family ι V κ} {x : ι} {c : Child ι V κ} {k : ReductionId}
variable {hash : Imprintable ι → HashCode} {r : Manageable.Issued ι κ}

theorem managedOf_append_managed (rs : List (Manageable.Issued ι κ))
    (h : r.imprintable = .managed) :
    managedOf (rs ++ [r]) = managedOf rs ++ [r] := by
  simp [managedOf, h]

theorem managedOf_append_other (rs : List (Manageable.Issued ι κ))
    (h : r.imprintable ≠ .managed) :
    managedOf (rs ++ [r]) = managedOf rs := by
  simp [managedOf, h]

variable (hash) in
structure Tracks (s : Family ι V κ) (x : ι) (c : Child ι V κ) (k : ReductionId) : Prop where
  stamp : c.stamp .managed = some k
  le : k ≤ s.parent.next
  mem : x ∈ s.parent.association.downstream
  index : c.element.index = x
  upstream : c.element.association.upstream = [s.parent.index]
  next : c.element.next = k + (managedOf c.issued).length
  opens : ∀ r ∈ managedOf s.issued, (⟨hash .managed, r.count, x⟩ ∈ r.ports ↔ k ≤ r.count)
  contributes : ∀ i r, (managedOf c.issued)[i]? = some r → r.count = k + i ∧
    r.output = .forward s.parent.index ⟨hash .managed, k + i, x⟩

variable (hash) in
/-- The parent has used the numbers below its next one, and has nothing to do with the elements
that were not inserted yet. -/
structure Inv (s : Family ι V κ) : Prop where
  below : ∀ r ∈ managedOf s.issued, r.count < s.parent.next
  fresh : ∀ x ∉ s.known, x ∉ s.parent.association.downstream ∧ s.children x = none ∧
    ∀ r ∈ managedOf s.issued, ⟨hash .managed, r.count, x⟩ ∉ r.ports
  child : ∀ x c, s.children x = some c → ∃ k, Tracks hash s x c k

theorem Tracks.aligned (h : Tracks hash s x c k) : Aligned hash s x c k := by
  refine ⟨h.stamp, h.opens, h.contributes, fun r hr r' hr' hc => ?_⟩
  obtain ⟨i, hi⟩ := List.mem_iff_getElem?.mp hr
  obtain ⟨hcount, hout⟩ := h.contributes i r hi
  refine ⟨⟨hash .managed, r'.count, x⟩, (h.opens r' hr').mpr ?_, ?_⟩
  · rw [hc, hcount]
    exact Nat.le_add_right k i
  · rw [hout, hc, hcount]

theorem Tracks.parent (h : Tracks hash s x c k) (hn : s.parent.next ≤ t.parent.next)
    (hm : x ∈ t.parent.association.downstream) (hi : t.parent.index = s.parent.index)
    (ho : ∀ r ∈ managedOf t.issued, (⟨hash .managed, r.count, x⟩ ∈ r.ports ↔ k ≤ r.count)) :
    Tracks hash t x c k := by
  refine ⟨h.stamp, h.le.trans hn, hm, h.index, ?_, h.next, ho, ?_⟩
  · rw [hi]
    exact h.upstream
  · rw [hi]
    exact h.contributes

theorem Inv.createChild (h : Inv hash s) (ht : s.createChild x = some t) : Inv hash t := by
  unfold Family.createChild at ht
  split_ifs at ht with hx
  obtain rfl := Option.some.inj ht
  obtain ⟨hdown, hnone, hports⟩ := h.fresh x hx
  refine ⟨h.below, fun y hy => ?_, fun y c hc => ?_⟩
  · dsimp only at hy
    rw [List.mem_cons, not_or] at hy
    obtain ⟨hne, hy⟩ := hy
    obtain ⟨hd, hn, hp⟩ := h.fresh y hy
    refine ⟨?_, ?_, hp⟩
    · simp [Manageable.createChild, hd, hne]
    · dsimp only
      rw [Function.update_of_ne hne]
      exact hn
  · dsimp only at hc
    by_cases hyx : y = x
    · subst hyx
      rw [Function.update_self] at hc
      obtain rfl := Option.some.inj hc
      refine ⟨s.parent.next, rfl, le_rfl, ?_, rfl, rfl, rfl, fun r hr => ?_, ?_⟩
      · simp [Manageable.createChild]
      · exact iff_of_false (hports r hr) (not_le.mpr (h.below r hr))
      · simp [managedOf]
    · rw [Function.update_of_ne hyx] at hc
      obtain ⟨k, hk⟩ := h.child y c hc
      refine ⟨k, hk.parent le_rfl ?_ rfl hk.opens⟩
      simp [Manageable.createChild, hk.mem]

theorem Inv.localContribution {which : Imprintable ι} {value : V} {cb : κ} (h : Inv hash s)
    (ht : s.localContribution hash which value cb = some t) : Inv hash t := by
  obtain ⟨r, hr, ht⟩ := Option.bind_eq_some_iff.mp ht
  obtain ⟨parent, hp, rfl⟩ := Option.map_eq_some_iff.mp ht
  obtain ⟨hindex, hassoc, hnext⟩ := Manageable.localContribution_frame hr hp
  have himp := Manageable.issue_imprintable hr
  by_cases hw : which = .managed
  · subst hw
    rw [if_pos rfl] at hnext
    obtain ⟨hcount, hports, -⟩ := Manageable.issue_managed hr
    have hall := managedOf_append_managed s.issued himp
    refine ⟨fun r' hr' => ?_, fun y hy => ?_, fun y c hc => ?_⟩
    · dsimp only at hr' ⊢
      rw [hall] at hr'
      rw [hnext]
      rcases List.mem_append.mp hr' with hr' | hr'
      · exact Nat.lt_succ_of_lt (h.below r' hr')
      · rw [List.mem_singleton.mp hr', hcount]
        exact Nat.lt_succ_self _
    · obtain ⟨hd, hn, hp⟩ := h.fresh y hy
      refine ⟨?_, hn, fun r' hr' => ?_⟩
      · dsimp only
        rw [hassoc]
        exact hd
      · dsimp only at hr'
        rw [hall] at hr'
        rcases List.mem_append.mp hr' with hr' | hr'
        · exact hp r' hr'
        · rw [List.mem_singleton.mp hr', hports]
          exact hd
    · obtain ⟨k, hk⟩ := h.child y c hc
      refine ⟨k, hk.parent ?_ ?_ hindex fun r' hr' => ?_⟩
      · rw [hnext]
        exact Nat.le_succ _
      · dsimp only
        rw [hassoc]
        exact hk.mem
      · dsimp only at hr'
        rw [hall] at hr'
        rcases List.mem_append.mp hr' with hr' | hr'
        · exact hk.opens r' hr'
        · rw [List.mem_singleton.mp hr', hports, hcount]
          exact iff_of_true hk.mem hk.le
  · rw [if_neg hw] at hnext
    have hall := managedOf_append_other s.issued (himp ▸ hw)
    refine ⟨?_, fun y hy => ?_, fun y c hc => ?_⟩
    · dsimp only
      rw [hall, hnext]
      exact h.below
    · dsimp only
      rw [hall, hassoc]
      exact h.fresh y hy
    · obtain ⟨k, hk⟩ := h.child y c hc
      refine ⟨k, hk.parent hnext.ge ?_ hindex ?_⟩
      · dsimp only
        rw [hassoc]
        exact hk.mem
      · dsimp only
        rw [hall]
        exact hk.opens

theorem Inv.receive {parent : Manageable ι V κ} {port : ReductionPort ι} {dev : Deliverable V}
    (h : Inv hash s) (hp : s.parent.receive port dev = some parent) :
    Inv hash { s with parent := parent } := by
  obtain ⟨hindex, hassoc, hnext⟩ := Manageable.receive_frame hp
  refine ⟨?_, fun y hy => ?_, fun y c hc => ?_⟩
  · dsimp only
    rw [hnext]
    exact h.below
  · dsimp only
    rw [hassoc]
    exact h.fresh y hy
  · obtain ⟨k, hk⟩ := h.child y c hc
    refine ⟨k, hk.parent hnext.ge ?_ hindex hk.opens⟩
    dsimp only
    rw [hassoc]
    exact hk.mem

theorem Inv.update (h : Inv hash s) {c' : Child ι V κ} (hc : s.children x = some c)
    (hc' : ∀ k, Tracks hash s x c k → Tracks hash s x c' k) :
    Inv hash { s with children := Function.update s.children x (some c') } := by
  refine ⟨h.below, fun y hy => ?_, fun y d hd => ?_⟩
  · obtain ⟨hdown, hn, hp⟩ := h.fresh y hy
    have hne : y ≠ x := by
      rintro rfl
      rw [hc] at hn
      cases hn
    refine ⟨hdown, ?_, hp⟩
    dsimp only
    rw [Function.update_of_ne hne]
    exact hn
  · dsimp only at hd
    by_cases hyx : y = x
    · subst hyx
      rw [Function.update_self] at hd
      obtain rfl := Option.some.inj hd
      obtain ⟨k, hk⟩ := h.child y c hc
      obtain ⟨h1, h2, h3, h4, h5, h6, h7, h8⟩ := hc' k hk
      exact ⟨k, h1, h2, h3, h4, h5, h6, h7, h8⟩
    · rw [Function.update_of_ne hyx] at hd
      obtain ⟨k, hk⟩ := h.child y d hd
      exact ⟨k, hk.parent le_rfl hk.mem rfl hk.opens⟩

theorem Inv.childContribution {which : Imprintable ι} {value : V} {cb : κ} (h : Inv hash s)
    (ht : s.childContribution hash x which value cb = some t) : Inv hash t := by
  obtain ⟨c, hc, ht⟩ := Option.bind_eq_some_iff.mp ht
  obtain ⟨r, hr, ht⟩ := Option.bind_eq_some_iff.mp ht
  obtain ⟨element, he, rfl⟩ := Option.map_eq_some_iff.mp ht
  obtain ⟨hindex, hassoc, hnext⟩ := Manageable.localContribution_frame hr he
  have himp := Manageable.issue_imprintable hr
  apply h.update hc
  intro k hk
  have hup : element.association.upstream = [s.parent.index] := by
    rw [hassoc]
    exact hk.upstream
  by_cases hw : which = .managed
  · subst hw
    rw [if_pos rfl] at hnext
    obtain ⟨hcount, -, hout⟩ := Manageable.issue_managed hr
    have hall := managedOf_append_managed c.issued himp
    refine ⟨hk.stamp, hk.le, hk.mem, hindex.trans hk.index, hup, ?_, hk.opens, fun i r' hr' => ?_⟩
    · dsimp only
      rw [hnext, hall, hk.next, List.length_append]
      rfl
    · dsimp only at hr'
      rw [hall] at hr'
      rcases Nat.lt_or_ge i (managedOf c.issued).length with hi | hi
      · rw [List.getElem?_append_left hi] at hr'
        exact hk.contributes i r' hr'
      · obtain ⟨hzero, rfl⟩ : i - (managedOf c.issued).length = 0 ∧ r = r' := by
          rw [List.getElem?_append_right hi, List.getElem?_singleton] at hr'
          split_ifs at hr' with hzero
          exact ⟨hzero, Option.some.inj hr'⟩
        have hlast : i = (managedOf c.issued).length :=
          le_antisymm (Nat.le_of_sub_eq_zero hzero) hi
        have hki : k + i = c.element.next := by
          rw [hk.next, hlast]
        refine ⟨hcount.trans hki.symm, ?_⟩
        rw [hout _ hk.upstream, hki, hk.index]
  · rw [if_neg hw] at hnext
    have hall := managedOf_append_other c.issued (himp ▸ hw)
    refine ⟨hk.stamp, hk.le, hk.mem, hindex.trans hk.index, hup, ?_, hk.opens, ?_⟩
    · dsimp only
      rw [hnext, hall]
      exact hk.next
    · dsimp only
      rw [hall]
      exact hk.contributes

theorem Inv.step {e : Event ι V κ} (h : Inv hash s) (ht : s.step hash e = some t) :
    Inv hash t := by
  cases e with
  | createChild child => exact h.createChild ht
  | localContribution which value cb => exact h.localContribution ht
  | receive port dev =>
    obtain ⟨parent, hp, rfl⟩ := Option.map_eq_some_iff.mp ht
    exact h.receive hp
  | childContribution child which value cb => exact h.childContribution ht
  | childReceive child port dev =>
    obtain ⟨c, hc, ht⟩ := Option.bind_eq_some_iff.mp ht
    obtain ⟨element, he, rfl⟩ := Option.map_eq_some_iff.mp ht
    obtain ⟨hindex, hassoc, hnext⟩ := Manageable.receive_frame he
    apply h.update hc
    intro k hk
    refine ⟨hk.stamp, hk.le, hk.mem, hindex.trans hk.index, ?_, hnext.trans hk.next, hk.opens,
      hk.contributes⟩
    rw [hassoc]
    exact hk.upstream

theorem inv_start (parent : Manageable ι V κ) (others : List ι) :
    Inv hash (start parent others) := by
  refine ⟨by simp [start, managedOf], fun x hx => ⟨fun hd => hx ?_, rfl, ?_⟩, ?_⟩
  · exact List.mem_append_left _ (List.mem_cons_of_mem _ hd)
  · simp [start, managedOf]
  · intro x c hc
    cases hc

/-- After any insertions and contributions, the reductions of the parent line up with those of
each child that was inserted. -/
theorem aligned_of_run {parent : Manageable ι V κ} {others : List ι} {es : List (Event ι V κ)}
    (h : Run (ofFun (step hash)) (start parent others) es s) (hx : s.children x = some c) :
    ∃ k, Aligned hash s x c k := by
  have hinv : Inv hash s := h.invariant (fun _ _ _ hi hs => hi.step hs) (inv_start parent others)
  obtain ⟨k, hk⟩ := hinv.child x c hx
  exact ⟨k, hk.aligned⟩

/-- A child that is inserted after one contribution, before the next. -/
theorem aligned_secondReduction : ∃ (s : Family ℕ ℕ Unit) (c : Child ℕ ℕ Unit) (k : ReductionId),
    s.children 1 = some c ∧ Aligned (fun _ => 0) s 1 c k := by
  obtain ⟨s, hs, c, hc⟩ : ∃ s : Family ℕ ℕ Unit,
      Run (ofFun (step fun _ => 0))
        (start { index := 0, association := { validUpstream := true } } [])
        [.localContribution .managed 7 (), .createChild 1, .localContribution .managed 8 (),
          .childContribution 1 .managed 9 ()] s ∧ ∃ c, s.children 1 = some c :=
    ⟨_, run_of_exec rfl, _, rfl⟩
  obtain ⟨k, hk⟩ := aligned_of_run hs hc
  exact ⟨s, c, k, hc, hk⟩

end Family

end Hypercomm.TreeBuilder
