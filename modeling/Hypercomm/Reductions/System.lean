import Hypercomm.Core.Locality
import Hypercomm.Transition.Run
import Hypercomm.Tree.Gather

/-! # Reductions over sections

Members contribute to reductions over any number of sections, and contributions in
flight are delivered in any order.
-/

namespace Hypercomm

open Transition

variable {ι V κ : Type*}

/-- A contribution in flight to a port of an element. -/
abbrev Delivery (ι V : Type*) := ι × ReductionPort ι × Multiset V

/-- The localities of an array, the contributions in flight between them, and the
results that were sent to a callback. -/
structure Reductions (ι V κ : Type*) where
  localities : ι → Locality (VectorSection ι) ι V κ := fun _ => {}
  inFlight : Multiset (Delivery ι V) := 0
  called : List (Contribution (VectorSection ι) ι V κ) := []

inductive ReductionEvent (ι V κ : Type*) where
  | contribute (which : VectorSection ι) (mine : ι) (value : V) (cb : κ)
  | deliver (mine : ι) (port : ReductionPort ι) (value : Multiset V)

namespace ReductionEvent

def mine : ReductionEvent ι V κ → ι
  | .contribute _ mine _ _ => mine
  | .deliver mine _ _ => mine

def taken : ReductionEvent ι V κ → Multiset (Delivery ι V)
  | .contribute .. => 0
  | .deliver mine port value => {(mine, port, value)}

/-- Only members of a section contribute to it. -/
def Valid (sections : Set (VectorSection ι)) : ReductionEvent ι V κ → Prop
  | .contribute which mine _ _ => which ∈ sections ∧ mine ∈ which.members
  | .deliver .. => True

end ReductionEvent

section Contributed

variable [DecidableEq ι]

def contributed (S : VectorSection ι) (x : ι) (as : List (ReductionEvent ι V κ)) :
    List (V × κ) :=
  as.filterMap fun
    | .contribute which mine value cb => if which = S ∧ mine = x then some (value, cb) else none
    | .deliver .. => none

variable {S which : VectorSection ι} {x mine : ι} {as : List (ReductionEvent ι V κ)}

theorem contributed_contribute {value : V} {cb : κ} :
    contributed S x (as ++ [.contribute which mine value cb]) =
      contributed S x as ++ if which = S ∧ mine = x then [(value, cb)] else [] := by
  by_cases h : which = S ∧ mine = x <;> simp [contributed, h]

@[simp] theorem contributed_deliver {port : ReductionPort ι} {value : Multiset V} :
    contributed S x (as ++ [.deliver mine port value]) = contributed S x as := by
  simp [contributed]

end Contributed

namespace Reductions

variable [DecidableEq ι] (hashIdx : ι → HashCode) (sections : Set (VectorSection ι))

def send (s : Reductions ι V κ) (c : Contribution (VectorSection ι) ι V κ) : Reductions ι V κ :=
  match c.output with
  | .callback _ => { s with called := s.called ++ [c] }
  | .forward down port => { s with inFlight := (down, port, c.value) ::ₘ s.inFlight }

/-- The outcome of an event at its element. -/
def outcome (s : Reductions ι V κ) :
    ReductionEvent ι V κ → Locality.Outcome (VectorSection ι) ι V κ
  | .contribute which mine value cb => (s.localities mine).localContribution which
      (which.hash hashIdx) mine (which.upstream mine) (which.downstream mine) value cb
  | .deliver mine port value => (s.localities mine).receive port (some value)

def commit (s : Reductions ι V κ) (mine : ι)
    (o : Locality (VectorSection ι) ι V κ × List (Contribution (VectorSection ι) ι V κ)) :
    Reductions ι V κ :=
  o.2.foldl send { s with localities := Function.update s.localities mine o.1 }

/-- An event that can happen, with the contributions that it leaves in flight. -/
def Enabled (s : Reductions ι V κ) (a : ReductionEvent ι V κ) (rest : Multiset (Delivery ι V)) :
    Prop :=
  a.Valid sections ∧ s.inFlight = a.taken + rest

inductive Step (s : Reductions ι V κ) (a : ReductionEvent ι V κ) : Reductions ι V κ → Prop
  | mk (rest : Multiset (Delivery ι V))
      (o : Locality (VectorSection ι) ι V κ × List (Contribution (VectorSection ι) ι V κ))
      (ha : s.Enabled sections a rest) (ho : s.outcome hashIdx a = some o) :
      Step s a (({ s with inFlight := rest } : Reductions ι V κ).commit a.mine o)

def Aborts (s : Reductions ι V κ) (a : ReductionEvent ι V κ) : Prop :=
  ∃ rest, s.Enabled sections a rest ∧ s.outcome hashIdx a = none

/-- The sections do not share a port: no member opens the port of a child twice, and
the port of a child at a member belongs to one of the sections with its hash. -/
structure Separated : Prop where
  nodup : ∀ S ∈ sections, ∀ x ∈ S.members, (S.upstream x).Nodup
  ports : ∀ S ∈ sections, ∀ S' ∈ sections, S.hash hashIdx = S'.hash hashIdx →
    ∀ x ∈ S.members, ∀ c ∈ S.upstream x, x ∈ S'.members → c ∈ S'.upstream x → S = S'
  messages : ∀ S ∈ sections, ∀ S' ∈ sections, S.hash hashIdx = S'.hash hashIdx →
    ∀ x ∈ S.members, ∀ c ∈ S.upstream x, c ∈ S'.members → x ∈ S'.downstream c → S = S'

end Reductions

end Hypercomm
