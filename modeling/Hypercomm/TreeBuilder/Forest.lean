import Mathlib.Data.Multiset.Count
import Mathlib.Logic.Relation
import Mathlib.Tactic.Simps.Basic
import Hypercomm.TreeBuilder.Basic

/-! # The forest the nodes build together

Seen from above, an element is waiting for a parent, the endpoint, or the child
of another element. The rules below say how the handlers change that status, and
the invariant ties each waiting element to the one message that will serve it.
-/

namespace Hypercomm.TreeBuilder

variable {Idx : Type*}

inductive Status (Idx : Type*) where
  | absent
  | waiting (node : ℤ)
  | endpoint (node : ℤ)
  | child (node : ℤ) (parent : Idx)
  deriving DecidableEq

def Status.node : Status Idx → Option ℤ
  | absent => none
  | waiting n => some n
  | endpoint n => some n
  | child n _ => some n

structure Forest (Idx : Type*) where
  status : Idx → Status Idx
  children : Idx → Idx → Prop
  endpoint : ℤ → Option Idx
  flight : Multiset (Message Idx)

def broadcast (N : NumNodes) (n : ℤ) (x : Idx) : Multiset (Message Idx) :=
  ((leaves N n).map fun leaf => Message.regEndpoint leaf n x : List (Message Idx))

/-- The message will give a parent to the waiting element of the node. -/
def Message.serves (n : ℤ) : Message Idx → Bool
  | regEndpoint _ _ _ => false
  | receiveDownstream _ node _ => node = n
  | receiveUpstream dst _ _ => dst = n

/-- The message tells the node who the endpoint is. -/
def Message.announces (n : ℤ) : Message Idx → Bool
  | regEndpoint dst _ _ => dst = n
  | _ => false

def serving (l : Multiset (Message Idx)) (n : ℤ) : ℕ := l.countP (Message.serves n ·)

def announcing (l : Multiset (Message Idx)) (n : ℤ) : ℕ := l.countP (Message.announces n ·)

namespace Forest

variable [DecidableEq Idx]

def Located (f : Forest Idx) (n : ℤ) (x : Idx) : Prop := (f.status x).node = some n

def Empty (f : Forest Idx) (n : ℤ) : Prop := ∀ x, ¬ f.Located n x

def Up (f : Forest Idx) (x u : Idx) : Prop := ∃ n, f.status x = .child n u

def init : Forest Idx := ⟨fun _ => .absent, fun _ _ => False, fun _ => none, 0⟩

@[simps] def setStatus (f : Forest Idx) (x : Idx) (s : Status Idx) : Forest Idx :=
  { f with status := Function.update f.status x s }

@[simps] def addChild (f : Forest Idx) (t x : Idx) : Forest Idx :=
  { f with children := fun u y => f.children u y ∨ (u = t ∧ y = x) }

@[simps] def setEndpoint (f : Forest Idx) (n : ℤ) (x : Idx) : Forest Idx :=
  { f with endpoint := Function.update f.endpoint n (some x) }

@[simps] def withFlight (f : Forest Idx) (flight : Multiset (Message Idx)) : Forest Idx :=
  { f with flight := flight }

inductive Step (N : NumNodes) (f : Forest Idx) : Forest Idx → Prop
  | attachLocal {n : ℤ} {x t : Idx} : f.Located n t → f.status x = .absent →
      Step N f ((f.setStatus x (.child n t)).addChild t x)
  | sendUp {n : ℤ} {x : Idx} : 0 < n → n < N.val → f.Empty n → f.status x = .absent →
      Step N f ((f.setStatus x (.waiting n)).withFlight
        (f.flight + {.receiveDownstream (BinaryTree.parent n) n x}))
  | rootLocal {x : Idx} : f.Empty 0 → f.endpoint 0 = none → f.status x = .absent →
      Step N f (((f.setStatus x (.endpoint 0)).setEndpoint 0 x).withFlight
        (f.flight + broadcast N 0 x))
  | attach {m n : ℤ} {x t : Idx} {rest : Multiset (Message Idx)} :
      f.flight = .receiveDownstream m n x ::ₘ rest → f.Located m t →
      Step N f ((f.addChild t x).withFlight (rest + {.receiveUpstream n m t}))
  | forward {m n : ℤ} {x : Idx} {rest : Multiset (Message Idx)} :
      f.flight = .receiveDownstream m n x ::ₘ rest → 0 < m → f.Empty m →
      Step N f (f.withFlight (rest + {.receiveDownstream (BinaryTree.parent m) n x}))
  | rootRemote {m n : ℤ} {x : Idx} {rest : Multiset (Message Idx)} :
      f.flight = .receiveDownstream m n x ::ₘ rest → m ≤ 0 → f.Empty m → f.endpoint m = none →
      Step N f ((f.setEndpoint m x).withFlight (rest + broadcast N m x))
  | adopt {m n : ℤ} {u w : Idx} {rest : Multiset (Message Idx)} :
      f.flight = .receiveUpstream n m u ::ₘ rest → f.status w = .waiting n →
      Step N f ((f.setStatus w (.child n u)).withFlight rest)
  | announce {j p : ℤ} {x : Idx} {rest : Multiset (Message Idx)} :
      f.flight = .regEndpoint j p x ::ₘ rest → f.endpoint j = none →
      Step N f (((f.setStatus x
        (if f.status x = .waiting j then .endpoint j else f.status x)).setEndpoint j x).withFlight
          (rest + broadcast N j x))

/-- Following upstream from an element of a node leads to one of the same node
that has no parent yet or whose parent sits on a smaller node. -/
def Anchored (f : Forest Idx) (n : ℤ) (x : Idx) : Prop :=
  ∃ h, f.Located n h ∧ Relation.ReflTransGen f.Up x h ∧
    ∀ u, f.Up h u → ∃ m, m < n ∧ f.Located m u

/-- The endpoint spreads from the root down the node tree: a node whose parent
knows the endpoint knows it too or has one announcement on its way. -/
structure Announcement (N : NumNodes) (endpoint : ℤ → Option Idx)
    (flight : Multiset (Message Idx)) : Prop where
  announced : ∀ j p x, .regEndpoint j p x ∈ flight → p = BinaryTree.parent j ∧
    0 < j ∧ j < N.val ∧ endpoint (BinaryTree.parent j) = some x ∧ endpoint j = none
  announces_le : ∀ j, announcing flight j ≤ 1
  announces_iff : ∀ j, 0 < announcing flight j ↔
    0 < j ∧ j < N.val ∧ endpoint (BinaryTree.parent j) ≠ none ∧ endpoint j = none
  endpoint_root : ∀ n x, endpoint n = some x → endpoint 0 = some x
  endpoint_parent : ∀ n, 0 < n → endpoint n ≠ none → endpoint (BinaryTree.parent n) ≠ none
  endpoint_range : ∀ n, endpoint n ≠ none → 0 ≤ n ∧ n < N.val

structure Inv (N : NumNodes) (f : Forest Idx) : Prop
    extends Announcement N f.endpoint f.flight where
  range : ∀ n x, f.Located n x → 0 ≤ n ∧ n < N.val
  waiting_unique : ∀ n x y, f.status x = .waiting n → f.status y = .waiting n → x = y
  downstream : ∀ m n x, .receiveDownstream m n x ∈ f.flight →
    0 ≤ m ∧ m < n ∧ f.status x = .waiting n
  upstream : ∀ n m u, .receiveUpstream n m u ∈ f.flight → m < n ∧ f.Located m u
  serves_le : ∀ n, serving f.flight n ≤ 1
  serves_iff : ∀ n, 0 < serving f.flight n ↔
    ∃ w, f.status w = .waiting n ∧ f.endpoint 0 ≠ some w
  endpoint_status : ∀ x, f.endpoint 0 = some x →
    ∃ n, f.status x = .waiting n ∧ f.endpoint n = none ∨
      f.status x = .endpoint n ∧ f.endpoint n ≠ none
  endpoint_unique : ∀ n x, f.status x = .endpoint n → f.endpoint 0 = some x
  children_iff : ∀ u x, f.children u x ↔ f.Up x u ∨
    ∃ n m, f.status x = .waiting n ∧ .receiveUpstream n m u ∈ f.flight
  anchored : ∀ n x, f.Located n x → f.Anchored n x

end Forest

end Hypercomm.TreeBuilder
