import Mathlib.Data.List.MinMax
import Mathlib.Data.Multiset.Basic
import Hypercomm.Core.Math

/-! # The tree builder of one node

Each node keeps the elements it hosts and attaches a new one below an element
with the fewest children. The first element of a node is sent up the node tree
until it meets a populated node, or becomes the endpoint at node zero.
-/

namespace Hypercomm.TreeBuilder

variable {Idx : Type*}

structure Association (Idx : Type*) where
  upstream : List Idx := []
  downstream : List Idx := []
  validUpstream : Bool := false
  deriving DecidableEq, Repr

/-- An element of the registry. Registration fails without an association, so a
registered element always carries one. -/
structure Element (Idx : Type*) where
  index : Idx
  association : Association Idx := {}
  deriving DecidableEq, Repr

namespace Element

def setEndpoint (e : Element Idx) : Element Idx :=
  { e with association := { e.association with validUpstream := true } }

def isEndpoint (e : Element Idx) : Bool :=
  e.association.validUpstream && e.association.upstream.isEmpty

def putUpstream (idx : Idx) (e : Element Idx) : Element Idx :=
  { e with association :=
    { e.association with validUpstream := true, upstream := e.association.upstream ++ [idx] } }

def putDownstream (idx : Idx) (e : Element Idx) : Element Idx :=
  { e with association := { e.association with downstream := e.association.downstream ++ [idx] } }

def numDownstream (e : Element Idx) : ℕ := e.association.downstream.length

@[simp] theorem setEndpoint_index (e : Element Idx) : e.setEndpoint.index = e.index := rfl

@[simp] theorem putUpstream_index (i : Idx) (e : Element Idx) :
    (e.putUpstream i).index = e.index := rfl

@[simp] theorem putDownstream_index (i : Idx) (e : Element Idx) :
    (e.putDownstream i).index = e.index := rfl

end Element

inductive Abort
  | insertionDidNotOccur
  | endpointMismatch
  | notYetImplemented
  | mustBeAssociated
  deriving DecidableEq, Repr

def Abort.text : Abort → String
  | insertionDidNotOccur => "insertion did not occur"
  | endpointMismatch => "!elt || idx == elt->ckGetArrayIndex()"
  | notYetImplemented => "not yet implemented!"
  | mustBeAssociated => "dynamic insertions must be associated"

/-- The tree-building entry methods of a node, with the node they are sent to. -/
inductive Message (Idx : Type*) where
  | regEndpoint (dst src : ℤ) (idx : Idx)
  | receiveDownstream (dst node : ℤ) (idx : Idx)
  | receiveUpstream (dst node : ℤ) (idx : Idx)
  deriving DecidableEq, Repr

def Message.dst : Message Idx → ℤ
  | .regEndpoint dst _ _ => dst
  | .receiveDownstream dst _ _ => dst
  | .receiveUpstream dst _ _ => dst

/-- The message looks for a parent, rather than announcing the endpoint. -/
def Message.isRequest : Message Idx → Bool
  | .regEndpoint _ _ _ => false
  | _ => true

/-- What a node stores for one array. The order of `elements` stands for the
iteration order of the hash map. -/
structure Node (Idx : Type*) where
  arrays : ℤ := 0
  elements : List (Element Idx) := []
  inserting : Bool := true
  endpoint : Option Idx := none
  deriving DecidableEq, Repr

/-- An element known by its pointer or by its node. -/
inductive Endpoint (Idx : Type*) where
  | elt (e : Element Idx)
  | node (n : ℤ)

structure NumNodes where
  val : ℤ
  pos : 1 ≤ val
  lt : val < 2 ^ 31

def leaves (N : NumNodes) (mine : ℤ) : List ℤ := BinaryTree.leaves 32 mine N.val

namespace Node

variable [DecidableEq Idx]

def lookup (s : Node Idx) (idx : Idx) : Option (Element Idx) :=
  s.elements.find? (·.index = idx)

def modify (s : Node Idx) (idx : Idx) (f : Element Idx → Element Idx) : Node Idx :=
  { s with elements := s.elements.map fun e => if e.index = idx then f e else e }

def findTarget (s : Node Idx) (up : Bool) : Option (Element Idx) :=
  if up then s.elements.find? (!·.association.validUpstream)
  else s.elements.argmin Element.numDownstream

/-- Register the endpoint. A local pointer comes back as the element it points to. -/
def regEndpoint (N : NumNodes) (mine : ℤ) (ep : Endpoint Idx) (idx : Idx) (s : Node Idx) :
    Except Abort (Node Idx × Endpoint Idx × List (Message Idx)) :=
  if s.endpoint.isSome then .error .insertionDidNotOccur else
  let sent := (leaves N mine).map fun leaf => Message.regEndpoint leaf mine idx
  let s := { s with endpoint := some idx, arrays := s.arrays + ((leaves N mine).length - 1) }
  match ep with
  | .elt e =>
      if e.index = idx then .ok (s, .elt e.setEndpoint, sent) else .error .endpointMismatch
  | .node _ => .ok (s.modify idx Element.setEndpoint, ep, sent)

def sendUpstream (N : NumNodes) (mine : ℤ) (ep : Endpoint Idx) (idx : Idx) (s : Node Idx) :
    Except Abort (Node Idx × Endpoint Idx × List (Message Idx)) :=
  let parent := BinaryTree.parent mine
  if 0 ≤ parent then
    let src := match ep with
      | .elt _ => mine
      | .node n => n
    .ok ({ s with arrays := s.arrays + 1 }, ep, [.receiveDownstream parent src idx])
  else do
    let (s, ep, sent) ← s.regEndpoint N mine ep idx
    return ({ s with arrays := s.arrays + 1 }, ep, sent)

def sendDownstream (_ep : Endpoint Idx) (_idx : Idx) (_s : Node Idx) :
    Except Abort (Node Idx × List (Message Idx)) :=
  .error .notYetImplemented

/-- Returns the index of the local child found, if any. -/
def regUpstream (ep : Endpoint Idx) (idx : Idx) (s : Node Idx) :
    Except Abort (Node Idx × Option Idx × List (Message Idx)) :=
  match s.findTarget true with
  | none => do
      let (s, sent) ← s.sendDownstream ep idx
      return (s, none, sent)
  | some target => .ok (s.modify target.index (·.putUpstream idx), some target.index, [])

/-- Returns the index of the local parent found, if any. -/
def regDownstream (N : NumNodes) (mine : ℤ) (ep : Endpoint Idx) (idx : Idx) (s : Node Idx) :
    Except Abort (Node Idx × Endpoint Idx × Option Idx × List (Message Idx)) :=
  match s.findTarget false with
  | none => do
      let (s, ep, sent) ← s.sendUpstream N mine ep idx
      return (s, ep, none, sent)
  | some target =>
      .ok (s.modify target.index (·.putDownstream idx), ep, some target.index, [])

def associate (N : NumNodes) (mine : ℤ) (idx : Idx) (assoc : Option (Association Idx))
    (s : Node Idx) : Except Abort (Node Idx × Element Idx × List (Message Idx)) :=
  match s.inserting, assoc with
  | true, none => do
      let (s, ep, target, sent) ← s.regDownstream N mine (.elt { index := idx }) idx
      let elt := match ep with
        | .elt e => e
        | .node _ => { index := idx }
      return (s, (target.elim elt elt.putUpstream), sent)
  | false, none => .error .mustBeAssociated
  -- `try_reassociate` only prints a warning
  | _, some a => .ok (s, { index := idx, association := a }, [])

/-- Associate a created element; it enters the registry in front, and the hash
map may then order its entries anyhow. -/
def regElement (N : NumNodes) (mine : ℤ) (idx : Idx) (assoc : Option (Association Idx))
    (s : Node Idx) : Except Abort (Node Idx × List (Message Idx)) := do
  let (s, elt, sent) ← s.associate N mine idx assoc
  return ({ s with elements := elt :: s.elements.filter (·.index ≠ idx) }, sent)

def receiveUpstream (node : ℤ) (idx : Idx) (s : Node Idx) :
    Except Abort (Node Idx × List (Message Idx)) := do
  let (s, _, sent) ← s.regUpstream (.node node) idx
  return ({ s with arrays := s.arrays - 1 }, sent)

def receiveDownstream (N : NumNodes) (mine node : ℤ) (idx : Idx) (s : Node Idx) :
    Except Abort (Node Idx × List (Message Idx)) := do
  let (s, _, target, sent) ← s.regDownstream N mine (.node node) idx
  match target with
  | some target => return (s, sent ++ [.receiveUpstream node mine target])
  | none => return ({ s with arrays := s.arrays - 1 }, sent)

def receive (N : NumNodes) (m : Message Idx) (s : Node Idx) :
    Except Abort (Node Idx × List (Message Idx)) :=
  match m with
  | .regEndpoint dst src idx => do
      let (s, _, sent) ← s.regEndpoint N dst (.node src) idx
      return (s, sent)
  | .receiveDownstream dst node idx => s.receiveDownstream N dst node idx
  | .receiveUpstream _ node idx => s.receiveUpstream node idx

end Node

end Hypercomm.TreeBuilder
