import Mathlib.Algebra.BigOperators.Group.Finset.Basic
import Mathlib.Data.Int.Interval
import Hypercomm.Transition.Run
import Hypercomm.TreeBuilder.Basic

/-! # The tree builders of all nodes

The network holds every node and the messages in flight. Elements are created
in any order and place, and messages arrive in any order. A handler that fails
an assertion ends the program, so it has no next state.
-/

namespace Hypercomm.TreeBuilder

variable {Idx : Type*} [DecidableEq Idx]

structure Network (Idx : Type*) where
  nodes : ℤ → Node Idx
  flight : Multiset (Message Idx)

inductive Action (Idx : Type*) where
  | create (node : ℤ) (idx : Idx)
  | deliver (m : Message Idx)

namespace Network

def Fresh (net : Network Idx) (idx : Idx) : Prop :=
  ∀ n, ∀ e ∈ (net.nodes n).elements, e.index ≠ idx

/-- The array is registered on every node and has no element yet. -/
def init : Network Idx := ⟨fun _ => {}, 0⟩

/-- What the handler of an enabled action computes, on which node, and the
messages left in flight while it runs. -/
inductive Handles (N : NumNodes) (net : Network Idx) :
    Action Idx → ℤ → Multiset (Message Idx) →
      Except Abort (Node Idx × List (Message Idx)) → Prop
  | create {n : ℤ} {idx : Idx} : 0 ≤ n → n < N.val → net.Fresh idx →
      Handles N net (.create n idx) n net.flight ((net.nodes n).regElement N n idx none)
  | deliver {m : Message Idx} {rest : Multiset (Message Idx)} : net.flight = m ::ₘ rest →
      Handles N net (.deliver m) m.dst rest ((net.nodes m.dst).receive N m)

inductive Step (N : NumNodes) : Network Idx → Action Idx → Network Idx → Prop
  | mk {net : Network Idx} {a : Action Idx} {n : ℤ} {rest : Multiset (Message Idx)}
      {s : Node Idx} {sent : List (Message Idx)} {els : List (Element Idx)} :
      Handles N net a n rest (.ok (s, sent)) → els.Perm s.elements →
      Step N net a ⟨Function.update net.nodes n { s with elements := els }, rest + sent⟩

theorem Step.create {N : NumNodes} {net : Network Idx} {n : ℤ} {x : Idx} {s : Node Idx}
    {l : List (Message Idx)} (h0 : 0 ≤ n) (hn : n < N.val) (hf : net.Fresh x)
    (h : (net.nodes n).regElement N n x none = .ok (s, l)) :
    Step N net (.create n x) ⟨Function.update net.nodes n s, net.flight + l⟩ :=
  .mk (h ▸ .create h0 hn hf) (.refl _)

theorem Step.deliver {N : NumNodes} {net : Network Idx} {m : Message Idx}
    {r : Multiset (Message Idx)} {s : Node Idx} {l : List (Message Idx)}
    (hm : net.flight = m ::ₘ r) (h : (net.nodes m.dst).receive N m = .ok (s, l)) :
    Step N net (.deliver m) ⟨Function.update net.nodes m.dst s, r + l⟩ :=
  .mk (h ▸ .deliver hm) (.refl _)

/-- The next state of a step, when the hash map leaves its entries as they are. -/
def perform (N : NumNodes) (net : Network Idx) : Action Idx → Option (Network Idx)
  | .create n x =>
      if 0 ≤ n ∧ n < N.val ∧ ∀ m < N.val.toNat, ∀ e ∈ (net.nodes m).elements, e.index ≠ x then
        ((net.nodes n).regElement N n x none).toOption.map fun r =>
          ⟨Function.update net.nodes n r.1, net.flight + r.2⟩
      else none
  | .deliver m =>
      if m ∈ net.flight ∧ 0 ≤ m.dst ∧ m.dst < N.val then
        ((net.nodes m.dst).receive N m).toOption.map fun r =>
          ⟨Function.update net.nodes m.dst r.1, net.flight.erase m + r.2⟩
      else none

theorem eq_ok_of_toOption {ε α : Type*} {r : Except ε α} {a : α} (h : r.toOption = some a) :
    r = .ok a := by
  cases r with
  | error e => cases h
  | ok b => exact congrArg _ (Option.some.inj h)

def Confined (N : NumNodes) (net : Network Idx) : Prop :=
  ∀ n, (net.nodes n).elements ≠ [] → 0 ≤ n ∧ n < N.val

theorem Step.of_perform {N : NumNodes} {net net' : Network Idx} {a : Action Idx}
    (hc : net.Confined N) (h : net.perform N a = some net') :
    Step N net a net' ∧ net'.Confined N := by
  have hup : ∀ {n : ℤ} {s : Node Idx} {l}, 0 ≤ n → n < N.val →
      (⟨Function.update net.nodes n s, l⟩ : Network Idx).Confined N := by
    intro n s l h0 hn k hk
    rcases eq_or_ne k n with rfl | hne
    · exact ⟨h0, hn⟩
    · exact hc k (by simpa [hne] using hk)
  cases a with
  | create n x =>
    obtain ⟨⟨h0, hn, hf⟩, h⟩ := Option.ite_none_right_eq_some.mp h
    obtain ⟨⟨s, l⟩, hr, rfl⟩ := Option.map_eq_some_iff.mp h
    refine ⟨.create h0 hn (fun k e he => ?_) (eq_ok_of_toOption hr), hup h0 hn⟩
    obtain ⟨hk, hkn⟩ := hc k (List.ne_nil_of_mem he)
    have hcast : ((k.toNat : ℕ) : ℤ) = k := Int.toNat_of_nonneg hk
    exact hf k.toNat (by omega) e (by rwa [hcast])
  | deliver m =>
    obtain ⟨⟨hm, h0, hn⟩, h⟩ := Option.ite_none_right_eq_some.mp h
    obtain ⟨⟨s, l⟩, hr, rfl⟩ := Option.map_eq_some_iff.mp h
    exact ⟨.deliver (Multiset.cons_erase hm).symm (eq_ok_of_toOption hr), hup h0 hn⟩

theorem run_of_exec_perform {N : NumNodes} {net : Network Idx} {as : List (Action Idx)}
    (h : Transition.exec (perform N) init as = some net) :
    Transition.Run (Step N) init as net := by
  have hrun := Transition.run_of_exec h
  clear h
  suffices Transition.Run (Step N) init as net ∧ net.Confined N from this.1
  induction hrun with
  | nil => exact ⟨.nil, fun n hn => absurd rfl hn⟩
  | snoc _ hs ih =>
    obtain ⟨hr, hc⟩ := ih
    obtain ⟨hst, hc'⟩ := Step.of_perform hc hs
    exact ⟨hr.snoc hst, hc'⟩

def Aborts (N : NumNodes) (net : Network Idx) (a : Action Idx) (e : Abort) : Prop :=
  ∃ n rest, Handles N net a n rest (.error e)

end Network

end Hypercomm.TreeBuilder
