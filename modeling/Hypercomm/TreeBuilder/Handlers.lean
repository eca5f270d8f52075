import Hypercomm.TreeBuilder.Basic

/-! # What the handlers compute

Every handler that succeeds counts one for each message it sends and takes one
off for the message it ran for. Each handler is also evaluated once, case by case.
-/

namespace Hypercomm.TreeBuilder

variable {Idx : Type*} {N : NumNodes}

namespace Node

variable {s s' : Node Idx} {n node src : ℤ} {idx : Idx} {t : Element Idx}

theorem findTarget_false : s.findTarget false = s.elements.argmin Element.numDownstream := rfl

theorem findTarget_false_eq_none : s.findTarget false = none ↔ s.elements = [] := by
  rw [findTarget_false, List.argmin_eq_none]

theorem mem_of_findTarget_false (h : s.findTarget false = some t) : t ∈ s.elements :=
  List.argmin_mem h

variable [DecidableEq Idx]

theorem regElement_of_target (hi : s.inserting = true) (ht : s.findTarget false = some t) :
    s.regElement N n idx none = .ok ({ s.modify t.index (·.putDownstream idx) with
      elements := Element.putUpstream t.index { index := idx } ::
        (s.modify t.index (·.putDownstream idx)).elements.filter (·.index ≠ idx) }, []) := by
  simp [regElement, associate, regDownstream, hi, ht, bind, Except.bind, pure, Except.pure]

theorem regElement_of_empty (hi : s.inserting = true) (he : s.elements = [])
    (hp : 0 < n) : s.regElement N n idx none = .ok ({ s with
      arrays := s.arrays + 1, elements := [{ index := idx }] },
      [.receiveDownstream (BinaryTree.parent n) n idx]) := by
  have := BinaryTree.parent_nonneg_iff.mpr hp
  simp [regElement, associate, regDownstream, hi, findTarget_false_eq_none.mpr he, he,
    sendUpstream, this, bind, Except.bind, pure, Except.pure]

theorem regElement_of_root (hi : s.inserting = true) (he : s.elements = []) (hp : n ≤ 0)
    (hend : s.endpoint = none) : s.regElement N n idx none = .ok ({ s with
      arrays := s.arrays + ((leaves N n).length - 1) + 1, endpoint := some idx,
      elements := [Element.setEndpoint { index := idx }] },
      (leaves N n).map fun leaf => .regEndpoint leaf n idx) := by
  have := mt BinaryTree.parent_nonneg_iff.mp hp.not_gt
  simp [regElement, associate, regDownstream, hi, findTarget_false_eq_none.mpr he, he,
    sendUpstream, this, regEndpoint, hend, bind, Except.bind, pure, Except.pure]

theorem regElement_of_second_root (hi : s.inserting = true) (he : s.elements = []) (hp : n ≤ 0)
    (hend : s.endpoint ≠ none) :
    s.regElement N n idx none = .error .insertionDidNotOccur := by
  have := mt BinaryTree.parent_nonneg_iff.mp hp.not_gt
  simp [regElement, associate, regDownstream, hi, findTarget_false_eq_none.mpr he,
    sendUpstream, this, regEndpoint, Option.isSome_iff_ne_none.mpr hend, bind, Except.bind]

theorem receiveDownstream_of_target (ht : s.findTarget false = some t) :
    s.receive N (.receiveDownstream n node idx) =
      .ok (s.modify t.index (·.putDownstream idx), [.receiveUpstream node n t.index]) := by
  simp [receive, receiveDownstream, regDownstream, ht, bind, Except.bind, pure, Except.pure]

theorem receiveDownstream_of_empty (he : s.elements = []) (hp : 0 < n) :
    s.receive N (.receiveDownstream n node idx) =
      .ok (s, [.receiveDownstream (BinaryTree.parent n) node idx]) := by
  have := BinaryTree.parent_nonneg_iff.mpr hp
  simp [receive, receiveDownstream, regDownstream, findTarget_false_eq_none.mpr he, sendUpstream,
    this, bind, Except.bind, pure, Except.pure]

theorem receiveDownstream_of_root (he : s.elements = []) (hp : n ≤ 0) (hend : s.endpoint = none) :
    s.receive N (.receiveDownstream n node idx) = .ok ({ s with
      arrays := s.arrays + ((leaves N n).length - 1), endpoint := some idx },
      (leaves N n).map fun leaf => .regEndpoint leaf n idx) := by
  have := mt BinaryTree.parent_nonneg_iff.mp hp.not_gt
  simp [receive, receiveDownstream, regDownstream, findTarget_false_eq_none.mpr he, sendUpstream,
    this, regEndpoint, hend, modify, he, bind, Except.bind, pure, Except.pure]

theorem receiveDownstream_of_second_root (he : s.elements = []) (hp : n ≤ 0)
    (hend : s.endpoint ≠ none) :
    s.receive N (.receiveDownstream n node idx) = .error .insertionDidNotOccur := by
  have := mt BinaryTree.parent_nonneg_iff.mp hp.not_gt
  simp [receive, receiveDownstream, regDownstream, findTarget_false_eq_none.mpr he, sendUpstream,
    this, regEndpoint, Option.isSome_iff_ne_none.mpr hend, bind, Except.bind]

theorem receiveUpstream_of_target (ht : s.findTarget true = some t) :
    s.receive N (.receiveUpstream n node idx) =
      .ok ({ s.modify t.index (·.putUpstream idx) with arrays := s.arrays - 1 }, []) := by
  simp [receive, receiveUpstream, regUpstream, ht, modify, bind, Except.bind, pure, Except.pure]

theorem receive_regEndpoint (hend : s.endpoint = none) :
    s.receive N (.regEndpoint n src idx) = .ok ({ s.modify idx Element.setEndpoint with
      arrays := s.arrays + ((leaves N n).length - 1), endpoint := some idx },
      (leaves N n).map fun leaf => .regEndpoint leaf n idx) := by
  simp [receive, regEndpoint, hend, modify, bind, Except.bind, pure, Except.pure]

/-- The handler added to the count of the node and kept its insertion status. -/
def Produces (s s' : Node Idx) (k : ℤ) : Prop :=
  s'.arrays = s.arrays + k ∧ s'.inserting = s.inserting

theorem regEndpoint_produces {ep ep' : Endpoint Idx} {sent : List (Message Idx)}
    (h : s.regEndpoint N n ep idx = .ok (s', ep', sent)) : s.Produces s' (sent.length - 1) := by
  simp only [regEndpoint] at h
  split_ifs at h
  cases ep with
  | elt e =>
    simp only at h
    split_ifs at h
    obtain ⟨rfl, -, rfl⟩ := by simpa using h
    simp [Produces]
  | node k =>
    obtain ⟨rfl, -, rfl⟩ := by simpa using h
    simp [Produces, modify]

theorem sendUpstream_produces {ep ep' : Endpoint Idx} {sent : List (Message Idx)}
    (h : s.sendUpstream N n ep idx = .ok (s', ep', sent)) : s.Produces s' sent.length := by
  simp only [sendUpstream] at h
  split_ifs at h
  · obtain ⟨rfl, -, rfl⟩ := by simpa using h
    simp [Produces]
  · cases hr : s.regEndpoint N n ep idx with
    | error e => simp [hr, bind, Except.bind] at h
    | ok p =>
      obtain ⟨s₁, ep₁, sent₁⟩ := p
      obtain ⟨rfl, -, rfl⟩ := by simpa [hr, bind, Except.bind, pure, Except.pure] using h
      obtain ⟨ha, hi⟩ := regEndpoint_produces hr
      exact ⟨by simp only [ha]; ring, hi⟩

theorem regDownstream_produces {ep ep' : Endpoint Idx} {target : Option Idx}
    {sent : List (Message Idx)} (h : s.regDownstream N n ep idx = .ok (s', ep', target, sent)) :
    s.Produces s' sent.length ∧ (target ≠ none → sent = []) := by
  cases ht : s.findTarget false with
  | some t =>
    obtain ⟨rfl, -, -, rfl⟩ := by simpa [regDownstream, ht] using h
    simp [Produces, modify]
  | none =>
    cases hr : s.sendUpstream N n ep idx with
    | error e => simp [regDownstream, ht, hr, bind, Except.bind] at h
    | ok p =>
      obtain ⟨s₁, ep₁, sent₁⟩ := p
      obtain ⟨rfl, -, rfl, rfl⟩ := by
        simpa [regDownstream, ht, hr, bind, Except.bind, pure, Except.pure] using h
      exact ⟨sendUpstream_produces hr, by simp⟩

theorem regElement_produces {assoc : Option (Association Idx)} {sent : List (Message Idx)}
    (h : s.regElement N n idx assoc = .ok (s', sent)) : s.Produces s' sent.length := by
  cases assoc with
  | some a =>
    obtain ⟨rfl, rfl⟩ := by
      simpa [regElement, associate, bind, Except.bind, pure, Except.pure] using h
    simp [Produces]
  | none =>
    cases hins : s.inserting with
    | false => simp [regElement, associate, hins, bind, Except.bind] at h
    | true =>
      cases hr : s.regDownstream N n (.elt { index := idx }) idx with
      | error e => simp [regElement, associate, hins, hr, bind, Except.bind] at h
      | ok p =>
        obtain ⟨s₁, ep₁, t₁, sent₁⟩ := p
        obtain ⟨rfl, rfl⟩ := by
          simpa [regElement, associate, hins, hr, bind, Except.bind, pure, Except.pure] using h
        exact (regDownstream_produces hr).1

theorem receive_produces {m : Message Idx} {sent : List (Message Idx)}
    (h : s.receive N m = .ok (s', sent)) : s.Produces s' (sent.length - 1) := by
  cases m with
  | regEndpoint dst src x =>
    cases hr : s.regEndpoint N dst (.node src) x with
    | error e => simp [receive, hr, bind, Except.bind] at h
    | ok p =>
      obtain ⟨s₁, ep₁, sent₁⟩ := p
      obtain ⟨rfl, rfl⟩ := by simpa [receive, hr, bind, Except.bind, pure, Except.pure] using h
      exact regEndpoint_produces hr
  | receiveDownstream dst node x =>
    cases hr : s.regDownstream N dst (.node node) x with
    | error e => simp [receive, receiveDownstream, hr, bind, Except.bind] at h
    | ok p =>
      obtain ⟨s₁, ep₁, t₁, sent₁⟩ := p
      obtain ⟨⟨ha, hi⟩, hs⟩ := regDownstream_produces hr
      cases t₁ with
      | none =>
        obtain ⟨rfl, rfl⟩ := by
          simpa [receive, receiveDownstream, hr, bind, Except.bind, pure, Except.pure] using h
        exact ⟨by simp only [ha]; ring, hi⟩
      | some t =>
        obtain rfl : sent₁ = [] := hs (by simp)
        obtain ⟨rfl, rfl⟩ := by
          simpa [receive, receiveDownstream, hr, bind, Except.bind, pure, Except.pure] using h
        exact ⟨by simpa using ha, hi⟩
  | receiveUpstream dst node x =>
    cases ht : s.findTarget true with
    | none =>
      simp [receive, receiveUpstream, regUpstream, sendDownstream, ht, bind, Except.bind] at h
    | some t =>
      rw [receiveUpstream_of_target ht] at h
      obtain ⟨rfl, rfl⟩ := by simpa using h
      simp [Produces, modify, sub_eq_add_neg]

def Announces (N : NumNodes) (s : Node Idx) (n : ℤ) (sent : List (Message Idx)) : Prop :=
  s.endpoint = none ∧ ∃ x, sent = (leaves N n).map fun leaf => .regEndpoint leaf n x

def Requests (sent : List (Message Idx)) : Prop :=
  sent.length ≤ 1 ∧ ∀ m ∈ sent, m.isRequest = true

theorem regEndpoint_announces {ep ep' : Endpoint Idx} {sent : List (Message Idx)}
    (h : s.regEndpoint N n ep idx = .ok (s', ep', sent)) : s.Announces N n sent := by
  simp only [regEndpoint] at h
  split_ifs at h with hend
  have hnone : s.endpoint = none := by simpa using hend
  cases ep with
  | elt e =>
    simp only at h
    split_ifs at h
    obtain ⟨-, -, rfl⟩ := by simpa using h
    exact ⟨hnone, idx, rfl⟩
  | node k =>
    obtain ⟨-, -, rfl⟩ := by simpa using h
    exact ⟨hnone, idx, rfl⟩

theorem sendUpstream_sent {ep ep' : Endpoint Idx} {sent : List (Message Idx)}
    (h : s.sendUpstream N n ep idx = .ok (s', ep', sent)) :
    s.Announces N n sent ∨ Requests sent := by
  simp only [sendUpstream] at h
  split_ifs at h
  · obtain ⟨-, -, rfl⟩ := by simpa using h
    exact .inr ⟨by simp, by simp [Message.isRequest]⟩
  · cases hr : s.regEndpoint N n ep idx with
    | error e => simp [hr, bind, Except.bind] at h
    | ok p =>
      obtain ⟨s₁, ep₁, sent₁⟩ := p
      obtain ⟨-, -, rfl⟩ := by simpa [hr, bind, Except.bind, pure, Except.pure] using h
      exact .inl (regEndpoint_announces hr)

theorem regDownstream_sent {ep ep' : Endpoint Idx} {target : Option Idx}
    {sent : List (Message Idx)} (h : s.regDownstream N n ep idx = .ok (s', ep', target, sent)) :
    s.Announces N n sent ∨ Requests sent := by
  cases ht : s.findTarget false with
  | some t =>
    obtain ⟨-, -, -, rfl⟩ := by simpa [regDownstream, ht] using h
    exact .inr ⟨by simp, by simp⟩
  | none =>
    cases hr : s.sendUpstream N n ep idx with
    | error e => simp [regDownstream, ht, hr, bind, Except.bind] at h
    | ok p =>
      obtain ⟨s₁, ep₁, sent₁⟩ := p
      obtain ⟨-, -, -, rfl⟩ := by
        simpa [regDownstream, ht, hr, bind, Except.bind, pure, Except.pure] using h
      exact sendUpstream_sent hr

theorem regElement_sent {sent : List (Message Idx)}
    (h : s.regElement N n idx none = .ok (s', sent)) : s.Announces N n sent ∨ Requests sent := by
  cases hins : s.inserting with
  | false => simp [regElement, associate, hins, bind, Except.bind] at h
  | true =>
    cases hr : s.regDownstream N n (.elt { index := idx }) idx with
    | error e => simp [regElement, associate, hins, hr, bind, Except.bind] at h
    | ok p =>
      obtain ⟨s₁, ep₁, t₁, sent₁⟩ := p
      obtain ⟨-, rfl⟩ := by
        simpa [regElement, associate, hins, hr, bind, Except.bind, pure, Except.pure] using h
      exact regDownstream_sent hr

theorem receive_sent {m : Message Idx} {sent : List (Message Idx)}
    (h : s.receive N m = .ok (s', sent)) :
    s.Announces N m.dst sent ∨ m.isRequest = true ∧ Requests sent := by
  cases m with
  | regEndpoint dst src x =>
    cases hr : s.regEndpoint N dst (.node src) x with
    | error e => simp [receive, hr, bind, Except.bind] at h
    | ok p =>
      obtain ⟨s₁, ep₁, sent₁⟩ := p
      obtain ⟨-, rfl⟩ := by simpa [receive, hr, bind, Except.bind, pure, Except.pure] using h
      exact .inl (regEndpoint_announces hr)
  | receiveDownstream dst node x =>
    cases hr : s.regDownstream N dst (.node node) x with
    | error e => simp [receive, receiveDownstream, hr, bind, Except.bind] at h
    | ok p =>
      obtain ⟨s₁, ep₁, t₁, sent₁⟩ := p
      have hs := regDownstream_sent hr
      cases t₁ with
      | none =>
        obtain ⟨-, rfl⟩ := by
          simpa [receive, receiveDownstream, hr, bind, Except.bind, pure, Except.pure] using h
        exact hs.imp_right fun h => ⟨rfl, h⟩
      | some t =>
        obtain rfl : sent₁ = [] := (regDownstream_produces hr).2 (by simp)
        obtain ⟨-, rfl⟩ := by
          simpa [receive, receiveDownstream, hr, bind, Except.bind, pure, Except.pure] using h
        exact .inr ⟨rfl, by simp, by simp [Message.isRequest]⟩
  | receiveUpstream dst node x =>
    cases ht : s.findTarget true with
    | none =>
      simp [receive, receiveUpstream, regUpstream, sendDownstream, ht, bind, Except.bind] at h
    | some t =>
      rw [receiveUpstream_of_target ht] at h
      obtain ⟨-, rfl⟩ := by simpa using h
      exact .inr ⟨rfl, by simp, by simp⟩

end Node

end Hypercomm.TreeBuilder
