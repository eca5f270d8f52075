import Hypercomm.Core.Math
import Hypercomm.Tree.Rooted

/-! # Vector sections

A section is a list of members. The position of a member is its ordinal, and the
ordinals span a binary tree. Up the stream are the children of a member, down the
stream is its parent.
-/

namespace Hypercomm

/-- A section. The size of a vector fits the signed type of its ordinals. -/
structure VectorSection (ι : Type*) where
  members : List ι
  length_lt : members.length < 2 ^ 63
  deriving DecidableEq

namespace VectorSection

variable {ι : Type*} [DecidableEq ι] (S : VectorSection ι) {x y r : ι} {ord : ℤ}

/-- The member at an ordinal, if it is valid. -/
def indexAt (ord : ℤ) : Option ι := if 0 ≤ ord then S.members[ord.toNat]? else none

def ordinalFor (idx : ι) : ℤ := if idx ∈ S.members then S.members.idxOf idx else -1

def isValidOrdinal (ord : ℤ) : Bool := 0 ≤ ord ∧ ord < S.members.length

def isMember (idx : ι) : Bool := S.isValidOrdinal (S.ordinalFor idx)

def pickRoot : Option ι := S.indexAt 0

def hash (hashIdx : ι → HashCode) : HashCode := hashIterable hashIdx S.members

/-- The parent of a member. It is asserted that the index is a member. -/
def downstream (mine : ι) : List ι :=
  let parent := BinaryTree.parent (S.ordinalFor mine)
  if S.isValidOrdinal parent then (S.indexAt parent).toList else []

/-- The children of a member. It is asserted that the index is a member. -/
def upstream (mine : ι) : List ι :=
  let ord := S.ordinalFor mine
  let left := BinaryTree.leftChild 64 ord
  let right := BinaryTree.rightChild 64 ord
  (if S.isValidOrdinal left then (S.indexAt left).toList else []) ++
    (if S.isValidOrdinal right then (S.indexAt right).toList else [])

variable {S}

omit [DecidableEq ι] in
@[simp] theorem isValidOrdinal_iff : S.isValidOrdinal ord ↔ 0 ≤ ord ∧ ord < S.members.length := by
  simp [isValidOrdinal]

theorem ordinalFor_of_mem (h : x ∈ S.members) : S.ordinalFor x = S.members.idxOf x := if_pos h

theorem ordinalFor_valid (h : x ∈ S.members) :
    0 ≤ S.ordinalFor x ∧ S.ordinalFor x < S.members.length := by
  rw [ordinalFor_of_mem h]
  have := List.idxOf_lt_length_of_mem h
  omega

theorem indexAt_eq_some_iff (hnd : S.members.Nodup) :
    S.indexAt ord = some x ↔ x ∈ S.members ∧ S.ordinalFor x = ord := by
  unfold indexAt
  split
  case isTrue h =>
    constructor
    · intro hx
      obtain ⟨hlt, hget⟩ := List.getElem?_eq_some_iff.mp hx
      have hmem : x ∈ S.members := hget ▸ List.getElem_mem hlt
      refine ⟨hmem, ?_⟩
      rw [ordinalFor_of_mem hmem, ← hget, hnd.idxOf_getElem]
      omega
    · rintro ⟨hmem, rfl⟩
      rw [ordinalFor_of_mem hmem, Int.toNat_natCast]
      exact List.getElem?_idxOf hmem
  case isFalse h =>
    refine iff_of_false (by simp) ?_
    rintro ⟨hmem, rfl⟩
    exact h (ordinalFor_valid hmem).1

theorem upstream_eq : S.upstream x =
    (BinaryTree.leaves 64 (S.ordinalFor x) S.members.length).filterMap S.indexAt := by
  simp only [upstream, BinaryTree.leaves, List.filterMap_append, isValidOrdinal_iff]
  split <;> split <;> simp [List.filterMap_cons] <;> rfl

theorem mem_downstream_iff (hnd : S.members.Nodup) (hy : y ∈ S.members) :
    x ∈ S.downstream y ↔ x ∈ S.members ∧ S.ordinalFor x = BinaryTree.parent (S.ordinalFor y) := by
  have hvy := ordinalFor_valid hy
  have hlt := BinaryTree.parent_lt hvy.1
  simp only [downstream, isValidOrdinal_iff]
  split
  case isTrue h => rw [Option.mem_toList, indexAt_eq_some_iff hnd]
  case isFalse h =>
    refine iff_of_false (by simp) ?_
    rintro ⟨hx, he⟩
    have := ordinalFor_valid hx
    omega

theorem mem_upstream_iff (hnd : S.members.Nodup) (hx : x ∈ S.members) :
    y ∈ S.upstream x ↔ y ∈ S.members ∧ x ∈ S.downstream y := by
  have hvx := ordinalFor_valid hx
  have hlen : (S.members.length : ℤ) < 2 ^ (64 - 1) := by exact_mod_cast S.length_lt
  simp only [upstream_eq, List.mem_filterMap, indexAt_eq_some_iff hnd,
    BinaryTree.mem_leaves_iff (w := 64) (by norm_num) hlen hvx.1 hvx.2]
  constructor
  · rintro ⟨_, ⟨hpar, -⟩, hy, rfl⟩
    exact ⟨hy, (mem_downstream_iff hnd hy).mpr ⟨hx, hpar.symm⟩⟩
  · rintro ⟨hy, hd⟩
    exact ⟨_, ⟨((mem_downstream_iff hnd hy).mp hd).2.symm, (ordinalFor_valid hy).2⟩, hy, rfl⟩

theorem upstream_nodup (hnd : S.members.Nodup) (hx : x ∈ S.members) : (S.upstream x).Nodup := by
  have hvx := ordinalFor_valid hx
  have hlen : (S.members.length : ℤ) < 2 ^ (64 - 1) := by exact_mod_cast S.length_lt
  rw [upstream_eq]
  refine List.Nodup.filterMap ?_ (BinaryTree.leaves_nodup (by norm_num) hlen hvx.1 hvx.2)
  intro i j y hi hj
  exact ((indexAt_eq_some_iff hnd).mp hi).2.symm.trans ((indexAt_eq_some_iff hnd).mp hj).2

theorem downstream_length_le : (S.downstream x).length ≤ 1 := by
  simp only [downstream]
  split
  · cases S.indexAt (BinaryTree.parent (S.ordinalFor x)) <;> simp
  · simp

/-- A member is the root, or it has one parent with a smaller ordinal. -/
theorem downstream_cases (hnd : S.members.Nodup) (hy : y ∈ S.members) :
    S.pickRoot = some y ∧ S.downstream y = [] ∨
    S.pickRoot ≠ some y ∧ ∃ x ∈ S.members, S.downstream y = [x] ∧
      S.ordinalFor x < S.ordinalFor y := by
  have hvy := ordinalFor_valid hy
  have hroot : S.pickRoot = some y ↔ S.ordinalFor y = 0 := by
    rw [pickRoot, indexAt_eq_some_iff hnd, and_iff_right hy]
  rcases hvy.1.eq_or_lt with h0 | hpos
  · exact .inl ⟨hroot.mpr h0.symm, by simp [downstream, ← h0]⟩
  · refine .inr ⟨by rw [Ne, hroot]; omega, ?_⟩
    have hpar := BinaryTree.parent_nonneg_iff.mpr hpos
    have hlt := BinaryTree.parent_lt hvy.1
    obtain ⟨x, hx⟩ : ∃ x, S.indexAt (BinaryTree.parent (S.ordinalFor y)) = some x := by
      rw [indexAt, if_pos hpar]
      exact ⟨_, List.getElem?_eq_getElem (by omega)⟩
    obtain ⟨hmem, hord⟩ := (indexAt_eq_some_iff hnd).mp hx
    refine ⟨x, hmem, ?_, hord ▸ hlt⟩
    have hvalid : 0 ≤ BinaryTree.parent (S.ordinalFor y) ∧
        BinaryTree.parent (S.ordinalFor y) < S.members.length := by omega
    simp [downstream, hvalid, hx]

omit [DecidableEq ι] in
theorem exists_pickRoot (hx : x ∈ S.members) : ∃ r, S.pickRoot = some r := by
  have hlen := List.length_pos_of_mem hx
  exact ⟨S.members[0], by simp [pickRoot, indexAt, hlen]⟩

theorem pickRoot_spec (hnd : S.members.Nodup) (hr : S.pickRoot = some r) :
    r ∈ S.members ∧ S.downstream r = [] := by
  have hmem := ((indexAt_eq_some_iff hnd).mp hr).1
  rcases downstream_cases hnd hmem with ⟨-, h⟩ | ⟨h, -⟩
  · exact ⟨hmem, h⟩
  · exact absurd hr h

theorem eq_of_downstream_nil (hnd : S.members.Nodup) (hr : S.pickRoot = some r)
    (hx : x ∈ S.members) (hd : S.downstream x = []) : x = r := by
  rcases downstream_cases hnd hx with ⟨h, -⟩ | ⟨-, p, -, h, -⟩
  · exact Option.some.inj (h.symm.trans hr)
  · simp [hd] at h

def tree (S : VectorSection ι) (hnd : S.members.Nodup) (hr : S.pickRoot = some r) :
    RankedTree ι where
  nodes := S.members
  root := r
  parent x := (S.downstream x).head?
  children := S.upstream
  rank x := (S.ordinalFor x).toNat
  root_mem := (pickRoot_spec hnd hr).1
  parent_root := by rw [(pickRoot_spec hnd hr).2]; rfl
  exists_parent x hx hne := by
    rcases downstream_cases hnd hx with ⟨h, -⟩ | ⟨-, p, hp, hd, hlt⟩
    · exact absurd (Option.some.inj (h.symm.trans hr)) hne
    · have := (ordinalFor_valid hp).1
      exact ⟨p, hp, by rw [hd]; rfl, by omega⟩
  mem_children_iff x hx y := by
    rw [mem_upstream_iff hnd hx, and_congr_right_iff]
    intro hy
    rcases downstream_cases hnd hy with ⟨-, h⟩ | ⟨-, p, -, hd, -⟩
    · simp [h]
    · simp [hd, eq_comm]
  nodup_children x hx := upstream_nodup hnd hx

/-- The members of a section, linked up and down the stream, as a tree with the root at ordinal 0.
Each member leads down to the root, and there is one way up from the root to each. -/
structure SpanningTree (S : VectorSection ι) (r : ι) : Prop where
  root_mem : r ∈ S.members
  pickRoot : S.pickRoot = some r
  ordinal : S.ordinalFor r = 0
  upstream_mem : ∀ i ∈ S.members, ∀ j ∈ S.upstream i, j ∈ S.members
  mem_iff : ∀ i ∈ S.members, ∀ j ∈ S.members, j ∈ S.upstream i ↔ i ∈ S.downstream j
  downstream_root : S.downstream r = []
  downstream_other : ∀ i ∈ S.members, i ≠ r → ∃ p ∈ S.members, S.downstream i = [p]
  reaches : ∀ i ∈ S.members, Relation.ReflTransGen (fun a b => b ∈ S.downstream a) i r
  path : ∀ i ∈ S.members, ∃! path, RankedTree.IsPath S.upstream r i path

/-- The identities of the members of a section make up a spanning tree. -/
theorem exists_spanningTree (hnd : S.members.Nodup) (hne : S.members ≠ []) :
    ∃ r, S.SpanningTree r := by
  obtain ⟨x, hx⟩ := List.exists_mem_of_ne_nil _ hne
  obtain ⟨r, hr⟩ := exists_pickRoot hx
  obtain ⟨hmem, hnil⟩ := pickRoot_spec hnd hr
  refine ⟨r, ?_⟩
  constructor
  · exact hmem
  · exact hr
  · exact ((indexAt_eq_some_iff hnd).mp hr).2
  · intro i hi j hj
    exact ((mem_upstream_iff hnd hi).mp hj).1
  · intro i hi j hj
    rw [mem_upstream_iff hnd hi, and_iff_right hj]
  · exact hnil
  · intro i hi hir
    rcases downstream_cases hnd hi with ⟨h, -⟩ | ⟨-, p, hp, hd, -⟩
    · exact absurd (Option.some.inj (h.symm.trans hr)) hir
    · exact ⟨p, hp, hd⟩
  · intro i hi
    have habove : (S.tree hnd hr).Above r i := RankedTree.root_above hi
    exact Relation.ReflTransGen.mono (fun a b => List.mem_of_mem_head?) _ _ habove
  · intro i hi
    exact RankedTree.existsUnique_path (T := S.tree hnd hr) hi

theorem spanningTree_three : ∃ r, SpanningTree ⟨[7, 3, 5], by decide⟩ r :=
  exists_spanningTree (by decide) (by decide)

end VectorSection

/-- A counter of 64 bits, taken not to overflow. -/
abbrev ReductionId := ℕ

structure Identity where
  rednCount : ReductionId := 0
  bcastCount : ReductionId := 0

namespace Identity

def nextReduction (identity : Identity) : ReductionId × Identity :=
  (identity.rednCount, { identity with rednCount := identity.rednCount + 1 })

def nextBroadcast (identity : Identity) : ReductionId := identity.bcastCount + 1

def acceptBroadcast (identity : Identity) (bcast : ReductionId) : Bool × Identity :=
  if identity.bcastCount ≥ bcast then (false, identity)
  else (true, { identity with bcastCount := bcast })

@[simp] theorem acceptBroadcast_fst {identity : Identity} {bcast : ReductionId} :
    (identity.acceptBroadcast bcast).1 = decide (identity.bcastCount < bcast) := by
  unfold acceptBroadcast
  split
  case isTrue h => simpa using h
  case isFalse h => simpa using h

end Identity

end Hypercomm
