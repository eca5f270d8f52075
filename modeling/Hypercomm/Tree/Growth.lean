import Hypercomm.Tree.Contraction

/-! # Gathering in a tree that gains nodes

A node can be given a new child, a leaf of the tree from then on. The child takes no part in the
rounds that the node has given in, and is awaited in the rounds after these.
-/

variable {ι V : Type*} [DecidableEq ι]

namespace RankedTree

variable {T : RankedTree ι} {x y z w : ι}

/-- The tree with a new leaf. -/
def graft (T : RankedTree ι) (hx : x ∈ T.nodes) (hy : y ∉ T.nodes) : RankedTree ι where
  nodes := T.nodes ++ [y]
  root := T.root
  parent := Function.update T.parent y (some x)
  children := Function.update (Function.update T.children x (T.children x ++ [y])) y []
  rank := Function.update T.rank y (T.rank x + 1)
  root_mem := List.mem_append_left _ T.root_mem
  parent_root := by
    have hr : T.root ≠ y := fun he => hy (he ▸ T.root_mem)
    rw [Function.update_of_ne hr, T.parent_root]
  exists_parent := by
    intro z hz hne
    rcases List.mem_append.mp hz with hz | hz
    · have hzy : z ≠ y := fun he => hy (he ▸ hz)
      obtain ⟨p, hp, hzp, hlt⟩ := T.exists_parent z hz hne
      have hpy : p ≠ y := fun he => hy (he ▸ hp)
      refine ⟨p, List.mem_append_left _ hp, ?_, ?_⟩
      · rw [Function.update_of_ne hzy, hzp]
      · rwa [Function.update_of_ne hpy, Function.update_of_ne hzy]
    · obtain rfl := List.mem_singleton.mp hz
      have hxz : x ≠ z := fun he => hy (he ▸ hx)
      refine ⟨x, List.mem_append_left _ hx, Function.update_self .., ?_⟩
      rw [Function.update_of_ne hxz, Function.update_self]
      exact Nat.lt_succ_self _
  mem_children_iff := by
    intro z hz w
    have hxy : x ≠ y := fun he => hy (he ▸ hx)
    have hparent : ∀ z, T.parent w = some z → w ∈ T.nodes → z ∈ T.nodes := fun z hp hw =>
      (exists_parent_of_some hw hp).1
    rcases List.mem_append.mp hz with hz | hz
    · have hzy : z ≠ y := fun he => hy (he ▸ hz)
      have hold := T.mem_children_iff z hz w
      rcases eq_or_ne w y with rfl | hwy
      · have hnot : w ∉ T.children z := fun hw => hy (hold.mp hw).1
        rcases eq_or_ne z x with rfl | hzx
        · simp [hzy]
        · simp [hzy, hzx, hnot, hzx.symm]
      · rcases eq_or_ne z x with rfl | hzx
        · simp [hzy, hwy, hold]
        · simp [hzy, hzx, hwy, hold]
    · obtain rfl := List.mem_singleton.mp hz
      rw [Function.update_self]
      refine ⟨fun hw => absurd hw List.not_mem_nil, ?_⟩
      rintro ⟨hw, hp⟩
      rcases eq_or_ne w z with rfl | hwz
      · rw [Function.update_self] at hp
        exact absurd (Option.some.inj hp) hxy
      · rw [Function.update_of_ne hwz] at hp
        rcases List.mem_append.mp hw with hw | hw
        · exact absurd (hparent z hp hw) hy
        · exact absurd (List.mem_singleton.mp hw) hwz
  nodup_children := by
    intro z hz
    rcases eq_or_ne z y with rfl | hzy
    · rw [Function.update_self]
      exact List.nodup_nil
    · rw [Function.update_of_ne hzy]
      rcases eq_or_ne z x with rfl | hzx
      · rw [Function.update_self]
        have hnot : y ∉ T.children z := fun hmem => hy ((T.mem_children_iff z hx y).mp hmem).1
        rw [← List.concat_eq_append]
        exact List.Nodup.concat hnot (T.nodup_children z hx)
      · rw [Function.update_of_ne hzx]
        apply T.nodup_children z
        exact (List.mem_append.mp hz).resolve_right fun he => hzy (List.mem_singleton.mp he)

/-- A tree that has become another one by new nodes. -/
structure Grows (T T' : RankedTree ι) : Prop where
  root : T'.root = T.root
  nodes : ∀ w ∈ T.nodes, w ∈ T'.nodes
  above : ∀ z, ∀ w ∈ T.nodes, T.Above z w → T'.Above z w

omit [DecidableEq ι] in
theorem Grows.refl (T : RankedTree ι) : T.Grows T := ⟨rfl, fun _ => id, fun _ _ _ => id⟩

theorem grows_graft (hx : x ∈ T.nodes) (hy : y ∉ T.nodes) : T.Grows (T.graft hx hy) := by
  refine ⟨rfl, fun w => List.mem_append_left _, fun z w hw h => ?_⟩
  induction h with
  | refl => rfl
  | @tail a b ha hab ih =>
    have hay : a ≠ y := fun he => hy (he ▸ (Above.mem_rank hw ha).1)
    refine Above.trans (.of_parent ?_) ih
    exact (Function.update_of_ne hay ..).trans hab

end RankedTree

namespace Contraction

namespace State

variable {s : State ι V} {x y z : ι} {c : ℕ}

/-- A new node gives nothing in the rounds that its parent has given in. -/
def enter (x y : ι) (s : State ι V) : State ι V :=
  { s with
    alive := Function.update s.alive y True
    own := Function.update s.own y (List.replicate (s.own x).length none)
    children := Function.update s.children x (insert y (s.children x)) }

theorem enter_alive : (s.enter x y).alive z ↔ z = y ∨ s.alive z := by
  rcases eq_or_ne z y with rfl | hne <;> simp [enter, *]

theorem mem_enter {w : ι} :
    w ∈ (s.enter x y).children z ↔ (z = x ∧ w = y) ∨ w ∈ s.children z := by
  rcases eq_or_ne z x with rfl | hne <;> simp [enter, *]

theorem enter_owned {w : ι} : (s.enter x y).Owned w ↔ w = y ∨ s.Owned w := by
  constructor
  · rintro ⟨z, hz⟩
    rcases mem_enter.mp hz with ⟨-, rfl⟩ | hz
    · exact .inl rfl
    · exact .inr ⟨z, hz⟩
  · rintro (rfl | ⟨z, hz⟩)
    · exact ⟨x, mem_enter.mpr (.inl ⟨rfl, rfl⟩)⟩
    · exact ⟨z, mem_enter.mpr (.inr hz)⟩

theorem enter_done (hz : z ≠ y) : (s.enter x y).Done z c ↔ s.Done z c := by
  simp [State.Done, enter, hz]

end State

variable {T : RankedTree ι} {s : State ι V} {x y z w : ι} {c : ℕ}

structure Blank (s : State ι V) (y : ι) : Prop where
  alive : ¬ s.alive y
  owned : ¬ s.Owned y
  children : s.children y = ∅
  forwards : ¬ s.forwards y
  pending : ∀ c, s.pending y c = none
  sent : ∀ c, s.sent y c = none

omit [DecidableEq ι] in
theorem Inv.blank (h : Inv T s) (hy : y ∉ T.nodes) : Blank s y := by
  have hdead : ¬ s.alive y := fun ha => hy (h.nodes y ha)
  have howned : ¬ s.Owned y := by
    rintro ⟨x, hx⟩
    exact hy (h.mem x y hx)
  constructor
  · exact hdead
  · exact howned
  · exact Finset.not_nonempty_iff_eq_empty.mp fun hne => howned (h.left y hdead hne).2
  · exact fun hf => hy (h.forwards y hf).1
  · intro c
    cases hp : s.pending y c with
    | none => rfl
    | some p => exact absurd (h.pending y c p hp).1 hdead
  · intro c
    by_contra hs
    exact hy (h.mem_of_sent hs)

section Graft

variable (hx : x ∈ T.nodes) (hy : y ∉ T.nodes)

theorem Reaches.graft (h : Inv T s) (hr : Reaches T s z w) :
    Reaches (T.graft hx hy) (s.enter x y) z w := by
  refine Relation.ReflTransGen.mono (fun a b hab => ⟨hab.1, ?_⟩) z w hr
  have hay : a ≠ y := fun he => hy (he ▸ (h.forwards a hab.1).1)
  exact (Function.update_of_ne hay ..).trans hab.2

theorem Under.graft (h : Inv T s) (hw : w ∈ T.nodes) (hu : Under T s w z) :
    Under (T.graft hx hy) (s.enter x y) w z := by
  obtain ⟨p, hp, hr⟩ := hu
  have hwy : w ≠ y := fun he => hy (he ▸ hw)
  exact ⟨p, (Function.update_of_ne hwy ..).trans hp, hr.graft hx hy h⟩

theorem Under.enter (s : State ι V) : Under (T.graft hx hy) s y x :=
  ⟨x, Function.update_self .., .refl⟩

theorem Inv.enter_consumed (h : Inv T s) (hy : y ∉ T.nodes) (hc : c < (s.own x).length) :
    (s.enter x y).Consumed y c := by
  have hb := h.blank hy
  refine ⟨⟨?_, hb.pending c⟩, hb.sent c⟩
  simpa [State.enter] using hc

theorem Inv.enter (h : Inv T s) (ha : s.alive x) : Inv (T.graft hx hy) (s.enter x y) := by
  have hb := h.blank hy
  have hne : ∀ z ∈ T.nodes, z ≠ y := fun z hz he => hy (he ▸ hz)
  have hold : ∀ z ∈ T.nodes, z ∈ (T.graft hx hy).nodes := fun z => List.mem_append_left _
  have hmem : ∀ z, ∀ w ∈ s.children z, w ≠ y := fun z w hw => hne w (h.mem z w hw)
  have hconsumed : ∀ z c, z ≠ y → s.Consumed z c → (s.enter x y).Consumed z c := fun z c hz hc =>
    ⟨(State.enter_done hz).mpr hc.1, hc.2⟩
  have howned : ∀ z, s.Owned z → (s.enter x y).Owned z := fun z hz =>
    State.enter_owned.mpr (.inr hz)
  constructor
  · intro z hz
    rcases State.enter_alive.mp hz with rfl | hz
    · exact List.mem_append_right _ (List.mem_singleton_self z)
    · exact hold z (h.nodes z hz)
  · intro z hz
    rcases eq_or_ne z y with rfl | hzy
    · exact List.mem_append_right _ (List.mem_singleton_self z)
    · apply hold z
      apply h.own z
      simpa [State.enter, hzy] using hz
  · exact State.enter_alive.mpr (.inr h.root)
  · intro z hz
    obtain ⟨hzn, hza⟩ := h.forwards z hz
    refine ⟨hold z hzn, fun ha => ?_⟩
    exact (State.enter_alive.mp ha).elim (hne z hzn) hza
  · intro z w hw
    rcases State.mem_enter.mp hw with ⟨-, rfl⟩ | hw
    · exact List.mem_append_right _ (List.mem_singleton_self w)
    · exact hold w (h.mem z w hw)
  · intro z z' w hw hw'
    rcases State.mem_enter.mp hw with ⟨rfl, rfl⟩ | hwz
    · rcases State.mem_enter.mp hw' with ⟨rfl, -⟩ | hwz'
      · rfl
      · exact absurd rfl (hmem z' w hwz')
    · rcases State.mem_enter.mp hw' with ⟨-, rfl⟩ | hwz'
      · exact absurd rfl (hmem z w hwz)
      · exact h.unique z z' w hwz hwz'
  · intro w hw hroot
    rcases State.enter_alive.mp hw with rfl | hw
    · exact State.enter_owned.mpr (.inl rfl)
    · exact howned w (h.owned w hw hroot)
  · intro z w hw
    rcases State.mem_enter.mp hw with ⟨rfl, rfl⟩ | hw
    · exact .enter hx hy _
    · exact (h.under z w hw).graft hx hy h (h.mem z w hw)
  · rintro z hz ⟨w, hw⟩
    have hza : ¬ s.alive z := fun ha => hz (State.enter_alive.mpr (.inr ha))
    rcases State.mem_enter.mp hw with ⟨rfl, -⟩ | hw
    · exact absurd ha hza
    · obtain ⟨hf, ho⟩ := h.left z hza ⟨w, hw⟩
      exact ⟨hf, howned z ho⟩
  · intro z c p hp
    obtain ⟨hza, hc, hw⟩ := h.pending z c p hp
    have hzy := hne z (h.nodes z hza)
    refine ⟨State.enter_alive.mpr (.inr hza), ?_, fun w hwp => ?_⟩
    · simpa [State.enter, hzy] using hc
    · refine (hw w hwp).graft hx hy h ?_
      rcases h.awaited z c p hp w hwp with ⟨hwz, -⟩ | ⟨-, hs⟩
      · exact h.mem z w hwz
      · exact h.mem_of_sent hs
  · intro z c p hp w hw
    rcases State.mem_enter.mp hw with ⟨rfl, rfl⟩ | hw
    · exact .inr (h.enter_consumed hy (h.pending z c p hp).2.1)
    · exact (h.waits z c p hp w hw).imp_right (hconsumed w c (hmem z w hw))
  · intro z c p hp w hwp
    rcases h.awaited z c p hp w hwp with ⟨hwz, hs⟩ | ⟨ho, hs⟩
    · refine .inl ⟨State.mem_enter.mpr (.inr hwz), fun hd => hs ?_⟩
      exact (State.enter_done (hmem z w hwz)).mp hd
    · refine .inr ⟨fun ho' => ?_, hs⟩
      exact (State.enter_owned.mp ho').elim (hne w (h.mem_of_sent hs)) ho
  · intro z c hd w hw
    rcases eq_or_ne z y with rfl | hzy
    · rcases State.mem_enter.mp hw with ⟨rfl, -⟩ | hw
      · exact absurd hx hy
      · rw [hb.children] at hw
        exact absurd hw (Finset.notMem_empty w)
    · have hdone := (State.enter_done hzy).mp hd
      rcases State.mem_enter.mp hw with ⟨rfl, rfl⟩ | hwz
      · exact h.enter_consumed hy hdone.1
      · exact hconsumed w c (hmem z w hwz) (h.consumed z c hdone w hwz)
  · intro z c hc w hw hd
    rcases State.mem_enter.mp hw with ⟨rfl, rfl⟩ | hwz
    · have hlt : c < (s.own z).length := by simpa [State.enter] using hd.1
      have hzy := hne z hx
      simp only [State.enter, Function.update_of_ne hzy] at hc
      omega
    · have hzy : z ≠ y := by
        rintro rfl
        rw [hb.children] at hwz
        exact Finset.notMem_empty w hwz
      refine h.early z c ?_ w hwz ((State.enter_done (hmem z w hwz)).mp hd)
      simpa [State.enter, hzy] using hc
  · intro w c hs
    have hwy := hne w (h.mem_of_sent hs)
    obtain ⟨hd, hor⟩ := h.sent w c hs
    exact ⟨(State.enter_done hwy).mpr hd, hor.imp_right (Or.imp_left (howned w))⟩

theorem Sound.enter (h : Sound T s) (ha : s.alive x) : Sound (T.graft hx hy) (s.enter x y) := by
  obtain ⟨h, hc, hr⟩ := h
  have hb := h.blank hy
  have hnodes : (T.graft hx hy).nodes.toFinset = insert y T.nodes.toFinset := by
    simp [RankedTree.graft]
  have hnot : y ∉ T.nodes.toFinset := fun hmem => hy (List.mem_toFinset.mp hmem)
  refine ⟨h.enter hx hy ha, fun c => ?_, ?_⟩
  · have hgathered : (s.enter x y).gathered y c = 0 := by
      simp [State.gathered, State.enter, hb.pending c, hb.sent c]
    have hgiven : (s.enter x y).given y c = 0 := by
      simp only [State.given, State.enter, Function.update_self, List.getElem?_replicate]
      split <;> rfl
    rw [hnodes, Finset.sum_insert hnot, Finset.sum_insert hnot, hgathered, hgiven, zero_add,
      zero_add]
    refine Eq.trans ?_ ((hc c).trans (Finset.sum_congr rfl fun z hz => ?_))
    · rfl
    · have hzy : z ≠ y := fun he => hnot (he ▸ hz)
      simp [State.given, State.enter, hzy]
  · have hroot : T.root ≠ y := fun he => hy (he ▸ T.root_mem)
    change none ∉ (s.enter x y).own T.root
    simpa [State.enter, hroot] using hr

theorem State.Silent.enter (h : s.Silent z c) (hz : z ≠ y) : (s.enter x y).Silent z c := by
  refine ⟨h.1, h.2.imp (State.enter_done hz).mpr fun hg => ⟨fun ha => ?_, fun ho => ?_⟩⟩
  · exact (State.enter_alive.mp ha).elim hz hg.1
  · exact (State.enter_owned.mp ho).elim hz hg.2

end Graft

end Contraction
