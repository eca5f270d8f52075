import Mathlib.Data.Fintype.Pi
import Mathlib.Data.Nat.Find
import Hypercomm.Components.Acceptor

/-! # The time of activation

The values of each port go to the input sets in the order in which they arrive. A
component that is active stages the complete sets in this order, and its activation
stages the sets that were completed before in the reverse order.
-/

namespace Hypercomm.Components

variable {n : ℕ} {V : Type*}

section Sets

def valuesAt (xs : List (Fin n × V)) (i : Fin n) : List V :=
  xs.filterMap fun x => if x.1 = i then some x.2 else none

def setAt (xs : List (Fin n × V)) (k : ℕ) : InSet n V := fun i => (valuesAt xs i)[k]?

variable {xs ys : List (Fin (n + 1) × V)} {i j : Fin (n + 1)} {v : V} {k : ℕ}

theorem isReady_setAt : (setAt xs k).isReady ↔ ∀ i, k < (valuesAt xs i).length := by
  simp [InSet.isReady, setAt]

theorem exists_not_isReady (xs : List (Fin (n + 1) × V)) : ∃ k, ¬ (setAt xs k).isReady := by
  refine ⟨xs.length, fun h => ?_⟩
  have h0 := isReady_setAt.mp h 0
  exact absurd h0 (not_lt.mpr (List.length_filterMap_le _ _))

def complete (xs : List (Fin (n + 1) × V)) : ℕ := Nat.find (exists_not_isReady xs)

def completeSets (xs : List (Fin (n + 1) × V)) : List (InSet (n + 1) V) :=
  (List.range (complete xs)).map (setAt xs)

theorem completeSets_eq_nil (h : complete xs = 0) : completeSets xs = [] := by
  rw [completeSets, h]
  rfl

theorem completeSets_nil : completeSets ([] : List (Fin (n + 1) × V)) = [] :=
  completeSets_eq_nil (Nat.le_zero.mp (Nat.find_min' _ (by simp [isReady_setAt, valuesAt])))

theorem isReady_iff : (setAt xs k).isReady ↔ k < complete xs := by
  constructor
  · intro h
    by_contra hk
    have hspec : ¬ (setAt xs (complete xs)).isReady := Nat.find_spec (exists_not_isReady xs)
    rw [isReady_setAt] at h
    exact hspec (isReady_setAt.mpr fun i => lt_of_le_of_lt (not_lt.mp hk) (h i))
  · intro h
    exact not_not.mp (Nat.find_min (exists_not_isReady xs) h)

theorem complete_le (xs : List (Fin (n + 1) × V)) (i : Fin (n + 1)) :
    complete xs ≤ (valuesAt xs i).length := by
  by_contra h
  exact lt_irrefl _ (isReady_setAt.mp (isReady_iff.mpr (not_le.mp h)) i)

theorem valuesAt_append (xs ys : List (Fin n × V)) (i : Fin n) :
    valuesAt (xs ++ ys) i = valuesAt xs i ++ valuesAt ys i := List.filterMap_append

theorem setAt_append_of_lt (h : ∀ i, k < (valuesAt xs i).length) :
    setAt (xs ++ ys) k = setAt xs k := by
  funext i
  rw [setAt, setAt, valuesAt_append, List.getElem?_append_left (h i)]

theorem complete_mono : complete xs ≤ complete (xs ++ ys) := by
  by_contra h
  have hr := isReady_setAt.mp (isReady_iff.mpr (not_le.mp h))
  have hr' : (setAt (xs ++ ys) (complete (xs ++ ys))).isReady := by
    rw [setAt_append_of_lt hr]
    exact isReady_setAt.mpr hr
  exact lt_irrefl _ (isReady_iff.mp hr')

theorem completeSets_append : completeSets (xs ++ ys) =
    completeSets xs ++ (completeSets (xs ++ ys)).drop (completeSets xs).length := by
  have htake : completeSets xs = (completeSets (xs ++ ys)).take (completeSets xs).length := by
    simp only [completeSets, List.length_map, List.length_range, ← List.map_take,
      List.take_range, min_eq_left complete_mono]
    refine List.map_congr_left fun k hk => (setAt_append_of_lt ?_).symm
    exact isReady_setAt.mp (isReady_iff.mpr (List.mem_range.mp hk))
  conv_lhs => rw [← List.take_append_drop (completeSets xs).length (completeSets (xs ++ ys))]
  rw [← htake]

theorem setAt_concat (xs : List (Fin n × V)) (i : Fin n) (v : V) (k : ℕ) :
    setAt (xs ++ [(i, v)]) k =
      if k = (valuesAt xs i).length then Function.update (setAt xs k) i (some v)
      else setAt xs k := by
  funext j
  rw [setAt, valuesAt_append]
  by_cases hj : j = i
  · subst hj
    have hv : valuesAt [(j, v)] j = [v] := by simp [valuesAt]
    rw [hv]
    split_ifs with hk
    · simp [hk]
    · rcases lt_or_gt_of_ne hk with hk | hk
      · rw [List.getElem?_append_left hk]
        rfl
      · rw [List.getElem?_eq_none (by simp; omega), setAt, List.getElem?_eq_none hk.le]
  · have hv : valuesAt [(i, v)] j = [] := by simp [valuesAt, Ne.symm hj]
    rw [hv, List.append_nil]
    split_ifs
    · rw [Function.update_of_ne hj]
      rfl
    · rfl

theorem length_valuesAt_concat (xs : List (Fin n × V)) (i : Fin n) (v : V) (j : Fin n) :
    (valuesAt (xs ++ [(i, v)]) j).length =
      (valuesAt xs j).length + if j = i then 1 else 0 := by
  rw [valuesAt_append, List.length_append]
  by_cases hj : j = i
  · simp [valuesAt, hj]
  · simp [valuesAt, hj, Ne.symm hj]

end Sets

namespace Acceptor

section Search

variable {s : Acceptor n V} {older newer : List (InSet n V)} {set : InSet n V} {i : Fin n}

theorem findFinIdx?_append_cons {α : Type*} {p : α → Bool} {l before behind : List α} {a : α}
    (hl : l = before ++ a :: behind) (ha : p a) (hb : ∀ b ∈ before, ¬ p b) :
    ∃ j, l.findFinIdx? p = some j ∧ (j : ℕ) = before.length ∧ l.get j = a := by
  subst hl
  refine ⟨⟨before.length, by simp⟩, List.findFinIdx?_eq_some_iff.mpr ⟨?_, ?_⟩, rfl, by simp⟩
  · simpa using ha
  · intro j hj
    have hlt : j < before.length := hj
    rw [Fin.getElem_fin, List.getElem_append_left hlt]
    exact hb _ (List.getElem_mem hlt)

theorem findReady_eq (hs : s.incoming = newer ++ set :: older) (hr : set.isReady)
    (hn : ∀ a ∈ newer, ¬ InSet.isReady a) :
    ∃ j, s.findReady = some j ∧ (j : ℕ) = newer.length ∧ s.incoming.get j = set :=
  findFinIdx?_append_cons hs hr hn

theorem findReady_eq_none (hs : ∀ a ∈ s.incoming, ¬ InSet.isReady a) : s.findReady = none := by
  simpa [findReady] using hs

theorem findGap_eq (hs : s.incoming = newer ++ set :: older) (hi : set i = none)
    (ho : ∀ a ∈ older, (a i).isSome) :
    ∃ j, s.findGap i = some j ∧ (j : ℕ) = newer.length ∧ s.incoming.get j = set := by
  have hr : s.incoming.reverse = older.reverse ++ set :: newer.reverse := by simp [hs]
  obtain ⟨j, hj, hlen, -⟩ := findFinIdx?_append_cons (p := fun a : InSet n V => (a i).isNone) hr
    (by simp [hi]) (by simpa [Option.isSome_iff_ne_none] using ho)
  refine ⟨(j.cast List.length_reverse).rev, by simp [findGap, hj], ?_, ?_⟩
  · have hl := congrArg List.length hs
    simp only [List.length_append, List.length_cons] at hl
    simp only [Fin.val_rev, Fin.val_cast, hlen, List.length_reverse, hl]
    omega
  · have hl := congrArg List.length hs
    simp only [List.length_append, List.length_cons] at hl
    have hv : (((j.cast List.length_reverse).rev : Fin s.incoming.length) : ℕ) =
        newer.length := by
      simp only [Fin.val_rev, Fin.val_cast, hlen, List.length_reverse, hl]
      omega
    simp only [List.get_eq_getElem, hv, hs]
    simp

theorem findGap_eq_none (hs : ∀ a ∈ s.incoming, (a i).isSome) : s.findGap i = none := by
  simpa [findGap, Option.isSome_iff_ne_none] using hs

end Search

section Buffering

variable {xs ys : List (Fin (n + 1) × V)} {s t : Acceptor (n + 1) V} {d m : ℕ}
variable {i : Fin (n + 1)} {v : V}

/-- The sets that were staged are complete, and the others are buffered, the newest in front. -/
structure Buffers (xs : List (Fin (n + 1) × V)) (d m : ℕ) (s : Acceptor (n + 1) V) : Prop where
  incoming : s.incoming = ((List.range' d m).map (setAt xs)).reverse
  le : ∀ i, (valuesAt xs i).length ≤ d + m
  exists_lt : ∀ k < d + m, ∃ i, k < (valuesAt xs i).length
  staged : d ≤ complete xs

theorem range'_split {d m l : ℕ} (hd : d ≤ l) (hl : l < d + m) :
    List.range' d m = List.range' d (l - d) ++ l :: List.range' (l + 1) (d + m - l - 1) := by
  have h := List.range'_append_1 (s := d) (m := l - d) (n := d + m - l)
  rw [show l - d + (d + m - l) = m by omega, show d + (l - d) = l by omega] at h
  rw [← h, show d + m - l = d + m - l - 1 + 1 by omega, List.range'_succ]
  congr 2

/-- The set that a value completes is between those that were made before and after it. -/
structure Placed (s : Acceptor (n + 1) V) (xs : List (Fin (n + 1) × V)) (i : Fin (n + 1)) (v : V)
    (d m : ℕ) (older newer : List (InSet (n + 1) V)) : Prop where
  older_eq : older =
    ((List.range' d ((valuesAt xs i).length - d)).map (setAt (xs ++ [(i, v)]))).reverse
  newer_eq : newer = ((List.range' ((valuesAt xs i).length + 1)
    (d + m - (valuesAt xs i).length - 1)).map (setAt (xs ++ [(i, v)]))).reverse
  buffers : Buffers (xs ++ [(i, v)]) d m
    { s with incoming := newer ++ setAt (xs ++ [(i, v)]) (valuesAt xs i).length :: older }
  accept : s.accept i (some v) = some
    (if (setAt (xs ++ [(i, v)]) (valuesAt xs i).length).isReady then
      ({ s with incoming :=
          newer ++ setAt (xs ++ [(i, v)]) (valuesAt xs i).length :: older }.stageAt newer.length
        (setAt (xs ++ [(i, v)]) (valuesAt xs i).length)).getD
        { s with incoming := newer ++ setAt (xs ++ [(i, v)]) (valuesAt xs i).length :: older }
    else { s with incoming := newer ++ setAt (xs ++ [(i, v)]) (valuesAt xs i).length :: older })

theorem map_setAt_concat {r : List ℕ} (hr : (valuesAt xs i).length ∉ r) :
    r.map (setAt (xs ++ [(i, v)])) = r.map (setAt xs) := by
  refine List.map_congr_left fun k hk => ?_
  rw [setAt_concat, if_neg]
  rintro rfl
  exact hr hk

theorem Buffers.concat (hb : Buffers xs d m s) (i : Fin (n + 1)) (v : V) {m' : ℕ}
    {set : List (InSet (n + 1) V)} (hm : m' = max m ((valuesAt xs i).length + 1 - d))
    (hs : set = ((List.range' d m').map (setAt (xs ++ [(i, v)]))).reverse) :
    Buffers (xs ++ [(i, v)]) d m' { s with incoming := set } where
  incoming := hs
  le j := by
    rw [length_valuesAt_concat]
    have hle := hb.le j
    by_cases hj : j = i
    · subst hj
      rw [if_pos rfl]
      omega
    · rw [if_neg hj]
      omega
  exists_lt k hk := by
    by_cases hkm : k < d + m
    · obtain ⟨j, hj⟩ := hb.exists_lt k hkm
      refine ⟨j, ?_⟩
      rw [length_valuesAt_concat]
      omega
    · refine ⟨i, ?_⟩
      rw [length_valuesAt_concat, if_pos rfl]
      omega
  staged := hb.staged.trans complete_mono

theorem Buffers.staged_le (hb : Buffers xs d m s) (i : Fin (n + 1)) :
    d ≤ (valuesAt xs i).length := hb.staged.trans (complete_le xs i)

theorem Buffers.eq_of_single (hb : Buffers xs d m s) (hn : n = 0) (i : Fin (n + 1)) :
    (valuesAt xs i).length = d + m := by
  subst hn
  refine le_antisymm (hb.le i) (not_lt.mp fun hlt => ?_)
  obtain ⟨j, hj⟩ := hb.exists_lt _ hlt
  rw [show j = i by ext; omega] at hj
  exact lt_irrefl _ hj

theorem Buffers.placed_old (hb : Buffers xs d m s) (v : V)
    (hlt : (valuesAt xs i).length < d + m) : ∃ older newer, Placed s xs i v d m older newer := by
  have hdl := hb.staged_le i
  have hn : n + 1 ≠ 1 := by
    intro h1
    have := hb.eq_of_single (by omega) i
    omega
  refine ⟨_, _, rfl, rfl, ?_, ?_⟩
  · apply hb.concat i v (by omega)
    rw [range'_split hdl hlt]
    simp
  · have hin := hb.incoming
    rw [range'_split hdl hlt] at hin
    simp only [List.map_append, List.map_cons, List.reverse_append, List.reverse_cons,
      List.append_assoc, List.singleton_append] at hin
    have hbelow : (valuesAt xs i).length ∉ List.range' d ((valuesAt xs i).length - d) := by
      simp
      omega
    have habove : (valuesAt xs i).length ∉
        List.range' ((valuesAt xs i).length + 1) (d + m - (valuesAt xs i).length - 1) := by simp
    rw [← map_setAt_concat (v := v) hbelow, ← map_setAt_concat (v := v) habove] at hin
    obtain ⟨j, hj, hjl, hget⟩ := findGap_eq hin (i := i) (by simp [setAt]) (by
      intro a ha
      rw [map_setAt_concat hbelow] at ha
      simp only [List.mem_reverse, List.mem_map, List.mem_range'_1] at ha
      obtain ⟨k, hk, rfl⟩ := ha
      rw [setAt, List.getElem?_eq_getElem (by omega)]
      rfl)
    have hset : Function.update (s.incoming.get j) i (some v) =
        setAt (xs ++ [(i, v)]) (valuesAt xs i).length := by
      rw [hget, setAt_concat, if_pos rfl]
    have hin' : ∀ set, s.incoming.set j set =
        ((List.range' ((valuesAt xs i).length + 1)
          (d + m - (valuesAt xs i).length - 1)).map (setAt (xs ++ [(i, v)]))).reverse ++
        set ::
        ((List.range' d ((valuesAt xs i).length - d)).map (setAt (xs ++ [(i, v)]))).reverse := by
      intro set
      rw [hjl]
      conv_lhs => rw [hin]
      rw [List.set_append_right _ _ le_rfl, Nat.sub_self, List.set_cons_zero]
    simp only [accept, if_neg hn, seekStage, hj, hset, hin']
    rw [hjl]

theorem Buffers.placed_new (hb : Buffers xs d m s) (v : V)
    (hl : (valuesAt xs i).length = d + m) :
    ∃ older newer, Placed s xs i v d (m + 1) older newer := by
  have hset : setAt (xs ++ [(i, v)]) (valuesAt xs i).length =
      Function.update (fun _ => none) i (some v) := by
    rw [setAt_concat, if_pos rfl]
    congr 1
    funext j
    rw [setAt, List.getElem?_eq_none]
    have := hb.le j
    omega
  have hold : s.incoming =
      ((List.range' d ((valuesAt xs i).length - d)).map (setAt (xs ++ [(i, v)]))).reverse := by
    rw [map_setAt_concat (by simp; omega), hl, Nat.add_sub_cancel_left]
    exact hb.incoming
  have hnew : ((List.range' ((valuesAt xs i).length + 1)
      (d + (m + 1) - (valuesAt xs i).length - 1)).map (setAt (xs ++ [(i, v)]))).reverse = [] := by
    rw [show d + (m + 1) - (valuesAt xs i).length - 1 = 0 by omega]
    rfl
  refine ⟨s.incoming, [], hold, hnew.symm, ?_, ?_⟩
  · apply hb.concat i v (by omega)
    rw [hold, hl, List.nil_append, Nat.add_sub_cancel_left, List.range'_1_concat, List.map_append,
      List.reverse_append]
    rfl
  · by_cases hn : n + 1 = 1
    · have hs : setAt (xs ++ [(i, v)]) (valuesAt xs i).length = fun _ => some v := by
        rw [hset]
        funext j
        have hj : j = i := by
          ext
          omega
        rw [hj, Function.update_self]
      have hr : InSet.isReady (fun _ : Fin (n + 1) => some v) := by simp [InSet.isReady]
      simp only [accept, if_pos hn, hs, hr, directStage, stageAt, stageAction, id_eq]
      split_ifs <;> rfl
    · have hr : ¬ InSet.isReady (setAt (xs ++ [(i, v)]) (valuesAt xs i).length) := by
        rw [hset]
        intro hr
        obtain ⟨j, hj⟩ : ∃ j : Fin (n + 1), j ≠ i :=
          have : Nontrivial (Fin (n + 1)) := Fin.nontrivial_iff_two_le.mpr (by omega)
          exists_ne i
        have hsome := of_decide_eq_true hr j
        rw [Function.update_of_ne hj] at hsome
        exact absurd hsome (by simp)
      have hgap : s.findGap i = none := by
        apply findGap_eq_none
        intro a ha
        rw [hb.incoming] at ha
        simp only [List.mem_reverse, List.mem_map, List.mem_range'_1] at ha
        obtain ⟨k, hk, rfl⟩ := ha
        rw [setAt, List.getElem?_eq_getElem (by omega)]
        rfl
      rw [if_neg hr]
      simp only [accept, if_neg hn, seekStage, hgap, hset, List.nil_append]

theorem Buffers.placed (hb : Buffers xs d m s) (i : Fin (n + 1)) (v : V) :
    ∃ m' older newer, Placed s xs i v d m' older newer := by
  rcases lt_or_eq_of_le (hb.le i) with h | h
  · exact ⟨m, hb.placed_old v h⟩
  · exact ⟨m + 1, hb.placed_new v h⟩

end Buffering

section Staging

variable {xs ys : List (Fin (n + 1) × V)} {s t : Acceptor (n + 1) V} {d m : ℕ}
variable {i : Fin (n + 1)} {v : V}

theorem exists_accept_of_inactive (h : s.active = false) (i : Fin (n + 1)) (v : V) :
    ∃ t, s.accept i (some v) = some t ∧ t.active = false ∧ t.actions = s.actions := by
  obtain ⟨t, ht⟩ : ∃ t, s.accept i (some v) = some t := ⟨_, rfl⟩
  refine ⟨t, ht, ?_⟩
  rw [accept_of_inactive h ht]
  exact ⟨h, rfl⟩

theorem exists_feed_of_inactive (h : s.active = false) (ys : List (Fin (n + 1) × V)) :
    ∃ t, s.feed ys = some t ∧ t.actions = s.actions := by
  induction ys generalizing s with
  | nil => exact ⟨s, rfl, rfl⟩
  | cons y ys ih =>
    obtain ⟨t, ht, hact, ha⟩ := exists_accept_of_inactive h y.1 y.2
    obtain ⟨u, hu, hua⟩ := ih hact
    refine ⟨u, ?_, hua.trans ha⟩
    rw [feed, List.foldlM_cons, ht]
    exact hu

theorem Buffers.exists_accept (hb : Buffers xs d m s) (h : s.active = false) (i : Fin (n + 1))
    (v : V) :
    ∃ t m', s.accept i (some v) = some t ∧ Buffers (xs ++ [(i, v)]) d m' t ∧
      t.active = false ∧ t.actions = s.actions ∧ t.persistent = s.persistent := by
  obtain ⟨m', older, newer, hp⟩ := hb.placed i v
  refine ⟨_, m', hp.accept, ?_, ?_⟩
  · rw [stageAt_of_inactive (by exact h)]
    simpa using hp.buffers
  · rw [stageAt_of_inactive (by exact h)]
    simp [h]

theorem Buffers.exists_feed (hb : Buffers xs d m s) (h : s.active = false)
    (ys : List (Fin (n + 1) × V)) :
    ∃ t m', s.feed ys = some t ∧ Buffers (xs ++ ys) d m' t ∧
      t.active = false ∧ t.actions = s.actions ∧ t.persistent = s.persistent := by
  induction ys generalizing xs s m with
  | nil => exact ⟨s, m, rfl, by simpa using hb, h, rfl, rfl⟩
  | cons y ys ih =>
    obtain ⟨t, m', ht, hbt, hact, ha, hp⟩ := hb.exists_accept h y.1 y.2
    obtain ⟨u, m'', hu, hbu, hactu, hau, hpu⟩ := ih hbt hact
    refine ⟨u, m'', ?_, by simpa using hbu, hactu, hau.trans ha, hpu.trans hp⟩
    rw [feed, List.foldlM_cons, ht]
    exact hu

theorem complete_concat (xs : List (Fin (n + 1) × V)) (i : Fin (n + 1)) (v : V) :
    complete (xs ++ [(i, v)]) =
      if (setAt (xs ++ [(i, v)]) (valuesAt xs i).length).isReady then complete xs + 1
      else complete xs := by
  have hother : ∀ k, k ≠ (valuesAt xs i).length →
      (k < complete (xs ++ [(i, v)]) ↔ k < complete xs) := by
    intro k hk
    rw [← isReady_iff, ← isReady_iff, setAt_concat, if_neg hk]
  have hle := complete_le xs i
  split_ifs with hr
  · rw [isReady_iff] at hr
    have hd : complete xs = (valuesAt xs i).length := by
      by_contra hne
      have := (hother _ hne).mp (by omega)
      omega
    have hnext := hother (complete xs + 1) (by omega)
    omega
  · rw [isReady_iff] at hr
    by_contra hne
    have hmono : complete xs ≤ complete (xs ++ [(i, v)]) := complete_mono
    have hd : complete xs ≠ (valuesAt xs i).length := by omega
    have := (hother _ hd).mp (by omega)
    omega

theorem eq_complete_of_isReady
    (hr : (setAt (xs ++ [(i, v)]) (valuesAt xs i).length).isReady) :
    (valuesAt xs i).length = complete xs := by
  have hc := complete_concat xs i v
  rw [if_pos hr] at hc
  have hlt := isReady_iff.mp hr
  have hle := complete_le xs i
  omega

theorem completeSets_concat (xs : List (Fin (n + 1) × V)) (i : Fin (n + 1)) (v : V) :
    completeSets (xs ++ [(i, v)]) = completeSets xs ++
      if (setAt (xs ++ [(i, v)]) (valuesAt xs i).length).isReady then
        [setAt (xs ++ [(i, v)]) (valuesAt xs i).length]
      else [] := by
  rw [completeSets_append]
  congr 1
  simp only [completeSets, complete_concat, List.length_map, List.length_range]
  split_ifs with hr
  · rw [List.range_succ, List.map_append, List.drop_left' (by simp), List.map_singleton,
      eq_complete_of_isReady hr]
  · rw [List.drop_eq_nil_of_le (by simp)]

theorem Buffers.exists_stage (hb : Buffers xs (complete xs) m s) (h : s.active)
    (hp : s.persistent) (i : Fin (n + 1)) (v : V) :
    ∃ t m' l, s.accept i (some v) = some t ∧
      Buffers (xs ++ [(i, v)]) (complete (xs ++ [(i, v)])) m' t ∧ t.active ∧ t.persistent ∧
      completeSets (xs ++ [(i, v)]) = completeSets xs ++ l ∧ t.actions = s.actions ++ l := by
  obtain ⟨m', older, newer, hpl⟩ := hb.placed i v
  by_cases hr : (setAt (xs ++ [(i, v)]) (valuesAt xs i).length).isReady
  · have hl := eq_complete_of_isReady hr
    have hc := complete_concat xs i v
    rw [if_pos hr] at hc
    have hpos : 0 < m' := by
      have hle := hpl.buffers.le i
      rw [length_valuesAt_concat, if_pos rfl] at hle
      omega
    have hacc := hpl.accept
    have hold : older = [] := by
      rw [hpl.older_eq, hl, Nat.sub_self]
      rfl
    simp only [if_pos hr, stageAt, stageAction, h, hp, if_true, hold,
      List.eraseIdx_append_of_length_le le_rfl, Nat.sub_self, List.eraseIdx_cons_zero,
      List.append_nil, Option.getD_some] at hacc
    refine ⟨_, m' - 1, [_], hacc, ⟨?_, ?_, ?_, le_rfl⟩, rfl, rfl, ?_, rfl⟩
    · rw [hc, hpl.newer_eq, hl, show complete xs + m' - complete xs - 1 = m' - 1 by omega]
    · intro j
      have hle := hpl.buffers.le j
      omega
    · intro k hk
      exact hpl.buffers.exists_lt k (by omega)
    · rw [completeSets_concat, if_pos hr]
  · have hc := complete_concat xs i v
    have hacc := hpl.accept
    rw [if_neg hr] at hc hacc
    refine ⟨_, m', [], hacc, ?_, h, hp, ?_, (List.append_nil _).symm⟩
    · rw [hc]
      exact hpl.buffers
    · rw [completeSets_concat, if_neg hr]

theorem Buffers.exists_stages (hb : Buffers xs (complete xs) m s) (h : s.active)
    (hp : s.persistent) (ys : List (Fin (n + 1) × V)) :
    ∃ t l, s.feed ys = some t ∧ completeSets (xs ++ ys) = completeSets xs ++ l ∧
      t.actions = s.actions ++ l := by
  induction ys generalizing xs s m with
  | nil => exact ⟨s, [], rfl, by simp, by simp⟩
  | cons y ys ih =>
    obtain ⟨t, m', l, ht, hbt, hact, hpt, hl, ha⟩ := hb.exists_stage h hp y.1 y.2
    obtain ⟨u, r, hu, hr, hau⟩ := ih hbt hact hpt
    refine ⟨u, l ++ r, ?_, ?_, ?_⟩
    · rw [feed, List.foldlM_cons, ht]
      exact hu
    · simpa [hl] using hr
    · simp [hau, ha]

/-- Nothing is staged until the first set is complete, and nothing after it. -/
theorem Buffers.exists_first (hb : Buffers xs 0 m s) (hc : complete xs = 0) (h : s.active)
    (hp : s.persistent = false) (ys : List (Fin (n + 1) × V)) :
    ∃ t, s.feed ys = some t ∧
      t.actions = s.actions ++ (completeSets (xs ++ ys)).take 1 := by
  induction ys generalizing xs s m with
  | nil => exact ⟨s, rfl, by simp [completeSets_eq_nil hc]⟩
  | cons y ys ih =>
    obtain ⟨m', older, newer, hpl⟩ := hb.placed y.1 y.2
    have hacc := hpl.accept
    by_cases hr : (setAt (xs ++ [y]) (valuesAt xs y.1).length).isReady
    · rw [Prod.mk.eta, if_pos hr] at hacc
      have hfirst := completeSets_concat xs y.1 y.2
      rw [Prod.mk.eta, if_pos hr, completeSets_eq_nil hc, List.nil_append] at hfirst
      obtain ⟨u, hu, hua⟩ := exists_feed_of_inactive
        (s := ({ s with
          incoming := newer ++ setAt (xs ++ [y]) (valuesAt xs y.1).length :: older }.stageAt
            newer.length (setAt (xs ++ [y]) (valuesAt xs y.1).length)).getD s)
        (by simp [stageAt, stageAction, h, hp, deactivate]) ys
      refine ⟨u, ?_, ?_⟩
      · rw [feed, List.foldlM_cons, hacc]
        simp only [stageAt, stageAction, h, hp, if_true, Option.getD_some] at hu ⊢
        exact hu
      · have happ : completeSets (xs ++ [y] ++ ys) = _ := completeSets_append
        rw [List.append_assoc, List.singleton_append, hfirst] at happ
        rw [hua, happ, List.singleton_append, List.take_succ_cons, List.take_zero]
        simp [stageAt, stageAction, h, hp, deactivate]
    · have hcc := complete_concat xs y.1 y.2
      rw [Prod.mk.eta, if_neg hr] at hacc hcc
      obtain ⟨u, hu, hua⟩ := ih hpl.buffers (hcc.trans hc) h hp
      refine ⟨u, ?_, ?_⟩
      · rw [feed, List.foldlM_cons, hacc]
        exact hu
      · simpa using hua

end Staging

section Activating

variable {pre post : List (Fin (n + 1) × V)} {s t : Acceptor (n + 1) V} {m : ℕ}
variable {newer ready : List (InSet (n + 1) V)}

theorem stageReady_of_inactive (h : s.active = false) : s.stageReady = s := by
  rcases hf : s.findReady with _ | j
  · rw [stageReady, hf]
  · rw [stageReady_of_findReady hf, stageAt_of_inactive h]
    rfl

theorem stageReady_of_none (hn : ∀ a ∈ s.incoming, ¬ InSet.isReady a) : s.stageReady = s := by
  rw [stageReady, findReady_eq_none hn]

theorem stageReady_of_some {set : InSet (n + 1) V} {older : List (InSet (n + 1) V)}
    (hs : s.incoming = newer ++ set :: older) (hr : set.isReady)
    (hn : ∀ a ∈ newer, ¬ InSet.isReady a) (ht : s.stageAt newer.length set = some t) :
    s.stageReady = t.stageReady := by
  obtain ⟨j, hj, hjl, hget⟩ := findReady_eq hs hr hn
  rw [stageReady_of_findReady hj, hjl, hget, ht]
  rfl

theorem stageReady_persistent (hs : s.incoming = newer ++ ready) (h : s.active)
    (hp : s.persistent) (hn : ∀ a ∈ newer, ¬ InSet.isReady a) (hr : ∀ a ∈ ready, InSet.isReady a) :
    s.stageReady = { s with incoming := newer, actions := s.actions ++ ready } := by
  induction ready generalizing s with
  | nil =>
    rw [List.append_nil] at hs
    rw [stageReady_of_none (by rwa [hs]), ← hs, List.append_nil]
  | cons a ready ih =>
    have ht : s.stageAt newer.length a = some { s with
        incoming := newer ++ ready
        actions := s.actions ++ [a] } := by
      simp [stageAt, stageAction, h, hp, hs, List.eraseIdx_append_of_length_le]
    refine (stageReady_of_some hs (hr a List.mem_cons_self) hn ht).trans ?_
    have hrest := ih (s := { s with
      incoming := newer ++ ready
      actions := s.actions ++ [a] }) rfl h hp fun b hb => hr b (List.mem_cons_of_mem a hb)
    simpa using hrest

theorem stageReady_once {a : InSet (n + 1) V} (hs : s.incoming = newer ++ a :: ready)
    (h : s.active) (hp : s.persistent = false) (hn : ∀ a ∈ newer, ¬ InSet.isReady a)
    (hr : a.isReady) :
    s.stageReady = { s with actions := s.actions ++ [a] }.deactivate .completion := by
  have ht : s.stageAt newer.length a =
      some ({ s with actions := s.actions ++ [a] }.deactivate .completion) := by
    simp [stageAt, stageAction, h, hp, deactivate]
  rw [stageReady_of_some hs hr hn ht, stageReady_of_inactive rfl]

theorem Buffers.complete_le (hb : Buffers pre 0 m s) : complete pre ≤ m := by
  have h := (Components.complete_le pre 0).trans (hb.le 0)
  omega

/-- The complete sets are behind the others, the newest in front. -/
theorem Buffers.incoming_eq (hb : Buffers pre 0 m s) :
    s.incoming = ((List.range' (complete pre) (m - complete pre)).map (setAt pre)).reverse ++
      (completeSets pre).reverse := by
  have hle := hb.complete_le
  have h := List.range'_append_1 (s := 0) (m := complete pre) (n := m - complete pre)
  rw [Nat.zero_add, Nat.add_sub_cancel' hle] at h
  rw [hb.incoming, ← h, List.map_append, List.reverse_append, completeSets, List.range_eq_range']

theorem not_isReady_of_mem : ∀ a ∈
    ((List.range' (complete pre) (m - complete pre)).map (setAt pre)).reverse,
    ¬ InSet.isReady a := by
  intro a ha
  simp only [List.mem_reverse, List.mem_map, List.mem_range'_1] at ha
  obtain ⟨k, hk, rfl⟩ := ha
  rw [isReady_iff]
  omega

theorem isReady_of_mem_completeSets {a : InSet (n + 1) V} (ha : a ∈ completeSets pre) :
    a.isReady := by
  obtain ⟨k, hk, rfl⟩ := List.mem_map.mp ha
  exact isReady_iff.mpr (List.mem_range.mp hk)

theorem Buffers.activated_persistent (hb : Buffers pre 0 m s) (h : s.active = false)
    (hp : s.persistent) :
    ∃ t, s.activate = some t ∧ Buffers pre (complete pre) (m - complete pre) t ∧ t.active ∧
      t.persistent ∧ t.actions = s.actions ++ (completeSets pre).reverse := by
  have hst := stageReady_persistent (s := { s with
    activated := true
    active := true }) hb.incoming_eq rfl hp not_isReady_of_mem fun a ha =>
      isReady_of_mem_completeSets (List.mem_reverse.mp ha)
  refine ⟨_, (if_neg (by simp [h])).trans (congrArg some hst), ⟨rfl, ?_, ?_, le_rfl⟩, rfl, hp,
    rfl⟩
  · intro i
    have hle := hb.le i
    omega
  · intro k hk
    have hle := hb.complete_le
    exact hb.exists_lt k (by omega)

theorem Buffers.activated_once (hb : Buffers pre 0 m s) (h : s.active = false)
    (hp : s.persistent = false) (ys : List (Fin (n + 1) × V)) :
    ∃ t, s.activate.bind (feed · ys) = some t ∧ t.actions = s.actions ++
      ((completeSets pre).reverse ++
        (completeSets (pre ++ ys)).drop (completeSets pre).length).take 1 := by
  have hin := hb.incoming_eq
  rcases hc : (completeSets pre).reverse with _ | ⟨a, ready⟩
  · rw [List.reverse_eq_nil_iff] at hc
    rw [hc, List.reverse_nil, List.append_nil] at hin
    have hst := stageReady_of_none (s := { s with
      activated := true
      active := true }) (by simpa [hin] using not_isReady_of_mem)
    have hz : complete pre = 0 := by simpa [completeSets] using hc
    obtain ⟨u, hu, hua⟩ := Buffers.exists_first (s := { s with
      activated := true
      active := true }) ⟨hb.incoming, hb.le, hb.exists_lt, hb.staged⟩ hz rfl hp ys
    refine ⟨u, ?_, ?_⟩
    · rw [activate, if_neg (by simp [h]), hst]
      exact hu
    · simpa [hc] using hua
  · rw [hc] at hin
    have ha : a ∈ completeSets pre := by
      rw [← List.mem_reverse, hc]
      exact List.mem_cons_self
    have hst := stageReady_once (s := { s with
      activated := true
      active := true }) hin rfl hp not_isReady_of_mem (isReady_of_mem_completeSets ha)
    obtain ⟨u, hu, hua⟩ := exists_feed_of_inactive (s := Acceptor.deactivate ({ s with
      activated := true
      active := true
      actions := s.actions ++ [a] }) .completion) rfl ys
    refine ⟨u, ?_, ?_⟩
    · rw [activate, if_neg (by simp [h]), hst]
      exact hu
    · rw [hua, List.cons_append, List.take_succ_cons, List.take_zero]
      rfl

end Activating

section Timing

variable {pre post : List (Fin (n + 1) × V)}

/-- The sets of the action when a component is activated between two sequences of values. -/
def actionsAt (permissive persistent : Bool) (pre post : List (Fin n × V)) :
    Option (List (InSet n V)) := do
  let s : Acceptor n V := {
    permissive := permissive
    persistent := persistent }
  let s ← s.feed pre
  let s ← s.activate
  let s ← s.feed post
  return s.actions

def kept {α : Type*} (persistent : Bool) (l : List α) : List α :=
  if persistent then l else l.take 1

theorem actionsAt_eq (permissive persistent : Bool) (pre post : List (Fin (n + 1) × V)) :
    actionsAt permissive persistent pre post =
      some (kept persistent ((completeSets pre).reverse ++
        (completeSets (pre ++ post)).drop (completeSets pre).length)) := by
  have hb : Buffers [] 0 0 ({
      permissive := permissive
      persistent := persistent } : Acceptor (n + 1) V) :=
    ⟨rfl, fun i => le_rfl, fun k hk => absurd hk (Nat.not_lt_zero k), Nat.zero_le _⟩
  obtain ⟨s, m, hs, hbs, hact, ha, hp⟩ := hb.exists_feed rfl pre
  rw [List.nil_append] at hbs
  cases persistent with
  | true =>
    obtain ⟨t, ht, hbt, hactt, hpt, hat⟩ := hbs.activated_persistent hact hp
    obtain ⟨u, l, hu, hl, hau⟩ := hbt.exists_stages hactt hpt post
    have hdrop : (completeSets (pre ++ post)).drop (completeSets pre).length = l := by
      rw [hl, List.drop_left]
    simp [actionsAt, hs, ht, hu, hau, hat, ha, kept, hdrop]
  | false =>
    obtain ⟨u, hu, hau⟩ := hbs.activated_once hact hp post
    rw [Option.bind_eq_some_iff] at hu
    obtain ⟨t, ht, hu⟩ := hu
    simp [actionsAt, hs, ht, hu, hau, ha, kept]

theorem take_one_append_iff {α : Type*} {l l' r : List α} (h : l.length = l'.length) :
    (l ++ r).take 1 = (l' ++ r).take 1 ↔ l.take 1 = l'.take 1 := by
  cases l with
  | nil =>
    cases l' with
    | nil => simp
    | cons b l' => cases h
  | cons a l =>
    cases l' with
    | nil => cases h
    | cons b l' => rfl

/-- When a component is activated makes no difference exactly if the sets that were complete
before, in the reverse order, make no difference. -/
theorem actionsAt_eq_iff (permissive persistent : Bool) (pre post : List (Fin (n + 1) × V)) :
    actionsAt permissive persistent pre post =
        actionsAt permissive persistent [] (pre ++ post) ↔
      kept persistent (completeSets pre).reverse = kept persistent (completeSets pre) := by
  have hfirst : actionsAt permissive persistent [] (pre ++ post) =
      some (kept persistent (completeSets pre ++
        (completeSets (pre ++ post)).drop (completeSets pre).length)) := by
    rw [actionsAt_eq, completeSets_nil, ← completeSets_append]
    rfl
  rw [actionsAt_eq, hfirst, Option.some_inj]
  cases persistent with
  | true => exact List.append_left_inj _
  | false => exact take_one_append_iff List.length_reverse

/-- Two values that wait for the activation are staged in the reverse order. -/
theorem actionsAt_ne_first :
    actionsAt false true [((0 : Fin 1), 1), (0, 2)] [] = some [fun _ => some 2, fun _ => some 1] ∧
      actionsAt false true [] [((0 : Fin 1), 1), (0, 2)] =
        some [fun _ => some 1, fun _ => some 2] := by
  have hone : completeSets [((0 : Fin 1), 1)] = [fun _ => some 1] := by
    refine (completeSets_concat [] 0 1).trans ?_
    rw [completeSets_nil]
    decide
  have htwo : completeSets [((0 : Fin 1), 1), (0, 2)] = [fun _ => some 1, fun _ => some 2] := by
    refine (completeSets_concat [(0, 1)] 0 2).trans ?_
    rw [hone]
    decide
  constructor
  · rw [actionsAt_eq, List.append_nil, htwo]
    rfl
  · rw [actionsAt_eq, List.nil_append, htwo, completeSets_nil]
    rfl

end Timing

end Acceptor

end Hypercomm.Components
