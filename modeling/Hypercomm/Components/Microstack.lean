import Mathlib.Data.List.Range
import Mathlib.Data.Set.Insert
import Hypercomm.Transition.Run

/-! # Microstacks

A microstack is a chain of frames that hold the variables of a program. A frame knows the
positions that it holds and passes the positions below on to the frame before it, which several
frames may share.
-/

namespace Hypercomm.Components

open Transition

/-- A shared pointer to a microstack, with the addresses of the items of each frame. -/
inductive Microstack where
  | null
  | frame (depth : ℕ) (prev : Microstack) (start size stop : ℕ) (storage : List ℕ)

namespace Microstack

inductive Abort where
  | nullDereference
  | outOfBounds

def getDepth : Microstack → ℕ
  | null => 0
  | frame depth .. => depth

/-- The end of the previous frame, which is where the next frame starts. -/
def getEnd : Microstack → ℕ
  | null => 0
  | frame _ _ _ _ stop _ => stop

def getStart : Microstack → ℕ
  | null => 0
  | frame _ _ start _ _ _ => start

def unwind : Microstack → Except Abort Microstack
  | null => .error .nullDereference
  | frame _ prev .. => .ok prev

/-- The address of the item at a position, or the null pointer. -/
def get : Microstack → ℕ → Except Abort (Option ℕ)
  | null, _ => .error .nullDereference
  | frame _ prev start _ stop storage, pos =>
    if start ≤ pos ∧ pos < stop then
      match storage[pos - start]? with
      | some a => .ok (some a)
      | none => .error .outOfBounds
    else if start > pos then prev.get pos
    else .ok none

end Microstack

/-- The cells of a process, of which the first few are in use. -/
structure Cells (V : Type*) where
  val : ℕ → V
  next : ℕ

namespace Cells

open Microstack

variable {V : Type*}

def alloc (m : Cells V) (args : List V) : Cells V :=
  ⟨fun a => if a < m.next then m.val a else (args[a - m.next]?).getD (m.val a),
    m.next + args.length⟩

def set (m : Cells V) (a : ℕ) (v : V) : Cells V := { m with val := Function.update m.val a v }

def initializeAddress (base : ℕ) : ℕ → List ℕ
  | 0 => [base]
  | i + 1 => initializeAddress base i ++ [base + (i + 1)]

def typedMicrostack (m : Cells V) (prev : Microstack) (args : List V) : Microstack × Cells V :=
  let start := prev.getEnd
  (.frame (prev.getDepth + 1) prev start args.length (start + args.length)
    (initializeAddress m.next (args.length - 1)), m.alloc args)

def clone (m : Cells V) : Microstack → Except Abort (Microstack × Cells V)
  | .null => .error .nullDereference
  | .frame _ prev _ _ _ storage => .ok (m.typedMicrostack prev (storage.map m.val))

def read (m : Cells V) (t : Microstack) (pos : ℕ) : Except Abort (Option V) :=
  (t.get pos).map (Option.map m.val)

def write (m : Cells V) (t : Microstack) (pos : ℕ) (v : V) : Except Abort (Cells V) :=
  match t.get pos with
  | .ok (some a) => .ok (m.set a v)
  | .ok none => .error .nullDereference
  | .error e => .error e

end Cells

namespace Microstack

variable {V : Type*} {m m' : Cells V} {t c prev : Microstack} {args : List V} {pos bound : ℕ}

def frames : Microstack → List (List ℕ)
  | null => []
  | frame _ prev _ _ _ storage => prev.frames ++ [storage]

def addresses (t : Microstack) : List ℕ := t.frames.flatten

def contents (m : Cells V) (t : Microstack) : List V := t.addresses.map m.val

@[simp] theorem getDepth_frame {depth start size stop : ℕ} {storage : List ℕ} :
    (frame depth prev start size stop storage).getDepth = depth := rfl

@[simp] theorem getEnd_frame {depth start size stop : ℕ} {storage : List ℕ} :
    (frame depth prev start size stop storage).getEnd = stop := rfl

@[simp] theorem addresses_null : null.addresses = [] := rfl

@[simp] theorem addresses_frame {depth start size stop : ℕ} {storage : List ℕ} :
    (frame depth prev start size stop storage).addresses = prev.addresses ++ storage := by
  simp [addresses, frames]

/-- Each frame starts where the one before it ends, and no two items share a cell. -/
inductive WF (bound : ℕ) : Microstack → Prop
  | null : WF bound null
  | frame {prev : Microstack} {storage : List ℕ} : WF bound prev → storage ≠ [] →
      (prev.addresses ++ storage).Nodup → (∀ a ∈ storage, a < bound) →
      WF bound (.frame (prev.getDepth + 1) prev prev.getEnd storage.length
        (prev.getEnd + storage.length) storage)

theorem WF.mono {bound' : ℕ} (h : t.WF bound) (hb : bound ≤ bound') : t.WF bound' := by
  induction h with
  | null => exact .null
  | frame _ hne hnd hlt ih => exact .frame ih hne hnd fun a ha => (hlt a ha).trans_le hb

theorem WF.length_addresses (h : t.WF bound) : t.addresses.length = t.getEnd := by
  induction h with
  | null => rfl
  | frame _ _ _ _ ih => rw [addresses_frame, List.length_append, ih]; rfl

theorem WF.getDepth_eq (h : t.WF bound) : t.getDepth = t.frames.length := by
  induction h with
  | null => rfl
  | frame _ _ _ _ ih => rw [getDepth_frame, frames, List.length_append, ih]; rfl

theorem WF.nodup (h : t.WF bound) : t.addresses.Nodup := by
  cases h with
  | null => exact .nil
  | frame _ _ hnd _ => rwa [addresses_frame]

theorem WF.lt (h : t.WF bound) : ∀ a ∈ t.addresses, a < bound := by
  induction h with
  | null => simp
  | frame _ _ _ hlt ih =>
    intro a ha
    rw [addresses_frame, List.mem_append] at ha
    exact ha.elim (ih a) (hlt a)

theorem WF.get_of_lt (h : t.WF bound) (hpos : pos < t.getEnd) :
    t.get pos = .ok t.addresses[pos]? := by
  induction h with
  | null => exact absurd hpos (Nat.not_lt_zero _)
  | @frame prev storage hprev _ _ _ ih =>
    have hlen := hprev.length_addresses
    unfold get
    rw [addresses_frame]
    by_cases hstart : prev.getEnd ≤ pos
    · have hlt : pos - prev.getEnd < storage.length := by
        rw [getEnd_frame] at hpos
        omega
      rw [if_pos ⟨hstart, hpos⟩, List.getElem?_append_right (hlen ▸ hstart), hlen,
        List.getElem?_eq_getElem hlt]
    · rw [if_neg fun hc => hstart hc.1, if_pos (not_le.mp hstart), ih (not_le.mp hstart),
        List.getElem?_append_left (hlen ▸ not_le.mp hstart)]

theorem WF.get_eq (h : t.WF bound) (hne : t ≠ .null) : t.get pos = .ok t.addresses[pos]? := by
  by_cases hpos : pos < t.getEnd
  · exact h.get_of_lt hpos
  · rw [List.getElem?_eq_none (h.length_addresses ▸ not_lt.mp hpos)]
    cases h with
    | null => exact absurd rfl hne
    | @frame prev storage _ _ _ _ =>
      rw [getEnd_frame, not_lt] at hpos
      unfold get
      rw [if_neg (by omega), if_neg (by omega)]

theorem WF.read_eq (h : t.WF bound) (hne : t ≠ .null) :
    m.read t pos = .ok (t.contents m)[pos]? := by
  unfold Cells.read contents
  rw [h.get_eq hne, List.getElem?_map]
  rfl

/-- Two chains that differ in the top frame have the same items at the positions below. -/
theorem getElem?_append_eq_iff {p st st' : List ℕ} {i j : ℕ} (hnd : (p ++ st).Nodup)
    (hdisj : ∀ a ∈ st', a ∉ p ++ st) (hi : i < (p ++ st).length) :
    (p ++ st')[j]? = (p ++ st)[i]? ↔ j = i ∧ i < p.length := by
  constructor
  · intro heq
    by_cases hj : j < p.length
    · have hst : (p ++ st)[j]? = p[j]? := List.getElem?_append_left hj
      rw [List.getElem?_append_left hj, ← hst] at heq
      obtain rfl := (List.getElem?_inj hi hnd).mp heq.symm
      exact ⟨rfl, hj⟩
    · rw [List.getElem?_append_right (not_lt.mp hj), List.getElem?_eq_getElem hi] at heq
      exact absurd (List.getElem_mem hi) (hdisj _ (List.mem_of_getElem? heq))
  · rintro ⟨rfl, hj⟩
    rw [List.getElem?_append_left hj, List.getElem?_append_left hj]

theorem read_write (ht : t.WF bound) (hc : c.WF bound) (hne : c ≠ .null) {v : V} {i j : ℕ}
    (h : m.write t i v = .ok m') (htne : t ≠ .null) :
    i < t.addresses.length ∧ m'.read c j =
      if c.addresses[j]? = t.addresses[i]? then .ok (some v) else m.read c j := by
  unfold Cells.write at h
  rw [ht.get_eq htne] at h
  cases hi : t.addresses[i]? with
  | none => rw [hi] at h; cases h
  | some a =>
    rw [hi] at h
    obtain rfl := Except.ok.inj h
    refine ⟨(List.getElem?_eq_some_iff.mp hi).1, ?_⟩
    unfold Cells.read
    rw [hc.get_eq hne]
    split_ifs with hj
    · rw [hj]
      exact congrArg (Except.ok ∘ some) (Function.update_self ..)
    · cases hb : c.addresses[j]? with
      | none => rfl
      | some b =>
        have hab : b ≠ a := by rintro rfl; exact hj hb
        exact congrArg (Except.ok ∘ some) (Function.update_of_ne hab ..)

end Microstack

namespace Cells

open Microstack

variable {V : Type*} {m m' : Cells V} {t c prev : Microstack} {args : List V}

theorem initializeAddress_eq (base n : ℕ) :
    initializeAddress base n = List.range' base (n + 1) := by
  induction n with
  | zero => rfl
  | succ n ih => rw [initializeAddress, ih, List.range'_1_concat (n := n + 1)]

theorem alloc_of_lt {a : ℕ} (ha : a < m.next) : (m.alloc args).val a = m.val a := if_pos ha

theorem map_alloc_range' : (List.range' m.next args.length).map (m.alloc args).val = args := by
  apply List.ext_getElem
  · simp
  · intro i hi hi'
    rw [List.getElem_map, List.getElem_range', Nat.one_mul]
    unfold alloc
    simp only
    rw [if_neg (by omega), Nat.add_sub_cancel_left, List.getElem?_eq_getElem hi', Option.getD_some]

theorem contents_alloc (h : t.WF m.next) : t.contents (m.alloc args) = t.contents m :=
  List.map_congr_left fun a ha => alloc_of_lt (h.lt a ha)

theorem typedMicrostack_eq (hargs : args ≠ []) : m.typedMicrostack prev args =
    (.frame (prev.getDepth + 1) prev prev.getEnd (List.range' m.next args.length).length
      (prev.getEnd + (List.range' m.next args.length).length) (List.range' m.next args.length),
      m.alloc args) := by
  have hlen : args.length - 1 + 1 = args.length :=
    Nat.sub_add_cancel (List.length_pos_iff.mpr hargs)
  simp [typedMicrostack, initializeAddress_eq, hlen]

theorem typedMicrostack_wf (h : prev.WF m.next) (hargs : args ≠ []) :
    (m.typedMicrostack prev args).1.WF (m.alloc args).next := by
  rw [typedMicrostack_eq hargs]
  apply WF.frame (h.mono (Nat.le_add_right _ _))
  · simpa using hargs
  · rw [List.nodup_append]
    refine ⟨h.nodup, List.nodup_range', fun a ha b hb => ?_⟩
    have hlt := h.lt a ha
    have hge := (List.mem_range'_1.mp hb).1
    omega
  · intro a ha
    exact (List.mem_range'_1.mp ha).2

theorem contents_typedMicrostack (h : prev.WF m.next) (hargs : args ≠ []) :
    (m.typedMicrostack prev args).1.contents (m.alloc args) = prev.contents m ++ args := by
  rw [typedMicrostack_eq hargs, contents, addresses_frame, List.map_append, map_alloc_range']
  exact congrArg (· ++ args) (contents_alloc h)

/-- A clone is a frame in cells of its own on top of the same frames. -/
structure IsClone (m : Cells V) (t c : Microstack) (m' : Cells V) : Prop where
  wf : c.WF m'.next
  wf_old : t.WF m'.next
  ne_null : c ≠ .null
  depth : c.getDepth = t.getDepth
  contents : c.contents m' = t.contents m
  contents_old : t.contents m' = t.contents m
  split : ∃ p st st', t.addresses = p ++ st ∧ c.addresses = p ++ st' ∧ p.length = t.getStart ∧
    ∀ a ∈ st', a ∉ p ++ st

theorem exists_isClone (h : t.WF m.next) (hne : t ≠ .null) :
    ∃ c m', m.clone t = .ok (c, m') ∧ IsClone m t c m' := by
  have hlt := h.lt
  have hle (n : ℕ) := h.mono (Nat.le_add_right m.next n)
  have hold (args : List V) : t.contents (m.alloc args) = t.contents m := contents_alloc h
  cases h with
  | null => exact absurd rfl hne
  | @frame prev storage hprev hstorage hnd hlt' =>
    have hargs := (List.map_eq_nil_iff (f := m.val)).not.mpr hstorage
    have hnew := typedMicrostack_wf hprev hargs
    have hcontents := contents_typedMicrostack hprev hargs
    rw [typedMicrostack_eq hargs] at hnew hcontents
    refine ⟨_, _, congrArg Except.ok (typedMicrostack_eq hargs), ?_⟩
    constructor
    case wf => exact hnew
    case wf_old => exact hle _
    case ne_null => simp
    case depth => rfl
    case contents => rw [hcontents]; simp [Microstack.contents]
    case contents_old => exact hold _
    case split =>
      refine ⟨prev.addresses, storage, _, addresses_frame, addresses_frame,
        hprev.length_addresses, fun a ha hmem => ?_⟩
      have hge := (List.mem_range'_1.mp ha).1
      have hlt := hlt a (addresses_frame ▸ hmem)
      omega

/-- An item of the top frame is seen through one of the two only. -/
theorem IsClone.same_item_iff (h : IsClone m t c m') {i j : ℕ} :
    (i < t.addresses.length → (c.addresses[j]? = t.addresses[i]? ↔ j = i ∧ i < t.getStart)) ∧
    (i < c.addresses.length → (t.addresses[j]? = c.addresses[i]? ↔ j = i ∧ i < t.getStart)) := by
  have hnt := h.wf_old.nodup
  have hnc := h.wf.nodup
  obtain ⟨p, st, st', ht, hc, hlen, hdisj⟩ := h.split
  rw [ht] at hnt
  rw [hc] at hnc
  rw [ht, hc, ← hlen]
  refine ⟨getElem?_append_eq_iff hnt hdisj, getElem?_append_eq_iff hnc fun a ha hmem => ?_⟩
  rcases List.mem_append.mp hmem with hp | hst
  · exact (List.nodup_append.mp hnt).2.2 a hp a ha rfl
  · exact hdisj a hst (List.mem_append_right _ ha)

end Cells

structure Stacks (V : Type*) where
  cells : Cells V
  tops : Set Microstack

inductive StackAction (V : Type*) where
  | make (prev : Microstack) (args : List V)
  | clone (t : Microstack)
  | unwind (t : Microstack)
  | write (t : Microstack) (pos : ℕ) (v : V)
  | release (t : Microstack)

namespace Stacks

open Microstack

variable {V : Type*} {s s' : Stacks V}

def init (val : ℕ → V) : Stacks V := ⟨⟨val, 0⟩, ∅⟩

inductive Step : Stacks V → StackAction V → Stacks V → Prop
  | make {s : Stacks V} {prev c : Microstack} {args : List V} {m : Cells V} :
      prev = .null ∨ prev ∈ s.tops → args ≠ [] → s.cells.typedMicrostack prev args = (c, m) →
      Step s (.make prev args) ⟨m, insert c s.tops⟩
  | clone {s : Stacks V} {t c : Microstack} {m : Cells V} : t ∈ s.tops →
      s.cells.clone t = .ok (c, m) → Step s (.clone t) ⟨m, insert c s.tops⟩
  | unwind {s : Stacks V} {t prev : Microstack} : t ∈ s.tops → t.unwind = .ok prev →
      Step s (.unwind t) { s with tops := insert prev s.tops }
  | write {s : Stacks V} {t : Microstack} {pos : ℕ} {v : V} {m : Cells V} : t ∈ s.tops →
      s.cells.write t pos v = .ok m → Step s (.write t pos v) { s with cells := m }
  | release {s : Stacks V} {t : Microstack} : Step s (.release t) { s with tops := s.tops \ {t} }

def WF (s : Stacks V) : Prop := ∀ t ∈ s.tops, t.WF s.cells.next

theorem WF.insert {c : Microstack} {m : Cells V} (h : s.WF) (hle : s.cells.next ≤ m.next)
    (hc : c.WF m.next) : WF ⟨m, Insert.insert c s.tops⟩ := by
  rintro t (rfl | ht)
  · exact hc
  · exact (h t ht).mono hle

theorem WF.step {a : StackAction V} (h : s.WF) (hs : Step s a s') : s'.WF := by
  cases hs with
  | @make prev c args m hprev hargs hc =>
    have hwf : prev.WF s.cells.next := hprev.elim (fun hn => hn ▸ .null) (h prev)
    have hnew := Cells.typedMicrostack_wf hwf hargs
    obtain ⟨rfl, rfl⟩ := Prod.mk.inj hc
    exact h.insert (Nat.le_add_right ..) hnew
  | @clone t c m ht hc =>
    have hwf := h t ht
    cases hwf with
    | null => cases hc
    | frame hprev hne _ _ =>
      have hargs := (List.map_eq_nil_iff (f := s.cells.val)).not.mpr hne
      have hnew := Cells.typedMicrostack_wf hprev hargs
      obtain ⟨rfl, rfl⟩ := Prod.mk.inj (Except.ok.inj hc)
      exact h.insert (Nat.le_add_right ..) hnew
  | @unwind t prev ht hprev =>
    have hwf := h t ht
    cases hwf with
    | null => cases hprev
    | frame hbelow _ _ _ =>
      obtain rfl := Except.ok.inj hprev
      exact h.insert le_rfl hbelow
  | @write t pos v m ht hm =>
    unfold Cells.write at hm
    split at hm
    case h_1 => obtain rfl := Except.ok.inj hm; exact h
    case h_2 => cases hm
    case h_3 => cases hm
  | release => exact fun t ht => h t ht.1

theorem WF.run {as : List (StackAction V)} (h : s.WF) (hr : Run Step s as s') : s'.WF := by
  induction hr with
  | nil => exact h
  | snoc _ hs ih => exact ih.step hs

/-- Each stack reads as its frames one after the other, and a clone has a top frame of its own on
the frames that it shares. -/
theorem microstack_concat (val : ℕ → V) (as : List (StackAction V))
    (hr : Run Step (init val) as s) :
    (∀ prev, prev = .null ∨ prev ∈ s.tops → ∀ args, args ≠ [] → ∀ c m,
      s.cells.typedMicrostack prev args = (c, m) →
      c.getDepth = prev.getDepth + 1 ∧ c.contents m = prev.contents s.cells ++ args ∧
      ∀ t ∈ s.tops, t.contents m = t.contents s.cells) ∧
    ∀ t ∈ s.tops, t ≠ .null → t.getDepth = t.frames.length ∧
      (∀ pos, s.cells.read t pos = .ok (t.contents s.cells)[pos]?) ∧
      ∃ c m, s.cells.clone t = .ok (c, m) ∧ c.getDepth = t.getDepth ∧
        (∀ pos, m.read c pos = s.cells.read t pos ∧ m.read t pos = s.cells.read t pos) ∧
        ∀ (m m' : Cells V) (i : ℕ) (v : V),
          (m.write t i v = .ok m' → ∀ j, m'.read c j =
            if j = i ∧ i < t.getStart then .ok (some v) else m.read c j) ∧
          (m.write c i v = .ok m' → ∀ j, m'.read t j =
            if j = i ∧ i < t.getStart then .ok (some v) else m.read t j) := by
  have h : s.WF := WF.run (by rintro t ⟨⟩) hr
  constructor
  · intro prev hprev args hargs c m hc
    have hwf : prev.WF s.cells.next := hprev.elim (fun hn => hn ▸ .null) (h prev)
    obtain ⟨rfl, rfl⟩ := Prod.mk.inj hc
    exact ⟨rfl, Cells.contents_typedMicrostack hwf hargs,
      fun t ht => Cells.contents_alloc (h t ht)⟩
  · intro t ht hne
    have hwf := h t ht
    refine ⟨hwf.getDepth_eq, fun pos => hwf.read_eq hne, ?_⟩
    obtain ⟨c, m, hc, hclone⟩ := Cells.exists_isClone hwf hne
    refine ⟨c, m, hc, hclone.depth, fun pos => ⟨?_, ?_⟩, fun m m' i v => ⟨?_, ?_⟩⟩
    · rw [hclone.wf.read_eq hclone.ne_null, hclone.contents, hwf.read_eq hne]
    · rw [hclone.wf_old.read_eq hne, hclone.contents_old, hwf.read_eq hne]
    · intro hw j
      obtain ⟨hi, heq⟩ := read_write (j := j) hclone.wf_old hclone.wf hclone.ne_null hw hne
      rw [heq]
      exact if_congr (hclone.same_item_iff.1 hi) rfl rfl
    · intro hw j
      obtain ⟨hi, heq⟩ := read_write (j := j) hclone.wf hclone.wf_old hne hw hclone.ne_null
      rw [heq]
      exact if_congr (hclone.same_item_iff.2 hi) rfl rfl

/-- The clone of a stack of two frames, whose lower frame is shared. -/
theorem microstack_concat_three : ∃ (s : Stacks ℕ) (t c : Microstack) (m : Cells ℕ),
    s.cells.clone t = .ok (c, m) ∧ t.frames.length = 2 ∧ m.read c 2 = s.cells.read t 2 ∧
    s.cells.read t 2 = .ok (some 21) ∧ s.cells.read t 3 = .ok none := by
  let s₀ : Stacks ℕ := init fun _ => 0
  let t₁ : Microstack := .frame 1 .null 0 1 1 [0]
  let t₂ : Microstack := .frame 2 t₁ 1 2 3 [1, 2]
  let s₁ : Stacks ℕ := ⟨s₀.cells.alloc [63], insert t₁ s₀.tops⟩
  let s₂ : Stacks ℕ := ⟨s₁.cells.alloc [42, 21], insert t₂ s₁.tops⟩
  have h₁ : Step s₀ (.make .null [63]) s₁ := Step.make (.inl rfl) (by simp) rfl
  have h₂ : Step s₁ (.make t₁ [42, 21]) s₂ :=
    Step.make (.inr (Set.mem_insert ..)) (by simp) rfl
  obtain ⟨hdepth, hread, c, m, hc, -, hsame, -⟩ := (microstack_concat (fun _ => 0) _
    ((Run.single h₁).snoc h₂)).2 t₂ (Set.mem_insert ..) (by simp [t₂])
  exact ⟨s₂, t₂, c, m, hc, rfl, (hsame 2).1, hread 2, hread 3⟩

end Stacks

end Hypercomm.Components
