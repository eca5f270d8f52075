import Mathlib.Data.List.Pairwise
import Mathlib.Order.CompletePartialOrder
import Mathlib.Order.Interval.Set.Disjoint
import Hypercomm.Transition.Run

/-! # The pool of a small map

A pool hands out blocks of one element from its own storage and turns to the heap when that is
full. Each block starts with a header that says where it came from. Only a block at the very end
gives its room back to the pool, so that freed blocks may be left behind below the offset.
-/

namespace Hypercomm.Utilities

open Transition

structure Layout where
  size : ℕ
  align : ℕ
  size_pos : 0 < size
  align_pos : 0 < align
  align_dvd : align ∣ size

namespace Layout

variable (L : Layout) (N : ℕ)

def itemSize : ℕ := L.size + L.align

def storageSize : ℕ := L.itemSize * N

/-- The element of the block at an address. -/
def element (raw : ℕ) : ℕ := raw + L.align

/-- The bytes of the block at an address, its header among them. -/
def block (raw : ℕ) : Set ℕ := Set.Ico raw (raw + L.itemSize)

variable {L} {a b : ℕ}

theorem itemSize_pos : 0 < L.itemSize := Nat.add_pos_left L.size_pos _

theorem align_dvd_itemSize : L.align ∣ L.itemSize := (Nat.dvd_add_self_right).mpr L.align_dvd

theorem disjoint_block_iff : Disjoint (L.block a) (L.block b) ↔
    a + L.itemSize ≤ b ∨ b + L.itemSize ≤ a := by
  have hpos := L.itemSize_pos
  unfold block
  rw [Set.Ico_disjoint_Ico]
  omega

theorem block_subset_iff {c d : ℕ} : L.block a ⊆ Set.Ico c d ↔ c ≤ a ∧ a + L.itemSize ≤ d := by
  have hpos := L.itemSize_pos
  unfold block
  exact Set.Ico_subset_Ico_iff (by omega)

theorem mem_block_self : a ∈ L.block a := ⟨le_rfl, Nat.lt_add_of_pos_right itemSize_pos⟩

end Layout

inductive BlockHeader where
  | kPool
  | kHeap
  deriving DecidableEq

def BlockHeader.toUInt8 : BlockHeader → UInt8
  | .kPool => 0
  | .kHeap => 1

/-- The bytes of a process, the blocks that it has on its heap, and those that it freed. -/
structure Memory where
  bytes : ℕ → UInt8
  allocated : List ℕ
  freed : List ℕ

namespace Memory

def set (m : Memory) (a : ℕ) (v : UInt8) : Memory :=
  { m with bytes := Function.update m.bytes a v }

def alignedAlloc (m : Memory) (raw : ℕ) : Memory := { m with allocated := raw :: m.allocated }

def free (m : Memory) (raw : ℕ) : Memory :=
  { m with allocated := m.allocated.erase raw, freed := raw :: m.freed }

end Memory

inductive Abort where
  | badAlloc
  | singleElement
  | poolHeader

structure FwdPool (L : Layout) (N : ℕ) where
  storage : ℕ
  offset : ℕ
  aligned : L.align ∣ storage

namespace FwdPool

variable {L : Layout} {N : ℕ}

def room (p : FwdPool L N) : Set ℕ := Set.Ico p.storage (p.storage + L.storageSize N)

/-- The part of the storage that is below the offset. -/
def used (p : FwdPool L N) : Set ℕ := Set.Ico p.storage (p.storage + p.offset)

def allocate (p : FwdPool L N) (m : Memory) (n fresh : ℕ) :
    Except Abort (FwdPool L N × Memory × ℕ) :=
  if n ≠ 1 then .error .badAlloc
  else if p.offset + L.itemSize ≤ L.storageSize N then
    let raw := p.storage + p.offset
    .ok ({ p with offset := p.offset + L.itemSize }, m.set raw BlockHeader.kPool.toUInt8,
      raw + L.align)
  else
    let raw := fresh
    .ok (p, (m.alignedAlloc raw).set raw BlockHeader.kHeap.toUInt8, raw + L.align)

def deallocate (p : FwdPool L N) (m : Memory) (ptr n : ℕ) :
    Except Abort (FwdPool L N × Memory) :=
  if n ≠ 1 then .error .singleElement else
  let raw := ptr - L.align
  if m.bytes raw = BlockHeader.kHeap.toUInt8 then .ok (p, m.free raw)
  else if m.bytes raw ≠ BlockHeader.kPool.toUInt8 then .error .poolHeader
  -- the storage may lie at an address below the size of an item
  else if raw + L.itemSize = p.storage + p.offset then
    .ok ({ p with offset := p.offset - L.itemSize }, m)
  else .ok (p, m)

end FwdPool

/-- A pool, the memory, and the blocks that were handed out and not returned. -/
structure State (L : Layout) (N : ℕ) where
  pool : FwdPool L N
  memory : Memory
  live : List ℕ

inductive Action where
  | allocate (fresh : ℕ)
  | deallocate (raw : ℕ)
  | write (a : ℕ) (v : UInt8)

namespace State

variable {L : Layout} {N : ℕ} {s s' : State L N} {raw fresh a b : ℕ}

def init (L : Layout) (N storage : ℕ) (h : L.align ∣ storage) (bytes : ℕ → UInt8) : State L N :=
  ⟨⟨storage, 0, h⟩, ⟨bytes, [], []⟩, []⟩

/-- The heap hands out aligned blocks, apart from the storage and from what it handed out. -/
structure Fresh (s : State L N) (fresh : ℕ) : Prop where
  aligned : L.align ∣ fresh
  storage : Disjoint (L.block fresh) s.pool.room
  apart : ∀ raw ∈ s.memory.allocated, Disjoint (L.block fresh) (L.block raw)

/-- The program writes to elements, and outside of all blocks. -/
def Writable (s : State L N) (a : ℕ) : Prop :=
  ∀ raw ∈ s.live, a ∈ L.block raw → L.element raw ≤ a

inductive Step : State L N → Action → State L N → Prop
  | allocate {s : State L N} {fresh raw : ℕ} {p : FwdPool L N} {m : Memory} : s.Fresh fresh →
      s.pool.allocate s.memory 1 fresh = .ok (p, m, L.element raw) →
      Step s (.allocate fresh) ⟨p, m, raw :: s.live⟩
  | deallocate {s : State L N} {raw : ℕ} {p : FwdPool L N} {m : Memory} : raw ∈ s.live →
      s.pool.deallocate s.memory (L.element raw) 1 = .ok (p, m) →
      Step s (.deallocate raw) ⟨p, m, s.live.erase raw⟩
  | write {s : State L N} {a : ℕ} {v : UInt8} : s.Writable a →
      Step s (.write a v) { s with memory := s.memory.set a v }

/-- Blocks of the pool are slots below the offset, and headers tell them from those of the heap. -/
structure WF (s : State L N) : Prop where
  dvd : L.itemSize ∣ s.pool.offset
  le : s.pool.offset ≤ L.storageSize N
  pool : ∀ raw ∈ s.live, raw ∉ s.memory.allocated →
    s.memory.bytes raw = BlockHeader.kPool.toUInt8 ∧
      (∃ k, raw = s.pool.storage + L.itemSize * k) ∧ L.block raw ⊆ s.pool.used
  heap : ∀ raw ∈ s.memory.allocated, raw ∈ s.live ∧
    s.memory.bytes raw = BlockHeader.kHeap.toUInt8 ∧ L.align ∣ raw ∧
      Disjoint (L.block raw) s.pool.room
  apart : s.live.Pairwise fun a b => Disjoint (L.block a) (L.block b)
  nodup : s.memory.allocated.Nodup

theorem WF.init {storage : ℕ} {h : L.align ∣ storage} {bytes : ℕ → UInt8} :
    (State.init L N storage h bytes).WF where
  dvd := Nat.dvd_zero _
  le := Nat.zero_le _
  pool _ h := absurd h List.not_mem_nil
  heap _ h := absurd h List.not_mem_nil
  apart := .nil
  nodup := .nil

theorem WF.nodup_live (h : s.WF) : s.live.Nodup := by
  apply h.apart.imp
  rintro a _ hd rfl
  exact Set.disjoint_left.mp hd Layout.mem_block_self Layout.mem_block_self

theorem WF.disjoint (h : s.WF) (ha : a ∈ s.live) (hb : b ∈ s.live) (hne : a ≠ b) :
    Disjoint (L.block a) (L.block b) :=
  have : Std.Symm fun a b => Disjoint (L.block a) (L.block b) := ⟨fun _ _ hd => hd.symm⟩
  h.apart.forall ha hb hne

theorem WF.pairwise_cons (h : s.WF)
    (hpool : ∀ b ∈ s.live, b ∉ s.memory.allocated → Disjoint (L.block raw) (L.block b))
    (hheap : ∀ b ∈ s.memory.allocated, Disjoint (L.block raw) (L.block b)) :
    (raw :: s.live).Pairwise fun a b => Disjoint (L.block a) (L.block b) := by
  rw [List.pairwise_cons]
  refine ⟨fun b hb => ?_, h.apart⟩
  by_cases hheap' : b ∈ s.memory.allocated
  · exact hheap b hheap'
  · exact hpool b hb hheap'

theorem WF.pool_lt (h : s.WF) (hlive : raw ∈ s.live) (hpool : raw ∉ s.memory.allocated) :
    s.pool.storage ≤ raw ∧ raw + L.itemSize ≤ s.pool.storage + s.pool.offset :=
  Layout.block_subset_iff.mp (h.pool raw hlive hpool).2.2

theorem WF.grow (h : s.WF) (hroom : s.pool.offset + L.itemSize ≤ L.storageSize N) :
    WF (N := N) ⟨{ s.pool with offset := s.pool.offset + L.itemSize },
      s.memory.set (s.pool.storage + s.pool.offset) BlockHeader.kPool.toUInt8,
      (s.pool.storage + s.pool.offset) :: s.live⟩ := by
  have hpos := L.itemSize_pos
  have hnew : s.pool.storage + s.pool.offset ∈ s.pool.room := ⟨by omega, by omega⟩
  constructor
  case dvd => exact Nat.dvd_add h.dvd (Nat.dvd_refl _)
  case le => exact hroom
  case pool =>
    intro raw hraw hpool
    rcases List.mem_cons.mp hraw with rfl | hlive
    · obtain ⟨k, hk⟩ := h.dvd
      refine ⟨Function.update_self .., ⟨k, by simp only [hk]⟩, ?_⟩
      exact Layout.block_subset_iff.mpr ⟨by simp, by simp only; omega⟩
    · have hlt := h.pool_lt hlive hpool
      obtain ⟨hbyte, hslot, -⟩ := h.pool raw hlive hpool
      refine ⟨?_, hslot, Layout.block_subset_iff.mpr ⟨hlt.1, by simp only; omega⟩⟩
      rw [← hbyte]
      exact Function.update_of_ne (by omega) ..
  case heap =>
    intro raw hraw
    obtain ⟨hlive, hbyte, hdvd, hdisj⟩ := h.heap raw hraw
    refine ⟨List.mem_cons_of_mem _ hlive, ?_, hdvd, hdisj⟩
    rw [← hbyte]
    apply Function.update_of_ne
    rintro rfl
    exact Set.disjoint_left.mp hdisj Layout.mem_block_self hnew
  case apart =>
    apply h.pairwise_cons
    · intro b hb hpool
      have hlt := h.pool_lt hb hpool
      exact Layout.disjoint_block_iff.mpr (.inr (by omega))
    · intro b hb
      have hsub : L.block (s.pool.storage + s.pool.offset) ⊆ s.pool.room :=
        Layout.block_subset_iff.mpr ⟨by omega, by omega⟩
      exact ((h.heap b hb).2.2.2.mono_right hsub).symm
  case nodup => exact h.nodup

theorem WF.turn (h : s.WF) (hf : s.Fresh fresh) :
    WF (N := N) ⟨s.pool, (s.memory.alignedAlloc fresh).set fresh BlockHeader.kHeap.toUInt8,
      fresh :: s.live⟩ := by
  have hpool : ∀ b ∈ s.live, b ∉ s.memory.allocated → Disjoint (L.block fresh) (L.block b) := by
    intro b hb hb'
    have hlt := h.pool_lt hb hb'
    apply hf.storage.mono_right
    exact Layout.block_subset_iff.mpr ⟨hlt.1, hlt.2.trans (Nat.add_le_add_left h.le _)⟩
  have happart := h.pairwise_cons hpool hf.apart
  have hne : ∀ b ∈ s.live, b ≠ fresh := by
    rintro b hb rfl
    have hd := (List.pairwise_cons.mp happart).1 b hb
    exact Set.disjoint_left.mp hd Layout.mem_block_self Layout.mem_block_self
  constructor
  case dvd => exact h.dvd
  case le => exact h.le
  case pool =>
    intro raw hraw hnot
    obtain ⟨hfresh, hold⟩ := not_or.mp (List.mem_cons.not.mp hnot)
    have hlive := (List.mem_cons.mp hraw).resolve_left hfresh
    obtain ⟨hbyte, hslot⟩ := h.pool raw hlive hold
    exact ⟨(Function.update_of_ne (hne raw hlive) ..).trans hbyte, hslot⟩
  case heap =>
    intro raw hraw
    rcases List.mem_cons.mp hraw with rfl | hold
    · exact ⟨List.mem_cons_self, Function.update_self .., hf.aligned, hf.storage⟩
    · obtain ⟨hlive, hbyte, hrest⟩ := h.heap raw hold
      exact ⟨List.mem_cons_of_mem _ hlive,
        (Function.update_of_ne (hne raw hlive) ..).trans hbyte, hrest⟩
  case apart => exact happart
  case nodup =>
    refine List.nodup_cons.mpr ⟨fun hmem => ?_, h.nodup⟩
    exact hne fresh (h.heap fresh hmem).1 rfl

theorem WF.leave (h : s.WF) (raw : ℕ) (hraw : raw ∉ s.memory.allocated) :
    WF (N := N) ⟨s.pool, s.memory, s.live.erase raw⟩ := by
  constructor
  case dvd => exact h.dvd
  case le => exact h.le
  case pool => exact fun b hb => h.pool b (List.mem_of_mem_erase hb)
  case heap =>
    intro b hb
    obtain ⟨hlive, hrest⟩ := h.heap b hb
    exact ⟨h.nodup_live.mem_erase_iff.mpr ⟨ne_of_mem_of_not_mem hb hraw, hlive⟩, hrest⟩
  case apart => exact h.apart.sublist List.erase_sublist
  case nodup => exact h.nodup

theorem WF.free (h : s.WF) (raw : ℕ) :
    WF (N := N) ⟨s.pool, s.memory.free raw, s.live.erase raw⟩ := by
  constructor
  case dvd => exact h.dvd
  case le => exact h.le
  case pool =>
    intro b hb hnot
    obtain ⟨hne, hlive⟩ := h.nodup_live.mem_erase_iff.mp hb
    exact h.pool b hlive fun hmem => hnot (h.nodup.mem_erase_iff.mpr ⟨hne, hmem⟩)
  case heap =>
    intro b hb
    obtain ⟨hne, hmem⟩ := h.nodup.mem_erase_iff.mp hb
    obtain ⟨hlive, hrest⟩ := h.heap b hmem
    exact ⟨h.nodup_live.mem_erase_iff.mpr ⟨hne, hlive⟩, hrest⟩
  case apart => exact h.apart.sublist List.erase_sublist
  case nodup => exact h.nodup.erase raw

theorem WF.shrink (h : s.WF) (hlive : raw ∈ s.live) (hraw : raw ∉ s.memory.allocated)
    (hend : raw + L.itemSize = s.pool.storage + s.pool.offset) :
    WF (N := N) ⟨{ s.pool with offset := s.pool.offset - L.itemSize }, s.memory,
      s.live.erase raw⟩ := by
  have hl := h.leave raw hraw
  constructor
  case dvd => exact Nat.dvd_sub h.dvd (Nat.dvd_refl _)
  case le => exact (Nat.sub_le ..).trans h.le
  case pool =>
    intro b hb hpool
    obtain ⟨hne, hlive'⟩ := h.nodup_live.mem_erase_iff.mp hb
    obtain ⟨hbyte, hslot, -⟩ := h.pool b hlive' hpool
    have hlt := h.pool_lt hlive' hpool
    have hge := h.pool_lt hlive hraw
    have hpos := L.itemSize_pos
    have hd := Layout.disjoint_block_iff.mp (h.disjoint hlive' hlive hne)
    refine ⟨hbyte, hslot, Layout.block_subset_iff.mpr ⟨hlt.1, ?_⟩⟩
    simp only
    omega
  case heap => exact hl.heap
  case apart => exact hl.apart
  case nodup => exact hl.nodup

theorem WF.set (h : s.WF) {v : UInt8} (ha : s.Writable a) :
    WF { s with memory := s.memory.set a v } := by
  have hne : ∀ raw ∈ s.live, raw ≠ a := by
    rintro raw hlive rfl
    have hle := ha raw hlive Layout.mem_block_self
    have hpos := L.align_pos
    unfold Layout.element at hle
    omega
  constructor
  case dvd => exact h.dvd
  case le => exact h.le
  case pool =>
    intro raw hlive hraw
    obtain ⟨hbyte, hslot⟩ := h.pool raw hlive hraw
    exact ⟨(Function.update_of_ne (hne raw hlive) ..).trans hbyte, hslot⟩
  case heap =>
    intro raw hraw
    obtain ⟨hlive, hbyte, hrest⟩ := h.heap raw hraw
    exact ⟨hlive, (Function.update_of_ne (hne raw hlive) ..).trans hbyte, hrest⟩
  case apart => exact h.apart
  case nodup => exact h.nodup

/-- A live block is freed when it came from the heap, and else stays in the pool. -/
theorem WF.deallocate_eq (h : s.WF) (hlive : raw ∈ s.live) :
    s.pool.deallocate s.memory (L.element raw) 1 = .ok
      (if raw ∉ s.memory.allocated ∧ raw + L.itemSize = s.pool.storage + s.pool.offset then
        { s.pool with offset := s.pool.offset - L.itemSize } else s.pool,
      if raw ∈ s.memory.allocated then s.memory.free raw else s.memory) := by
  have hne : BlockHeader.kPool.toUInt8 ≠ BlockHeader.kHeap.toUInt8 := by decide
  have hsub : L.element raw - L.align = raw := Nat.add_sub_cancel ..
  unfold FwdPool.deallocate
  by_cases hraw : raw ∈ s.memory.allocated
  · have hbyte := (h.heap raw hraw).2.1
    simp [hsub, hbyte, hraw]
  · have hbyte := (h.pool raw hlive hraw).1
    by_cases hend : raw + L.itemSize = s.pool.storage + s.pool.offset
    · simp [hsub, hbyte, hne, hraw, hend]
    · simp [hsub, hbyte, hne, hraw, hend]

theorem WF.step {a : Action} (h : s.WF) (hs : Step s a s') : s'.WF := by
  cases hs with
  | allocate hf hok =>
    unfold FwdPool.allocate at hok
    rw [if_neg (by simp)] at hok
    split_ifs at hok with hroom
    · obtain ⟨rfl, rfl, hptr⟩ := by simpa using hok
      obtain rfl := Nat.add_right_cancel hptr
      exact h.grow hroom
    · obtain ⟨rfl, rfl, hptr⟩ := by simpa using hok
      obtain rfl := Nat.add_right_cancel hptr
      exact h.turn hf
  | deallocate hlive hok =>
    rw [h.deallocate_eq hlive] at hok
    obtain ⟨rfl, rfl⟩ := Prod.mk.inj (Except.ok.inj hok)
    split_ifs with hshrink hheap hheap
    · exact absurd hheap hshrink.1
    · exact h.shrink hlive hshrink.1 hshrink.2
    · exact h.free _
    · exact h.leave _ hheap
  | write ha => exact h.set ha

theorem WF.run {as : List Action} (h : s.WF) (hr : Run Step s as s') : s'.WF := by
  induction hr with
  | nil => exact h
  | snoc _ hs ih => exact ih.step hs

/-- Whatever was allocated, returned and written before, the live blocks are apart from each
other, those of the pool are below its offset, and a block is freed when it is on the heap. -/
theorem pool_safe (L : Layout) (N storage : ℕ) (hs : L.align ∣ storage) (bytes : ℕ → UInt8)
    (as : List Action) (s : State L N) (hr : Run Step (State.init L N storage hs bytes) as s) :
    s.live.Pairwise (fun a b => Disjoint (L.block a) (L.block b)) ∧
    (∀ raw ∈ s.live, raw ∉ s.memory.allocated →
      L.block raw ⊆ s.pool.used ∧ s.pool.used ⊆ s.pool.room) ∧
    (L.itemSize ∣ s.pool.offset ∧ s.pool.offset ≤ L.storageSize N) ∧
    (∀ raw ∈ s.live, L.align ∣ L.element raw) ∧
    ∀ raw ∈ s.live, ∃ p, s.pool.deallocate s.memory (L.element raw) 1 =
      .ok (p, if raw ∈ s.memory.allocated then s.memory.free raw else s.memory) := by
  have h : s.WF := WF.init.run hr
  refine ⟨h.apart, fun raw hlive hpool => ⟨(h.pool raw hlive hpool).2.2, ?_⟩, ⟨h.dvd, h.le⟩, ?_, ?_⟩
  · exact Set.Ico_subset_Ico_right (Nat.add_le_add_left h.le _)
  · intro raw hlive
    apply Nat.dvd_add _ (Nat.dvd_refl _)
    by_cases hraw : raw ∈ s.memory.allocated
    · exact (h.heap raw hraw).2.2.1
    · obtain ⟨-, ⟨k, rfl⟩, -⟩ := h.pool raw hlive hraw
      exact Nat.dvd_add s.pool.aligned (Nat.dvd_mul_right_of_dvd Layout.align_dvd_itemSize k)
  · exact fun raw hlive => ⟨_, h.deallocate_eq hlive⟩

/-- A pool of two elements of eight bytes hands out both, and the first is returned. -/
theorem pool_safe_two : ∃ (L : Layout) (s : State L 2), L.itemSize = 16 ∧ s.live = [80] ∧
    L.block 80 ⊆ s.pool.used ∧ s.pool.used ⊆ s.pool.room := by
  let L : Layout := ⟨8, 8, by decide, by decide, by decide⟩
  let s₀ : State L 2 := State.init L 2 64 (by decide) fun _ => 0
  have hf : ∀ s : State L 2, s.pool.storage = 64 → s.memory.allocated = [] → s.Fresh 1024 := by
    intro s hstorage hheap
    constructor
    · decide
    · unfold FwdPool.room Layout.block
      rw [hstorage, Set.Ico_disjoint_Ico]
      decide
    · simp [hheap]
  let s₁ : State L 2 := ⟨⟨64, 16, by decide⟩, s₀.memory.set 64 0, [64]⟩
  let s₂ : State L 2 := ⟨⟨64, 32, by decide⟩, s₁.memory.set 80 0, [80, 64]⟩
  let s₃ : State L 2 := ⟨s₂.pool, s₂.memory, [80]⟩
  have h₁ : Step s₀ (.allocate 1024) s₁ := Step.allocate (hf _ rfl rfl) rfl
  have h₂ : Step s₁ (.allocate 1024) s₂ := Step.allocate (hf _ rfl rfl) rfl
  have h₃ : Step s₂ (.deallocate 64) s₃ :=
    Step.deallocate (List.mem_cons_of_mem _ List.mem_cons_self) rfl
  have hsafe := pool_safe L 2 64 (by decide) (fun _ => 0) _ s₃ (((Run.single h₁).snoc h₂).snoc h₃)
  exact ⟨L, s₃, rfl, rfl, hsafe.2.1 80 List.mem_cons_self List.not_mem_nil⟩

end State

end Hypercomm.Utilities
