import Hypercomm.Messaging.Conservation

/-! # Forwarding records across the lifecycles of elements

The creation of an element asks the home PE of its index to stop forwarding, and its
destruction, when it had children, to forward its messages to its parent. The home PE
may receive these requests in any order. When no forward overtakes the end of a record
kept at the same PE, and no end of a record overtakes the forward that makes it, the
records follow the lifecycles and lead somewhere.
-/

namespace Hypercomm.Forwarding

open Interceptor (Branch Stop Location)

variable {Idx Msg : Type*}

/-- A request to the home PE of an index. -/
inductive Request (Idx : Type*)
  | forward (src dst : Idx)
  | stopForwarding (idx : Idx)
  deriving DecidableEq, Repr

def Request.subject : Request Idx → Idx
  | .forward src _ => src
  | .stopForwarding idx => idx

/-- The elements of an array, and the requests on their way to a home PE, numbered in
the order in which they were issued. -/
structure Lifecycles (Idx : Type*) where
  alive : Idx → Bool := fun _ => false
  /-- the last event of the index was a destruction with children -/
  leftChildren : Idx → Bool := fun _ => false
  issued : ℕ := 0
  inFlight : List (ℕ × Request Idx) := []

def Lifecycles.issue (l : Lifecycles Idx) (r : Request Idx) : Lifecycles Idx :=
  { l with inFlight := l.inFlight ++ [(l.issued, r)], issued := l.issued + 1 }

structure State (Idx Msg : Type*) extends Lifecycles Idx where
  branches : ℕ → Branch Idx Msg := fun _ => {}

inductive Event (Idx Msg : Type*) where
  | create (idx : Idx)
  | destroy (idx parent : Idx) (children : Bool)
  /-- a request reaches the home PE of its index -/
  | arrive (number : ℕ) (request : Request Idx)
  | deliver (pe : ℕ) (idx : Idx) (msg : Msg) (immediate : Bool)
  | handle (pe : ℕ) (idx : Idx) (msg : Msg)
  | locate (pe : ℕ) (idx : Idx) (l : Location)

section Step

variable [DecidableEq Idx]

/-- `reg_element`, for an element that was created. -/
def Lifecycles.regElement (l : Lifecycles Idx) (idx : Idx) : Lifecycles Idx :=
  { l with
    alive := Function.update l.alive idx true
    leftChildren := Function.update l.leftChildren idx false }.issue (.stopForwarding idx)

/-- Messages for an element that had children are redirected to its parent. -/
def Lifecycles.disassociate (l : Lifecycles Idx) (idx parent : Idx) (children : Bool) :
    Lifecycles Idx :=
  let l := { l with
    alive := Function.update l.alive idx false
    leftChildren := Function.update l.leftChildren idx children }
  if children then l.issue (.forward idx parent) else l

def Lifecycles.arrived (l : Lifecycles Idx) (number : ℕ) (r : Request Idx) : Lifecycles Idx :=
  { l with inFlight := l.inFlight.erase (number, r) }

variable [DecidableEq Msg] (home : Idx → ℕ)

def Request.apply (b : Branch Idx Msg) : Request Idx → Except Stop (Branch Idx Msg)
  | .forward src dst => b.forward (home src) home src dst
  | .stopForwarding idx => .ok (b.stopForwarding (home idx) home idx)

def State.setBranch (s : State Idx Msg) (pe : ℕ) (b : Branch Idx Msg) : State Idx Msg :=
  { s with branches := Function.update s.branches pe b }

def step (s : State Idx Msg) : Event Idx Msg → Except Stop (State Idx Msg)
  | .create idx => .ok { s with toLifecycles := s.regElement idx }
  | .destroy idx parent children =>
      .ok { s with toLifecycles := s.disassociate idx parent children }
  | .arrive number r =>
      (r.apply home (s.branches (home r.subject))).map fun b =>
        { s with toLifecycles := s.arrived number r }.setBranch (home r.subject) b
  | .deliver pe idx msg immediate =>
      (Interceptor.step pe home (s.branches pe) (.deliver idx msg immediate)).map (s.setBranch pe)
  | .handle pe idx msg =>
      (Interceptor.step pe home (s.branches pe) (.handle idx msg)).map (s.setBranch pe)
  | .locate pe idx l =>
      (Interceptor.step pe home (s.branches pe) (.locate idx l)).map (s.setBranch pe)

/-- An element is created where there is none, the parent of a destroyed element is
another one and alive, and the cache of a PE never names this PE for an index of
another home. -/
def Permitted (s : State Idx Msg) : Event Idx Msg → Prop
  | .create idx => s.alive idx = false
  | .destroy idx parent _ => s.alive idx = true ∧ s.alive parent = true ∧ parent ≠ idx
  | .arrive number r => (number, r) ∈ s.inFlight
  | .deliver _ _ _ _ => True
  | .handle pe idx msg => (idx, msg) ∈ (s.branches pe).pushed
  | .locate pe idx l => l = .cached (some pe) → home idx = pe

def Step (s : State Idx Msg) (e : Event Idx Msg) (t : State Idx Msg) : Prop :=
  Permitted home s e ∧ step home s e = .ok t

/-- No forward overtakes the end of a record at the same home PE, and no end of a record
overtakes a forward for its index. -/
def Ordered (s : State Idx Msg) : Event Idx Msg → Prop
  | .arrive number (.forward src _) =>
      ∀ n idx, (n, .stopForwarding idx) ∈ s.inFlight → home idx = home src → number < n
  | .arrive number (.stopForwarding idx) =>
      ∀ n dst, (n, .forward idx dst) ∈ s.inFlight → number < n
  | _ => True

end Step

section Lifecycles

variable {l : Lifecycles Idx} {record : Idx → Option Idx} {made : Idx → ℕ} {home : Idx → ℕ}
variable {n m k : ℕ} {r q : Request Idx} {idx src dst parent x y z : Idx} {children : Bool}

def Lifecycles.EndsBetween (l : Lifecycles Idx) (n : ℕ) (idx : Idx) (m : ℕ) : Prop :=
  ∃ k, n < k ∧ k < m ∧ (k, .stopForwarding idx) ∈ l.inFlight

/-- The forward with this number is in flight, or made the record that there is. -/
def Lifecycles.Redirects (l : Lifecycles Idx) (record : Idx → Option Idx) (made : Idx → ℕ)
    (n : ℕ) (src dst : Idx) : Prop :=
  (n, .forward src dst) ∈ l.inFlight ∨ record src = some dst ∧ made src = n

/-- The records at the home PEs and the requests in flight follow the lifecycles. The
forwards and ends of one index alternate, and a forward was issued when every redirection
of its destination was about to end. -/
structure Follows (home : Idx → ℕ) (l : Lifecycles Idx) (record : Idx → Option Idx)
    (made : Idx → ℕ) : Prop where
  numbered : ∀ n r, (n, r) ∈ l.inFlight → n < l.issued
  distinct : (l.inFlight.map Prod.fst).Nodup
  living : ∀ x, l.alive x = true → l.leftChildren x = false
  made_lt : ∀ x, record x ≠ none → made x < l.issued
  oldest : ∀ x n r, record x ≠ none → (n, r) ∈ l.inFlight → r.subject = x → made x < n
  alternate : ∀ x y z n m, l.Redirects record made n x y → (m, .forward x z) ∈ l.inFlight →
    n < m → l.EndsBetween n x m
  ends : ∀ x y n, l.leftChildren x = false → l.Redirects record made n x y →
    ∃ k > n, (k, .stopForwarding x) ∈ l.inFlight
  lasts : ∀ x, l.leftChildren x = true → ∃ n y, l.Redirects record made n x y ∧
    ∀ k, (k, .stopForwarding x) ∈ l.inFlight → k < n
  detours : ∀ x y z n m, (n, .forward x y) ∈ l.inFlight → l.Redirects record made m y z →
    m ≤ n → l.EndsBetween m y n
  rising : ∀ x y z n, record x = some y → l.Redirects record made n y z → home x = home y →
    made x < n

theorem follows_init : Follows home ({} : Lifecycles Idx) (fun _ => none) made := by
  constructor <;> simp [Lifecycles.Redirects]

theorem Lifecycles.EndsBetween.mono {l' : Lifecycles Idx} (h : l.EndsBetween n idx m)
    (hl : ∀ k, (k, .stopForwarding idx) ∈ l.inFlight → n < k →
      (k, .stopForwarding idx) ∈ l'.inFlight) :
    l'.EndsBetween n idx m := by
  obtain ⟨k, hn, hm, hk⟩ := h
  exact ⟨k, hn, hm, hl k hk hn⟩

@[simp] theorem Lifecycles.mem_issue : (n, r) ∈ (l.issue q).inFlight ↔
    (n, r) ∈ l.inFlight ∨ n = l.issued ∧ r = q := by
  simp [Lifecycles.issue]

theorem Follows.lt_issued (h : Follows home l record made) (hr : l.Redirects record made n x y) :
    n < l.issued := by
  rcases hr with hf | ⟨hr, rfl⟩
  · exact h.numbered _ _ hf
  · exact h.made_lt x (by simp [hr])

theorem nodup_issue (hn : ∀ n r, (n, r) ∈ l.inFlight → n < l.issued)
    (hd : (l.inFlight.map Prod.fst).Nodup) (q : Request Idx) :
    ((l.issue q).inFlight.map Prod.fst).Nodup := by
  simp only [Lifecycles.issue, List.map_append, List.map_cons, List.map_nil]
  refine List.nodup_append.mpr ⟨hd, by simp, ?_⟩
  rintro n hk m hm rfl
  obtain ⟨⟨k, r⟩, hr, rfl⟩ := List.mem_map.mp hk
  exact absurd (List.mem_singleton.mp hm) (Nat.ne_of_lt (hn k r hr))

section Issue

variable [DecidableEq Idx]

theorem mem_regElement : (n, r) ∈ (l.regElement idx).inFlight ↔
    (n, r) ∈ l.inFlight ∨ n = l.issued ∧ r = .stopForwarding idx := by
  simp [Lifecycles.regElement]

theorem redirects_regElement : (l.regElement idx).Redirects record made n x y ↔
    l.Redirects record made n x y := by
  simp [Lifecycles.Redirects, mem_regElement]

theorem Follows.regElement (h : Follows home l record made) (idx : Idx) :
    Follows home (l.regElement idx) record made where
  numbered n r hr := by
    rcases mem_regElement.mp hr with hr | ⟨rfl, -⟩
    · exact Nat.lt_succ_of_lt (h.numbered n r hr)
    · exact Nat.lt_succ_self _
  distinct := nodup_issue h.numbered h.distinct _
  living x hx := by
    rcases eq_or_ne x idx with rfl | hne
    · simp [Lifecycles.regElement, Lifecycles.issue]
    · simpa [Lifecycles.regElement, Lifecycles.issue, hne] using
        h.living x (by simpa [Lifecycles.regElement, Lifecycles.issue, hne] using hx)
  made_lt x hx := Nat.lt_succ_of_lt (h.made_lt x hx)
  oldest x n r hx hr hs := by
    rcases mem_regElement.mp hr with hr | ⟨rfl, -⟩
    · exact h.oldest x n r hx hr hs
    · exact h.made_lt x hx
  alternate x y z n m hn hm hnm := by
    rw [redirects_regElement] at hn
    have hm : (m, .forward x z) ∈ l.inFlight := by simpa [mem_regElement] using hm
    exact (h.alternate x y z n m hn hm hnm).mono fun k hk _ => mem_regElement.mpr (.inl hk)
  ends x y n hx hn := by
    rw [redirects_regElement] at hn
    rcases eq_or_ne x idx with rfl | hne
    · exact ⟨l.issued, h.lt_issued hn, mem_regElement.mpr (.inr ⟨rfl, rfl⟩)⟩
    · obtain ⟨k, hk, hmem⟩ := h.ends x y n
        (by simpa [Lifecycles.regElement, Lifecycles.issue, hne] using hx) hn
      exact ⟨k, hk, mem_regElement.mpr (.inl hmem)⟩
  lasts x hx := by
    rcases eq_or_ne x idx with rfl | hne
    · simp [Lifecycles.regElement, Lifecycles.issue] at hx
    · obtain ⟨n, y, hn, hk⟩ := h.lasts x
        (by simpa [Lifecycles.regElement, Lifecycles.issue, hne] using hx)
      refine ⟨n, y, redirects_regElement.mpr hn, fun k hk' => hk k ?_⟩
      simpa [mem_regElement, hne] using hk'
  detours x y z n m hn hm hmn := by
    rw [redirects_regElement] at hm
    have hn : (n, .forward x y) ∈ l.inFlight := by simpa [mem_regElement] using hn
    exact (h.detours x y z n m hn hm hmn).mono fun k hk _ => mem_regElement.mpr (.inl hk)
  rising x y z n hx hn hh := h.rising x y z n hx (redirects_regElement.mp hn) hh

theorem mem_disassociate : (n, r) ∈ (l.disassociate idx parent true).inFlight ↔
    (n, r) ∈ l.inFlight ∨ n = l.issued ∧ r = .forward idx parent := by
  simp [Lifecycles.disassociate]

theorem redirects_disassociate :
    (l.disassociate idx parent true).Redirects record made n x y ↔
      l.Redirects record made n x y ∨ n = l.issued ∧ x = idx ∧ y = parent := by
  simp only [Lifecycles.Redirects, mem_disassociate, Request.forward.injEq]
  tauto

theorem Follows.disassociate_false (h : Follows home l record made) (ha : l.alive idx = true)
    (parent : Idx) :
    Follows home (l.disassociate idx parent false) record made := by
  have hl : (l.disassociate idx parent false).leftChildren = l.leftChildren := by
    ext x
    rcases eq_or_ne x idx with rfl | hne
    · simp [Lifecycles.disassociate, h.living x ha]
    · simp [Lifecycles.disassociate, hne]
  refine ⟨h.numbered, h.distinct, fun x hx => ?_, h.made_lt, h.oldest, h.alternate, ?_, ?_,
    h.detours, h.rising⟩
  · rcases eq_or_ne x idx with rfl | hne
    · simp [Lifecycles.disassociate] at hx
    · rw [hl]
      exact h.living x (by simpa [Lifecycles.disassociate, hne] using hx)
  · rw [hl]
    exact h.ends
  · rw [hl]
    exact h.lasts

/-- A destruction redirects the index to an element whose own redirections end. -/
theorem Follows.disassociate_true (h : Follows home l record made) (ha : l.alive idx = true)
    (hp : l.alive parent = true) (hne : parent ≠ idx) :
    Follows home (l.disassociate idx parent true) record made where
  numbered n r hr := by
    rcases mem_disassociate.mp hr with hr | ⟨rfl, -⟩
    · exact Nat.lt_succ_of_lt (h.numbered n r hr)
    · exact Nat.lt_succ_self _
  distinct := nodup_issue h.numbered h.distinct _
  living x hx := by
    rcases eq_or_ne x idx with rfl | hi
    · simp [Lifecycles.disassociate, Lifecycles.issue] at hx
    · simpa [Lifecycles.disassociate, Lifecycles.issue, hi] using
        h.living x (by simpa [Lifecycles.disassociate, Lifecycles.issue, hi] using hx)
  made_lt x hx := Nat.lt_succ_of_lt (h.made_lt x hx)
  oldest x n r hx hr hs := by
    rcases mem_disassociate.mp hr with hr | ⟨rfl, -⟩
    · exact h.oldest x n r hx hr hs
    · exact h.made_lt x hx
  alternate x y z n m hn hm hnm := by
    rcases mem_disassociate.mp hm with hm' | ⟨rfl, he⟩
    · rcases redirects_disassociate.mp hn with hn | ⟨rfl, -, -⟩
      · exact (h.alternate x y z n m hn hm' hnm).mono fun k hk _ => mem_disassociate.mpr (.inl hk)
      · exact absurd (h.numbered m _ hm') (by omega)
    · obtain ⟨rfl, rfl⟩ := Request.forward.inj he
      rcases redirects_disassociate.mp hn with hn | ⟨rfl, -, -⟩
      · obtain ⟨k, hk, hmem⟩ := h.ends x y n (h.living x ha) hn
        exact ⟨k, hk, h.numbered k _ hmem, mem_disassociate.mpr (.inl hmem)⟩
      · omega
  ends x y n hx hn := by
    rcases eq_or_ne x idx with rfl | hi
    · simp [Lifecycles.disassociate, Lifecycles.issue] at hx
    · obtain hn | ⟨-, rfl, -⟩ := redirects_disassociate.mp hn
      · obtain ⟨k, hk, hmem⟩ := h.ends x y n
          (by simpa [Lifecycles.disassociate, Lifecycles.issue, hi] using hx) hn
        exact ⟨k, hk, mem_disassociate.mpr (.inl hmem)⟩
      · exact absurd rfl hi
  lasts x hx := by
    rcases eq_or_ne x idx with rfl | hi
    · refine ⟨l.issued, parent, redirects_disassociate.mpr (.inr ⟨rfl, rfl, rfl⟩), fun k hk => ?_⟩
      exact h.numbered k _ (by simpa [mem_disassociate] using hk)
    · obtain ⟨n, y, hn, hk⟩ := h.lasts x
        (by simpa [Lifecycles.disassociate, Lifecycles.issue, hi] using hx)
      refine ⟨n, y, redirects_disassociate.mpr (.inl hn), fun k hk' => hk k ?_⟩
      simpa [mem_disassociate] using hk'
  detours x y z n m hn hm hmn := by
    rcases mem_disassociate.mp hn with hn' | ⟨rfl, he⟩
    · rcases redirects_disassociate.mp hm with hm | ⟨rfl, -, -⟩
      · exact (h.detours x y z n m hn' hm hmn).mono fun k hk _ => mem_disassociate.mpr (.inl hk)
      · exact absurd (h.numbered n _ hn') (by omega)
    · obtain ⟨rfl, rfl⟩ := Request.forward.inj he
      rcases redirects_disassociate.mp hm with hm | ⟨-, rfl, -⟩
      · obtain ⟨k, hk, hmem⟩ := h.ends y z m (h.living y hp) hm
        exact ⟨k, hk, h.numbered k _ hmem, mem_disassociate.mpr (.inl hmem)⟩
      · exact absurd rfl hne
  rising x y z n hx hn hh := by
    rcases redirects_disassociate.mp hn with hn | ⟨rfl, -, -⟩
    · exact h.rising x y z n hx hn hh
    · exact h.made_lt x (by simp [hx])

end Issue

section Arrive

variable [DecidableEq Idx]

theorem mem_arrived (hd : (l.inFlight.map Prod.fst).Nodup) (hq : (n, q) ∈ l.inFlight) :
    (m, r) ∈ (l.arrived n q).inFlight ↔ (m, r) ∈ l.inFlight ∧ m ≠ n := by
  rw [Lifecycles.arrived, hd.of_map.mem_erase_iff, and_comm]
  refine and_congr_right fun hr => not_congr ⟨fun he => (Prod.mk.inj he).1, ?_⟩
  rintro rfl
  exact List.inj_on_of_nodup_map hd hr hq rfl

omit [DecidableEq Idx] in
theorem eq_of_mem (hd : (l.inFlight.map Prod.fst).Nodup) (hr : (n, r) ∈ l.inFlight)
    (hq : (n, q) ∈ l.inFlight) : r = q :=
  (Prod.mk.inj (List.inj_on_of_nodup_map hd hr hq rfl)).2

section Stop

variable (h : Follows home l record made) (hq : (n, .stopForwarding idx) ∈ l.inFlight)
  (ho : ∀ m y, (m, .forward idx y) ∈ l.inFlight → n < m)

include h hq ho

theorem redirects_stop :
    (l.arrived n (.stopForwarding idx)).Redirects (Function.update record idx none) made m x y ↔
      l.Redirects record made m x y ∧ (x = idx → n < m) := by
  simp only [Lifecycles.Redirects, mem_arrived h.distinct hq]
  constructor
  · rintro (⟨hm, -⟩ | ⟨hx, rfl⟩)
    · exact ⟨.inl hm, fun he => ho m y (he ▸ hm)⟩
    · have hne : x ≠ idx := by rintro rfl; simp at hx
      exact ⟨.inr ⟨by simpa [hne] using hx, rfl⟩, fun he => absurd he hne⟩
  · rintro ⟨hm | ⟨hx, rfl⟩, hn⟩
    · refine .inl ⟨hm, ?_⟩
      rintro rfl
      exact absurd (eq_of_mem h.distinct hm hq) (by simp)
    · have hne : x ≠ idx := by
        rintro rfl
        exact absurd (h.oldest x n _ (by simp [hx]) hq rfl) (Nat.lt_asymm (hn rfl))
      exact .inr ⟨by simpa [hne] using hx, rfl⟩

theorem mem_arrived_stop (hm : x = idx → n < m) (hk : (k, .stopForwarding x) ∈ l.inFlight)
    (hlt : m < k) : (k, .stopForwarding x) ∈ (l.arrived n (.stopForwarding idx)).inFlight := by
  refine (mem_arrived h.distinct hq).mpr ⟨hk, ?_⟩
  rintro rfl
  have he := eq_of_mem h.distinct hk hq
  exact absurd (hm (Request.stopForwarding.inj he)) (Nat.lt_asymm hlt)

theorem Follows.arrived_stop :
    Follows home (l.arrived n (.stopForwarding idx)) (Function.update record idx none) made := by
  have hmem : ∀ {m r}, (m, r) ∈ (l.arrived n (.stopForwarding idx)).inFlight →
      (m, r) ∈ l.inFlight := fun hr => ((mem_arrived h.distinct hq).mp hr).1
  have hrec : ∀ x, Function.update record idx none x ≠ none → record x ≠ none := by
    intro x hx
    rcases eq_or_ne x idx with rfl | hne
    · simp at hx
    · simpa [hne] using hx
  constructor
  case numbered => exact fun m r hr => h.numbered m r (hmem hr)
  case distinct => exact h.distinct.sublist (List.erase_sublist.map _)
  case living => exact h.living
  case made_lt => exact fun x hx => h.made_lt x (hrec x hx)
  case oldest => exact fun x m r hx hr hs => h.oldest x m r (hrec x hx) (hmem hr) hs
  case alternate =>
    intro x y z m m' hm hm' hlt
    obtain ⟨hr, hn⟩ := (redirects_stop h hq ho).mp hm
    exact (h.alternate x y z m m' hr (hmem hm') hlt).mono fun k => mem_arrived_stop h hq ho hn
  case ends =>
    intro x y m hx hm
    obtain ⟨hr, hn⟩ := (redirects_stop h hq ho).mp hm
    obtain ⟨k, hk, hmem⟩ := h.ends x y m hx hr
    exact ⟨k, hk, mem_arrived_stop h hq ho hn hmem hk⟩
  case lasts =>
    intro x hx
    obtain ⟨m, y, hm, hk⟩ := h.lasts x hx
    refine ⟨m, y, (redirects_stop h hq ho).mpr ⟨hm, ?_⟩, fun k hk' => hk k (hmem hk')⟩
    rintro rfl
    exact hk n hq
  case detours =>
    intro x y z m m' hm hm' hle
    obtain ⟨hr, hn⟩ := (redirects_stop h hq ho).mp hm'
    exact (h.detours x y z m m' (hmem hm) hr hle).mono fun k => mem_arrived_stop h hq ho hn
  case rising =>
    intro x y z m hx hm hh
    have hne : x ≠ idx := by rintro rfl; simp at hx
    exact h.rising x y z m (by simpa [hne] using hx) ((redirects_stop h hq ho).mp hm).1 hh

end Stop

section Forward

variable (h : Follows home l record made) (hq : (n, .forward src dst) ∈ l.inFlight)
  (ho : ∀ m x, (m, .stopForwarding x) ∈ l.inFlight → home x = home src → n < m)

include h hq ho

omit [DecidableEq Idx] in
theorem Follows.record_eq_none : record src = none := by
  by_contra hr
  obtain ⟨y, hy⟩ := Option.ne_none_iff_exists'.mp hr
  have hlt := h.oldest src n _ hr hq rfl
  obtain ⟨k, -, hk, hmem⟩ := h.alternate src y dst _ n (.inr ⟨hy, rfl⟩) hq hlt
  exact absurd (ho k src hmem rfl) (Nat.lt_asymm hk)

theorem redirects_forward :
    (l.arrived n (.forward src dst)).Redirects (Function.update record src (some dst))
      (Function.update made src n) m x y ↔ l.Redirects record made m x y := by
  have hnone := h.record_eq_none hq ho
  simp only [Lifecycles.Redirects, mem_arrived h.distinct hq]
  rcases eq_or_ne x src with rfl | hne
  · simp only [Function.update_self, hnone]
    constructor
    · rintro (⟨hm, -⟩ | ⟨hy, rfl⟩)
      · exact .inl hm
      · obtain rfl := Option.some.inj hy
        exact .inl hq
    · rintro (hm | ⟨hy, -⟩)
      · rcases eq_or_ne m n with rfl | hmn
        · obtain ⟨-, rfl⟩ := Request.forward.inj (eq_of_mem h.distinct hm hq)
          exact .inr ⟨rfl, rfl⟩
        · exact .inl ⟨hm, hmn⟩
      · simp at hy
  · simp only [Function.update_of_ne hne]
    refine or_congr_left ⟨And.left, fun hm => ⟨hm, ?_⟩⟩
    rintro rfl
    exact hne (Request.forward.inj (eq_of_mem h.distinct hm hq)).1

theorem Follows.arrived_forward :
    Follows home (l.arrived n (.forward src dst)) (Function.update record src (some dst))
      (Function.update made src n) := by
  have hmem : ∀ {m r}, (m, r) ∈ (l.arrived n (.forward src dst)).inFlight ↔
      (m, r) ∈ l.inFlight ∧ m ≠ n := mem_arrived h.distinct hq
  have hstop : ∀ {k x}, (k, .stopForwarding x) ∈ l.inFlight →
      (k, .stopForwarding x) ∈ (l.arrived n (.forward src dst)).inFlight := by
    refine fun hk => hmem.mpr ⟨hk, ?_⟩
    rintro rfl
    exact absurd (eq_of_mem h.distinct hk hq) (by simp)
  have hred : ∀ {m x y}, _ ↔ l.Redirects record made m x y := redirects_forward h hq ho
  constructor
  case numbered => exact fun m r hr => h.numbered m r (hmem.mp hr).1
  case distinct => exact h.distinct.sublist (List.erase_sublist.map _)
  case living => exact h.living
  case made_lt =>
    intro x hx
    rcases eq_or_ne x src with rfl | hne
    · rw [Function.update_self]
      exact h.numbered n _ hq
    · rw [Function.update_of_ne hne] at hx ⊢
      exact h.made_lt x hx
  case oldest =>
    intro x m r hx hr hs
    have hr' := (hmem.mp hr).1
    have hmn := (hmem.mp hr).2
    rcases eq_or_ne x src with rfl | hne
    · rw [Function.update_self]
      cases r with
      | stopForwarding y =>
        exact ho m y hr' (congrArg home hs)
      | forward x' y =>
        obtain rfl : x' = x := hs
        by_contra hlt
        obtain ⟨k, -, hk, hk'⟩ := h.alternate x' y dst m n (.inl hr') hq (by omega)
        exact absurd (ho k x' hk' rfl) (Nat.lt_asymm hk)
    · simpa [hne] using h.oldest x m r (by simpa [hne] using hx) hr' hs
  case alternate =>
    intro x y z m m' hm hm' hlt
    exact (h.alternate x y z m m' (hred.mp hm) (hmem.mp hm').1 hlt).mono fun k hk _ => hstop hk
  case ends =>
    intro x y m hx hm
    obtain ⟨k, hk, hk'⟩ := h.ends x y m hx (hred.mp hm)
    exact ⟨k, hk, hstop hk'⟩
  case lasts =>
    intro x hx
    obtain ⟨m, y, hm, hk⟩ := h.lasts x hx
    exact ⟨m, y, hred.mpr hm, fun k hk' => hk k (hmem.mp hk').1⟩
  case detours =>
    intro x y z m m' hm hm' hle
    exact (h.detours x y z m m' (hmem.mp hm).1 (hred.mp hm') hle).mono fun k hk _ => hstop hk
  case rising =>
    intro x y z m hx hm hh
    rcases eq_or_ne x src with rfl | hne
    · obtain rfl : dst = y := by simpa using hx
      rw [Function.update_self]
      by_contra hlt
      obtain ⟨k, -, hk, hk'⟩ := h.detours x dst z n m hq (hred.mp hm) (by omega)
      exact absurd (ho k dst hk' hh.symm) (Nat.lt_asymm hk)
    · simpa [hne] using h.rising x y z m (by simpa [hne] using hx) (hred.mp hm) hh

end Forward

omit [DecidableEq Idx] in
/-- Once the requests for an index have arrived, its record tells its last event. -/
theorem Follows.record_ne_none_iff (h : Follows home l record made)
    (hx : ∀ p ∈ l.inFlight, p.2.subject ≠ x) : record x ≠ none ↔ l.leftChildren x = true := by
  constructor
  · intro hr
    obtain ⟨y, hy⟩ := Option.ne_none_iff_exists'.mp hr
    by_contra hc
    obtain ⟨k, -, hk⟩ := h.ends x y _ (by simpa using hc) (.inr ⟨hy, rfl⟩)
    exact hx _ hk rfl
  · intro hc
    obtain ⟨n, y, hf | ⟨hy, -⟩, -⟩ := h.lasts x hc
    · exact absurd rfl (hx _ hf)
    · simp [hy]

end Arrive

end Lifecycles

section Branch

open Interceptor.Branch

variable [DecidableEq Idx] {mine : ℕ} {home : Idx → ℕ} {b : Branch Idx Msg}
variable {src dst idx post : Idx}

theorem record_cons : record { b with fwdReqs := (src, dst) :: b.fwdReqs } =
    Function.update b.record src (some dst) := by
  ext1 x
  rcases eq_or_ne x src with rfl | hne
  · simp [record]
  · simp [record, List.lookup_cons, hne, beq_eq_false_iff_ne.mpr hne]

theorem lookup_filter_ne (l : List (Idx × Idx)) (x : Idx) :
    (l.filter (·.1 ≠ idx)).lookup x = if x = idx then none else l.lookup x := by
  induction l with
  | nil => simp
  | cons p l ih =>
    obtain ⟨k, v⟩ := p
    rcases eq_or_ne k idx with rfl | hk
    · rcases eq_or_ne x k with rfl | hx
      · simpa using ih
      · simpa [List.lookup_cons, beq_eq_false_iff_ne.mpr hx, hx] using ih
    · rcases eq_or_ne x k with rfl | hx
      · simp [hk]
      · simpa [List.lookup_cons, beq_eq_false_iff_ne.mpr hx, hk] using ih

theorem record_stopForwarding_self (hh : home idx = mine) :
    (b.stopForwarding mine home idx).record = Function.update b.record idx none := by
  ext1 x
  simp only [stopForwarding, hh, if_true, record, lookup_filter_ne, Function.update_apply]

theorem exists_forward (hc : ∀ i, b.location i = .cached (some mine) → home i = mine)
    (hh : home src = mine) (hr : b.record src = none)
    (hl : Transition.Leads (Function.update b.record src (some dst)) src post) :
    ∃ t, b.forward mine home src dst = .ok t ∧
      t.record = Function.update b.record src (some dst) ∧
      ∀ i, t.location i = .cached (some mine) → home i = mine := by
  rw [← record_cons] at hl
  obtain ⟨t, ht, -, -, m, hm⟩ := exists_resyncQueue
    (s := { b with fwdReqs := (src, dst) :: b.fwdReqs }) hc hl
  refine ⟨t, by simp [Branch.forward, hh, hr, ht], ?_, hm.contract hc⟩
  rw [← record_cons]
  exact congrArg (fun l i => List.lookup i l) hm.fwdReqs

end Branch

section Run

variable [DecidableEq Idx] [DecidableEq Msg] {home : Idx → ℕ} {s t : State Idx Msg}
variable {e : Event Idx Msg} {b : Branch Idx Msg} {pe : ℕ} {idx post : Idx}

def State.record (home : Idx → ℕ) (s : State Idx Msg) (idx : Idx) : Option Idx :=
  (s.branches (home idx)).record idx

structure Inv (home : Idx → ℕ) (s : State Idx Msg) : Prop where
  records : ∀ pe x, (s.branches pe).record x ≠ none → home x = pe
  contract : ∀ pe i, (s.branches pe).location i = .cached (some pe) → home i = pe
  follows : ∃ made, Follows home s.toLifecycles (s.record home) made

omit [DecidableEq Msg] in
theorem inv_init : Inv home ({} : State Idx Msg) :=
  ⟨by simp [Branch.record], by simp, fun _ => 0, follows_init⟩

omit [DecidableEq Msg] in
theorem Inv.leads (hi : Inv home s) (pe : ℕ) (idx : Idx) :
    ∃ post, Transition.Leads (s.branches pe).record idx post := by
  obtain ⟨made, h⟩ := hi.follows
  have hrec : ∀ x, (s.branches pe).record x ≠ none →
      home x = pe ∧ (s.branches pe).record x = s.record home x := fun x hx =>
    ⟨hi.records pe x hx, by rw [State.record, hi.records pe x hx]⟩
  refine Transition.exists_leads_of_rising made (n := s.issued) (fun x hx => ?_) ?_ idx
  · exact h.made_lt x ((hrec x hx).2 ▸ hx)
  · intro x y hx hy
    obtain ⟨z, hz⟩ := Option.ne_none_iff_exists'.mp hy
    obtain ⟨hhx, hrx⟩ := hrec x (by simp [hx])
    obtain ⟨hhy, hry⟩ := hrec y hy
    exact h.rising x y z _ (hrx ▸ hx) (.inr ⟨hry ▸ hz, rfl⟩) (hhx.trans hhy.symm)

omit [DecidableEq Msg] in
theorem Inv.setBranch (hi : Inv home s) (hr : b.record = (s.branches pe).record)
    (hc : ∀ i, b.location i = .cached (some pe) → home i = pe) : Inv home (s.setBranch pe b) := by
  have hrec : ∀ q, ((s.setBranch pe b).branches q).record = (s.branches q).record := by
    intro q
    rcases eq_or_ne q pe with rfl | hne
    · simpa [State.setBranch] using hr
    · simp [State.setBranch, hne]
  refine ⟨fun q x => hrec q ▸ hi.records q x, fun q => ?_, ?_⟩
  · rcases eq_or_ne q pe with rfl | hne
    · simpa [State.setBranch] using hc
    · simpa [State.setBranch, hne] using hi.contract q
  · have : (s.setBranch pe b).record home = s.record home := by
      ext1 x
      simp only [State.record, hrec]
    rw [this]
    exact hi.follows

omit [DecidableEq Msg] in
theorem Inv.arrived (hi : Inv home s) {l : Lifecycles Idx} {v : Option Idx} {made : Idx → ℕ}
    (hr : b.record = Function.update (s.branches (home idx)).record idx v)
    (hc : ∀ i, b.location i = .cached (some (home idx)) → home i = home idx)
    (hf : Follows home l (Function.update (s.record home) idx v) made) :
    Inv home ({ s with toLifecycles := l }.setBranch (home idx) b) := by
  have hrec : ∀ q x, (Function.update s.branches (home idx) b q).record x =
      if q = home idx ∧ x = idx then v else (s.branches q).record x := by
    intro q x
    rcases eq_or_ne q (home idx) with rfl | hne
    · simp [hr, Function.update_apply]
    · simp [hne]
  refine ⟨fun q x hx => ?_, fun q => ?_, made, ?_⟩
  · rw [State.setBranch, hrec] at hx
    split at hx
    case isTrue h => rw [h.1, h.2]
    case isFalse => exact hi.records q x hx
  · rcases eq_or_ne q (home idx) with rfl | hne
    · simpa [State.setBranch] using hc
    · simpa [State.setBranch, hne] using hi.contract q
  · have : ({ s with toLifecycles := l }.setBranch (home idx) b).record home =
        Function.update (s.record home) idx v := by
      ext1 x
      simp only [State.record, State.setBranch, Function.update_apply]
      split_ifs <;> simp_all
    rw [this]
    exact hf

theorem Inv.exists_arrive_forward (hi : Inv home s) {n : ℕ} {src dst : Idx}
    (hp : (n, .forward src dst) ∈ s.inFlight)
    (ho : ∀ m x, (m, .stopForwarding x) ∈ s.inFlight → home x = home src → n < m) :
    ∃ t, step home s (.arrive n (.forward src dst)) = .ok t ∧ Inv home t := by
  obtain ⟨made, h⟩ := hi.follows
  have hnone : (s.branches (home src)).record src = none := h.record_eq_none hp ho
  have hf := h.arrived_forward hp ho
  -- the records of the home PE after the request lead somewhere, by the invariant it keeps
  set b : Branch Idx Msg := { s.branches (home src) with
    fwdReqs := (src, dst) :: (s.branches (home src)).fwdReqs } with hb
  have hi' : Inv home ({ s with toLifecycles := s.arrived n (.forward src dst) }.setBranch
      (home src) b) := hi.arrived record_cons (hi.contract _) hf
  obtain ⟨post, hl⟩ := hi'.leads (home src) src
  have hl' : Transition.Leads (Function.update (s.branches (home src)).record src (some dst))
      src post := by simpa [State.setBranch, hb, record_cons] using hl
  obtain ⟨t, ht, hr, hc⟩ := exists_forward (hi.contract (home src)) rfl hnone hl'
  refine ⟨_, ?_, hi.arrived hr hc hf⟩
  simp only [step, Request.subject, Request.apply, ht, Except.map]

theorem Inv.exists_arrive_stop (hi : Inv home s) {n : ℕ}
    (hp : (n, .stopForwarding idx) ∈ s.inFlight)
    (ho : ∀ m y, (m, .forward idx y) ∈ s.inFlight → n < m) :
    ∃ t, step home s (.arrive n (.stopForwarding idx)) = .ok t ∧ Inv home t := by
  obtain ⟨made, h⟩ := hi.follows
  refine ⟨_, rfl, hi.arrived (record_stopForwarding_self rfl) ?_ (h.arrived_stop hp ho)⟩
  intro i hl
  refine hi.contract (home idx) i ?_
  simpa [Request.subject, Branch.stopForwarding] using hl

/-- A request that arrives in order is served, and every other event returns. -/
theorem Inv.exists_step (hi : Inv home s) (hp : Permitted home s e) (ho : Ordered home s e) :
    ∃ t, step home s e = .ok t ∧ Inv home t := by
  obtain ⟨made, h⟩ := hi.follows
  cases e with
  | create idx => exact ⟨_, rfl, hi.records, hi.contract, made, h.regElement idx⟩
  | destroy idx parent children =>
    refine ⟨_, rfl, hi.records, hi.contract, made, ?_⟩
    cases children with
    | false => exact h.disassociate_false hp.1 parent
    | true => exact h.disassociate_true hp.1 hp.2.1 hp.2.2
  | arrive n r =>
    cases r with
    | forward src dst => exact hi.exists_arrive_forward hp ho
    | stopForwarding idx => exact hi.exists_arrive_stop hp ho
  | deliver pe idx msg immediate =>
    obtain ⟨post, hl⟩ := hi.leads pe idx
    obtain ⟨b, hb, hm, -, -⟩ := Branch.exists_deliver (s := { s.branches pe with
      given := (s.branches pe).given ++ [msg] }) msg immediate (hi.contract pe) hl
    refine ⟨s.setBranch pe b, ?_, hi.setBranch ?_ (hm.contract (hi.contract pe))⟩
    · simp only [step, Interceptor.step, hb, Interceptor.orEndless, Except.map]
    · exact congrArg (fun l i => List.lookup i l) hm.fwdReqs
  | handle pe idx msg =>
    obtain ⟨post, hl⟩ := hi.leads pe idx
    obtain ⟨b, hb, hm, -, -⟩ := Branch.exists_deliver (s := { s.branches pe with
      pushed := (s.branches pe).pushed.erase (idx, msg) }) msg true (hi.contract pe) hl
    refine ⟨s.setBranch pe b, ?_, hi.setBranch ?_ (hm.contract (hi.contract pe))⟩
    · simp only [step, Interceptor.step, hb, Interceptor.orEndless, Except.map]
    · exact congrArg (fun l i => List.lookup i l) hm.fwdReqs
  | locate pe idx l =>
    refine ⟨_, rfl, hi.setBranch rfl fun i hl => ?_⟩
    rcases eq_or_ne i idx with rfl | hne
    · exact hp (by simpa using hl)
    · exact hi.contract pe i (by simpa [hne] using hl)

theorem Inv.step (hi : Inv home s) (ho : Ordered home s e) (h : Step home s e t) :
    Inv home t := by
  obtain ⟨u, hu, hiu⟩ := hi.exists_step h.1 ho
  obtain rfl : u = t := Except.ok.inj (hu.symm.trans h.2)
  exact hiu

/-- Every index leads somewhere on every PE, and where no request for an index is in
flight, it has a record iff its last event was a destruction with children. -/
structure FollowsLifecycles (home : Idx → ℕ) (s : State Idx Msg) : Prop where
  terminates : ∀ pe idx, (s.branches pe).dealias idx ≠ none
  record_iff : ∀ idx, (∀ p ∈ s.inFlight, p.2.subject ≠ idx) →
    ((s.branches (home idx)).record idx ≠ none ↔ s.leftChildren idx = true)
  undirected : ∀ idx, (∀ p ∈ s.inFlight, p.2.subject ≠ idx) → s.alive idx = true →
    ∀ pe, (s.branches pe).dealias idx = some idx

omit [DecidableEq Msg] in
theorem Inv.followsLifecycles (hi : Inv home s) : FollowsLifecycles home s := by
  obtain ⟨made, h⟩ := hi.follows
  refine ⟨fun pe idx => ?_, fun idx hx => h.record_ne_none_iff hx, fun idx hx ha pe => ?_⟩
  · obtain ⟨post, hl⟩ := hi.leads pe idx
    simp [Branch.dealias_eq_some_iff.mpr hl]
  · refine Branch.dealias_eq_some_iff.mpr (.stop ?_)
    by_contra hr
    have hh := hi.records pe idx hr
    have := (h.record_ne_none_iff hx).mp (by rwa [State.record, hh])
    simp [h.living idx ha] at this

/-- In a run whose requests arrive in order, no event aborts or fails to return, and the
records follow the lifecycles of the elements. -/
theorem followsLifecycles_of_ordered {es : List (Event Idx Msg)}
    (h : Transition.Run (Transition.restrict (Step home) (Ordered home)) {} es s) :
    FollowsLifecycles home s ∧
      ∀ e, Permitted home s e → Ordered home s e → ∃ t, Forwarding.step home s e = .ok t := by
  have hi : Inv home s := h.invariant (fun _ _ _ hi hs => hi.step hs.1 hs.2) inv_init
  refine ⟨hi.followsLifecycles, fun e hp ho => ?_⟩
  obtain ⟨t, ht, -⟩ := hi.exists_step hp ho
  exact ⟨t, ht⟩

/-- An element with children is destroyed, and its record leads to its parent. -/
theorem followsLifecycles_of_destroyed : ∃ s : State ℕ ℕ,
    (s.branches 0).dealias 1 = some 2 ∧ FollowsLifecycles (fun _ => 0) s := by
  have hm {n : ℕ} {r : Request ℕ} {l : List (ℕ × Request ℕ)} (h : l.elem (n, r) = true) :
      (n, r) ∈ l := List.mem_of_elem_eq_true h
  have h : Transition.Run (Transition.restrict (Step fun _ => 0) (Ordered fun _ => 0))
      ({} : State ℕ ℕ) [.create 1, .create 2, .arrive 0 (.stopForwarding 1),
        .arrive 1 (.stopForwarding 2), .destroy 1 2 true, .arrive 2 (.forward 1 2)] _ :=
    .snoc (.snoc (.snoc (.snoc (.snoc (.snoc .nil
      ⟨trivial, rfl, rfl⟩) ⟨trivial, rfl, rfl⟩)
      ⟨fun m y h => by simp [Lifecycles.regElement, Lifecycles.issue] at h, hm rfl, rfl⟩)
      ⟨fun m y h => by
        simp [Lifecycles.regElement, Lifecycles.issue, Lifecycles.arrived, State.setBranch] at h,
        hm rfl, rfl⟩)
      ⟨trivial, ⟨rfl, rfl, by decide⟩, rfl⟩)
      ⟨fun m y h => by
        simp [Lifecycles.regElement, Lifecycles.issue, Lifecycles.arrived, State.setBranch,
          Lifecycles.disassociate] at h, hm rfl, rfl⟩
  exact ⟨_, rfl, (followsLifecycles_of_ordered h).1⟩

/-- The end of a record overtakes the forward that makes it. The record outlives the
destruction, and is duplicated by the next one, or closed to a cycle by the parent's. -/
theorem overtaken_forward_aborts_or_cycles :
    (∃ es s, Transition.Run (Step fun _ => 0) ({} : State ℕ ℕ) es s ∧ s.inFlight = [] ∧
      s.alive 1 = true ∧ (s.branches 0).dealias 1 = some 2) ∧
    (∃ es s e, Transition.Run (Step fun _ => 0) ({} : State ℕ ℕ) es s ∧
      Permitted (fun _ => 0) s e ∧ step (fun _ => 0) s e = .error .duplicateForwardingRequest) ∧
    (∃ es s, Transition.Run (Step fun _ => 0) ({} : State ℕ ℕ) es s ∧
      (s.branches 0).dealias 1 = none) := by
  have hm {n : ℕ} {r : Request ℕ} {l : List (ℕ × Request ℕ)} (h : l.elem (n, r) = true) :
      (n, r) ∈ l := List.mem_of_elem_eq_true h
  have hs : Transition.Run (Step fun _ => 0)
      ({} : State ℕ ℕ) [.create 1, .create 2, .arrive 0 (.stopForwarding 1),
        .arrive 1 (.stopForwarding 2), .destroy 1 2 true, .create 1,
        .arrive 3 (.stopForwarding 1), .arrive 2 (.forward 1 2)] _ :=
    .snoc (.snoc (.snoc (.snoc (.snoc (.snoc (.snoc (.snoc .nil
      ⟨rfl, rfl⟩) ⟨rfl, rfl⟩) ⟨hm rfl, rfl⟩) ⟨hm rfl, rfl⟩) ⟨⟨rfl, rfl, by decide⟩, rfl⟩)
      ⟨rfl, rfl⟩) ⟨hm rfl, rfl⟩) ⟨hm rfl, rfl⟩
  have hd := hs.snoc (a := Event.destroy 1 2 true) ⟨⟨rfl, rfl, by decide⟩, rfl⟩
  have hc := (hs.snoc (a := Event.destroy 2 1 true) ⟨⟨rfl, rfl, by decide⟩, rfl⟩).snoc
    (a := Event.arrive 4 (.forward 2 1)) ⟨hm rfl, rfl⟩
  exact ⟨⟨_, _, hs, rfl, rfl, rfl⟩, ⟨_, _, .arrive 4 (.forward 1 2), hd, hm rfl, rfl⟩,
    ⟨_, _, hc, rfl⟩⟩

end Run

end Hypercomm.Forwarding
