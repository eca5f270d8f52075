import Hypercomm.Reductions.Exactness

/-! # Interference of reductions

A port has the hash of a section and not the section, and the hash does not depend on
the order of the members. Reductions over two sections interfere when the sections have
the same hash and a member has the same child in both.
-/

namespace Hypercomm

open Transition

namespace Locality

variable {α ι V κ : Type*} [DecidableEq α] [DecidableEq ι] {l : Locality α ι V κ}
variable {com : ComponentId} {r : Reducer α ι V κ} {ports : List (ReductionPort ι)}

omit [DecidableEq α] in
theorem forEach_openPort_eq_none (h : l.components com = some r) (ha : r.active = false)
    (hp : ∃ port ∈ ports, l.entryPorts port ≠ none) : forEach (openPort com) ports l = none := by
  induction ports generalizing l r with
  | nil => simp at hp
  | cons port ports ih =>
    by_cases hport : l.entryPorts port = none
    · obtain ⟨port', hmem, hopen⟩ := hp
      have hne : port' ≠ port := by rintro rfl; exact hopen hport
      refine (Outcome.andThen_of_quiet (openPort_eq h ha hport)).trans ?_
      refine ih (Function.update_self ..) ha ⟨port', ?_, by simpa [hne] using hopen⟩
      simpa [hne] using hmem
    · simp [forEach, Outcome.andThen, openPort, Option.isSome_iff_ne_none, hport]

theorem localContribution_eq_none {which : α} {hash : HashCode} {mine : ι}
    {ustream dstream : List ι} {value : V} {cb : κ} {up : ι} (hup : up ∈ ustream)
    (hopen : l.entryPorts ⟨hash, (l.identities which).rednCount, up⟩ ≠ none) :
    l.localContribution which hash mine ustream dstream value cb = none := by
  simp only [localContribution, Identity.nextReduction]
  cases outputFor dstream ⟨hash, (l.identities which).rednCount, mine⟩ cb with
  | none => rfl
  | some output =>
    simp only [Option.bind_some, Outcome.andThen]
    rw [forEach_openPort_eq_none]
    · rfl
    · exact Function.update_self ..
    · rfl
    · exact ⟨_, List.mem_map.mpr ⟨up, hup, rfl⟩, hopen⟩

end Locality

variable {ι V κ : Type*} [DecidableEq ι]

namespace Reductions

variable (hashIdx : ι → HashCode) (V κ)

def opened {V κ : Type*} (s : Reductions ι V κ) (S : VectorSection ι) (x : ι) :
    Set (ReductionPort ι) :=
  {port | ∃ k < ((s.localities x).identities S).rednCount, ∃ c ∈ S.upstream x,
    port = portFor hashIdx S k c}

/-- In every run over the two sections no call aborts, no element opens the same port for
both, and each result contains only what was contributed to it. -/
structure NonInterfering (S₁ S₂ : VectorSection ι) : Prop where
  aborts : ∀ as (s : Reductions ι V κ), Run (Step hashIdx {S₁, S₂}) {} as s →
    ∀ a, ¬ s.Aborts hashIdx {S₁, S₂} a
  ports : ∀ as (s : Reductions ι V κ), Run (Step hashIdx {S₁, S₂}) {} as s →
    ∀ x, ∀ port ∈ s.opened hashIdx S₁ x, port ∉ s.opened hashIdx S₂ x
  results : ∀ as (s : Reductions ι V κ), Run (Step hashIdx {S₁, S₂}) {} as s →
    ∀ S ∈ ({S₁, S₂} : Set (VectorSection ι)), ∀ k, ∀ c ∈ s.calledFor S k, ∀ v ∈ c.value,
      ∃ y, (contributed S y as)[k]?.map Prod.fst = some v

variable {hashIdx V κ} {sections : Set (VectorSection ι)} {S₁ S₂ : VectorSection ι} {x c : ι}
variable {as : List (ReductionEvent ι V κ)} {s : Reductions ι V κ}

theorem mem_of_mem_opened (hsep : Separated hashIdx sections)
    (h : Run (Step hashIdx sections) ({} : Reductions ι V κ) as s) {S : VectorSection ι}
    {port : ReductionPort ι} (hp : port ∈ s.opened hashIdx S x) : x ∈ S.members := by
  obtain ⟨k, hk, -⟩ := hp
  obtain ⟨A, hc, -⟩ := exists_corresponds hsep h
  by_contra hx
  rw [hc.count, contributed_eq_nil h hx] at hk
  simp at hk

theorem NonInterfering.of_separated (hne : S₁ ≠ S₂) (hsep : Separated hashIdx {S₁, S₂}) :
    NonInterfering V κ hashIdx S₁ S₂ where
  aborts _ _ h := not_aborts hsep h
  ports as s h x port h₁ h₂ := by
    apply hne
    have hx₁ := mem_of_mem_opened hsep h h₁
    have hx₂ := mem_of_mem_opened hsep h h₂
    obtain ⟨k₁, -, c₁, hc₁, rfl⟩ := h₁
    obtain ⟨k₂, -, c₂, hc₂, he⟩ := h₂
    obtain ⟨hhash, -, rfl⟩ := ReductionPort.mk.inj he
    exact hsep.ports S₁ (by simp) S₂ (by simp) hhash x hx₁ c₁ hc₁ hx₂ hc₂
  results _ _ h _ hS _ _ hc _ hv := mem_called hsep hS h hc hv

/-- Two duplicate-free sections are separated unless they have the same hash and a member
has the same child in both. -/
theorem separated_pair (hnd₁ : S₁.members.Nodup) (hnd₂ : S₂.members.Nodup)
    (h : S₁.hash hashIdx ≠ S₂.hash hashIdx ∨
      ∀ x ∈ S₁.members, x ∈ S₂.members → ∀ c ∈ S₁.upstream x, c ∉ S₂.upstream x) :
    Separated hashIdx {S₁, S₂} := by
  have hnd : ∀ S ∈ ({S₁, S₂} : Set (VectorSection ι)), S.members.Nodup := by
    rintro S (rfl | rfl) <;> assumption
  have hports : ∀ S ∈ ({S₁, S₂} : Set (VectorSection ι)),
      ∀ S' ∈ ({S₁, S₂} : Set (VectorSection ι)), S.hash hashIdx = S'.hash hashIdx →
      ∀ x ∈ S.members, ∀ c ∈ S.upstream x, x ∈ S'.members → c ∈ S'.upstream x → S = S' := by
    rintro S (rfl | rfl) S' (rfl | rfl) hhash x hx c hc hx' hc'
    · rfl
    · exact ((h.resolve_left (not_not.mpr hhash)) x hx hx' c hc hc').elim
    · exact ((h.resolve_left (not_not.mpr hhash.symm)) x hx' hx c hc' hc).elim
    · rfl
  refine ⟨fun S hS x hx => VectorSection.upstream_nodup (hnd S hS) hx, hports, ?_⟩
  intro S hS S' hS' hhash x hx c hc hcm hxc
  have hx' := ((VectorSection.mem_downstream_iff (hnd S' hS') hcm).mp hxc).1
  exact hports S hS S' hS' hhash x hx c hc hx'
    ((VectorSection.mem_upstream_iff (hnd S' hS') hx').mpr ⟨hcm, hxc⟩)

theorem outcome_contribute_initial (hashIdx : ι → HashCode) {S : VectorSection ι}
    (hnd : S.members.Nodup) (hx : x ∈ S.members) (hc : c ∈ S.upstream x) (v : V) (cb : κ) :
    ∃ l, ({} : Reductions ι V κ).outcome hashIdx (.contribute S x v cb) = some (l, []) ∧
      l.entryPorts (portFor hashIdx S 0 c) ≠ none ∧
      ∀ S', S' ≠ S → (l.identities S').rednCount = 0 := by
  obtain ⟨output, ho⟩ : ∃ output,
      Locality.outputFor (S.downstream x) ⟨S.hash hashIdx, 0, x⟩ cb = some output := by
    have hlen := S.downstream_length_le (x := x)
    match hd : S.downstream x with
    | [] => exact ⟨_, rfl⟩
    | [d] => exact ⟨_, rfl⟩
    | _ :: _ :: _ => simp [hd] at hlen
  have hpos := List.length_pos_of_mem hc
  have heq := Locality.localContribution_eq (l := ({} : Locality (VectorSection ι) ι V κ)) S v ho
    rfl (VectorSection.upstream_nodup hnd hx) (by simp) (by simp : [] = _) (by simp)
  simp only [Locality.passthru, Function.update_self, Option.map_some, if_true, Locality.action,
    List.nil_append, List.length_singleton, Nat.lt_add_left_iff_pos, hpos] at heq
  exact ⟨_, heq, by simp [portFor, hc], fun S' hS' => by simp [hS']⟩

/-- Sections that share the port of a child at a member interfere: a member that
contributes to one of them cannot contribute to the other. -/
theorem NonInterfering.unshared [Inhabited V] [Inhabited κ] (hne : S₁ ≠ S₂)
    (hnd : S₁.members.Nodup) (h : NonInterfering V κ hashIdx S₁ S₂) :
    S₁.hash hashIdx ≠ S₂.hash hashIdx ∨
      ∀ x ∈ S₁.members, x ∈ S₂.members → ∀ c ∈ S₁.upstream x, c ∉ S₂.upstream x := by
  by_contra hcon
  push Not at hcon
  obtain ⟨hhash, x, hx₁, hx₂, c, hc₁, hc₂⟩ := hcon
  obtain ⟨l, hl, hopen, hcount⟩ :=
    outcome_contribute_initial hashIdx hnd hx₁ hc₁ (default : V) (default : κ)
  have hrun : Run (Step hashIdx {S₁, S₂}) ({} : Reductions ι V κ)
      ([] ++ [.contribute S₁ x default default]) _ :=
    Run.nil.snoc (.mk 0 _ ⟨⟨by simp, hx₁⟩, rfl⟩ hl)
  refine h.aborts _ _ hrun (.contribute S₂ x default default) ⟨0, ⟨⟨by simp, hx₂⟩, rfl⟩, ?_⟩
  have hloc : (({} : Reductions ι V κ).commit x (l, [])).localities x = l := by simp [commit]
  refine Locality.localContribution_eq_none hc₂ ?_
  rw [← hhash]
  simpa [commit, ReductionEvent.mine, hcount S₂ hne.symm, portFor] using hopen

/-- Reductions over separated sections do not interfere. Those over two duplicate-free
sections interfere exactly when the sections have the same hash and a member has the same
child in both. -/
theorem nonInterfering_iff_unshared [Inhabited V] [Inhabited κ] (hashIdx : ι → HashCode)
    (hne : S₁ ≠ S₂) :
    (Separated hashIdx {S₁, S₂} → NonInterfering V κ hashIdx S₁ S₂) ∧
    (S₁.members.Nodup → S₂.members.Nodup → (NonInterfering V κ hashIdx S₁ S₂ ↔
      S₁.hash hashIdx ≠ S₂.hash hashIdx ∨
        ∀ x ∈ S₁.members, x ∈ S₂.members → ∀ c ∈ S₁.upstream x, c ∉ S₂.upstream x)) :=
  ⟨.of_separated hne, fun hnd₁ hnd₂ => ⟨fun h => h.unshared hne hnd₁, fun h =>
    .of_separated hne (separated_pair hnd₁ hnd₂ h)⟩⟩

def reversedPair : VectorSection ℕ := ⟨[7, 3], by decide⟩

theorem nonInterfering_reversed :
    NonInterfering ℕ Unit (BitVec.ofNat 64) pair reversedPair :=
  ((nonInterfering_iff_unshared (BitVec.ofNat 64) (by decide)).2 (by decide) (by decide)).mpr
    (.inr (by decide))

/-- A root with two children. -/
def fork : VectorSection ℕ := ⟨[0, 1, 2], by decide⟩

def swappedFork : VectorSection ℕ := ⟨[0, 2, 1], by decide⟩

/-- The root has contributed to one section, and aborts when it contributes to the other. -/
theorem aborts_of_swapped :
    fork ≠ swappedFork ∧ ∃ s : Reductions ℕ ℕ Unit,
      Run (Step (BitVec.ofNat 64) {fork, swappedFork}) {} [.contribute fork 0 1 ()] s ∧
      s.Aborts (BitVec.ofNat 64) {fork, swappedFork} (.contribute swappedFork 0 2 ()) := by
  have h0 : Run (Step (BitVec.ofNat 64) {fork, swappedFork}) ({} : Reductions ℕ ℕ Unit) [] {} :=
    .nil
  have h1 := run_snoc h0 (.contribute fork 0 1 ()) 0 ⟨⟨.inl rfl, by decide⟩, by decide⟩
    (by decide)
  exact ⟨by decide, _, h1, 0, ⟨⟨.inr rfl, by decide⟩, by decide⟩, by decide⟩

end Reductions

end Hypercomm
