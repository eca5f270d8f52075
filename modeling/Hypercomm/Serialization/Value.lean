import Mathlib.Data.List.Basic
import Mathlib.Data.List.Nodup

/-! # Values, pointers and what a serdes moves

A value holds trivially copyable data, containers and pointers. The objects that its
shared pointers point to lie in a heap, and a shared pointer is identified by its owner.
-/

namespace Hypercomm.Serialization

/-- What a serdes moves at a time: a byte, a `size_t`, or what a `PUP::er` wrote for a
built-in type. -/
inductive Cell
  | byte (b : UInt8)
  | word (n : ℕ)
  | puped (b : List UInt8)
  deriving DecidableEq, Repr

def Cell.size : Cell → ℕ
  | .byte _ => 1
  | .word _ => 8
  | .puped b => b.length

def size : List Cell → ℕ
  | [] => 0
  | c :: cs => c.size + size cs

@[simp] theorem size_nil : size [] = 0 := rfl

@[simp] theorem size_cons (c : Cell) (cs : List Cell) : size (c :: cs) = c.size + size cs := rfl

@[simp] theorem size_append (cs ds : List Cell) : size (cs ++ ds) = size cs + size ds := by
  induction cs with
  | nil => simp
  | cons c cs ih => simp [ih, Nat.add_assoc]

/-- The types that a serdes knows. Tuples and arrays are nested pairs. -/
inductive Ty
  /-- a trivially copyable type of this size -/
  | bytes (n : ℕ)
  /-- a type with a `PUP` routine, such as a string, an index or a proxy -/
  | builtin
  | unit
  | pair (s t : Ty)
  /-- vectors, lists and deques -/
  | list (t : Ty)
  | map (k v : Ty)
  /-- unique pointers to data, and to polymorphs -/
  | unique (t : Ty)
  | uniquePoly
  /-- shared pointers to data, and to polymorphs -/
  | shared (t : Ty)
  | sharedPoly
  deriving DecidableEq, Repr

/-- A value with pointers of some kind. The elements of a container are a list made of
`nil` and `cons`, and the entries of a map are pairs. -/
inductive Val (P : Type*)
  | bytes (b : List UInt8)
  | builtin (b : List UInt8)
  | unit
  | pair (a b : Val P)
  | nil
  | cons (a l : Val P)
  | list (l : Val P)
  | map (l : Val P)
  | uniqueNull
  | unique (v : Val P)
  | polyNull
  /-- a polymorph of an enrolled class, with the fields that its `__pup__` visits -/
  | poly (c : ℕ) (v : Val P)
  | shared (t : Ty) (p : Option P)
  | sharedPoly (p : Option P)
  deriving DecidableEq

namespace Val

variable {P Q R : Type*} {f g : P → Q} {v w : Val P}

def length : Val P → ℕ
  | .cons _ l => l.length + 1
  | _ => 0

def key : Val P → Option (Val P)
  | .pair k _ => some k
  | _ => none

def keys : Val P → List (Option (Val P))
  | .cons a l => a.key :: l.keys
  | _ => []

/-- The pointers that are not null, with the type of data that they point to, if any. -/
def slots : Val P → List (Option Ty × P)
  | .pair a b | .cons a b => a.slots ++ b.slots
  | .list l | .map l => l.slots
  | .unique v | .poly _ v => v.slots
  | .shared t (some p) => [(some t, p)]
  | .sharedPoly (some p) => [(none, p)]
  | _ => []

def ptrs (v : Val P) : List P := v.slots.map Prod.snd

@[simp] theorem ptrs_pair (a b : Val P) : (pair a b).ptrs = a.ptrs ++ b.ptrs := by
  simp [ptrs, slots]

@[simp] theorem ptrs_cons (a b : Val P) : (cons a b).ptrs = a.ptrs ++ b.ptrs := by
  simp [ptrs, slots]

@[simp] theorem ptrs_list (l : Val P) : (list l).ptrs = l.ptrs := rfl

@[simp] theorem ptrs_map (l : Val P) : (map l).ptrs = l.ptrs := rfl

@[simp] theorem ptrs_unique (v : Val P) : (unique v).ptrs = v.ptrs := rfl

@[simp] theorem ptrs_poly (c : ℕ) (v : Val P) : (poly c v).ptrs = v.ptrs := rfl

@[simp] theorem ptrs_shared (t : Ty) (p : Option P) : (shared t p).ptrs = p.toList := by
  cases p <;> rfl

@[simp] theorem ptrs_sharedPoly (p : Option P) : (sharedPoly p).ptrs = p.toList := by
  cases p <;> rfl

/-- The value with every pointer replaced. -/
def rename (f : P → Q) : Val P → Val Q
  | .bytes b => .bytes b
  | .builtin b => .builtin b
  | .unit => .unit
  | .pair a b => .pair (a.rename f) (b.rename f)
  | .nil => .nil
  | .cons a l => .cons (a.rename f) (l.rename f)
  | .list l => .list (l.rename f)
  | .map l => .map (l.rename f)
  | .uniqueNull => .uniqueNull
  | .unique v => .unique (v.rename f)
  | .polyNull => .polyNull
  | .poly c v => .poly c (v.rename f)
  | .shared t p => .shared t (p.map f)
  | .sharedPoly p => .sharedPoly (p.map f)

section

-- the equations of these functions are made once, before the proofs that rewrite with them
attribute [local simp] rename slots length key

end

theorem rename_congr (h : ∀ p ∈ v.ptrs, f p = g p) : v.rename f = v.rename g := by
  induction v with
  | pair a b iha ihb | cons a b iha ihb =>
    simp only [ptrs_pair, ptrs_cons, List.mem_append] at h
    rw [rename, rename, iha fun p hp => h p (.inl hp), ihb fun p hp => h p (.inr hp)]
  | list l ih | map l ih | unique v ih | poly c v ih => rw [rename, rename, ih h]
  | shared t p | sharedPoly p =>
    cases p with
    | none => rfl
    | some p => simp [rename, h p (by simp)]
  | _ => rfl

theorem rename_rename (f : P → Q) (g : Q → R) (v : Val P) :
    (v.rename f).rename g = v.rename (g ∘ f) := by
  induction v with
  | pair a b iha ihb | cons a b iha ihb => simp only [rename, iha, ihb]
  | list l ih | map l ih | unique v ih | poly c v ih => simp only [rename, ih]
  | shared t p | sharedPoly p => simp [rename]
  | _ => rfl

theorem slots_rename (f : P → Q) (v : Val P) :
    (v.rename f).slots = v.slots.map (Prod.map id f) := by
  induction v with
  | pair a b iha ihb | cons a b iha ihb => simp only [rename, slots, iha, ihb, List.map_append]
  | list l ih | map l ih | unique v ih | poly c v ih => simpa only [rename, slots] using ih
  | shared t p | sharedPoly p => cases p <;> rfl
  | _ => rfl

theorem ptrs_rename (f : P → Q) (v : Val P) : (v.rename f).ptrs = v.ptrs.map f := by
  simp [ptrs, slots_rename]

@[simp] theorem length_rename (f : P → Q) (v : Val P) : (v.rename f).length = v.length := by
  induction v with
  | cons a l _ ih => simp only [rename, length, ih]
  | _ => rfl

theorem key_rename (f : P → Q) (v : Val P) : (v.rename f).key = v.key.map (·.rename f) := by
  cases v <;> rfl

theorem eq_of_rename_eq (hf : ∀ p ∈ v.ptrs, ∀ q ∈ w.ptrs, f p = f q → p = q)
    (h : v.rename f = w.rename f) : v = w := by
  induction v generalizing w with
  | pair a b iha ihb | cons a b iha ihb =>
    cases w <;> simp only [rename, Val.pair.injEq, Val.cons.injEq, reduceCtorEq] at h
    simp only [ptrs_pair, ptrs_cons, List.mem_append] at hf
    rw [iha (fun p hp q hq => hf p (.inl hp) q (.inl hq)) h.1,
      ihb (fun p hp q hq => hf p (.inr hp) q (.inr hq)) h.2]
  | list l ih | map l ih | unique v ih =>
    cases w <;> simp only [rename, Val.list.injEq, Val.map.injEq, Val.unique.injEq,
      reduceCtorEq] at h
    refine congrArg _ (ih ?_ h)
    exact hf
  | poly c v ih =>
    cases w <;> simp only [rename, Val.poly.injEq, reduceCtorEq] at h
    rw [h.1]
    refine congrArg _ (ih ?_ h.2)
    exact hf
  | shared t p =>
    cases w <;> simp only [rename, Val.shared.injEq, reduceCtorEq] at h
    case shared s q =>
      cases p <;> cases q <;> simp only [Option.map_none, Option.map_some, reduceCtorEq,
        Option.some.injEq, and_false] at h
      · rw [h.1]
      · rw [h.1, hf _ (by simp) _ (by simp) h.2]
  | sharedPoly p =>
    cases w <;> simp only [rename, Val.sharedPoly.injEq, reduceCtorEq] at h
    case sharedPoly q =>
      cases p <;> cases q <;> simp only [Option.map_none, Option.map_some, reduceCtorEq,
        Option.some.injEq] at h
      · rfl
      · rw [hf _ (by simp) _ (by simp) h]
  | _ => cases w <;> simp_all [rename]

end Val

/-- A shared pointer that is not null. Its owner may be empty. -/
structure Ptr (ω α : Type*) where
  owner : Option ω
  addr : α
  deriving DecidableEq

/-- What a shared pointer points to: data of a type, or a polymorph of a class. -/
inductive Obj (P : Type*)
  | data (t : Ty) (v : Val P)
  | poly (c : ℕ) (v : Val P)
  deriving DecidableEq

namespace Obj

variable {P Q R : Type*}

def value : Obj P → Val P
  | .data _ v | .poly _ v => v

def rename (f : P → Q) : Obj P → Obj Q
  | .data t v => .data t (v.rename f)
  | .poly c v => .poly c (v.rename f)

@[simp] theorem value_rename (f : P → Q) (o : Obj P) : (o.rename f).value = o.value.rename f := by
  cases o <;> rfl

theorem rename_rename (f : P → Q) (g : Q → R) (o : Obj P) :
    (o.rename f).rename g = o.rename (g ∘ f) := by
  cases o <;> simp only [rename, Val.rename_rename]

theorem rename_congr {f g : P → Q} {o : Obj P} (h : ∀ p ∈ o.value.ptrs, f p = g p) :
    o.rename f = o.rename g := by
  cases o with
  | data t v => exact congrArg (Obj.data t) (Val.rename_congr h)
  | poly c v => exact congrArg (Obj.poly c) (Val.rename_congr h)

end Obj

abbrev Heap (ω α : Type*) := List (α × Obj (Ptr ω α))

variable {ω α : Type*} [DecidableEq α]

/-- One object holds a pointer to another. -/
def Edge (h : Heap ω α) (p q : Ptr ω α) : Prop :=
  ∃ o, h.lookup p.addr = some o ∧ q ∈ o.value.ptrs

/-- The pointers that a value holds, and those that the objects behind them hold. -/
inductive Reach (h : Heap ω α) (v : Val (Ptr ω α)) : Ptr ω α → Prop
  | root {p : Ptr ω α} : p ∈ v.ptrs → Reach h v p
  | step {p q : Ptr ω α} : Reach h v p → Edge h p q → Reach h v q

theorem Reach.mono {h : Heap ω α} {v w : Val (Ptr ω α)} (hvw : ∀ p ∈ v.ptrs, Reach h w p)
    {p : Ptr ω α} (hp : Reach h v p) : Reach h w p := by
  induction hp with
  | root hp => exact hvw _ hp
  | step _ he ih => exact ih.step he

theorem Reach.object {h : Heap ω α} {v : Val (Ptr ω α)} {p q : Ptr ω α} {o : Obj (Ptr ω α)}
    (hp : Reach h v p) (ho : h.lookup p.addr = some o) (hq : Reach h o.value q) :
    Reach h v q := by
  induction hq with
  | root hq => exact hp.step ⟨o, ho, hq⟩
  | step _ he ih => exact ih.step he

section Types

variable (fields : ℕ → Ty) (h : Heap ω α)

mutual

/-- The values of a type, whose pointers point to objects of the types that they say. The
keys of a map are distinct, and no unique pointer to a polymorph is null. -/
inductive HasTy : Val (Ptr ω α) → Ty → Prop
  | bytes {b n} : b.length = n → HasTy (.bytes b) (.bytes n)
  | builtin (b) : HasTy (.builtin b) .builtin
  | unit : HasTy .unit .unit
  | pair {a b s t} : HasTy a s → HasTy b t → HasTy (.pair a b) (.pair s t)
  | list {l t} : Elems l t → HasTy (.list l) (.list t)
  | map {l k v} : Elems l (.pair k v) → l.keys.Nodup → HasTy (.map l) (.map k v)
  | uniqueNull (t) : HasTy .uniqueNull (.unique t)
  | unique {v t} : HasTy v t → HasTy (.unique v) (.unique t)
  | poly {c v} : HasTy v (fields c) → HasTy (.poly c v) .uniquePoly
  | sharedNull (t) : HasTy (.shared t none) (.shared t)
  | shared {t p v} : h.lookup p.addr = some (.data t v) → HasTy (.shared t (some p)) (.shared t)
  | sharedPolyNull : HasTy (.sharedPoly none) .sharedPoly
  | sharedPoly {p c v} : h.lookup p.addr = some (.poly c v) →
      HasTy (.sharedPoly (some p)) .sharedPoly

inductive Elems : Val (Ptr ω α) → Ty → Prop
  | nil (t) : Elems .nil t
  | cons {a l t} : HasTy a t → Elems l t → Elems (.cons a l) t

end

def Obj.HasTy : Obj (Ptr ω α) → Prop
  | .data t v => Serialization.HasTy fields h v t
  | .poly c v => Serialization.HasTy fields h v (fields c)

/-- What a pointer says about the object behind it. -/
def Pointee : Option Ty → Ptr ω α → Prop
  | some t, p => ∃ v, h.lookup p.addr = some (.data t v)
  | none, p => ∃ c v, h.lookup p.addr = some (.poly c v)

def Typed (v : Val (Ptr ω α)) : Prop := ∃ t, HasTy fields h v t ∨ Elems fields h v t

variable {fields h}

theorem Obj.HasTy.typed {o : Obj (Ptr ω α)} (ho : o.HasTy fields h) : Typed fields h o.value := by
  cases o with
  | data t v => exact ⟨t, .inl ho⟩
  | poly c v => exact ⟨fields c, .inl ho⟩

section Inversion

variable {a b v l : Val (Ptr ω α)} {t : Ty} {c : ℕ} {p : Ptr ω α}

theorem Typed.pair (hv : Typed fields h (.pair a b)) : Typed fields h a ∧ Typed fields h b := by
  obtain ⟨t, ht | ht⟩ := hv <;> cases ht
  case pair ha hb => exact ⟨⟨_, .inl ha⟩, _, .inl hb⟩

theorem Typed.cons (hv : Typed fields h (.cons a l)) : Typed fields h a ∧ Typed fields h l := by
  obtain ⟨t, ht | ht⟩ := hv <;> cases ht
  case cons ha hl => exact ⟨⟨_, .inl ha⟩, _, .inr hl⟩

theorem Typed.list (hv : Typed fields h (.list l)) : Typed fields h l := by
  obtain ⟨t, ht | ht⟩ := hv <;> cases ht
  case list hl => exact ⟨_, .inr hl⟩

theorem Typed.map (hv : Typed fields h (.map l)) : Typed fields h l := by
  obtain ⟨t, ht | ht⟩ := hv <;> cases ht
  case map hl hk => exact ⟨_, .inr hl⟩

theorem Typed.unique (hv : Typed fields h (.unique v)) : Typed fields h v := by
  obtain ⟨t, ht | ht⟩ := hv <;> cases ht
  case unique hv => exact ⟨_, .inl hv⟩

theorem Typed.poly (hv : Typed fields h (.poly c v)) : Typed fields h v := by
  obtain ⟨t, ht | ht⟩ := hv <;> cases ht
  case poly hv => exact ⟨_, .inl hv⟩

theorem not_typed_polyNull : ¬ Typed fields h .polyNull := by
  rintro ⟨t, ht | ht⟩ <;> cases ht

theorem Typed.shared (hv : Typed fields h (.shared t (some p))) : Pointee h (some t) p := by
  obtain ⟨t, ht | ht⟩ := hv <;> cases ht
  case shared ho => exact ⟨_, ho⟩

theorem Typed.sharedPoly (hv : Typed fields h (.sharedPoly (some p))) : Pointee h none p := by
  obtain ⟨t, ht | ht⟩ := hv <;> cases ht
  case sharedPoly ho => exact ⟨_, _, ho⟩

end Inversion

theorem Typed.pointee {v : Val (Ptr ω α)} (hv : Typed fields h v) :
    ∀ s ∈ v.slots, Pointee h s.1 s.2 := by
  induction v with
  | pair a b iha ihb =>
    simp only [Val.slots, List.mem_append]
    rintro s (hs | hs)
    · exact iha hv.pair.1 s hs
    · exact ihb hv.pair.2 s hs
  | cons a l iha ihl =>
    simp only [Val.slots, List.mem_append]
    rintro s (hs | hs)
    · exact iha hv.cons.1 s hs
    · exact ihl hv.cons.2 s hs
  | list l ih => exact ih hv.list
  | map l ih => exact ih hv.map
  | unique v ih => exact ih hv.unique
  | poly c v ih => exact ih hv.poly
  | shared t p =>
    cases p with
    | none => simp [Val.slots]
    | some p => simpa [Val.slots] using hv.shared
  | sharedPoly p =>
    cases p with
    | none => simp [Val.slots]
    | some p => simpa [Val.slots] using hv.sharedPoly
  | _ => simp [Val.slots]

end Types

/-- A copy of a value with the objects behind it: its pointers are renamed, two of them are
equal iff they were, and each object is the renamed original. -/
structure CopyOf {ω' α' : Type*} [DecidableEq α'] (h : Heap ω α) (v : Val (Ptr ω α))
    (h' : Heap ω' α') (v' : Val (Ptr ω' α')) (f : Ptr ω α → Ptr ω' α') : Prop where
  value : v' = v.rename f
  addr_eq_iff : ∀ p q, Reach h v p → Reach h v q → ((f p).addr = (f q).addr ↔ p.addr = q.addr)
  object : ∀ p, Reach h v p → h'.lookup (f p).addr = (h.lookup p.addr).map (·.rename f)

end Hypercomm.Serialization
