/-!
Memory of computations by key. A key is computed when it is first asked for, and what comes out is
kept and never changes; failures that are values are kept like any other. A computation that breaks
off leaves no value, so that the key is computed again when it is next asked for. While a computation
runs it may ask the memory for other keys; if one of them has no value and its computation breaks off,
so does the one that asked.
-/

namespace ComputeKernel

structure Memo (κ ν : Type) where
  /-- The key of every computation that was started, the latest first. -/
  started : List κ := []
  /-- What computations gave, the latest first. -/
  stored : List (κ × ν) := []
  deriving Repr, Inhabited

namespace Memo

variable {κ ν : Type} [DecidableEq κ]

/-- The value of a key, if a computation has given one. -/
def value? (m : Memo κ ν) (key : κ) : Option ν :=
  (m.stored.find? fun entry => entry.1 = key).map Prod.snd

def contains (m : Memo κ ν) (key : κ) : Bool := (m.value? key).isSome

/-- How many computations of a key were started. -/
def computations (m : Memo κ ν) (key : κ) : Nat := (m.started.filter (· = key)).length

/-- How many keys have a value. -/
def size (m : Memo κ ν) : Nat := m.stored.length

def isEmpty (m : Memo κ ν) : Bool := m.size = 0

/-- Counts a computation of a key. -/
def start (m : Memo κ ν) (key : κ) : Memo κ ν := { m with started := key :: m.started }

/-- Keeps a value, unless the key has one. -/
def store (m : Memo κ ν) (key : κ) (value : ν) : Memo κ ν :=
  if m.contains key then m else { m with stored := (key, value) :: m.stored }

@[simp] theorem value?_start (m : Memo κ ν) (key other : κ) :
    (m.start key).value? other = m.value? other := rfl

theorem store_eq_self {m : Memo κ ν} {key : κ} (h : m.contains key) (value : ν) :
    m.store key value = m := if_pos h

theorem value?_store_self (m : Memo κ ν) (key : κ) (value : ν) :
    (m.store key value).value? key = some ((m.value? key).getD value) := by
  by_cases h : m.contains key
  · obtain ⟨v, hv⟩ := Option.isSome_iff_exists.mp h
    rw [store_eq_self h, hv, Option.getD_some]
  · have hn : m.value? key = none := by simpa [contains] using h
    rw [store, if_neg h, hn]
    simp [value?]

theorem value?_store_of_ne {key other : κ} (h : other ≠ key) (m : Memo κ ν) (value : ν) :
    (m.store key value).value? other = m.value? other := by
  unfold store
  split
  · rfl
  · simp [value?, Ne.symm h]

theorem computations_start (m : Memo κ ν) (key other : κ) :
    (m.start key).computations other = m.computations other + if key = other then 1 else 0 := by
  by_cases e : key = other <;> simp [computations, start, e]

@[simp] theorem computations_store (m : Memo κ ν) (key other : κ) (value : ν) :
    (m.store key value).computations other = m.computations other := by
  unfold store
  split <;> rfl

theorem size_store (m : Memo κ ν) (key : κ) (value : ν) :
    (m.store key value).size = if m.contains key then m.size else m.size + 1 := by
  unfold store
  split <;> simp [size]

/-! ### Asking -/

/-- What asking for a key gives. -/
structure Answer (ν : Type) where
  /-- The value, unless the computation broke off. -/
  value? : Option ν
  /-- Whether the key was computed to answer. -/
  ran : Bool
  deriving DecidableEq, Repr, Inhabited

/-- Asks for a key. If it has no value, `compute` runs, which may give a value and may change the
memory. -/
def ask (m : Memo κ ν) (key : κ) (compute : Memo κ ν → Option ν × Memo κ ν) :
    Answer ν × Memo κ ν :=
  match m.value? key with
  | some value => (⟨some value, false⟩, m)
  | none =>
    match compute (m.start key) with
    | (some value, m) => (⟨some value, true⟩, m.store key value)
    | (none, m) => (⟨none, true⟩, m)

/-- A computation that gives a value or breaks off, perhaps after it has asked for other keys. -/
inductive Computation (κ ν : Type) where
  | give (value : ν)
  | breakOff
  /-- Asks for a key, to be computed by `inner`, and goes on with its value. -/
  | ask (key : κ) (inner : Computation κ ν) (next : ν → Computation κ ν)

instance : Inhabited (Computation κ ν) := ⟨.breakOff⟩

def Computation.run : Computation κ ν → Memo κ ν → Option ν × Memo κ ν
  | give value, m => (some value, m)
  | breakOff, m => (none, m)
  | ask key inner next, m =>
    match m.ask key inner.run with
    | (⟨some value, _⟩, m) => (next value).run m
    | (⟨none, _⟩, m) => (none, m)

end Memo

end ComputeKernel
