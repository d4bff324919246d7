import ComputeKernel.Proofs.Shader.Names
import Mathlib.Data.Nat.Init

/-!
What a pool gives out, one request after the other. A free candidate is searched for without a bound,
from the name itself through its suffixes: the search always ends, since of the candidates only finitely
many are taken. The first one that is free is given out.
-/

namespace ComputeKernel.Shader.NamePool

variable {pool : NamePool} {word base : String}

theorem isTaken_iff {name : String} : pool.isTaken name ↔ name ∈ pool.taken := by simp [isTaken]

/-! ### The search -/

/-- The search through the candidates of a stem, from one on: where it stands at a free candidate it ends
there, and from a taken one it goes on to the next. -/
inductive Searches (pool : NamePool) (word : String) : Nat → Nat → Prop where
  | found {n} : candidate word n ∉ pool.taken → Searches pool word n n
  | next {n last} : candidate word n ∈ pool.taken → Searches pool word (n + 1) last →
      Searches pool word n last

/-- The candidate that is given out is the first one that is free. -/
theorem exists_first_free (pool : NamePool) (word : String) :
    ∃ n, pool.free word = candidate word n ∧ candidate word n ∉ pool.taken ∧
      ∀ m < n, candidate word m ∈ pool.taken := by
  have hnot := pool.free_not_mem_taken word
  unfold free at hnot ⊢
  rw [List.find?_map] at hnot ⊢
  cases hfound : (List.range (pool.taken.length + 1)).find?
      ((fun name => ! pool.isTaken name) ∘ candidate word) with
  | none =>
    -- Then the very first candidate would be taken, and yet be the one that is free.
    rw [hfound] at hnot
    have hzero := List.find?_eq_none.mp hfound 0 (by simp)
    rw [Function.comp_apply, Bool.not_eq_true, Bool.not_eq_false', isTaken_iff] at hzero
    exact absurd hzero hnot
  | some n =>
    obtain ⟨hfree, _, hbefore⟩ := List.find?_range_eq_some.mp hfound
    refine ⟨n, rfl, ?_, fun m hm => ?_⟩
    · simpa [isTaken] using hfree
    · simpa [isTaken] using hbefore m hm

/-- A search that comes to a free candidate ends there. -/
theorem searches_of_first {n m : Nat} (hfree : candidate word n ∉ pool.taken)
    (hbefore : ∀ k < n, candidate word k ∈ pool.taken) (hm : m ≤ n) : Searches pool word m n := by
  induction hm using Nat.decreasingInduction with
  | self => exact .found hfree
  | of_succ k hk ih => exact .next (hbefore k hk) ih

/-! ### What is given out -/

/-- What is given out for a base while some names are taken: its stem if that is free, and else the stem
with the least number behind it for which the result is free. -/
inductive GivenFor (taken : List String) (base : String) : String → Prop where
  | plain : stem base ∉ taken → GivenFor taken base (stem base)
  | numbered (n : Nat) : stem base ∈ taken → 1 ≤ n → s!"{stem base}_{n}" ∉ taken →
      (∀ m, 1 ≤ m → m < n → s!"{stem base}_{m}" ∈ taken) →
      GivenFor taken base s!"{stem base}_{n}"

theorem candidate_of_pos {n : Nat} (h : 1 ≤ n) : candidate word n = s!"{word}_{n}" :=
  if_neg (Nat.one_le_iff_ne_zero.mp h)

theorem givenFor_of_first {taken : List String} {n : Nat} (hfree : candidate (stem base) n ∉ taken)
    (hbefore : ∀ m < n, candidate (stem base) m ∈ taken) :
    GivenFor taken base (candidate (stem base) n) := by
  cases n with
  | zero => exact .plain hfree
  | succ n =>
    rw [candidate_of_pos n.succ_pos] at hfree ⊢
    refine .numbered (n + 1) (hbefore 0 n.succ_pos) n.succ_pos hfree fun m hm hlt => ?_
    rw [← candidate_of_pos hm]
    exact hbefore m hlt

/-! ### Requests in order -/

theorem allocateAll_append (pool : NamePool) (bases bases' : List String) :
    pool.allocateAll (bases ++ bases') =
      ((pool.allocateAll bases).1 ++ ((pool.allocateAll bases).2.allocateAll bases').1,
        ((pool.allocateAll bases).2.allocateAll bases').2) := by
  induction bases generalizing pool with
  | nil => rfl
  | cons base bases ih =>
    have hrest := ih (pool.allocate base).2
    simp only [List.cons_append, allocateAll, hrest]

theorem mem_taken_allocateAll {bases : List String} {name : String} :
    name ∈ (allocateAll {} bases).2.taken ↔ name ∈ (allocateAll {} bases).1 := by
  rw [taken_allocateAll, List.append_nil, List.mem_reverse]

/-- Whatever was asked for before, the search for a name ends, and what it ends with is new, is not kept
by the shading language and is the first choice that is left for its base. A name counts as taken from
then on, and no others do than those that were given out. -/
theorem allocate_fresh (before : List String) (base : String) :
    let names := (allocateAll {} before).1
    let pool := (allocateAll {} before).2
    let (name, pool') := pool.allocate base
    (∃ n, pool.Searches (stem base) 0 n ∧ name = candidate (stem base) n) ∧
      name ∉ names ∧ ¬ isReserved name ∧ GivenFor names base name ∧
      allocateAll {} (before ++ [base]) = (names ++ [name], pool') ∧
      ∀ x, pool'.isTaken x ↔ x ∈ names ++ [name] := by
  intro names pool
  have hsound : pool.Sound := sound_empty.allocateAll before
  have htaken : ∀ x, x ∈ pool.taken ↔ x ∈ names := fun _ => mem_taken_allocateAll
  obtain ⟨n, hname, hfree, hbefore⟩ := pool.exists_first_free (stem base)
  refine ⟨⟨n, searches_of_first hfree hbefore n.zero_le, hname⟩, ?_, ?_, ?_, ?_, fun x => ?_⟩
  · rw [← htaken]
    exact pool.allocate_not_mem_taken base
  · exact (hsound.allocate base).unreserved _ List.mem_cons_self
  · have hgiven : GivenFor names base (candidate (stem base) n) :=
      givenFor_of_first (mt (htaken _).mpr hfree) fun m hm => (htaken _).mp (hbefore m hm)
    rw [← hname] at hgiven
    exact hgiven
  · rw [allocateAll_append]
    rfl
  · rw [isTaken_iff, List.mem_append, List.mem_singleton, ← htaken, or_comm]
    exact List.mem_cons

end ComputeKernel.Shader.NamePool
