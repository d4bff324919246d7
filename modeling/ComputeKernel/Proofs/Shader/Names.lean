import ComputeKernel.Proofs.Reading.Names
import Mathlib.Data.List.Nodup
import Mathlib.Data.List.Perm.Subperm

/-!
Identifiers that a pool gives out. Each is new, and none is kept by the shading language: an
underscore in front of a reserved word takes it out of the language, and no suffix leads back into it.
-/

namespace ComputeKernel.Shader

namespace NamePool

/-! ### Candidates -/

theorem candidate_zero (stem : String) : candidate stem 0 = stem := rfl

theorem toList_candidate_succ (stem : String) (n : Nat) :
    (candidate stem (n + 1)).toList = stem.toList ++ '_' :: Nat.toDigits 10 (n + 1) := by
  simp [candidate, toString]

theorem candidate_injective (stem : String) : Function.Injective (candidate stem) := by
  intro m n h
  have htext := congrArg String.toList h
  rcases m with _ | m <;> rcases n with _ | n
  · rfl
  · rw [candidate_zero, toList_candidate_succ] at htext
    simpa using congrArg List.length htext
  · rw [candidate_zero, toList_candidate_succ] at htext
    simpa using congrArg List.length htext
  · rw [toList_candidate_succ, toList_candidate_succ] at htext
    have hdigits := (List.cons.inj (List.append_cancel_left htext)).2
    have hvalues := congrArg (Nat.ofDigitChars 10 · 0) hdigits
    simpa using hvalues

/-- Of one more candidate than there are names one is free. -/
theorem free_not_mem_taken (pool : NamePool) (stem : String) : pool.free stem ∉ pool.taken := by
  unfold free
  cases hfound : ((List.range (pool.taken.length + 1)).map (candidate stem)).find?
      fun name => ! pool.isTaken name with
  | some name =>
    have hname := List.find?_some hfound
    simpa [isTaken] using hname
  | none =>
    -- Otherwise more different candidates than there are names would all be taken.
    have htaken : (List.range (pool.taken.length + 1)).map (candidate stem) ⊆ pool.taken := by
      intro name hname
      have hnot := List.find?_eq_none.mp hfound name hname
      simpa [isTaken] using hnot
    have hnodup : ((List.range (pool.taken.length + 1)).map (candidate stem)).Nodup :=
      List.Nodup.map (candidate_injective stem) List.nodup_range
    have hlength := (hnodup.subperm htaken).length_le
    rw [List.length_map, List.length_range] at hlength
    omega

theorem allocate_not_mem_taken (pool : NamePool) (base : String) :
    (pool.allocate base).1 ∉ pool.taken :=
  pool.free_not_mem_taken _

theorem taken_allocate (pool : NamePool) (base : String) :
    (pool.allocate base).2.taken = (pool.allocate base).1 :: pool.taken := rfl

theorem exists_candidate (pool : NamePool) (base : String) :
    ∃ n, (pool.allocate base).1 = candidate (stem base) n := by
  simp only [allocate, free]
  cases hfound : ((List.range (pool.taken.length + 1)).map (candidate (stem base))).find?
      fun name => ! pool.isTaken name with
  | none => exact ⟨0, rfl⟩
  | some name =>
    obtain ⟨n, _, hn⟩ := List.mem_map.mp (List.mem_of_find?_eq_some hfound)
    exact ⟨n, hn.symm⟩

/-! ### Reserved names -/

/-- No word of the shading language begins with an underscore, and behind an underscore none ends in
a digit. -/
theorem shape_of_mem_reservedWords : ∀ word ∈ reservedWords,
    word.toList.head? ≠ some '_' ∧ ('_' ∈ word.toList → ¬ word.toList.getLast?.any Text.isDigit) := by
  decide +kernel

theorem underscore_not_mem_intrinsics : ∀ i ∈ intrinsics, '_' ∉ i.name.toList := by decide +kernel

theorem not_isReserved_of_underscore {name : String} (hword : name ∉ reservedWords)
    (hunderscore : '_' ∈ name.toList) : ¬ isReserved name := by
  intro h
  simp only [isReserved, Bool.or_eq_true, List.contains_eq_mem, decide_eq_true_eq,
    List.any_eq_true, beq_iff_eq] at h
  rcases h with (hreserved | htype) | ⟨i, hi, rfl⟩
  · exact hword hreserved
  · rw [Reading.isTypeName_eq_false_of_underscore hunderscore] at htype
    cases htype
  · exact underscore_not_mem_intrinsics i hi hunderscore

theorem not_isReserved_stem (base : String) : ¬ isReserved (stem base) := by
  unfold stem
  split
  · refine not_isReserved_of_underscore (fun hword => ?_) (by simp)
    exact (shape_of_mem_reservedWords _ hword).1 (by simp)
  · assumption

theorem not_isReserved_candidate (base : String) (n : Nat) :
    ¬ isReserved (candidate (stem base) n) := by
  cases n with
  | zero => exact not_isReserved_stem base
  | succ n =>
    have htext := toList_candidate_succ (stem base) n
    have hunderscore : '_' ∈ (candidate (stem base) (n + 1)).toList := by simp [htext]
    refine not_isReserved_of_underscore (fun hword => ?_) hunderscore
    refine (shape_of_mem_reservedWords _ hword).2 hunderscore ?_
    have hne : Nat.toDigits 10 (n + 1) ≠ [] := Nat.toDigits_ne_nil
    have hlast : (candidate (stem base) (n + 1)).toList.getLast? =
        some ((Nat.toDigits 10 (n + 1)).getLast hne) := by
      rw [htext, List.getLast?_append_of_ne_nil _ (by simp), List.getLast?_cons_of_ne_nil hne,
        List.getLast?_eq_some_getLast hne]
    rw [hlast]
    exact Reading.isDigit_of_mem_toDigits (List.getLast_mem hne)

/-- Whether the names of a pool differ from each other, and none is kept by the shading language. -/
structure Sound (pool : NamePool) : Prop where
  nodup : pool.taken.Nodup
  unreserved : ∀ name ∈ pool.taken, ¬ isReserved name

theorem sound_empty : Sound {} := ⟨List.nodup_nil, nofun⟩

theorem Sound.allocate {pool : NamePool} (h : pool.Sound) (base : String) :
    (pool.allocate base).2.Sound := by
  refine ⟨?_, ?_⟩
  · rw [taken_allocate]
    exact List.nodup_cons.mpr ⟨pool.allocate_not_mem_taken base, h.nodup⟩
  · rw [taken_allocate]
    refine List.forall_mem_cons.mpr ⟨?_, h.unreserved⟩
    obtain ⟨n, hn⟩ := pool.exists_candidate base
    rw [hn]
    exact not_isReserved_candidate base n

theorem Sound.allocateAll {pool : NamePool} (h : pool.Sound) (bases : List String) :
    (pool.allocateAll bases).2.Sound := by
  induction bases generalizing pool with
  | nil => exact h
  | cons base bases ih => exact ih (h.allocate base)

theorem taken_allocateAll (pool : NamePool) (bases : List String) :
    (pool.allocateAll bases).2.taken = (pool.allocateAll bases).1.reverse ++ pool.taken := by
  induction bases generalizing pool with
  | nil => rfl
  | cons base bases ih =>
    have hrest := ih (pool.allocate base).2
    simp only [allocateAll, hrest, taken_allocate, List.reverse_cons, List.append_assoc,
      List.singleton_append]

end NamePool

end ComputeKernel.Shader
