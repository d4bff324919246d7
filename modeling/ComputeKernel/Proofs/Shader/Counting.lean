import ComputeKernel.Proofs.Shader.Machine
import Mathlib.Data.Int.Range

/-!
Runs of counting loops. A loop whose body leaves its counter and its bound alone and has no jumps is run
for the numbers of a range, one after the other, unless the range has the greatest number of the
counter's type. Then the counter wraps around in front of the test that would be false, and the loop has
no end.
-/

namespace ComputeKernel.Shader

/-! ### Words that are counted -/

/-- The greatest number of a type that counts. -/
def greatest (type : String) : Int := if type = "uint" then 2 ^ 32 - 1 else 2 ^ 31 - 1

theorem read_le_greatest (type : String) (w : BitVec 32) : read type w ≤ greatest type := by
  unfold read greatest
  split
  · have := w.isLt
    omega
  · have := BitVec.toInt_lt (x := w)
    omega

theorem read_add_one {type : String} {w : BitVec 32} (h : read type w < greatest type) :
    read type (w + 1) = read type w + 1 := by
  unfold read greatest at *
  by_cases htype : type = "uint"
  · have hone : (1 : BitVec 32).toNat = 1 := rfl
    rw [if_pos htype, if_pos htype] at h
    rw [if_pos htype, if_pos htype, BitVec.toNat_add, hone]
    omega
  · have hone : (1 : BitVec 32).toInt = 1 := rfl
    have hlow := BitVec.le_toInt w
    rw [if_neg htype, if_neg htype] at h
    rw [if_neg htype, if_neg htype, BitVec.toInt_add, hone]
    exact Int.bmod_eq_of_le (by omega) (by omega)

/-! ### Ranges -/

/-- The number behind the last one of a range that ends with `hi` or in front of it. -/
def behind (inclusive : Bool) (hi : Int) : Int := if inclusive then hi + 1 else hi

theorem behind_le_greatest_iff (inclusive : Bool) {hi : Int} {type : String} (h : hi ≤ greatest type) :
    behind inclusive hi ≤ greatest type ↔ ¬ (inclusive ∧ hi = greatest type) := by
  cases inclusive with
  | false => simpa [behind] using h
  | true =>
    simp only [behind, if_true, true_and]
    omega

/-- The numbers of a range of the host, in ascending order. -/
def rangeOf (inclusive : Bool) (lo hi : Int) : List Int := Int.range lo (behind inclusive hi)

theorem range_eq_nil {lo stop : Int} (h : stop ≤ lo) : Int.range lo stop = [] := by
  rw [Int.range, Int.toNat_of_nonpos (by omega), List.range_zero, List.map_nil]

theorem range_eq_cons {lo stop : Int} (h : lo < stop) :
    Int.range lo stop = lo :: Int.range (lo + 1) stop := by
  have hlength : (stop - lo).toNat = (stop - (lo + 1)).toNat + 1 := by omega
  rw [Int.range, hlength, List.range_succ_eq_map, List.map_cons, List.map_map, Int.range]
  refine congrArg₂ _ (by simp) (List.map_congr_left fun n _ => ?_)
  simp only [Function.comp_apply, Nat.succ_eq_add_one, Int.natCast_add]
  omega

/-! ### Passes -/

variable {Value Memory : Type} {M : Machine Value Memory} {s t : State Value Memory}
  {l : CountingLoop} {values : List (BitVec 32)} {o : Option Jump}

namespace CountingLoop

/-- Whether the body of a loop leaves its counter and its bound alone, and has no jumps. -/
structure Steady (l : CountingLoop) : Prop where
  counter : l.counter ∉ Stmt.allChanged l.body
  bound : ∀ x ∈ l.bound.variables, x ∉ l.counter :: Stmt.allChanged l.body
  takesElements : l.bound.takesElements = false
  jumps : Stmt.allJumps l.body = []

/-- The number behind the last one for which a loop that is entered in a state is to be run. -/
def limit (l : CountingLoop) (M : Machine Value Memory) (s : State Value Memory) : Int :=
  behind l.inclusive (read l.type (M.bound s l))

end CountingLoop

open CountingLoop (Steady limit)

theorem tests_iff : M.Tests s l ↔ read l.type (M.counter s l) < l.limit M s := by
  unfold Machine.Tests CountingLoop.limit behind
  split
  · exact Int.lt_add_one_iff.symm
  · exact Iff.rfl

namespace CountingLoop.Steady

variable (h : l.Steady) (hbody : Runs M s (.stmts l.body) t o)

include h hbody

theorem counter_eq : M.counter t l = M.counter s l :=
  congrArg M.word (hbody.vars_eq l.counter h.counter)

theorem resumes : o = none := hbody.eq_none h.jumps

/-- The limit is the same behind a run of the body and an increment of the counter. -/
theorem limit_advance : l.limit M (M.advance t l) = l.limit M s := by
  have hbound : M.eval (M.advance t l) l.bound = M.eval s l.bound := by
    refine M.eval_congr _ _ _ (fun x hx => ?_) fun htakes => ?_
    · have hfixed := h.bound x hx
      exact (State.vars_set_of_ne (List.ne_of_not_mem_cons hfixed) _).trans
        (hbody.vars_eq x (List.not_mem_of_not_mem_cons hfixed))
    · rw [h.takesElements] at htakes
      cases htakes
  simp only [limit, Machine.bound, hbound]

/-- The counter is one further behind a run of the body, if that is within its type. -/
theorem read_advance (hlt : read l.type (M.counter s l) < greatest l.type) :
    read l.type (M.counter (M.advance t l) l) = read l.type (M.counter s l) + 1 := by
  rw [M.counter_advance, h.counter_eq hbody, read_add_one hlt]

end CountingLoop.Steady

/-- The passes of a loop that ends are those of its range. -/
theorem Runs.values_eq (h : l.Steady) (hlimit : l.limit M s ≤ greatest l.type)
    (hrun : Runs M s (.passes l values) t o) :
    o = none ∧ values.map (read l.type) = Int.range (read l.type (M.counter s l)) (l.limit M s) := by
  refine ⟨hrun.eq_none h.jumps, ?_⟩
  generalize htask : Task.passes l values = task at hrun
  induction hrun generalizing values with
  | done hfalse =>
    cases htask
    rw [tests_iff] at hfalse
    exact (range_eq_nil (by omega)).symm
  | pass htrue hbody _ _ _ ih =>
    cases htask
    rw [tests_iff] at htrue
    have hsame := h.limit_advance hbody
    have hrest := ih (hsame ▸ hlimit) rfl
    rw [h.read_advance hbody (by omega), hsame] at hrest
    rw [List.map_cons, hrest, ← range_eq_cons htrue]
  | broken _ hbody hleaves =>
    cases htask
    exact (hleaves (.inl (h.resumes hbody))).elim
  | _ => cases htask

/-- The states in which a loop that is entered in a state is tested. -/
inductive CountingLoop.Reaches (l : CountingLoop) (M : Machine Value Memory)
    (s : State Value Memory) : State Value Memory → Prop where
  | entry : l.Reaches M s s
  | pass {s' t o} : l.Reaches M s s' → M.Tests s' l → Runs M s' (.stmts l.body) t o → Resumes o →
      l.Reaches M s (M.advance t l)

/-- A loop ends if its body does wherever the loop comes to run it. -/
theorem exists_runs_passes (h : l.Steady) (hlimit : l.limit M s ≤ greatest l.type)
    (hends : ∀ s', l.Reaches M s s' → M.Tests s' l → ∃ t o, Runs M s' (.stmts l.body) t o) :
    ∃ values t, Runs M s (.passes l values) t none := by
  suffices hrest : ∀ s', l.Reaches M s s' → l.limit M s' = l.limit M s →
      ∃ values t, Runs M s' (.passes l values) t none from hrest s .entry rfl
  intro s' hreaches hsame
  -- The counter comes closer to the end of the range with each pass.
  induction hdistance : (l.limit M s - read l.type (M.counter s' l)).toNat generalizing s' with
  | zero => exact ⟨[], s', .done (by rw [tests_iff]; omega)⟩
  | succ n ih =>
    have htests : M.Tests s' l := by
      rw [tests_iff]
      omega
    obtain ⟨t, o, hbody⟩ := hends s' hreaches htests
    have hnext := h.read_advance hbody (by omega)
    have hresumes : Resumes o := .inl (h.resumes hbody)
    obtain ⟨values, t', hrest⟩ := ih (M.advance t l) (hreaches.pass htests hbody hresumes)
      ((h.limit_advance hbody).trans hsame) (by omega)
    exact ⟨_, t', .pass htests hbody hresumes hrest⟩

/-- A loop up to and with the greatest number of the counter's type has no end. -/
theorem not_runs_of_greatest (h : l.Steady) (hlimit : greatest l.type < l.limit M s) :
    ¬ Runs M s (.passes l values) t o := by
  intro hrun
  generalize htask : Task.passes l values = task at hrun
  induction hrun generalizing values with
  | @done s _ hfalse =>
    cases htask
    have := read_le_greatest l.type (M.counter s l)
    exact hfalse (tests_iff.mpr (by omega))
  | pass _ hbody _ _ _ ih =>
    cases htask
    exact ih (by rw [h.limit_advance hbody]; exact hlimit) rfl
  | broken _ hbody hleaves =>
    cases htask
    exact hleaves (.inl (h.resumes hbody))
  | _ => cases htask

end ComputeKernel.Shader
