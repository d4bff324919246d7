import ComputeKernel.Host.Ty

/-!
Dimensions of types. Whatever names a type, vectors have two to four components, and matrices one to
four rows and columns.
-/

namespace ComputeKernel

/-- Whether the dimensions of a value are those of a type that exists. -/
def ValueType.Shaped : ValueType → Prop
  | scalar _ => True
  | vector _ n => 2 ≤ n ∧ n ≤ 4
  | matrix _ r c => 1 ≤ r ∧ r ≤ 4 ∧ 1 ≤ c ∧ c ≤ 4

/-- Whether a type is one that expressions have. -/
def Ty.Shaped : Ty → Prop
  | value v | buffer _ v => v.Shaped
  | threadIds | matrixIndex => True
  | selectors _ | unknown => False

namespace ValueType

theorem Shaped.withKind {v : ValueType} (h : v.Shaped) (k : ScalarKind) : (v.withKind k).Shaped := by
  cases v <;> exact h

theorem shaped_row {k : ScalarKind} {n : Nat} (hlo : 1 ≤ n) (hhi : n ≤ 4) : (row k n).Shaped := by
  unfold row
  split
  · trivial
  · exact ⟨by omega, hhi⟩

theorem le_of_dimension? {low n : Nat} {c : Char} (h : dimension? low c = some n) :
    low ≤ n ∧ n ≤ 4 := by
  unfold dimension? at h
  rw [Option.filter_eq_some_iff] at h
  simpa using h.2

theorem shaped_of_shape? {k : ScalarKind} {cs : List Char} {v : ValueType}
    (h : shape? k cs = some v) : v.Shaped := by
  unfold shape? at h
  split at h
  · rw [Option.map_eq_some_iff] at h
    obtain ⟨n, hn, rfl⟩ := h
    exact le_of_dimension? hn
  · simp only [Option.bind_eq_bind, Option.bind_eq_some_iff, Option.pure_def, Option.some.injEq] at h
    obtain ⟨r, hr, c, hc, rfl⟩ := h
    have hr := le_of_dimension? hr
    have hc := le_of_dimension? hc
    exact ⟨hr.1, hr.2, hc⟩
  · cases h

theorem shaped_of_ofHostName? {name : String} {v : ValueType} (h : ofHostName? name = some v) :
    v.Shaped := by
  unfold ofHostName? at h
  split at h
  · obtain rfl := Option.some.inj h
    trivial
  · unfold ofAggregateName? at h
    obtain ⟨k, _, hk⟩ := List.exists_of_findSome?_eq_some h
    split at hk
    · exact shaped_of_shape? hk
    · cases hk

/-- The values that exist. -/
def all : List ValueType :=
  ScalarKind.all.flatMap fun k => scalar k :: (([2, 3, 4].map (vector k)) ++
    [1, 2, 3, 4].flatMap fun r => [1, 2, 3, 4].map (matrix k r))

theorem Shaped.mem_all {v : ValueType} (h : v.Shaped) : v ∈ all := by
  have hdimension : ∀ n, 1 ≤ n → n ≤ 4 → n = 1 ∨ n = 2 ∨ n = 3 ∨ n = 4 := by omega
  cases v with
  | scalar k => cases k <;> decide
  | vector k n =>
    obtain ⟨hlo, hhi⟩ := h
    rcases hdimension n (by omega) hhi with rfl | rfl | rfl | rfl
    · omega
    all_goals cases k <;> decide
  | matrix k r c =>
    obtain ⟨hr, hr', hc, hc'⟩ := h
    rcases hdimension r hr hr' with rfl | rfl | rfl | rfl <;>
      rcases hdimension c hc hc' with rfl | rfl | rfl | rfl <;> cases k <;> decide

end ValueType

namespace Ty

theorem ofHost?_hostName_of_mem_all :
    ∀ v ∈ ValueType.all, ofHost? (.named v.hostName) = some (value v) := by
  decide +kernel

/-- The host's name of a value denotes it. -/
theorem ofHost?_toHost {v : ValueType} (h : v.Shaped) : ofHost? (value v).toHost = some (value v) :=
  ofHost?_hostName_of_mem_all v h.mem_all

theorem ofHost?_toHost_threadIds : ofHost? threadIds.toHost = some threadIds := by decide +kernel

theorem shaped_of_ofHostName? {name : String} {t : Ty} (h : ofHostName? name = some t) :
    t.Shaped := by
  unfold ofHostName? at h
  split at h
  · obtain rfl := Option.some.inj h
    trivial
  split at h
  · obtain rfl := Option.some.inj h
    trivial
  · rw [Option.map_eq_some_iff] at h
    obtain ⟨v, hv, rfl⟩ := h
    exact ValueType.shaped_of_ofHostName? hv

/-- A type that a host type denotes has the dimensions of one that exists. -/
theorem shaped_of_ofHost? {host : HostType} {t : Ty} (h : ofHost? host = some t) : t.Shaped := by
  unfold ofHost? at h
  split at h
  · exact shaped_of_ofHostName? h
  · simp only [Option.bind_eq_bind, Option.bind_eq_some_iff] at h
    obtain ⟨access, _, h⟩ := h
    split at h
    · rename_i v _ hv
      simp only [Option.pure_def, Option.some.injEq] at h
      subst h
      exact shaped_of_ofHostName? (t := .value v) hv
    · cases h
  · cases h

theorem shaped_of_ofText? {text : String} {t : Ty} (h : ofText? text = some t) : t.Shaped := by
  unfold ofText? at h
  rw [Option.bind_eq_bind, Option.bind_eq_some_iff] at h
  obtain ⟨host, _, h⟩ := h
  exact shaped_of_ofHost? h

end Ty

end ComputeKernel
