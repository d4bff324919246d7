import ComputeKernel.Host.TypeTable
import ComputeKernel.Kernel.Catalog
import ComputeKernel.Proofs.Parsing.Spelling
import ComputeKernel.Proofs.Reading.Printing
import ComputeKernel.Proofs.Typing.Shape
import ComputeKernel.Shader.Literal
import ComputeKernel.Shader.Lower.Expressions

/-!
Names and literals in shader code. What the pool gives out for a word is a word again, and no name of
a type: a name with an underscore is none, and a word without one is a name only if the shading
language does not keep it for itself.
-/

namespace ComputeKernel.Reading

open Shader

instance (cs : List Char) : Decidable (IsWord cs) :=
  decidable_of_iff (cs.head?.any isIdentStart ∧ cs.tail.all isIdentContinue) <| by
    cases cs with
    | nil => simp [IsWord]
    | cons c rest =>
      constructor
      · exact fun ⟨hc, hrest⟩ => ⟨c, rest, rfl, hc, List.all_eq_true.mp hrest⟩
      · rintro ⟨_, _, ⟨⟩, hc, hrest⟩
        exact ⟨hc, List.all_eq_true.mpr hrest⟩

instance (text : String) : Decidable (IsName text) := inferInstanceAs (Decidable (_ ∧ _))

instance (text : String) : Decidable (IsTypeWord text) := inferInstanceAs (Decidable (_ ∧ _))

theorem IsWord.append {w cs : List Char} (hw : IsWord w) (hcs : ∀ c ∈ cs, isIdentContinue c) :
    IsWord (w ++ cs) := by
  obtain ⟨c, rest, rfl, hc, hrest⟩ := hw
  refine ⟨c, rest ++ cs, rfl, hc, fun d hd => ?_⟩
  rcases List.mem_append.mp hd with hd | hd
  · exact hrest d hd
  · exact hcs d hd

/-- A word of underscores and what may go on behind them. -/
theorem isWord_underscore {cs : List Char} (hcs : ∀ c ∈ cs, isIdentContinue c) :
    IsWord ('_' :: cs) := ⟨'_', cs, rfl, by decide, hcs⟩

theorem isDigit_of_mem_toDigits {n : Nat} {c : Char} (hc : c ∈ Nat.toDigits 10 n) :
    Text.isDigit c := by
  have := Nat.isDigit_of_mem_toDigits (by decide) (by decide) hc
  simpa [Char.isDigit, Text.isDigit, Char.le_def] using this

/-! ### Names of types -/

theorem underscore_not_mem_isShape {cs : List Char} (h : isShape cs) : '_' ∉ cs := by
  unfold isShape at h
  have hdimension : ∀ {c}, isDimension c → '_' ≠ c := by
    rintro c hc rfl
    revert hc
    decide
  split at h
  · exact List.not_mem_nil
  · simpa using hdimension h
  · rw [Bool.and_eq_true] at h
    simp only [List.mem_cons, List.not_mem_nil, or_false, not_or]
    exact ⟨hdimension h.1, by decide, hdimension h.2⟩
  · cases h

/-- No name of a type has an underscore. -/
theorem isTypeName_eq_false_of_underscore {name : String} (h : '_' ∈ name.toList) :
    isTypeName name = false := by
  rw [← Bool.not_eq_true]
  intro htype
  unfold isTypeName at htype
  obtain ⟨scalar, hmem, hname⟩ := List.any_eq_true.mp htype
  rw [Bool.and_eq_true] at hname
  obtain ⟨hfront, hshape⟩ := hname
  obtain ⟨rest, hrest⟩ := List.isPrefixOf_iff_prefix.mp hfront
  have hstem : ∀ scalar ∈ scalarTypeNames, '_' ∉ scalar.toList := by decide
  rw [← hrest] at h hshape
  rw [List.drop_left] at hshape
  rcases List.mem_append.mp h with h | h
  · exact hstem scalar hmem h
  · exact underscore_not_mem_isShape hshape h

theorem isTypeName_eq_false_of_not_isReserved {name : String} (h : ¬ isReserved name) :
    isTypeName name = false := by
  rw [← Bool.not_eq_true]
  intro htype
  exact h (by simp [isReserved, htype])

theorem isTypeWord_of_mem_all : ∀ v ∈ ValueType.all, IsTypeWord v.hlslName := by
  decide +kernel

/-! ### Identifiers -/

theorem isName_stem {base : String} (h : IsWord base.toList) : IsName (NamePool.stem base) := by
  unfold NamePool.stem
  split
  · rw [IsName, String.toList_append]
    have hcons : "_".toList ++ base.toList = '_' :: base.toList := rfl
    exact ⟨hcons ▸ isWord_underscore (IsWord.continues h),
      by simp [isTypeName_eq_false_of_underscore]⟩
  · rename_i hreserved
    exact ⟨h, by simp [isTypeName_eq_false_of_not_isReserved hreserved]⟩

theorem isName_candidate {stem : String} (h : IsName stem) (n : Nat) :
    IsName (NamePool.candidate stem n) := by
  unfold NamePool.candidate
  split
  · exact h
  · have htext : (s!"{stem}_{n}").toList = stem.toList ++ '_' :: Nat.toDigits 10 n := by
      show (stem ++ "_" ++ toString n).toList = _
      simp
    refine ⟨?_, ?_⟩
    · rw [htext]
      refine IsWord.append h.1 (List.forall_mem_cons.mpr ⟨by decide, fun c hc => ?_⟩)
      exact isIdentContinue_of_isDigit (isDigit_of_mem_toDigits hc)
    · rw [isTypeName_eq_false_of_underscore (by rw [htext]; simp)]
      exact Bool.false_ne_true

/-- What the pool gives out for a word is the name of no type. -/
theorem isName_allocate (pool : NamePool) {base : String} (h : IsWord base.toList) :
    IsName (pool.allocate base).1 := by
  show IsName (pool.free (NamePool.stem base))
  unfold NamePool.free
  cases hfind : ((List.range (pool.taken.length + 1)).map
      (NamePool.candidate (NamePool.stem base))).find? fun name => ! pool.isTaken name with
  | none => exact isName_stem h
  | some name =>
    obtain ⟨n, _, rfl⟩ := List.mem_map.mp (List.mem_of_find?_eq_some hfind)
    exact isName_candidate (isName_stem h) n

theorem isName_allocateAll (pool : NamePool) {bases : List String} {i : Nat} {base name : String}
    (hbase : bases[i]? = some base) (hname : (pool.allocateAll bases).1[i]? = some name)
    (h : IsWord base.toList) : IsName name := by
  induction bases generalizing pool i with
  | nil => cases hbase
  | cons first bases ih =>
    cases i with
    | zero =>
      cases hbase
      cases hname
      exact isName_allocate pool h
    | succ i => exact ih (pool.allocate first).2 hbase hname

/-! ### Paths -/

theorem eq_of_segments_singleton {cs s : List Char} (h : Text.segments cs = [s]) : cs = s := by
  fun_induction Text.segments cs generalizing s with
  | case1 => simpa using h
  | case2 rest _ => exact absurd (List.cons.inj h).2 (Text.segments_ne_nil rest)
  | case3 c rest _ hnil => exact absurd hnil (Text.segments_ne_nil rest)
  | case4 c rest _ s' ss hsegments ih =>
    obtain ⟨rfl, rfl⟩ := List.cons.inj h
    rw [ih hsegments]

theorem afterLastSeparator_cons_of_some {c : Char} {rest tail : List Char}
    (h : Text.afterLastSeparator rest = some tail) :
    Text.afterLastSeparator (c :: rest) = some tail := by
  simp [Text.afterLastSeparator, h]

theorem afterLastSeparator_cons_of_none {c : Char} {rest : List Char}
    (h : Text.afterLastSeparator rest = none) (hno : ∀ tail, c = ':' → rest = ':' :: tail → False) :
    Text.afterLastSeparator (c :: rest) = none := by
  rw [Text.afterLastSeparator, h]
  exact hno

theorem afterLastSeparator_of_not_mem {cs : List Char} (h : ':' ∉ cs) :
    Text.afterLastSeparator cs = none := by
  induction cs with
  | nil => rfl
  | cons c rest ih =>
    refine afterLastSeparator_cons_of_none (ih fun hmem => h (List.mem_cons_of_mem c hmem)) ?_
    rintro tail rfl rfl
    exact h List.mem_cons_self

/-- A last segment without colons is what follows the rightmost separator. -/
theorem getD_afterLastSeparator {cs w : List Char} (hw : ':' ∉ w)
    (h : (Text.segments cs).getLast? = some w) : (Text.afterLastSeparator cs).getD cs = w := by
  fun_induction Text.segments cs generalizing w with
  | case1 =>
    obtain rfl := Option.some.inj h
    rfl
  | case2 rest ih =>
    have hlast := ih hw (by rwa [List.getLast?_cons_of_ne_nil (Text.segments_ne_nil rest)] at h)
    cases hafter : Text.afterLastSeparator rest with
    | some tail =>
      rw [afterLastSeparator_cons_of_some (afterLastSeparator_cons_of_some hafter)]
      simpa [hafter] using hlast
    | none =>
      obtain rfl : rest = w := by simpa [hafter] using hlast
      have hcolon : Text.afterLastSeparator (':' :: rest) = none := by
        refine afterLastSeparator_cons_of_none hafter ?_
        rintro tail _ rfl
        exact hw List.mem_cons_self
      rw [Text.afterLastSeparator, hcolon]
      rfl
  | case3 c rest _ hnil => exact absurd hnil (Text.segments_ne_nil rest)
  | case4 c rest _ s ss hsegments ih =>
    cases ss with
    | nil =>
      obtain rfl := eq_of_segments_singleton hsegments
      obtain rfl : c :: rest = w := Option.some.inj h
      rw [afterLastSeparator_of_not_mem hw]
      rfl
    | cons s' ss =>
      have hrest : (Text.segments rest).getLast? = some w := by
        rw [hsegments]
        rwa [List.getLast?_cons_cons] at h ⊢
      have hlast := ih hw hrest
      cases hafter : Text.afterLastSeparator rest with
      | some tail =>
        rw [afterLastSeparator_cons_of_some hafter]
        simpa [hafter] using hlast
      | none =>
        obtain rfl : rest = w := by simpa [hafter] using hlast
        rw [Text.segments_of_not_mem hw] at hsegments
        cases hsegments

/-- A static is named by the last segment of any path that it has. -/
theorem lastSegment_of_names {path : Path} {full : String} (hpath : path.Spelled)
    (h : path.names full) : Text.lastSegment full = path.last := by
  obtain ⟨hne, hwords⟩ := hpath
  obtain ⟨front, hfront⟩ := List.isSuffixOf_iff_suffix.mp h
  have hpath : path.getLast? = some path.last := by
    rw [Path.last, List.getLast?_eq_some_getLast hne]
    rfl
  have hlast : (Text.splitPath full).getLast? = some path.last := by
    rw [← hfront, List.getLast?_append, hpath]
    rfl
  rw [Text.splitPath, List.getLast?_map, Option.map_eq_some_iff] at hlast
  obtain ⟨w, hw, htext⟩ := hlast
  have hword := hwords path.last (List.mem_of_getLast? hpath)
  rw [← htext, String.toList_ofList] at hword
  have hcolon : ':' ∉ w := by
    intro hmem
    exact absurd (IsWord.continues hword ':' hmem) (by decide)
  have hafter := getD_afterLastSeparator hcolon hw
  rw [← htext, ← hafter, Text.lastSegment]
  cases Text.afterLastSeparator full.toList with
  | some tail => rfl
  | none => simp

/-- What the pool gives out for a static that a path names. -/
theorem isWord_of_names {path : Path} (hpath : path.Spelled) {decl : StaticDecl}
    (h : path.names decl.path) : IsWord decl.name.toList := by
  rw [StaticDecl.name, lastSegment_of_names hpath h, Path.last, List.getLast?_eq_some_getLast hpath.1]
  exact hpath.2 _ (List.getLast_mem hpath.1)

/-! ### Members -/

/-- The selectors of several elements, one behind the other, are one word. -/
theorem isWord_selector (position : Nat × Nat) : IsWord (Lower.selector position).toList := by
  have htext : (Lower.selector position).toList =
      '_' :: 'm' :: (Nat.toDigits 10 (position.1 - 1) ++ Nat.toDigits 10 (position.2 - 1)) := by
    show ("_m" ++ toString (position.1 - 1) ++ toString (position.2 - 1)).toList = _
    simp
  rw [htext]
  refine isWord_underscore (List.forall_mem_cons.mpr ⟨by decide, fun c hc => ?_⟩)
  rcases List.mem_append.mp hc with hc | hc
  · exact isIdentContinue_of_isDigit (isDigit_of_mem_toDigits hc)
  · exact isIdentContinue_of_isDigit (isDigit_of_mem_toDigits hc)

/-! ### Functions -/

theorem isWord_of_mem_scalarMethods : ∀ m ∈ scalarMethods, IsWord m.function.toList := by
  decide +kernel

theorem isWord_of_scalarMethod? {name : String} {m : ScalarMethod}
    (h : scalarMethod? name = some m) : IsWord m.function.toList :=
  isWord_of_mem_scalarMethods m (List.mem_of_find?_eq_some h)

/-! ### Types -/

/-- The built-in table names values by the names of types. -/
theorem isTypeWord_of_shaderName? {host : HostType} {v : ValueType} (hhost : Ty.ofHost? host = some (.value v))
    (hv : v.Shaped) : ∃ name, TypeTable.hlsl.shaderName? host = some name ∧ IsTypeWord name := by
  refine ⟨v.hlslName, ?_, isTypeWord_of_mem_all v hv.mem_all⟩
  simp [TypeTable.hlsl, hhost, Ty.hlslName?]

/-! ### Literals -/

theorem NumberTail.without_gaps {prev prev' : Char} {cs : List Char} (h : NumberTail prev cs)
    (hprev : prev' = prev ∨ prev = '_') : NumberTail prev' (cs.filter (· ≠ '_')) := by
  induction cs generalizing prev prev' with
  | nil => trivial
  | cons c cs ih =>
    obtain ⟨hc, hcs⟩ := h
    by_cases hgap : c = '_'
    · simpa [hgap] using ih hcs (Or.inr hgap)
    · rw [List.filter_cons_of_pos (by simpa using hgap)]
      refine ⟨?_, ih hcs (Or.inl rfl)⟩
      rcases hprev with rfl | rfl
      · exact hc
      · simp only [isNumberChar, Bool.or_eq_true, Bool.and_eq_true, decide_eq_true_eq] at hc ⊢
        rcases hc with hc | ⟨_, hmark⟩
        · exact Or.inl hc
        · simp at hmark

/-- Numbers without the gaps between their digits are numbers. -/
theorem IsNumber.without_gaps {cs : List Char} (h : IsNumber cs) :
    IsNumber (cs.filter (· ≠ '_')) := by
  obtain ⟨c, rest, rfl, hc, hrest⟩ := h
  have hgap : c ≠ '_' := by
    rintro rfl
    revert hc
    decide
  rw [List.filter_cons_of_pos (by simpa using hgap)]
  exact ⟨c, _, rfl, hc, NumberTail.without_gaps hrest (Or.inl rfl)⟩

theorem isNumber_toString (n : Nat) : IsNumber (toString n).toList := by
  rw [Nat.toString_eq_repr, Nat.toList_repr]
  cases hdigits : Nat.toDigits 10 n with
  | nil => exact absurd hdigits (by simp)
  | cons c rest =>
    have hall : ∀ d ∈ c :: rest, Text.isDigit d := fun d hd =>
      isDigit_of_mem_toDigits (hdigits ▸ hd)
    exact ⟨c, rest, rfl, hall c List.mem_cons_self, NumberTail.of_continue fun d hd =>
      isIdentContinue_of_isDigit (hall d (List.mem_cons_of_mem c hd))⟩

theorem isNumber_inDecimal {radix : Nat} {digits tail : List Char} (h : IsNumber digits) :
    IsNumber (Literal.inDecimal radix digits tail) := by
  unfold Literal.inDecimal
  split
  · exact isNumber_toString _
  · exact h

theorem isNumber_hlslDigits {digits : List Char} (h : IsNumber digits) :
    IsNumber (Literal.hlslDigits digits) := by
  unfold Literal.hlslDigits
  split
  · exact isNumber_inDecimal h
  · exact isNumber_inDecimal h
  · exact h

/-- A literal of a closure is written as a number, or as the name of a truth value. -/
theorem isNumber_hlsl_or_mem {v : Literal} (h : v.Spelled) :
    IsNumber v.hlsl.toList ∨ v.hlsl ∈ ["false", "true"] := by
  cases v with
  | bool value => cases value <;> exact Or.inr (by decide)
  | integer digits suffix =>
    refine Or.inl ?_
    simp only [Literal.hlsl, String.toList_ofList]
    refine IsNumber.append (isNumber_hlslDigits (IsNumber.without_gaps h)) fun c => ?_
    split
    · exact ⟨by simp [isNumberChar, isIdentContinue, isIdentStart], trivial⟩
    · trivial
  | float digits suffix =>
    refine Or.inl ?_
    simp only [Literal.hlsl, String.toList_ofList]
    refine IsNumber.append (IsNumber.without_gaps h) fun c => ?_
    split
    · exact ⟨by simp [isNumberChar], by simp [isNumberChar, isIdentContinue, Text.isDigit], trivial⟩
    · trivial

theorem isNumber_or_isName_hlsl {v : Literal} (h : v.Spelled) :
    IsNumber v.hlsl.toList ∨ IsName v.hlsl := by
  have hall : ∀ text ∈ ["false", "true"], IsName text := by decide +kernel
  exact (isNumber_hlsl_or_mem h).imp_right (hall _)

end ComputeKernel.Reading
