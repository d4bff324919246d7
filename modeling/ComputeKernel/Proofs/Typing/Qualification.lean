import ComputeKernel.Proofs.Typing.Completeness
import ComputeKernel.Proofs.Typing.Resolution
import Mathlib.Data.Finset.Max

/-!
Statics written in full. Any end of a static's path names the static as long as no other static has the
same end, and this goes for the whole path too: where the path of another static ends with it, the whole
path is ambiguous, and the advice that comes with the error names the path that was written. Every other
static can be named in full wherever it is needed, except those that `MatrixIndex` owns. The advice always
has a path that resolves, unless it has no path in full of another owner.
-/

namespace ComputeKernel

/-! ### Statics -/

namespace Catalog

variable {catalog : Catalog} {index : Nat} {decl : StaticDecl}

/-- Whether the path of another static ends with the path of this one. -/
def EndsAnother (catalog : Catalog) (index : Nat) : Prop :=
  ∃ decl i other, catalog.statics[index]? = some decl ∧ catalog.statics[i]? = some other ∧ i ≠ index ∧
    Text.splitPath decl.path <:+ Text.splitPath other.path

/-- A static is the only one that its whole path names unless that path ends another one. -/
theorem onlyStatic_splitPath_iff (hdecl : catalog.statics[index]? = some decl) :
    catalog.OnlyStatic (Text.splitPath decl.path) index ↔ ¬ catalog.EndsAnother index := by
  constructor
  · rintro ⟨_, hunique⟩ ⟨decl', i, other, hdecl', hother, hne, hends⟩
    obtain rfl := Option.some.inj (hdecl'.symm.trans hdecl)
    exact hne (hunique i other hother hends)
  · refine fun h => ⟨⟨decl, hdecl, List.suffix_refl _⟩, fun i other hother hends => ?_⟩
    by_contra hne
    exact h ⟨decl, i, other, hdecl, hother, hne, hends⟩

/-- Where paths are different, segments tell the statics apart. -/
theorem index_eq_of_splitPath (hdifferent : (catalog.statics.map StaticDecl.path).Nodup) {i j : Nat}
    {first second : StaticDecl} (hi : catalog.statics[i]? = some first)
    (hj : catalog.statics[j]? = some second)
    (h : Text.splitPath first.path = Text.splitPath second.path) : i = j := by
  have hpaths : (catalog.statics.map StaticDecl.path)[i]? =
      (catalog.statics.map StaticDecl.path)[j]? := by
    rw [List.getElem?_map, List.getElem?_map, hi, hj]
    exact congrArg some (Text.splitPath_inj.mp h)
  have hlt : i < (catalog.statics.map StaticDecl.path).length := by
    rw [List.length_map]
    exact (List.getElem?_eq_some_iff.mp hi).1
  exact (List.getElem?_inj hlt hdifferent).mp hpaths

end Catalog

/-- The state behind a report. -/
def Checking.reported (s : Checking) (d : Diagnostic) : Checking :=
  { s with diagnostics := s.diagnostics ++ [d] }

namespace Check

variable {catalog : Catalog} {index : Nat} {decl : StaticDecl} {path : Path} {s s' : Checking}

/-- What is reported of a path that names several statics: the advice is to write one of their paths. -/
def ambiguity (catalog : Catalog) (path : Path) (span : Span) : Diagnostic :=
  (Diagnostic.error s!"`{Path.text path}` is ambiguous" span).withHelp
    ("qualify the path: " ++ ", ".intercalate
      ((staticsNamed path catalog.statics).filterMap fun i =>
        (catalog.statics[i]?).map StaticDecl.path))

/-- What is reported of a static whose type is none that kernels can use. -/
def unusable (decl : StaticDecl) (span : Span) : Diagnostic :=
  .error s!"static `{decl.path}` has type `{decl.type}` which kernels cannot use" span

/-- Whether a path resolves to a static wherever it is checked. The path has the type of the static, and
only a type that kernels cannot use is reported. -/
def ResolvesTo (catalog : Catalog) (path : Path) (index : Nat) (decl : StaticDecl) : Prop :=
  ∀ span s, match Ty.ofText? decl.type with
    | some type => Answers (expr catalog (.path span path)) s (some { type })
        ((s.noteReferent span (.static index)).noteType span type)
    | none => Answers (expr catalog (.path span path)) s none
        ((s.noteReferent span (.static index)).reported (unusable decl span))

/-- Whether a path is ambiguous wherever it is checked: that is all that is reported, and nothing is
noted. -/
def IsAmbiguous (catalog : Catalog) (path : Path) : Prop :=
  ∀ span s, Answers (expr catalog (.path span path)) s none (s.reported (ambiguity catalog path span))

theorem expr_path (howner : path.owner? ≠ some matrixIndexOwner) (span : Span) :
    expr catalog (.path span path) = static catalog.statics path span >>= typed span := by
  rw [expr, Check.path, if_neg howner]

theorem Answers.untyped {p : Check (Option Typed)} (h : Answers p s none s') (span : Span) :
    Answers (p >>= Check.typed span) s none s' :=
  h.bind (.pure _ _)

theorem resolvesTo_of_onlyStatic (howner : path.owner? ≠ some matrixIndexOwner)
    (h : catalog.OnlyStatic path index) (hdecl : catalog.statics[index]? = some decl) :
    ResolvesTo catalog path index decl := by
  intro span s
  rw [expr_path howner]
  have hnamed := onlyStatic_iff.mpr h
  cases htype : Ty.ofText? decl.type with
  | some type => exact (NamesStatic.answers ⟨hnamed, decl, hdecl, htype⟩ span s).typed span
  | none =>
    have hstatic : Answers (static catalog.statics path span) s none
        ((s.noteReferent span (.static index)).reported (unusable decl span)) := by
      simp only [static, hnamed, hdecl, staticType, htype]
      rfl
    exact hstatic.untyped span

theorem isAmbiguous_of_two_le (howner : path.owner? ≠ some matrixIndexOwner)
    (h : 2 ≤ (staticsNamed path catalog.statics).length) : IsAmbiguous catalog path := by
  intro span s
  rw [expr_path howner]
  have hstatic : Answers (static catalog.statics path span) s none
      (s.reported (ambiguity catalog path span)) := by
    unfold static ambiguity
    match hnamed : staticsNamed path catalog.statics with
    | [] | [_] => simp [hnamed] at h
    | i :: j :: rest => rfl
  exact hstatic.untyped span

/-- Two statics that a path names make it ambiguous. -/
theorem two_le_length_staticsNamed {i j : Nat} (hi : i ∈ staticsNamed path catalog.statics)
    (hj : j ∈ staticsNamed path catalog.statics) (hne : i ≠ j) :
    2 ≤ (staticsNamed path catalog.statics).length := by
  match h : staticsNamed path catalog.statics with
  | [] => simp [h] at hi
  | [k] =>
    rw [h, List.mem_singleton] at hi hj
    exact absurd (hi.trans hj.symm) hne
  | _ :: _ :: _ => simp

theorem isAmbiguous_of_endsAnother (hdecl : catalog.statics[index]? = some decl)
    (howner : Path.owner? (Text.splitPath decl.path) ≠ some matrixIndexOwner)
    (h : catalog.EndsAnother index) : IsAmbiguous catalog (Text.splitPath decl.path) := by
  obtain ⟨decl', i, other, hdecl', hother, hne, hends⟩ := h
  obtain rfl := Option.some.inj (hdecl'.symm.trans hdecl)
  refine isAmbiguous_of_two_le howner (two_le_length_staticsNamed
    (mem_staticsNamed.mpr ⟨other, hother, hends⟩)
    (mem_staticsNamed.mpr ⟨decl', hdecl, List.suffix_refl _⟩) hne)

/-- Of the statics with a property that longer paths keep, one with a longest path can be named in full. -/
theorem exists_not_endsAnother (hdifferent : (catalog.statics.map StaticDecl.path).Nodup)
    {P : StaticDecl → Prop} (hlonger : ∀ decl other, P decl →
      Text.splitPath decl.path <:+ Text.splitPath other.path → P other)
    (hdecl : decl ∈ catalog.statics) (hP : P decl) :
    ∃ i other, catalog.statics[i]? = some other ∧ P other ∧ ¬ catalog.EndsAnother i := by
  classical
  obtain ⟨longest, hlongest, hmax⟩ := Finset.exists_max_image
    (catalog.statics.toFinset.filter P) (fun d => (Text.splitPath d.path).length)
    ⟨decl, Finset.mem_filter.mpr ⟨List.mem_toFinset.mpr hdecl, hP⟩⟩
  obtain ⟨hmem, hPlongest⟩ := Finset.mem_filter.mp hlongest
  obtain ⟨i, hi⟩ := List.mem_iff_getElem?.mp (List.mem_toFinset.mp hmem)
  refine ⟨i, longest, hi, hPlongest, ?_⟩
  rintro ⟨longest', j, other, hi', hother, hne, hends⟩
  obtain rfl := Option.some.inj (hi'.symm.trans hi)
  have hle := hmax other (Finset.mem_filter.mpr
    ⟨List.mem_toFinset.mpr (List.mem_of_getElem? hother), hlonger _ _ hPlongest hends⟩)
  exact hne (catalog.index_eq_of_splitPath hdifferent hi hother (hends.eq_of_length_le hle)).symm

/-! ### The advice -/

/-- Whether a static is one that an ambiguous path names and whose own path can be written as a path. -/
structure Advises (catalog : Catalog) (path : Path) (index : Nat) (decl : StaticDecl) : Prop where
  named : index ∈ staticsNamed path catalog.statics
  declared : catalog.statics[index]? = some decl
  segments : 2 ≤ (Text.splitPath decl.path).length

theorem advises_iff : Advises catalog path index decl ↔ catalog.statics[index]? = some decl ∧
    path <:+ Text.splitPath decl.path ∧ 2 ≤ (Text.splitPath decl.path).length := by
  constructor
  · rintro ⟨hnamed, hdecl, hsegments⟩
    obtain ⟨decl', hdecl', hpath⟩ := mem_staticsNamed.mp hnamed
    obtain rfl := Option.some.inj (hdecl'.symm.trans hdecl)
    exact ⟨hdecl, hpath, hsegments⟩
  · rintro ⟨hdecl, hpath, hsegments⟩
    exact ⟨mem_staticsNamed.mpr ⟨decl, hdecl, hpath⟩, hdecl, hsegments⟩

/-- Of two statics that a path names, one has a longer path than a single segment. -/
theorem exists_advises (hdifferent : (catalog.statics.map StaticDecl.path).Nodup) (hne : path ≠ [])
    {i j : Nat} (hi : i ∈ staticsNamed path catalog.statics)
    (hj : j ∈ staticsNamed path catalog.statics) (hij : i ≠ j) :
    ∃ k decl, Advises catalog path k decl := by
  obtain ⟨first, hfirst, hpath⟩ := mem_staticsNamed.mp hi
  obtain ⟨second, hsecond, hpath'⟩ := mem_staticsNamed.mp hj
  by_cases hlong : 2 ≤ (Text.splitPath first.path).length
  · exact ⟨i, first, hi, hfirst, hlong⟩
  by_cases hlong' : 2 ≤ (Text.splitPath second.path).length
  · exact ⟨j, second, hj, hsecond, hlong'⟩
  -- Both paths are the one segment that was written, so they are the same.
  have hlength := List.length_pos_iff.mpr hne
  have heq := hpath.eq_of_length_le (by omega)
  have heq' := hpath'.eq_of_length_le (by omega)
  exact (hij (catalog.index_eq_of_splitPath hdifferent hfirst hsecond (heq.symm.trans heq'))).elim

/-- A longer path has the same segment before the last. -/
theorem owner?_eq_of_suffix {p q : Path} (h : p <:+ q) (hlength : 2 ≤ p.length) :
    q.owner? = p.owner? := by
  obtain ⟨before, rfl⟩ := h
  have hne : p ≠ [] := List.ne_nil_of_length_pos (by omega)
  have hdrop : p.dropLast ≠ [] := List.ne_nil_of_length_pos (by rw [List.length_dropLast]; omega)
  rw [Path.owner?, Path.owner?, List.dropLast_append_of_ne_nil hne,
    List.getLast?_append_of_ne_nil _ hdrop]

/-- If one of the statics that a path names has another owner than `MatrixIndex`, one of them can be
named in full. -/
theorem exists_resolvesTo (hdifferent : (catalog.statics.map StaticDecl.path).Nodup)
    (h : Advises catalog path index decl)
    (howner : Path.owner? (Text.splitPath decl.path) ≠ some matrixIndexOwner) :
    ∃ k other, Advises catalog path k other ∧
      ResolvesTo catalog (Text.splitPath other.path) k other := by
  obtain ⟨hdecl, hpath, hsegments⟩ := advises_iff.mp h
  obtain ⟨k, other, hother, ⟨hpath', hsegments', howner'⟩, hends⟩ :=
    exists_not_endsAnother hdifferent
      (P := fun d => path <:+ Text.splitPath d.path ∧ 2 ≤ (Text.splitPath d.path).length ∧
        Path.owner? (Text.splitPath d.path) ≠ some matrixIndexOwner)
      (fun d other ⟨hd, hlength, howner⟩ hends => ⟨hd.trans hends, hlength.trans hends.length_le,
        by rwa [owner?_eq_of_suffix hends hlength]⟩)
      (List.mem_of_getElem? hdecl) ⟨hpath, hsegments, howner⟩
  exact ⟨k, other, advises_iff.mpr ⟨hother, hpath', hsegments'⟩,
    resolvesTo_of_onlyStatic howner' ((catalog.onlyStatic_splitPath_iff hother).mpr hends) hother⟩

end Check

/-! ### Closures -/

/-- A static can be named in full exactly where the path of no other static ends with its path. In an
accepted closure its path stands for nothing else. Of the statics that an ambiguous path could mean some
have a path of two segments or more, and if `MatrixIndex` does not own all of these, there is one that its
path in full resolves to. -/
theorem Check.resolves_in_full {catalog : Catalog}
    (hdifferent : (catalog.statics.map StaticDecl.path).Nodup) :
    (∀ index decl, catalog.statics[index]? = some decl →
      2 ≤ (Text.splitPath decl.path).length →
      Path.owner? (Text.splitPath decl.path) ≠ some matrixIndexOwner →
        (¬ catalog.EndsAnother index →
          ResolvesTo catalog (Text.splitPath decl.path) index decl) ∧
        (catalog.EndsAnother index → IsAmbiguous catalog (Text.splitPath decl.path)) ∧
        ∀ source c m, Closure.parse source = .ok c → c.bind catalog = .ok m →
          ∀ p ∈ c.expressions, ∀ span, .path span (Text.splitPath decl.path) ∈ p.1.mentions →
            m.referent? span = some (.static index)) ∧
      ∀ path : Path, path ≠ [] → ∀ i ∈ staticsNamed path catalog.statics,
        ∀ j ∈ staticsNamed path catalog.statics, i ≠ j →
          (∃ k decl, Advises catalog path k decl) ∧
          ∀ k decl, Advises catalog path k decl →
            Path.owner? (Text.splitPath decl.path) ≠ some matrixIndexOwner →
              ∃ n other, Advises catalog path n other ∧
                ResolvesTo catalog (Text.splitPath other.path) n other := by
  refine ⟨fun index decl hdecl _ howner => ⟨fun hends => ?_, ?_, ?_⟩,
    fun path hne i hi j hj hij => ⟨exists_advises hdifferent hne hi hj hij,
      fun k decl hadvises howner => exists_resolvesTo hdifferent hadvises howner⟩⟩
  · exact resolvesTo_of_onlyStatic howner ((catalog.onlyStatic_splitPath_iff hdecl).mpr hends) hdecl
  · exact isAmbiguous_of_endsAnother hdecl howner
  · intro source c m hparse hbind p hp span hmention
    obtain ⟨hi, hlaid⟩ := Closure.laid_of_parse hparse
    cases (c.checkedAround_of_bind hlaid hbind p hp).mentions _ hmention with
    | path _ honly hreferent =>
      rw [honly.unique index decl hdecl (List.suffix_refl _)]
      exact hreferent

/-- Two statics, of which the path of one ends with the path of the other. -/
def nested : Catalog := { statics := [⟨"a::B", "f32", .bytes []⟩, ⟨"c::a::B", "u32", .bytes []⟩] }

/-- The path of the first cannot be written, although the error says to write it. -/
theorem Check.rejects_nested :
    (nested.statics.map StaticDecl.path).Nodup ∧ Text.splitPath "a::B" = ["a", "B"] ∧
      Path.owner? ["a", "B"] ≠ some matrixIndexOwner ∧
      Closure.parse "|ids| \x7b let x = a::B; \x7d" =
        .ok ⟨⟨"ids", ⟨1, 4⟩⟩, none, ⟨⟨6, 23⟩,
          [.let ⟨8, 21⟩ false ⟨"x", ⟨12, 13⟩⟩ none (some (.path ⟨16, 20⟩ ["a", "B"]))]⟩⟩ ∧
      ((Closure.parse "|ids| \x7b let x = a::B; \x7d").bind fun c => c.bind nested) =
        .error [(Diagnostic.error "`a::B` is ambiguous" ⟨16, 20⟩).withHelp
          "qualify the path: a::B, c::a::B"] := by
  refine ⟨by decide, rfl, by decide, rfl, rfl⟩

theorem Check.resolves_in_full_nested :
    (nested.statics.map StaticDecl.path).Nodup ∧
      ResolvesTo nested ["c", "a", "B"] 1 ⟨"c::a::B", "u32", .bytes []⟩ ∧
      IsAmbiguous nested ["a", "B"] ∧ staticsNamed ["B"] nested.statics = [0, 1] ∧
      ∃ k other, Advises nested ["B"] k other ∧
        ResolvesTo nested (Text.splitPath other.path) k other := by
  have hdifferent : (nested.statics.map StaticDecl.path).Nodup := by decide
  obtain ⟨hfull, hadvice⟩ := Check.resolves_in_full hdifferent
  obtain ⟨hresolves, _⟩ := hfull 1 ⟨"c::a::B", "u32", .bytes []⟩ rfl (by decide) (by decide)
  obtain ⟨_, hambiguous, _⟩ := hfull 0 ⟨"a::B", "f32", .bytes []⟩ rfl (by decide) (by decide)
  obtain ⟨_, hresolve⟩ := hadvice ["B"] (by decide) 0 (by decide) 1 (by decide) (by decide)
  refine ⟨hdifferent, hresolves ?_, hambiguous ?_, by decide,
    hresolve 0 ⟨"a::B", "f32", .bytes []⟩ ⟨by decide, rfl, by decide⟩ (by decide)⟩
  · exact (nested.onlyStatic_splitPath_iff rfl).mp (onlyStatic_iff.mp (by decide))
  · exact ⟨_, 1, _, rfl, rfl, by decide, ⟨["c"], rfl⟩⟩

end ComputeKernel
