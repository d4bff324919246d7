/-!
Paths written with `::`. A path is cut at each separator met from left to right, so `a:::b` has the
segments `a` and `:b`; its last segment on its own is what follows the rightmost separator, `b`.
-/

namespace ComputeKernel.Text

/-- The segments of a path. There is always at least one, and an empty text has one empty segment. -/
def segments : List Char → List (List Char)
  | [] => [[]]
  | ':' :: ':' :: rest => [] :: segments rest
  | c :: rest =>
    match segments rest with
    | [] => [[c]]
    | s :: ss => (c :: s) :: ss

theorem segments_ne_nil (cs : List Char) : segments cs ≠ [] := by
  fun_cases segments cs <;> simp

theorem segments_of_not_mem {cs : List Char} (h : ':' ∉ cs) : segments cs = [cs] := by
  fun_induction segments cs with
  | case1 => rfl
  | case2 => simp at h
  | case3 c rest _ hnil => exact absurd hnil (segments_ne_nil rest)
  | case4 c rest _ s ss hsegments ih =>
    rw [ih fun hmem => h (List.mem_cons_of_mem c hmem)] at hsegments
    obtain ⟨rfl, rfl⟩ := List.cons.inj hsegments
    rfl

/-- A path is cut behind its first segment. -/
theorem segments_append {cs : List Char} (h : ':' ∉ cs) (rest : List Char) :
    segments (cs ++ ':' :: ':' :: rest) = cs :: segments rest := by
  induction cs with
  | nil => rfl
  | cons c cs ih =>
    obtain ⟨hc, hcs⟩ := not_or.mp (mt List.mem_cons.mpr h)
    rw [List.cons_append, segments, ih hcs]
    exact fun _ hcolon => absurd hcolon.symm hc

/-- What follows the rightmost `::`, if there is one. -/
def afterLastSeparator : List Char → Option (List Char)
  | [] => none
  | c :: rest =>
    match afterLastSeparator rest with
    | some tail => some tail
    | none =>
      match c, rest with
      | ':', ':' :: tail => some tail
      | _, _ => none

def splitPath (path : String) : List String := (segments path.toList).map String.ofList

def joinPath (parts : List String) : String := "::".intercalate parts

/-- The last segment of a path, which is the whole text when there is no separator. -/
def lastSegment (path : String) : String :=
  match afterLastSeparator path.toList with
  | some tail => String.ofList tail
  | none => path

theorem splitPath_joinPath {path : List String} (hne : path ≠ []) (h : ∀ s ∈ path, ':' ∉ s.toList) :
    splitPath (joinPath path) = path := by
  unfold splitPath joinPath
  induction path with
  | nil => exact absurd rfl hne
  | cons s path ih =>
    obtain ⟨hs, hpath⟩ := List.forall_mem_cons.mp h
    cases path with
    | nil => rw [String.intercalate_singleton, segments_of_not_mem hs]; simp
    | cons s' path =>
      rw [String.intercalate_cons_cons, String.toList_append, String.toList_append, List.append_assoc,
        show "::".toList = [':', ':'] from rfl, List.cons_append, List.cons_append, List.nil_append,
        segments_append hs, List.map_cons, String.ofList_toList, ih (List.cons_ne_nil _ _) hpath]

theorem joinPath_segments (cs : List Char) :
    joinPath ((segments cs).map String.ofList) = String.ofList cs := by
  unfold joinPath
  fun_induction segments cs with
  | case1 => rfl
  | case2 rest ih =>
    obtain ⟨s, ss, hss⟩ := List.exists_cons_of_ne_nil (segments_ne_nil rest)
    rw [hss] at ih
    rw [hss, List.map_cons, List.map_cons, String.intercalate_cons_cons, ← List.map_cons, ih]
    apply String.toList_inj.mp
    simp
  | case3 c rest _ hnil => exact absurd hnil (segments_ne_nil rest)
  | case4 c rest _ s ss hss ih =>
    rw [hss] at ih
    cases ss with
    | nil =>
      rw [List.map_cons, List.map_nil, String.intercalate_singleton] at ih ⊢
      rw [String.ofList_inj.mp ih]
    | cons s' ss =>
      rw [List.map_cons, List.map_cons, String.intercalate_cons_cons] at ih ⊢
      apply String.toList_inj.mp
      have := congrArg String.toList ih
      simp only [String.toList_append, String.toList_ofList, List.cons_append] at this ⊢
      rw [this]

theorem joinPath_splitPath (path : String) : joinPath (splitPath path) = path :=
  (joinPath_segments path.toList).trans String.ofList_toList

/-- A path is told by its segments. -/
theorem splitPath_inj {p q : String} : splitPath p = splitPath q ↔ p = q := by
  refine ⟨fun h => ?_, congrArg splitPath⟩
  rw [← joinPath_splitPath p, h, joinPath_splitPath]

theorem splitPath_ne_nil (path : String) : splitPath path ≠ [] := by
  simpa [splitPath] using segments_ne_nil path.toList

end ComputeKernel.Text
