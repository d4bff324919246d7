import ComputeKernel.Settings.File
import Mathlib.Data.List.DropRight

/-!
Lines of a settings file. A text is cut at its line feeds, and what a line is can be told from its
characters: one that is blank or begins with `#` says nothing, and a name between brackets opens a
section, with any white space around the name and around the brackets.
-/

namespace ComputeKernel

namespace Text

/-! ### White space around a text -/

def IsBlankText (cs : List Char) : Prop := ∀ c ∈ cs, isBlank c

-- Found by search, the instance can be one that goes through all characters.
instance (cs : List Char) : Decidable (IsBlankText cs) :=
  decidable_of_iff (cs.all isBlank) List.all_eq_true

/-- Whether a text is `core` with white space around it. -/
def Padded (core cs : List Char) : Prop :=
  ∃ before after, IsBlankText before ∧ IsBlankText after ∧ cs = before ++ core ++ after

/-- Whether a text neither begins nor ends with white space. -/
structure Tight (cs : List Char) : Prop where
  head : ∀ c ∈ cs.head?, ¬ isBlank c
  last : ∀ c ∈ cs.getLast?, ¬ isBlank c

instance (cs : List Char) : Decidable (Tight cs) :=
  decidable_of_iff ((cs.head?.all fun c => ! isBlank c) ∧ cs.getLast?.all fun c => ! isBlank c) <| by
    simp only [Option.all_eq_true, Bool.not_eq_true', ← Bool.not_eq_true]
    exact ⟨fun h => ⟨h.1, h.2⟩, fun h => ⟨h.head, h.last⟩⟩

variable {core cs : List Char} {c : Char}

theorem trimEnd_eq_rdropWhile (cs : List Char) : trimEnd cs = cs.rdropWhile isBlank := rfl

theorem padded_trim (cs : List Char) : Padded (trim cs) cs := by
  refine ⟨cs.takeWhile isBlank, (trimStart cs).rtakeWhile isBlank,
    fun c hc => List.mem_takeWhile_imp hc, fun c hc => List.mem_rtakeWhile_imp hc, ?_⟩
  rw [List.append_assoc, trim, trimEnd_eq_rdropWhile, List.rdropWhile_append_rtakeWhile]
  exact List.takeWhile_append_dropWhile.symm

theorem trimStart_append {before : List Char} (h : IsBlankText before) (cs : List Char) :
    trimStart (before ++ cs) = trimStart cs := List.dropWhile_append_of_pos h

theorem trimEnd_append {after : List Char} (h : IsBlankText after) (cs : List Char) :
    trimEnd (cs ++ after) = trimEnd cs := by
  rw [trimEnd, List.reverse_append,
    List.dropWhile_append_of_pos fun c hc => h c (List.mem_reverse.mp hc), trimEnd]

theorem trimEnd_of_tight (h : Tight cs) : trimEnd cs = cs := by
  rw [trimEnd_eq_rdropWhile, List.rdropWhile_eq_self_iff]
  exact fun hne => h.last _ (List.getLast?_eq_some_getLast hne)

theorem trim_of_padded (h : Padded core cs) (ht : Tight core) : trim cs = core := by
  obtain ⟨before, after, hbefore, hafter, rfl⟩ := h
  rw [trim, List.append_assoc, trimStart_append hbefore]
  cases core with
  | nil =>
    rw [List.nil_append, trimStart, List.dropWhile_eq_nil_iff.mpr hafter]
    rfl
  | cons c core =>
    rw [List.cons_append, trimStart, List.dropWhile_cons_of_neg (ht.head c rfl),
      ← List.cons_append, trimEnd_append hafter, trimEnd_of_tight ht]

theorem trim_eq_nil_iff : trim cs = [] ↔ IsBlankText cs := by
  constructor
  · intro h
    obtain ⟨before, after, hbefore, hafter, hcs⟩ := padded_trim cs
    rw [hcs, h, List.append_nil]
    exact fun c hc => (List.mem_append.mp hc).elim (hbefore c) (hafter c)
  · exact fun h => trim_of_padded ⟨cs, [], h, nofun, by simp⟩ ⟨nofun, nofun⟩

theorem trim_eq_iff (ht : Tight core) : trim cs = core ↔ Padded core cs :=
  ⟨fun h => h ▸ padded_trim cs, fun h => trim_of_padded h ht⟩

theorem trimEnd_cons (h : ¬ isBlank c) (cs : List Char) : trimEnd (c :: cs) = c :: trimEnd cs := by
  simp only [trimEnd, List.reverse_cons, List.dropWhile_append]
  split
  · rename_i hnil
    rw [List.isEmpty_iff.mp hnil, List.dropWhile_cons_of_neg h]
    rfl
  · rw [List.reverse_append]
    rfl

/-- What a text begins with once the white space around it is removed. -/
theorem head?_trim_eq_some_iff (h : ¬ isBlank c) :
    (trim cs).head? = some c ↔ ∃ before rest, IsBlankText before ∧ cs = before ++ c :: rest := by
  constructor
  · intro hhead
    obtain ⟨rest, hrest⟩ := List.head?_eq_some_iff.mp hhead
    obtain ⟨before, after, hbefore, _, hcs⟩ := padded_trim cs
    refine ⟨before, rest ++ after, hbefore, ?_⟩
    rw [hcs, hrest]
    simp
  · rintro ⟨before, rest, hbefore, rfl⟩
    rw [trim, trimStart_append hbefore, trimStart, List.dropWhile_cons_of_neg h, trimEnd_cons h]
    rfl

end Text

namespace Settings.File

open Text

/-! ### Pieces of a text -/

theorem splitOn_eq (separator : Char) (cs : List Char) :
    splitOn separator cs = cs.splitOn separator := by
  rw [List.splitOn_eq_splitOnP]
  induction cs with
  | nil => rfl
  | cons c cs ih =>
    rw [splitOn, List.splitOnP_cons_eq_if_modifyHead, ← ih]
    by_cases h : c = separator
    · rw [if_pos h, if_pos (beq_iff_eq.mpr h)]
    · rw [if_neg h, if_neg (mt beq_iff_eq.mp h)]
      cases hpieces : splitOn separator cs with
      | nil => exact absurd (ih.symm.trans hpieces) (List.splitOnP_ne_nil _ _)
      | cons piece pieces => rfl

theorem splitOn_append_cons (separator : Char) (as bs : List Char) :
    splitOn separator (as ++ separator :: bs) = splitOn separator as ++ splitOn separator bs := by
  simp only [splitOn_eq, List.splitOn_eq_splitOnP]
  exact List.splitOnP_append_cons as bs (beq_self_eq_true separator)

/-! ### What a line is -/

/-- Whether a line is blank or a remark. -/
def IsSilent (line : List Char) : Prop :=
  IsBlankText line ∨ ∃ before rest, IsBlankText before ∧ line = before ++ '#' :: rest

/-- Whether a line opens the section of a name. -/
def Opens (name line : List Char) : Prop :=
  ∃ inner, Padded ('[' :: (inner ++ [']'])) line ∧ Padded name inner ∧ '=' ∉ inner

theorem unbracket_eq_some_iff {cs inner : List Char} :
    unbracket cs = some inner ↔ cs = '[' :: (inner ++ [']']) := by
  unfold unbracket
  split
  · rename_i cs
    rw [List.cons.injEq, and_iff_right rfl]
    split
    · rename_i hlast
      obtain ⟨inner', rfl⟩ := List.getLast?_eq_some_iff.mp hlast
      simp
    · rename_i hlast
      refine ⟨nofun, fun h => absurd ?_ hlast⟩
      rw [h, List.getLast?_concat]
  · rename_i hnot
    exact ⟨nofun, fun h => absurd h (hnot _)⟩

theorem tight_brackets (inner : List Char) : Tight ('[' :: (inner ++ [']'])) := by
  refine ⟨fun c hc => ?_, fun c hc => ?_⟩
  · obtain rfl := Option.some.inj hc
    decide
  · rw [← List.cons_append, List.getLast?_concat] at hc
    obtain rfl := Option.some.inj hc
    decide

theorem ofChars_eq_nothing_iff {line : List Char} :
    Line.ofChars line = .nothing ↔ IsSilent line := by
  have hremark : (trim line).head? = some '#' ↔
      ∃ before rest, IsBlankText before ∧ line = before ++ '#' :: rest :=
    head?_trim_eq_some_iff (by decide)
  rw [IsSilent, ← hremark, ← trim_eq_nil_iff]
  unfold Line.ofChars
  dsimp only
  split
  · rename_i h
    simpa using h
  · rename_i h
    refine ⟨fun hnothing => ?_, fun hsilent => absurd (by simpa using hsilent) h⟩
    split at hnothing
    · cases hnothing
    · split at hnothing <;> cases hnothing

theorem ofChars_of_brackets {inner line : List Char} (hline : Padded ('[' :: (inner ++ [']'])) line)
    (heq : '=' ∉ inner) : Line.ofChars line = .header (trim inner) := by
  have htrim : trim line = '[' :: (inner ++ [']']) := trim_of_padded hline (tight_brackets inner)
  unfold Line.ofChars
  simp only [htrim]
  rw [if_neg (by simp), if_neg (by simpa using heq), unbracket_eq_some_iff.mpr rfl]

theorem ofChars_eq_header_iff {name line : List Char} (hname : Tight name) :
    Line.ofChars line = .header name ↔ Opens name line := by
  constructor
  · intro h
    unfold Line.ofChars at h
    dsimp only at h
    split at h
    · cases h
    split at h
    · cases h
    rename_i heq
    split at h
    · rename_i inner hinner
      have hline := unbracket_eq_some_iff.mp hinner
      refine ⟨inner, hline ▸ padded_trim line, ?_, fun hmem => heq ?_⟩
      · exact (trim_eq_iff hname).mp (Line.header.inj h)
      · rw [hline, List.contains_iff_mem]
        simp [hmem]
    · cases h
  · rintro ⟨inner, hline, hinner, heq⟩
    rw [ofChars_of_brackets hline heq, trim_of_padded hinner hname]

end Settings.File

end ComputeKernel
