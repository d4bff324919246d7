import ComputeKernel.Proofs.Settings.Lines
import ComputeKernel.Proofs.Shader.Literals
import Mathlib.Data.List.Forall2

/-!
Groups of a settings file. What is written for a group is a list of entries with commas between them.
Blank entries are left out, and the others give the dimensions in their order: an entry keeps its place
as long as no blank one stands before it.
-/

namespace ComputeKernel.Settings.File

open Text

/-! ### Counts -/

/-- Whether a numeral is one of `n`: decimal digits, which may stand behind a plus sign. -/
def Denotes (n : Nat) (numeral : List Char) : Prop :=
  ∃ digits, (numeral = digits ∨ numeral = '+' :: digits) ∧ digits ≠ [] ∧
    (∀ c ∈ digits, isDigit c) ∧ Nat.ofDigitChars 10 digits 0 = n

theorem isDigit_of_readDigits {acc n : Nat} {cs : List Char} (h : readDigits 10 acc cs = some n) :
    ∀ c ∈ cs, isDigit c := by
  induction cs generalizing acc with
  | nil => nofun
  | cons c cs ih =>
    rw [readDigits] at h
    split at h
    · rename_i d hd
      refine List.forall_mem_cons.mpr ⟨?_, ih h⟩
      rw [← isDigitIn_ten]
      exact Option.isSome_iff_exists.mpr ⟨d, hd⟩
    · cases h

theorem readDigits_ten_eq_some_iff {n : Nat} {cs : List Char} :
    readDigits 10 0 cs = some n ↔ (∀ c ∈ cs, isDigit c) ∧ Nat.ofDigitChars 10 cs 0 = n := by
  constructor
  · intro h
    have hdigits := isDigit_of_readDigits h
    rw [Number.readDigits_ten hdigits, Option.some.injEq] at h
    exact ⟨hdigits, h⟩
  · rintro ⟨hdigits, rfl⟩
    exact Number.readDigits_ten hdigits 0

theorem readUnsigned_ten_eq_some_iff {bound n : Nat} {cs : List Char} :
    readUnsigned 10 bound cs = some n ↔ Denotes n cs ∧ n < bound := by
  have hplain : ∀ digits : List Char,
      (if digits = [] then none else (readDigits 10 0 digits).filter (· < bound)) = some n ↔
        (digits ≠ [] ∧ (∀ c ∈ digits, isDigit c) ∧ Nat.ofDigitChars 10 digits 0 = n) ∧ n < bound := by
    intro digits
    by_cases h : digits = []
    · simp [h]
    · rw [if_neg h, Option.filter_eq_some_iff, readDigits_ten_eq_some_iff, decide_eq_true_eq]
      tauto
  by_cases hplus : ∃ rest, cs = '+' :: rest
  · obtain ⟨rest, rfl⟩ := hplus
    refine (hplain rest).trans (and_congr_left fun _ => ⟨fun h => ⟨rest, Or.inr rfl, h⟩, ?_⟩)
    rintro ⟨digits, rfl | hdigits, h⟩
    · exact absurd (h.2.1 '+' List.mem_cons_self) (by decide)
    · rw [(List.cons.inj hdigits).2]
      exact h
  · rw [readUnsigned]
    · refine (hplain cs).trans (and_congr_left fun _ => ⟨fun h => ⟨cs, Or.inl rfl, h⟩, ?_⟩)
      rintro ⟨digits, rfl | hdigits, h⟩
      · exact h
      · exact absurd ⟨digits, hdigits⟩ hplus
    · exact fun rest hrest => hplus ⟨rest, hrest⟩

theorem readCount_eq_some_iff {n : Nat} {cs : List Char} :
    readCount cs = some n ↔ Denotes n cs ∧ 0 < n ∧ n < bound32 := by
  rw [readCount, Option.filter_eq_some_iff, readUnsigned_ten_eq_some_iff, decide_eq_true_eq,
    and_assoc, and_comm (a := n < bound32)]

theorem not_isBlank_of_isDigit {c : Char} (h : isDigit c) : ¬ isBlank c := by
  simp only [isDigit, Bool.and_eq_true, decide_eq_true_eq, Char.le_def, UInt32.le_iff_toNat_le] at h
  have hcode : 0x30 ≤ c.toNat ∧ c.toNat ≤ 0x39 := h
  simp [isBlank, blankRanges]
  omega

theorem Denotes.tight {n : Nat} {numeral : List Char} (h : Denotes n numeral) : Tight numeral := by
  obtain ⟨digits, hnumeral, hne, hdigits, -⟩ := h
  have hlast : ∀ c ∈ numeral.getLast?, ¬ isBlank c := by
    intro c hc
    have hdigit : c ∈ digits.getLast? := by
      rcases hnumeral with rfl | rfl
      · exact hc
      · rwa [List.getLast?_cons_of_ne_nil hne] at hc
    exact not_isBlank_of_isDigit (hdigits c (List.mem_of_getLast? hdigit))
  refine ⟨fun c hc => ?_, hlast⟩
  rcases hnumeral with rfl | rfl
  · exact not_isBlank_of_isDigit (hdigits c (List.mem_of_head? hc))
  · obtain rfl := Option.some.inj hc
    decide

/-- Whether a count is written in an entry, with any white space around it. -/
def Writes (n : Nat) (entry : List Char) : Prop :=
  ∃ numeral, Padded numeral entry ∧ Denotes n numeral ∧ 0 < n ∧ n < bound32

theorem readCount_trim_eq_some_iff {n : Nat} {entry : List Char} :
    readCount (trim entry) = some n ↔ Writes n entry := by
  rw [readCount_eq_some_iff]
  constructor
  · rintro ⟨hdenotes, hbounds⟩
    exact ⟨trim entry, padded_trim entry, hdenotes, hbounds⟩
  · rintro ⟨numeral, hpadded, hdenotes, hbounds⟩
    rw [trim_of_padded hpadded hdenotes.tight]
    exact ⟨hdenotes, hbounds⟩

/-! ### Entries -/

/-- Whether a text has just these entries: between brackets, with a comma between every two. -/
structure Lists (entries : List (List Char)) (text : List Char) : Prop where
  bracketed : Padded ('[' :: ([','].intercalate entries ++ [']'])) text
  separate : ∀ entry ∈ entries, ',' ∉ entry
  ne_nil : entries ≠ []

theorem not_mem_of_mem_splitOn {separator : Char} {cs piece : List Char}
    (h : piece ∈ splitOn separator cs) : separator ∉ piece := by
  induction cs generalizing piece with
  | nil =>
    obtain rfl := List.mem_singleton.mp h
    exact List.not_mem_nil
  | cons c cs ih =>
    rw [splitOn] at h
    split at h
    · rcases List.mem_cons.mp h with rfl | h
      · exact List.not_mem_nil
      · exact ih h
    · rename_i hc
      cases hpieces : splitOn separator cs with
      | nil =>
        rw [hpieces] at h
        obtain rfl := List.mem_singleton.mp h
        simpa using Ne.symm hc
      | cons first pieces =>
        rw [hpieces] at h ih
        rcases List.mem_cons.mp h with rfl | h
        · exact List.not_mem_cons_of_ne_of_not_mem (Ne.symm hc) (ih List.mem_cons_self)
        · exact ih (List.mem_cons_of_mem _ h)

theorem lists_iff {entries : List (List Char)} {text : List Char} :
    Lists entries text ↔ ∃ inner, unbracket (trim text) = some inner ∧ splitOn ',' inner = entries := by
  simp only [unbracket_eq_some_iff, splitOn_eq]
  constructor
  · intro h
    refine ⟨_, trim_of_padded h.bracketed (tight_brackets _), ?_⟩
    exact List.splitOn_intercalate ',' h.separate h.ne_nil
  · rintro ⟨inner, htrim, rfl⟩
    refine ⟨?_, fun entry hentry => ?_, List.splitOn_ne_nil _ _⟩
    · rw [List.intercalate_splitOn, ← htrim]
      exact padded_trim text
    · rw [← splitOn_eq] at hentry
      exact not_mem_of_mem_splitOn hentry

/-- The entries that are not blank. -/
def present (entries : List (List Char)) : List (List Char) :=
  entries.filter fun entry => ¬ IsBlankText entry

theorem mapM_eq_some_iff {α β : Type} {f : α → Option β} {as : List α} {bs : List β} :
    as.mapM f = some bs ↔ List.Forall₂ (fun a b => f a = some b) as bs := by
  induction as generalizing bs with
  | nil => simp [eq_comm]
  | cons a as ih =>
    simp only [List.mapM_cons, Option.bind_eq_bind, Option.bind_eq_some_iff, Option.pure_def,
      Option.some.injEq, List.forall₂_cons_left_iff, ih]
    constructor
    · rintro ⟨b, hb, bs, hbs, rfl⟩
      exact ⟨b, bs, hb, hbs, rfl⟩
    · rintro ⟨b, bs, hb, hbs, rfl⟩
      exact ⟨b, hb, bs, hbs, rfl⟩

/-- The counts of a list of entries. -/
theorem mapM_readCount_eq_some_iff {entries : List (List Char)} {ns : List Nat} :
    ((entries.map trim).filter (! ·.isEmpty)).mapM readCount = some ns ↔
      List.Forall₂ (fun entry n => Writes n entry) (present entries) ns := by
  have hpresent : (entries.map trim).filter (! ·.isEmpty) = (present entries).map trim := by
    rw [List.filter_map, present]
    congr 1
    refine List.filter_congr fun entry _ => ?_
    rw [Bool.eq_iff_iff]
    simp [← trim_eq_nil_iff]
  rw [hpresent, mapM_eq_some_iff, List.forall₂_map_left_iff]
  simp only [readCount_trim_eq_some_iff]

/-! ### Dimensions -/

/-- What a dimension is: the count written in its entry, and 1 without an entry. -/
def Dimension (n : Nat) : Option (List Char) → Prop
  | some entry => Writes n entry
  | none => n = 1

theorem readGroup_eq_some_iff_counts {text : List Char} {x y z : Nat} :
    readGroup (trim text) = some (x, y, z) ↔ ∃ entries, Lists entries text ∧
      ∃ ns, List.Forall₂ (fun entry n => Writes n entry) (present entries) ns ∧
        (ns = [x] ∧ y = 1 ∧ z = 1 ∨ ns = [x, y] ∧ z = 1 ∨ ns = [x, y, z]) := by
  simp only [readGroup, Option.bind_eq_bind, Option.bind_eq_some_iff, lists_iff,
    mapM_readCount_eq_some_iff]
  constructor
  · rintro ⟨inner, hinner, ns, hns, hshape⟩
    refine ⟨_, ⟨inner, hinner, rfl⟩, ns, hns, ?_⟩
    split at hshape <;> simp only [Option.some.injEq, Prod.mk.injEq, reduceCtorEq] at hshape
    · obtain ⟨rfl, rfl, rfl⟩ := hshape
      exact Or.inl ⟨rfl, rfl, rfl⟩
    · obtain ⟨rfl, rfl, rfl⟩ := hshape
      exact Or.inr (Or.inl ⟨rfl, rfl⟩)
    · obtain ⟨rfl, rfl, rfl⟩ := hshape
      exact Or.inr (Or.inr rfl)
  · rintro ⟨_, ⟨inner, hinner, rfl⟩, ns, hns, hshape⟩
    refine ⟨inner, hinner, ns, hns, ?_⟩
    rcases hshape with ⟨rfl, rfl, rfl⟩ | ⟨rfl, rfl⟩ | rfl <;> rfl

/-- What is accepted for a group, and what it means. -/
theorem readGroup_eq_some_iff {text : List Char} {x y z : Nat} :
    readGroup (trim text) = some (x, y, z) ↔ ∃ entries, Lists entries text ∧
      0 < (present entries).length ∧ (present entries).length ≤ 3 ∧
      Dimension x (present entries)[0]? ∧ Dimension y (present entries)[1]? ∧
      Dimension z (present entries)[2]? := by
  rw [readGroup_eq_some_iff_counts]
  refine exists_congr fun entries => and_congr_right fun _ => ?_
  -- There is one case for each number of entries; none and more than three give no group.
  rcases present entries with _ | ⟨a, _ | ⟨b, _ | ⟨c, _ | ⟨d, rest⟩⟩⟩⟩ <;>
    simp only [List.forall₂_nil_left_iff, List.forall₂_cons_left_iff, Dimension] <;> aesop

theorem Dimension.pos {n : Nat} {entry : Option (List Char)} (h : Dimension n entry) : 1 ≤ n := by
  cases entry with
  | none => exact Nat.le_of_eq h.symm
  | some entry =>
    obtain ⟨_, _, _, hpos, _⟩ := h
    exact hpos

theorem readGroup_pos {text : List Char} {x y z : Nat} (h : readGroup (trim text) = some (x, y, z)) :
    1 ≤ x ∧ 1 ≤ y ∧ 1 ≤ z := by
  obtain ⟨_, _, _, _, hx, hy, hz⟩ := readGroup_eq_some_iff.mp h
  exact ⟨hx.pos, hy.pos, hz.pos⟩

/-! ### Places -/

/-- What a dimension is if entries keep their places: the count written in the entry at the place, and 1
if that is blank or missing. -/
def AtPlace (n : Nat) : Option (List Char) → Prop
  | some entry => if IsBlankText entry then n = 1 else Writes n entry
  | none => n = 1

/-- Whether each dimension is that of the entry at its place. -/
structure KeepsPlaces (entries : List (List Char)) (x y z : Nat) : Prop where
  x : AtPlace x entries[0]?
  y : AtPlace y entries[1]?
  z : AtPlace z entries[2]?

/-- Whether no blank entry stands before one that is not blank. -/
def Gapless (entries : List (List Char)) : Prop :=
  entries.Pairwise fun entry later => IsBlankText entry → IsBlankText later

theorem present_eq_nil {entries : List (List Char)} (h : ∀ entry ∈ entries, IsBlankText entry) :
    present entries = [] :=
  List.filter_eq_nil_iff.mpr fun entry hentry => by simpa using h entry hentry

/-- Without gaps the entries that are not blank come first, each at its place. -/
theorem Dimension.atPlace {entries : List (List Char)} (hgapless : Gapless entries) {n i : Nat}
    (h : Dimension n (present entries)[i]?) : AtPlace n entries[i]? := by
  induction entries generalizing i with
  | nil => exact h
  | cons entry entries ih =>
    obtain ⟨hlater, hrest⟩ := List.pairwise_cons.mp hgapless
    by_cases hblank : IsBlankText entry
    · have hall : ∀ e ∈ entry :: entries, IsBlankText e :=
        List.forall_mem_cons.mpr ⟨hblank, fun e he => hlater e he hblank⟩
      rw [present_eq_nil hall] at h
      cases hentry : (entry :: entries)[i]? with
      | none => exact h
      | some e => exact (if_pos (hall e (List.mem_of_getElem? hentry))).mpr h
    · have hpresent : present (entry :: entries) = entry :: present entries :=
        List.filter_cons_of_pos (decide_eq_true hblank)
      rw [hpresent] at h
      cases i with
      | zero => exact (if_neg hblank).mpr h
      | succ i => exact ih hrest h

/-- The dimensions of a group are the counts in the entries that are not blank, in their order, and 1
behind the last of them; so they are those of the entries at their places if there are no gaps. -/
theorem dimensions_of_readGroup {text : List Char} {x y z : Nat}
    (h : readGroup (trim text) = some (x, y, z)) :
    ∃ entries, Lists entries text ∧
      Dimension x (present entries)[0]? ∧ Dimension y (present entries)[1]? ∧
      Dimension z (present entries)[2]? ∧ (Gapless entries → KeepsPlaces entries x y z) := by
  obtain ⟨entries, hlists, _, _, hx, hy, hz⟩ := readGroup_eq_some_iff.mp h
  exact ⟨entries, hlists, hx, hy, hz, fun hgapless =>
    ⟨hx.atPlace hgapless, hy.atPlace hgapless, hz.atPlace hgapless⟩⟩

theorem dimensions_of_readGroup_open :
    readGroup (trim " [ 8, +4, ]".toList) = some (8, 4, 1) ∧
    ∃ entries, Lists entries " [ 8, +4, ]".toList ∧
      Dimension 8 (present entries)[0]? ∧ Dimension 4 (present entries)[1]? ∧
      Dimension 1 (present entries)[2]? ∧ (Gapless entries → KeepsPlaces entries 8 4 1) :=
  have hread : readGroup (trim " [ 8, +4, ]".toList) = some (8, 4, 1) := by decide
  ⟨hread, dimensions_of_readGroup hread⟩

/-- Behind a blank entry places are not kept: what is written second in `[, 4]` is the first dimension. -/
theorem not_keepsPlaces_behindBlank :
    readGroup (trim "[, 4]".toList) = some (4, 1, 1) ∧
      Lists ["".toList, " 4".toList] "[, 4]".toList ∧
      ¬ KeepsPlaces ["".toList, " 4".toList] 4 1 1 := by
  refine ⟨by decide, lists_iff.mpr ⟨", 4".toList, by decide, by decide⟩, fun hkeeps => ?_⟩
  have hfirst : 4 = 1 := hkeeps.x
  cases hfirst

end ComputeKernel.Settings.File
