import ComputeKernel.Proofs.Lexing.Spelling
import ComputeKernel.Shader.Tree

/-!
Tokens of C. A text is cut into words, numbers and marks, each of them the longest that stands there;
blanks only set tokens apart. The marks that open a comment are tokens of their own, for which the
grammar of expressions has no use.
-/

namespace ComputeKernel.Reading

/-- The marks of C, of which expressions use the named ones only. -/
inductive Mark where
  | lparen | rparen | lbracket | rbracket | dot | comma | question | colon | bang | tilde
  | operator (op : BinaryOp)
  | other (text : String)
  deriving DecidableEq, Repr

inductive Token where
  | word (text : String)
  | number (text : String)
  | mark (m : Mark)
  deriving DecidableEq, Repr

/-- How the marks are spelled, the longer ones first. -/
def marks : List (List Char × Mark) :=
  [(['<', '<', '='], .other "<<="), (['>', '>', '='], .other ">>="), (['.', '.', '.'], .other "..."),
    (['-', '>'], .other "->"), (['+', '+'], .other "++"), (['-', '-'], .other "--"),
    (['<', '<'], .operator .shl), (['>', '>'], .operator .shr), (['<', '='], .operator .le),
    (['>', '='], .operator .ge), (['=', '='], .operator .eq), (['!', '='], .operator .ne),
    (['&', '&'], .operator .and), (['|', '|'], .operator .or), (['*', '='], .other "*="),
    (['/', '='], .other "/="), (['%', '='], .other "%="), (['+', '='], .other "+="),
    (['-', '='], .other "-="), (['&', '='], .other "&="), (['^', '='], .other "^="),
    (['|', '='], .other "|="), (['#', '#'], .other "##"), (['/', '/'], .other "//"),
    (['/', '*'], .other "/*"),
    (['['], .lbracket), ([']'], .rbracket), (['('], .lparen), ([')'], .rparen),
    (['\x7b'], .other "\x7b"), (['\x7d'], .other "\x7d"), (['.'], .dot), (['&'], .operator .bitAnd),
    (['*'], .operator .mul), (['+'], .operator .add), (['-'], .operator .sub), (['~'], .tilde),
    (['!'], .bang), (['/'], .operator .div), (['%'], .operator .rem), (['<'], .operator .lt),
    (['>'], .operator .gt), (['^'], .operator .bitXor), (['|'], .operator .bitOr), (['?'], .question),
    ([':'], .colon), ([';'], .other ";"), (['='], .other "="), ([','], .comma), (['#'], .other "#")]

/-- The longest mark that a text begins with, with its spelling. -/
def longestMark? (cs : List Char) : Option (List Char × Mark) :=
  marks.find? fun p => p.1.isPrefixOf cs

/-- Whether a character behind `prev` belongs to the number of which `prev` is a part. -/
def continuesNumber (prev c : Char) : Bool :=
  isIdentContinue c || c = '.' ||
    ((c = '+' || c = '-') && (prev = 'e' || prev = 'E' || prev = 'p' || prev = 'P'))

/-- What of a text belongs to the number of which `prev` is a part. -/
def numberTail (prev : Char) : List Char → List Char
  | [] => []
  | c :: cs => if continuesNumber prev c then c :: numberTail c cs else []

/-- Whether a number begins with a point, as in `.5`. -/
def startsWithPoint (c : Char) (cs : List Char) : Bool :=
  c = '.' && (cs.head?.any Text.isDigit)

/-- The token that a text begins with, and its characters. -/
def front? (c : Char) (cs : List Char) : Option (Token × List Char) :=
  if isIdentStart c then
    let word := (c :: cs).takeWhile isIdentContinue
    some (.word (String.ofList word), word)
  else if Text.isDigit c || startsWithPoint c cs then
    let number := c :: numberTail c cs
    some (.number (String.ofList number), number)
  else
    (longestMark? (c :: cs)).map fun (chars, m) => (.mark m, chars)

/-- The tokens of a text, if each character belongs to one. -/
def lex : List Char → Option (List Token)
  | [] => some []
  | c :: cs =>
    if c = ' ' then lex cs
    else
      match front? c cs with
      | some (token, chars) => (lex (cs.drop (chars.length - 1))).map (token :: ·)
      | none => none
termination_by cs => cs.length

/-! ### Cutting a text -/

theorem lex_nil : lex [] = some [] := by rw [lex]

theorem lex_blank (cs : List Char) : lex (' ' :: cs) = lex cs := by
  rw [lex, if_pos rfl]

theorem lex_of_front? {c : Char} {cs rest : List Char} {token : Token}
    (h : front? c (cs ++ rest) = some (token, c :: cs)) (hc : c ≠ ' ') :
    lex (c :: cs ++ rest) = (lex rest).map (token :: ·) := by
  rw [List.cons_append, lex, if_neg hc, h]
  simp

/-- A text stands apart from a word in front of it. -/
def ApartFromWord (rest : List Char) : Prop := ∀ c ∈ rest.head?, ¬ isIdentContinue c

theorem takeWhile_append_apart {w rest : List Char} (hw : ∀ c ∈ w, isIdentContinue c)
    (hrest : ApartFromWord rest) : (w ++ rest).takeWhile isIdentContinue = w := by
  rw [List.takeWhile_append_of_pos hw]
  cases rest with
  | nil => simp
  | cons c rest => rw [List.takeWhile_cons_of_neg (hrest c rfl), List.append_nil]

theorem lex_word {w rest : List Char} (hw : IsWord w) (hrest : ApartFromWord rest) :
    lex (w ++ rest) = (lex rest).map (.word (String.ofList w) :: ·) := by
  obtain ⟨c, cs, rfl, hc, hcs⟩ := hw
  have hall : ∀ d ∈ c :: cs, isIdentContinue d :=
    List.forall_mem_cons.mpr ⟨isIdentContinue_of_isIdentStart hc, hcs⟩
  refine lex_of_front? ?_ ?_
  · rw [front?, if_pos hc]
    simp only [← List.cons_append, takeWhile_append_apart hall hrest]
  · rintro rfl
    revert hc
    decide

/-- A text stands apart from a number in front of it. -/
def ApartFromNumber (rest : List Char) : Prop :=
  ∀ c ∈ rest.head?, ¬ isIdentContinue c ∧ c ≠ '.' ∧ c ≠ '+' ∧ c ≠ '-'

theorem numberTail_append {prev : Char} {cs rest : List Char} (hcs : NumberTail prev cs)
    (hrest : ApartFromNumber rest) : numberTail prev (cs ++ rest) = cs := by
  induction cs generalizing prev with
  | nil =>
    cases rest with
    | nil => rfl
    | cons c rest =>
      obtain ⟨hword, hpoint, hplus, hminus⟩ := hrest c rfl
      rw [List.nil_append, numberTail, if_neg]
      simp [continuesNumber, hword, hpoint, hplus, hminus]
  | cons c cs ih =>
    obtain ⟨hc, hcs⟩ := hcs
    have hcontinues : continuesNumber prev c := by
      simp only [isNumberChar, continuesNumber, Bool.or_eq_true, Bool.and_eq_true,
        decide_eq_true_eq] at hc ⊢
      rcases hc with (hc | hc) | ⟨hsign, hmark⟩
      · exact Or.inl (Or.inl hc)
      · exact Or.inl (Or.inr hc)
      · exact Or.inr ⟨hsign, Or.inl (Or.inl hmark)⟩
    rw [List.cons_append, numberTail, if_pos hcontinues, ih hcs]

theorem isIdentStart_eq_false_of_isDigit {c : Char} (h : Text.isDigit c) : isIdentStart c = false := by
  simp only [Text.isDigit, Bool.and_eq_true, decide_eq_true_eq] at h
  rw [← Bool.not_eq_true]
  intro hstart
  simp only [isIdentStart, Bool.or_eq_true, Bool.and_eq_true, decide_eq_true_eq] at hstart
  rcases hstart with (⟨ha, _⟩ | ⟨hA, _⟩) | rfl
  · exact absurd (Char.le_trans ha h.2) (by decide)
  · exact absurd (Char.le_trans hA h.2) (by decide)
  · exact absurd h.2 (by decide)

theorem lex_number {n rest : List Char} (hn : IsNumber n) (hrest : ApartFromNumber rest) :
    lex (n ++ rest) = (lex rest).map (.number (String.ofList n) :: ·) := by
  obtain ⟨c, cs, rfl, hc, hcs⟩ := hn
  have hstart := isIdentStart_eq_false_of_isDigit hc
  refine lex_of_front? ?_ ?_
  · rw [front?, if_neg (by simp [hstart]), if_pos (by simp [hc])]
    simp only [numberTail_append hcs hrest]
  · rintro rfl
    revert hc
    decide

/-- A mark is cut off where no longer one stands. -/
theorem lex_mark {c : Char} {cs rest : List Char} {m : Mark}
    (hmark : longestMark? (c :: cs ++ rest) = some (c :: cs, m))
    (hpoint : startsWithPoint c (cs ++ rest) = false) :
    lex (c :: cs ++ rest) = (lex rest).map (.mark m :: ·) := by
  have hmem := List.mem_of_find?_eq_some hmark
  have hall : marks.all fun p => p.1.head?.all fun d =>
      ! isIdentStart d && ! Text.isDigit d && d ≠ ' ' := by decide
  have hplain := List.all_eq_true.mp hall _ hmem
  simp only [List.head?_cons, Option.all_some, Bool.and_eq_true, Bool.not_eq_true',
    decide_eq_true_eq] at hplain
  obtain ⟨⟨hstart, hdigit⟩, hblank⟩ := hplain
  refine lex_of_front? ?_ hblank
  rw [front?, if_neg (by simp [hstart]), if_neg (by simp [hdigit, hpoint]), ← List.cons_append, hmark]
  rfl

end ComputeKernel.Reading
