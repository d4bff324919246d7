import ComputeKernel.Closure.Lexeme
import ComputeKernel.Source.Diagnostic
import ComputeKernel.Text.Numeral

/-!
Numeric lexemes. A number is decimal, with a fraction and an exponent if it has them, or it carries
one of the marks `0x`, `0b` and `0o`; a suffix directly behind it names its type. The point of `1.`
belongs to the number unless a second point or a name follows, as in `1..n` and `1.max(2)`.
-/

namespace ComputeKernel

/-- Letters and the underscore begin an identifier. -/
def isIdentStart (c : Char) : Bool :=
  ('a' ≤ c && c ≤ 'z') || ('A' ≤ c && c ≤ 'Z') || c = '_'

def isIdentContinue (c : Char) : Bool := isIdentStart c || Text.isDigit c

theorem isIdentContinue_of_isIdentStart {c : Char} (h : isIdentStart c) : isIdentContinue c := by
  simp [isIdentContinue, h]

/-- Digits may be set apart by underscores. -/
def isDigitOrGap (c : Char) : Bool := Text.isDigit c || c = '_'

/-- Suffixes that make a number a float. -/
def floatSuffixes : List String := ["f", "F", "d", "D", "f32", "f64"]

/-- Suffixes that an integer may carry. -/
def integerSuffixes : List String := ["u", "U", "u32", "i32", "usize", "isize"]

/-- The part of a number in front of its suffix, and what follows it in the source. Faults are
placed relative to the first character. -/
structure Digits where
  text : List Char
  isFloat : Bool
  /-- Whether the number carries a radix mark. -/
  isMarked : Bool
  faults : List Diagnostic
  rest : List Char

namespace Digits

/-- The digits behind a radix mark. -/
def marked (radix : Nat) (mark cs : List Char) : Digits :=
  let isDigit := fun c => c = '_' || Text.isDigitIn radix c
  let digits := cs.takeWhile isDigit
  let rest := cs.dropWhile isDigit
  let stop := mark.length + digits.length
  let valid : Digits :=
    { text := mark ++ digits, isFloat := false, isMarked := true, faults := [], rest }
  match rest.head?.filter Text.isDigit with
  | some c =>
    { valid with
      text := mark ++ digits ++ rest.takeWhile isDigitOrGap
      faults := [.error s!"invalid digit `{c}` for a base {radix} literal" ⟨stop, stop + 1⟩]
      rest := rest.dropWhile isDigitOrGap }
  | none =>
    if digits.all (· = '_') then
      { valid with faults := [.error "no valid digits found for number" ⟨0, stop⟩] }
    else valid

/-- The point and the digits behind it, if the point belongs to the number. -/
def fraction? : List Char → Option (List Char × List Char)
  | '.' :: rest =>
    match rest with
    | c :: _ =>
      if Text.isDigit c then
        some ('.' :: rest.takeWhile isDigitOrGap, rest.dropWhile isDigitOrGap)
      else if c = '.' || isIdentStart c then none
      else some (['.'], rest)
    | [] => some (['.'], [])
  | _ => none

/-- The mark, sign and digits of an exponent, if at least one digit is there. -/
def exponent? : List Char → Option (List Char × List Char)
  | e :: rest =>
    if e = 'e' || e = 'E' then
      let sign := match rest with
        | '+' :: _ => ['+']
        | '-' :: _ => ['-']
        | _ => []
      let digits := rest.drop sign.length
      match digits with
      | c :: _ =>
        if Text.isDigit c then
          some (e :: sign ++ digits.takeWhile isDigitOrGap, digits.dropWhile isDigitOrGap)
        else none
      | [] => none
    else none
  | [] => none

/-- A number without a radix mark. -/
def decimal (cs : List Char) : Digits :=
  let whole := cs.takeWhile isDigitOrGap
  let rest := cs.dropWhile isDigitOrGap
  let (point, rest, isFractional) := match fraction? rest with
    | some (text, rest) => (text, rest, true)
    | none => ([], rest, false)
  let (power, rest, isScaled) := match exponent? rest with
    | some (text, rest) => (text, rest, true)
    | none => ([], rest, false)
  { text := whole ++ point ++ power
    isFloat := isFractional || isScaled
    isMarked := false
    faults := []
    rest }

def scan (cs : List Char) : Digits :=
  match cs with
  | '0' :: 'x' :: rest => marked 16 ['0', 'x'] rest
  | '0' :: 'b' :: rest => marked 2 ['0', 'b'] rest
  | '0' :: 'o' :: rest => marked 8 ['0', 'o'] rest
  | _ => decimal cs

end Digits

/-- The word directly behind a number, which is its suffix if it is one that numbers can have. -/
def suffixWord (rest : List Char) : List Char :=
  match rest with
  | c :: _ => if isIdentStart c then rest.takeWhile isIdentContinue else []
  | [] => []

/-- The lexeme of a number with the suffix `suffix`, and whether the number can carry it. A float
suffix goes on decimal numbers only, an integer suffix on integers only. -/
def numberLexeme (digits : Digits) (suffix : Option String) : Lexeme × Bool :=
  let text := String.ofList digits.text
  let plain (suffix : Option String) : Lexeme :=
    if digits.isFloat then .float text suffix else .integer text suffix
  match suffix with
  | none => (plain none, true)
  | some s =>
    if s ∈ floatSuffixes ∧ ¬ digits.isMarked then (.float text suffix, true)
    else if s ∈ integerSuffixes ∧ ¬ digits.isFloat then (.integer text suffix, true)
    else (plain none, false)

end ComputeKernel
