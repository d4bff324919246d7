import ComputeKernel.Closure.Number
import ComputeKernel.Text.Blank

/-!
Pieces of a closure's text. The source is cut, from the front and without remainder, into white
space, comments, lexemes and characters that belong to no lexeme. Each piece is at least one
character long, and the pieces put together are the source; the tokens and the diagnostics of the
source are those of its pieces, moved to where each piece stands.
-/

namespace ComputeKernel

structure Piece where
  text : List Char
  /-- The lexeme that the piece spells, if it spells one. -/
  lexeme : Option Lexeme := none
  /-- Faults within the piece, placed relative to its first character. -/
  faults : List Diagnostic := []

/-- Cuts a text behind the `*/` that closes the outermost of `depth` comments and of those opened on
the way. Without such an end the whole text is the first part and there is no second. -/
def splitComment (depth : Nat) : List Char → List Char × Option (List Char)
  | [] => ([], none)
  | '/' :: '*' :: rest =>
    let (text, tail) := splitComment (depth + 1) rest
    ('/' :: '*' :: text, tail)
  | '*' :: '/' :: rest =>
    if depth ≤ 1 then (['*', '/'], some rest)
    else
      let (text, tail) := splitComment (depth - 1) rest
      ('*' :: '/' :: text, tail)
  | c :: rest =>
    let (text, tail) := splitComment depth rest
    (c :: text, tail)

namespace Piece

def blank (cs : List Char) : Piece × List Char :=
  ({ text := cs.takeWhile Text.isSpace }, cs.dropWhile Text.isSpace)

def lineComment (cs : List Char) : Piece × List Char :=
  ({ text := cs.takeWhile (· ≠ '\n') }, cs.dropWhile (· ≠ '\n'))

/-- A block comment; block comments nest. -/
def blockComment (cs : List Char) : Piece × List Char :=
  match splitComment 0 cs with
  | (text, some rest) => ({ text }, rest)
  | (text, none) =>
    ({ text, faults := [.error "unterminated block comment" ⟨0, byteLength text⟩] }, [])

def word (cs : List Char) : Piece × List Char :=
  let text := cs.takeWhile isIdentContinue
  ({ text, lexeme := some (.ofWord (String.ofList text)) }, cs.dropWhile isIdentContinue)

def number (cs : List Char) : Piece × List Char :=
  let digits := Digits.scan cs
  let word := suffixWord digits.rest
  let suffix := if word.isEmpty then none else some (String.ofList word)
  let (lexeme, fits) := numberLexeme digits suffix
  let stop := byteLength digits.text
  let misfit : List Diagnostic :=
    if fits then [] else
      [(Diagnostic.error s!"invalid suffix `{String.ofList word}` for number literal"
        ⟨stop, stop + byteLength word⟩).withHelp
        "kernel literals accept f32, f64, f, d, u32, i32 and u suffixes"]
  ({ text := digits.text ++ word, lexeme := some lexeme, faults := digits.faults ++ misfit },
    digits.rest.drop word.length)

def symbol (s : Symbol) (cs : List Char) : Piece × List Char :=
  ({ text := s.chars, lexeme := some (.symbol s) }, cs.drop s.chars.length)

/-- A character that begins no lexeme. -/
def stray (c : Char) (rest : List Char) : Piece × List Char :=
  ({ text := [c]
     faults :=
      [(Diagnostic.error s!"unexpected character '{c}'" ⟨0, c.utf8Size⟩).withHelp
        "this character is not part of the kernel body language"] },
    rest)

/-- The first piece of a text, and the rest. -/
def next? (cs : List Char) : Option (Piece × List Char) :=
  match cs with
  | [] => none
  | c :: rest =>
    some <|
      if Text.isSpace c then blank cs
      else if ['/', '/'].isPrefixOf cs then lineComment cs
      else if ['/', '*'].isPrefixOf cs then blockComment cs
      else if isIdentStart c then word cs
      else if Text.isDigit c then number cs
      else match Symbol.longest? cs with
        | some s => symbol s cs
        | none => stray c rest

/-- The pieces of a text, at most `limit` of them. -/
def cut (limit : Nat) (cs : List Char) : List Piece :=
  match limit with
  | 0 => []
  | limit + 1 =>
    match next? cs with
    | none => []
    | some (piece, rest) => piece :: cut limit rest

end Piece

/-- The pieces of a text. No piece is empty, so there are at most as many as characters. -/
def pieces (cs : List Char) : List Piece := Piece.cut cs.length cs

structure Token where
  lexeme : Lexeme
  span : Span
  deriving DecidableEq, Repr, Inhabited

namespace Piece

/-- The tokens of pieces of which the first begins at `offset`. -/
def tokens (offset : Nat) : List Piece → List Token
  | [] => []
  | p :: ps =>
    let stop := offset + byteLength p.text
    match p.lexeme with
    | some lexeme => ⟨lexeme, offset, stop⟩ :: tokens stop ps
    | none => tokens stop ps

/-- The diagnostics of pieces of which the first begins at `offset`. -/
def diagnostics (offset : Nat) : List Piece → List Diagnostic
  | [] => []
  | p :: ps => p.faults.map (·.shift offset) ++ diagnostics (offset + byteLength p.text) ps

end Piece

/-- The tokens of a source text, the last of which marks the end of input, and what is wrong with
its characters. -/
def tokenize (source : String) : List Token × List Diagnostic :=
  let ps := pieces source.toList
  (Piece.tokens 0 ps ++ [⟨.endOfInput, source.utf8ByteSize, source.utf8ByteSize⟩],
    Piece.diagnostics 0 ps)

end ComputeKernel
