import ComputeKernel.Closure.Operator

/-!
Lexemes of the closure language. Keywords and symbols are spelled in one way each; numbers and
identifiers carry their text.
-/

namespace ComputeKernel

inductive Keyword where
  | let_ | mut_ | if_ | else_ | for_ | in_ | while_ | loop | break_ | continue_ | return_ | as
  | move | true_ | false_
  deriving DecidableEq, Repr, Inhabited

namespace Keyword

def all : List Keyword :=
  [let_, mut_, if_, else_, for_, in_, while_, loop, break_, continue_, return_, as, move, true_,
    false_]

def spelling : Keyword → String
  | let_ => "let" | mut_ => "mut" | if_ => "if" | else_ => "else" | for_ => "for" | in_ => "in"
  | while_ => "while" | loop => "loop" | break_ => "break" | continue_ => "continue"
  | return_ => "return" | as => "as" | move => "move" | true_ => "true" | false_ => "false"

def ofWord? (word : String) : Option Keyword := all.find? fun k => k.spelling == word

theorem mem_all (k : Keyword) : k ∈ all := by cases k <;> decide

end Keyword

inductive Symbol where
  | lparen | rparen | lbrace | rbrace | lbracket | rbracket
  | comma | colon | colonColon | semicolon | dot | dotDot | dotDotEq
  | pipe | pipePipe | amp | ampAmp | caret | bang | bangEq | eq | eqEq
  | lt | le | gt | ge | shl | shr | plus | minus | star | slash | percent
  | plusEq | minusEq | starEq | slashEq | percentEq | ampEq | pipeEq | caretEq | shlEq | shrEq
  deriving DecidableEq, Repr, Inhabited

namespace Symbol

/-- Every symbol, the longer spellings first. -/
def all : List Symbol :=
  [dotDotEq, shlEq, shrEq,
    colonColon, dotDot, pipePipe, ampAmp, bangEq, eqEq, le, ge, shl, shr, plusEq, minusEq, starEq,
    slashEq, percentEq, ampEq, pipeEq, caretEq,
    lparen, rparen, lbrace, rbrace, lbracket, rbracket, comma, colon, semicolon, dot, pipe, amp,
    caret, bang, eq, lt, gt, plus, minus, star, slash, percent]

def chars : Symbol → List Char
  | lparen => ['('] | rparen => [')'] | lbrace => ['\x7b'] | rbrace => ['\x7d']
  | lbracket => ['['] | rbracket => [']']
  | comma => [','] | colon => [':'] | colonColon => [':', ':'] | semicolon => [';']
  | dot => ['.'] | dotDot => ['.', '.'] | dotDotEq => ['.', '.', '=']
  | pipe => ['|'] | pipePipe => ['|', '|'] | amp => ['&'] | ampAmp => ['&', '&']
  | caret => ['^'] | bang => ['!'] | bangEq => ['!', '='] | eq => ['='] | eqEq => ['=', '=']
  | lt => ['<'] | le => ['<', '='] | gt => ['>'] | ge => ['>', '=']
  | shl => ['<', '<'] | shr => ['>', '>']
  | plus => ['+'] | minus => ['-'] | star => ['*'] | slash => ['/'] | percent => ['%']
  | plusEq => ['+', '='] | minusEq => ['-', '='] | starEq => ['*', '='] | slashEq => ['/', '=']
  | percentEq => ['%', '='] | ampEq => ['&', '='] | pipeEq => ['|', '='] | caretEq => ['^', '=']
  | shlEq => ['<', '<', '='] | shrEq => ['>', '>', '=']

def spelling (s : Symbol) : String := String.ofList s.chars

/-- The longest symbol that a text begins with. -/
def longest? (cs : List Char) : Option Symbol := all.find? fun s => s.chars.isPrefixOf cs

/-- The binary operator that a symbol stands for between two operands. -/
def binaryOp? : Symbol → Option BinaryOp
  | pipePipe => some .or | ampAmp => some .and
  | eqEq => some .eq | bangEq => some .ne | lt => some .lt | le => some .le | gt => some .gt
  | ge => some .ge
  | pipe => some .bitOr | caret => some .bitXor | amp => some .bitAnd
  | shl => some .shl | shr => some .shr
  | plus => some .add | minus => some .sub
  | star => some .mul | slash => some .div | percent => some .rem
  | _ => none

/-- The operator with which a symbol assigns: `none` within `some` for the plain `=`. -/
def assignOp? : Symbol → Option (Option BinaryOp)
  | eq => some none
  | plusEq => some (some .add) | minusEq => some (some .sub) | starEq => some (some .mul)
  | slashEq => some (some .div) | percentEq => some (some .rem)
  | ampEq => some (some .bitAnd) | pipeEq => some (some .bitOr) | caretEq => some (some .bitXor)
  | shlEq => some (some .shl) | shrEq => some (some .shr)
  | _ => none

theorem mem_all (s : Symbol) : s ∈ all := by cases s <;> decide

theorem chars_ne_nil (s : Symbol) : s.chars ≠ [] := by cases s <;> decide

theorem chars_injective {a b : Symbol} (h : a.chars = b.chars) : a = b := by
  cases a <;> cases b <;> first | rfl | (revert h; decide)

end Symbol

/-- A lexeme. The text of a number is the number as written, less its suffix. -/
inductive Lexeme where
  | keyword (k : Keyword)
  | symbol (s : Symbol)
  | integer (text : String) (suffix : Option String)
  | float (text : String) (suffix : Option String)
  | ident (name : String)
  | endOfInput
  deriving DecidableEq, Repr, Inhabited

namespace Lexeme

/-- The lexeme of a word: a keyword if it is spelled like one, otherwise an identifier. -/
def ofWord (word : String) : Lexeme :=
  match Keyword.ofWord? word with
  | some k => keyword k
  | none => ident word

/-- How messages about a closure name a lexeme. -/
def description : Lexeme → String
  | keyword k => s!"'{k.spelling}'"
  | symbol s => s!"'{s.spelling}'"
  | integer text _ => s!"integer literal '{text}'"
  | float text _ => s!"float literal '{text}'"
  | ident name => s!"identifier '{name}'"
  | endOfInput => "end of input"

end Lexeme

end ComputeKernel
