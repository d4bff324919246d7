import ComputeKernel.Closure.Piece
import ComputeKernel.Closure.Tree

/-!
Reading position of a closure's tokens. The last token marks the end of input and is never passed,
so a cursor that has tokens keeps at least one. Faults are collected as they are met, and reading
goes on behind them.
-/

namespace ComputeKernel

structure Cursor where
  /-- The current token and those behind it. -/
  tokens : List Token
  /-- Where the token in front of the current one stands, once one was passed. -/
  passed : Option Span := none
  /-- Blocks and expressions that are being read. -/
  depth : Nat := 0
  diagnostics : List Diagnostic := []

namespace Cursor

def lexeme (c : Cursor) : Lexeme :=
  match c.tokens with
  | [] => .endOfInput
  | t :: _ => t.lexeme

def here (c : Cursor) : Span :=
  match c.tokens with
  | [] => ⟨0, 0⟩
  | t :: _ => t.span

/-- Where the last passed token stands, or the current one if none was passed. -/
def behind (c : Cursor) : Span := c.passed.getD c.here

def advance (c : Cursor) : Cursor :=
  match c.tokens with
  | t :: u :: rest => { c with tokens := u :: rest, passed := some t.span }
  | _ => c

/-- Passes tokens until one of which `stop` holds, or until the last. -/
def skipTokens (stop : Lexeme → Bool) : List Token → Option Span → List Token × Option Span
  | t :: u :: rest, passed =>
    if stop t.lexeme then (t :: u :: rest, passed) else skipTokens stop (u :: rest) (some t.span)
  | tokens, passed => (tokens, passed)

def skipUntil (stop : Lexeme → Bool) (c : Cursor) : Cursor :=
  let (tokens, passed) := skipTokens stop c.tokens c.passed
  { c with tokens, passed }

/-- Turns a current `>>` into its second half. -/
def splitShift (c : Cursor) : Cursor :=
  match c.tokens with
  | t :: rest => { c with tokens := ⟨.symbol .gt, t.span.start + 1, t.span.stop⟩ :: rest }
  | [] => c

end Cursor

/-- A reading of part of a closure. -/
abbrev Parse := StateM Cursor

namespace Parse

/-- How many blocks and expressions may be open at once. -/
def maxDepth : Nat := 256

def lexeme : Parse Lexeme := return (← get).lexeme

def here : Parse Span := return (← get).here

def behind : Parse Span := return (← get).behind

def advance : Parse Unit := modify Cursor.advance

def skipUntil (stop : Lexeme → Bool) : Parse Unit := modify (Cursor.skipUntil stop)

def report (d : Diagnostic) : Parse Unit :=
  modify fun c => { c with diagnostics := c.diagnostics ++ [d] }

/-- Reports a fault of the current token. -/
def fault (message : String) : Parse Unit := do
  report (.error message (← here))

def faultWithHelp (message help : String) : Parse Unit := do
  report ((Diagnostic.error message (← here)).withHelp help)

def at? (l : Lexeme) : Parse Bool := return (← lexeme) == l

def atSymbol (s : Symbol) : Parse Bool := at? (.symbol s)

def atKeyword (k : Keyword) : Parse Bool := at? (.keyword k)

/-- Passes the current token if it is `l`, and tells whether it was. -/
def eat (l : Lexeme) : Parse Bool := do
  if ← at? l then
    advance
    return true
  else
    return false

def eatSymbol (s : Symbol) : Parse Bool := eat (.symbol s)

/-- Passes the token `l`, which has to be there, and tells where it stands. -/
def expect (l : Lexeme) : Parse Span := do
  let span ← here
  if ← at? l then
    advance
  else
    fault s!"expected {l.description}, found {(← lexeme).description}"
  return span

def expectSymbol (s : Symbol) : Parse Span := expect (.symbol s)

def expectKeyword (k : Keyword) : Parse Span := expect (.keyword k)

/-- Stands for a name that is missing from the source. -/
def missing (span : Span) : Name := ⟨"?", span⟩

/-- Stands for an expression that is missing from the source. -/
def missingExpr (span : Span) : Expr := .name span "?"

def identifier : Parse Name := do
  let span ← here
  match ← lexeme with
  | .ident name =>
    advance
    return ⟨name, span⟩
  | l =>
    fault s!"expected identifier, found {l.description}"
    return missing span

/-- Opens a block or an expression, unless too many are open. One that was refused stays counted. -/
def enter : Parse Bool := do
  modify fun c => { c with depth := c.depth + 1 }
  if (← get).depth > maxDepth then
    faultWithHelp "nesting depth exceeded (maximum 256 levels)"
      "split deeply nested expressions into intermediate `let` bindings"
    return false
  else
    return true

def leave : Parse Unit := modify fun c => { c with depth := c.depth - 1 }

/-- Reports that the bound on the number of reading steps is used up. -/
def outOfSteps : Parse Unit := fault "reading the closure takes too many steps"

def isEnd (l : Lexeme) : Bool := l = .endOfInput

/-- Whether a block ends at this lexeme, for better or worse. -/
def isBlockEnd (l : Lexeme) : Bool := l = .symbol .rbrace || l = .endOfInput

end Parse

end ComputeKernel
