import ComputeKernel.Closure.Grammar.Statements

/-!
Reading a closure, `[move] |param[: Type]| body`. A source is accepted if neither its characters nor
its tokens give rise to a diagnostic; those of the characters are reported first.
-/

namespace ComputeKernel

namespace Parse

/-- How many reading steps a source of `tokens` tokens may take. -/
def stepBound (tokens : Nat) : Nat := 16 * (tokens + 1)

def oneParameter : String :=
  "kernel bodies take exactly one parameter: `|ids: ThreadIds| \x7b ... \x7d`"

def closureShape : String :=
  "kernel bodies are closures of the form `|ids: ThreadIds| \x7b ... \x7d`"

/-- The body of a closure, a block or a single statement. -/
def closureBody (fuel : Nat) : Parse Block := do
  if ← atSymbol .lbrace then
    block fuel
  else
    let stmt ← simpleStmt fuel true
    return ⟨stmt.span, [stmt]⟩

/-- A closure from its parameter on. -/
def closureFromParam (fuel : Nat) : Parse Closure := do
  let param ← identifier
  let paramType ← (do
    if ← eatSymbol .colon then return some (← typeRef fuel) else return none :
      Parse (Option TypeRef))
  if ← atSymbol .comma then
    faultWithHelp "kernel closure takes more than one parameter" oneParameter
  skipUntil fun l => l = .symbol .pipe || isEnd l
  discard (expectSymbol .pipe)
  let body ← closureBody fuel
  let l ← lexeme
  if ! isEnd l then
    fault s!"unexpected {l.description} after kernel body"
  return { param, paramType, body }

/-- A closure, or nothing where the source does not even begin like one. -/
def closure (fuel : Nat) : Parse (Option Closure) := do
  discard (eat (.keyword .move))
  match ← lexeme with
  | .symbol .pipePipe =>
    faultWithHelp "kernel closure has no parameters" oneParameter
    return none
  | .symbol .pipe =>
    advance
    return some (← closureFromParam fuel)
  | l =>
    faultWithHelp s!"expected kernel closure, found {l.description}" closureShape
    return none

end Parse

/-- Reads the tokens of a closure. -/
def Closure.ofTokens (tokens : List Token) : Except (List Diagnostic) Closure :=
  let (closure, cursor) := (Parse.closure (Parse.stepBound tokens.length)).run { tokens }
  match closure, cursor.diagnostics with
  | some closure, [] => .ok closure
  | _, diagnostics => .error diagnostics

/-- Reads a closure from its source text. -/
def Closure.parse (source : String) : Except (List Diagnostic) Closure :=
  let (tokens, lexical) := tokenize source
  match Closure.ofTokens tokens with
  | .ok closure => if lexical.isEmpty then .ok closure else .error lexical
  | .error syntactic => .error (lexical ++ syntactic)

end ComputeKernel
