import ComputeKernel.Closure.Grammar.Expressions

/-!
Statements in a closure. A semicolon ends a statement; it may be left out in front of a closing
brace, behind a conditional in value position, and where the body of a closure is one expression.
-/

namespace ComputeKernel.Parse

/-- An expression or an assignment, with the semicolon behind it. `isBody` tells that the statement
is the whole body of a closure. -/
def simpleStmt (fuel : Nat) (isBody : Bool) : Parse Stmt := do
  let first ← expression fuel 0
  let assign? := match ← lexeme with
    | .symbol s => s.assignOp?
    | _ => none
  let stmt ← (do
    match assign? with
    | some op =>
      advance
      let value ← expression fuel 0
      return .assign (first.span.merge value.span) op first value
    | none => return .eval first.span first : Parse Stmt)
  let isLast := (← atSymbol .rbrace) || (isBody && (← at? .endOfInput))
  let endsWithBrace := match stmt with
    | .eval _ (.choice ..) => true
    | _ => false
  if ! isLast && ! endsWithBrace then
    discard (expectSymbol .semicolon)
  return stmt

def letStmt (fuel : Nat) : Parse Stmt := do
  let start ← here
  discard (expectKeyword .let_)
  let mutable ← eat (.keyword .mut_)
  let name ← identifier
  let type ← (do
    if ← eatSymbol .colon then return some (← typeRef fuel) else return none :
      Parse (Option TypeRef))
  let value ← (do
    if ← eatSymbol .eq then return some (← expression fuel 0) else return none :
      Parse (Option Expr))
  if ! (← atSymbol .rbrace) then
    discard (expectSymbol .semicolon)
  return .let (start.merge (← behind)) mutable name type value

/-- `break`, `continue` or `return`, none of which takes an operand. -/
def jumpStmt (kind : Jump) : Parse Stmt := do
  let start ← here
  advance
  let l ← lexeme
  if l ≠ .symbol .semicolon ∧ l ≠ .symbol .rbrace then
    fault <| match kind with
      | .return => "kernel bodies cannot return a value"
      | _ => "loop labels and break values are not supported in kernels"
    skipUntil fun l => l = .symbol .semicolon || isBlockEnd l
  discard (eatSymbol .semicolon)
  return .jump start kind

mutual

def block (fuel : Nat) : Parse Block :=
  match fuel with
  | 0 => do
    outOfSteps
    return ⟨← here, []⟩
  | fuel + 1 => do
    if ← enter then
      let start ← expectSymbol .lbrace
      let stmts ← statements fuel
      let stop ← expectSymbol .rbrace
      leave
      return ⟨start.merge stop, stmts⟩
    else
      let span ← here
      skipUntil isEnd
      return ⟨span, []⟩

/-- The statements of a block. Semicolons on their own are passed over. -/
def statements (fuel : Nat) : Parse (List Stmt) :=
  match fuel with
  | 0 => do
    outOfSteps
    return []
  | fuel + 1 => do
    if isBlockEnd (← lexeme) then
      return []
    else if ← eatSymbol .semicolon then
      statements fuel
    else
      let stmt ← statement fuel
      let rest ← statements fuel
      return stmt :: rest

def statement (fuel : Nat) : Parse Stmt :=
  match fuel with
  | 0 => do
    outOfSteps
    return .eval (← here) (missingExpr (← here))
  | fuel + 1 => do
    let start ← here
    match ← lexeme with
    | .keyword .let_ => letStmt fuel
    | .keyword .if_ => ifStmt fuel
    | .keyword .for_ => forStmt fuel
    | .keyword .while_ =>
      advance
      let condition ← expression fuel 0
      let body ← block fuel
      return .while (start.merge body.span) condition body
    | .keyword .loop =>
      advance
      let body ← block fuel
      return .loop (start.merge body.span) body
    | .keyword .break_ => jumpStmt .break
    | .keyword .continue_ => jumpStmt .continue
    | .keyword .return_ => jumpStmt .return
    | .symbol .lbrace =>
      let body ← block fuel
      return .nested body.span body
    | _ => simpleStmt fuel false

def ifStmt (fuel : Nat) : Parse Stmt :=
  match fuel with
  | 0 => do
    outOfSteps
    return .eval (← here) (missingExpr (← here))
  | fuel + 1 => do
    let start ← here
    discard (expectKeyword .if_)
    let condition ← expression fuel 0
    let body ← block fuel
    let otherwise ← (do
      if ← eat (.keyword .else_) then
        if ← atKeyword .if_ then
          let chained ← ifStmt fuel
          return some ⟨chained.span, [chained]⟩
        else
          return some (← block fuel)
      else
        return none : Parse (Option Block))
    return .if (start.merge (← behind)) condition body otherwise

/-- `for i in a..b { .. }` and `for i in a..=b { .. }`. -/
def forStmt (fuel : Nat) : Parse Stmt :=
  match fuel with
  | 0 => do
    outOfSteps
    return .eval (← here) (missingExpr (← here))
  | fuel + 1 => do
    let start ← here
    discard (expectKeyword .for_)
    let counter ← identifier
    discard (expectKeyword .in_)
    let first ← expression fuel 0
    let range ← lexeme
    if range ≠ .symbol .dotDot ∧ range ≠ .symbol .dotDotEq then
      faultWithHelp s!"expected range, found {range.description}"
        "kernel loops iterate integer ranges: `for i in 0..n \x7b ... \x7d`"
    advance
    let stop ← expression fuel 0
    let body ← block fuel
    return .for (start.merge body.span) counter first stop (range == .symbol .dotDotEq) body

end

end ComputeKernel.Parse
