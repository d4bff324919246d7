import ComputeKernel.Closure.Grammar.Types

/-!
Expressions in a closure. Binary operators are read by their rank; `as` binds tighter than any of
them, a unary operator tighter still, and members, calls and indexes tightest of all.
-/

namespace ComputeKernel.Parse

/-- What stands behind a point. -/
def memberName : Parse Name := do
  match ← lexeme with
  | .integer text _ =>
    faultWithHelp "tuple fields are not supported in kernels"
      "bind the components with separate `let` statements"
    let span ← here
    advance
    return ⟨text, span⟩
  | _ => identifier

mutual

/-- An expression whose binary operators, outside of brackets, all have at least the rank `floor`. -/
def expression (fuel floor : Nat) : Parse Expr :=
  match fuel with
  | 0 => do
    outOfSteps
    return missingExpr (← here)
  | fuel + 1 => do
    if ← enter then
      let first ← operand fuel
      let whole ← operators fuel floor first
      leave
      return whole
    else
      let span ← here
      skipUntil isEnd
      return missingExpr span

/-- The casts and binary operators behind `left`. -/
def operators (fuel floor : Nat) (left : Expr) : Parse Expr :=
  match fuel with
  | 0 => do
    outOfSteps
    return left
  | fuel + 1 => do
    match ← lexeme with
    | .keyword .as =>
      advance
      let type ← typeRef fuel
      operators fuel floor (.cast (left.span.merge type.span) left type)
    | .symbol s =>
      match s.binaryOp? with
      | none => return left
      | some op =>
        if op.rank < floor then
          return left
        else
          advance
          let right ← expression fuel (op.rank + 1)
          operators fuel floor (.binary (left.span.merge right.span) op left right)
    | _ => return left

/-- A primary expression with its unary operators and members. -/
def operand (fuel : Nat) : Parse Expr :=
  match fuel with
  | 0 => do
    outOfSteps
    return missingExpr (← here)
  | fuel + 1 => do
    let start ← here
    match ← lexeme with
    | .symbol .minus =>
      advance
      let inner ← operand fuel
      return .unary (start.merge inner.span) .neg inner
    | .symbol .bang =>
      advance
      let inner ← operand fuel
      return .unary (start.merge inner.span) .not inner
    | _ =>
      let first ← primary fuel
      members fuel first

/-- The members, method calls and indexes behind `receiver`. -/
def members (fuel : Nat) (receiver : Expr) : Parse Expr :=
  match fuel with
  | 0 => do
    outOfSteps
    return receiver
  | fuel + 1 => do
    match ← lexeme with
    | .symbol .dot =>
      advance
      let member ← memberName
      if ← atSymbol .lparen then
        let args ← arguments fuel
        members fuel (.method (receiver.span.merge (← behind)) receiver member args)
      else
        members fuel (.field (receiver.span.merge member.span) receiver member)
    | .symbol .lbracket =>
      advance
      let index ← expression fuel 0
      discard (expectSymbol .rbracket)
      members fuel (.index (receiver.span.merge (← behind)) receiver index)
    | .symbol .lparen =>
      faultWithHelp "only paths can be called in kernels"
        "call intrinsics through `Hlsl::name(..)` and constructors through `Type::new(..)`"
      discard (arguments fuel)
      members fuel receiver
    | _ => return receiver

def primary (fuel : Nat) : Parse Expr :=
  match fuel with
  | 0 => do
    outOfSteps
    return missingExpr (← here)
  | fuel + 1 => do
    let start ← here
    match ← lexeme with
    | .integer digits suffix =>
      advance
      return .literal start (.integer digits suffix)
    | .float digits suffix =>
      advance
      return .literal start (.float digits suffix)
    | .keyword .true_ =>
      advance
      return .literal start (.bool true)
    | .keyword .false_ =>
      advance
      return .literal start (.bool false)
    | .ident first =>
      advance
      let rest ← pathTail fuel
      let pathSpan := start.merge (← behind)
      if ← atSymbol .lparen then
        let args ← arguments fuel
        return .call (start.merge (← behind)) (first :: rest) pathSpan args
      else if rest.isEmpty then
        return .name pathSpan first
      else
        return .path pathSpan (first :: rest)
    | .symbol .lparen => parenthesized fuel
    | .keyword .if_ => conditional fuel
    | l =>
      fault s!"expected expression, found {l.description}"
      if ! isBlockEnd l then
        advance
      return missingExpr start

/-- `(e)` keeps its parentheses; `(a, b)` and `(a,)` are tuples. -/
def parenthesized (fuel : Nat) : Parse Expr :=
  match fuel with
  | 0 => do
    outOfSteps
    return missingExpr (← here)
  | fuel + 1 => do
    let start ← expectSymbol .lparen
    if ← atSymbol .rparen then
      fault "the unit value `()` is not supported in kernel expressions"
      let stop ← expectSymbol .rparen
      return .tuple (start.merge stop) []
    else
      let first ← expression fuel 0
      if ← atSymbol .rparen then
        let stop ← expectSymbol .rparen
        return .paren (start.merge stop) first
      else
        let rest ← tupleItems fuel
        let stop ← expectSymbol .rparen
        return .tuple (start.merge stop) (first :: rest)

/-- The items of a tuple behind the first, each behind a comma, and perhaps a last comma. -/
def tupleItems (fuel : Nat) : Parse (List Expr) :=
  match fuel with
  | 0 => do
    outOfSteps
    return []
  | fuel + 1 => do
    if ← eatSymbol .comma then
      if ← atSymbol .rparen then
        return []
      else
        let item ← expression fuel 0
        let rest ← tupleItems fuel
        return item :: rest
    else
      return []

/-- `if c { a } else { b }` with one expression to a branch. -/
def conditional (fuel : Nat) : Parse Expr :=
  match fuel with
  | 0 => do
    outOfSteps
    return missingExpr (← here)
  | fuel + 1 => do
    let start ← here
    discard (expectKeyword .if_)
    let condition ← expression fuel 0
    let yes ← branch fuel
    if ← eat (.keyword .else_) then
      let no ← (do
        if ← atKeyword .if_ then conditional fuel else branch fuel : Parse Expr)
      return .choice (start.merge no.span) condition yes no
    else
      faultWithHelp "`if` used as a value needs an `else` branch"
        "add `else \x7b ... \x7d` or turn the `if` into a statement"
      return missingExpr (start.merge yes.span)

def branch (fuel : Nat) : Parse Expr :=
  match fuel with
  | 0 => do
    outOfSteps
    return missingExpr (← here)
  | fuel + 1 => do
    discard (expectSymbol .lbrace)
    let value ← expression fuel 0
    if ! (← atSymbol .rbrace) then
      faultWithHelp "`if` branches used as values must be a single expression"
        "compute the branch value with statements before the `if`"
      skipUntil isBlockEnd
    discard (expectSymbol .rbrace)
    return value

/-- An argument list in its parentheses. -/
def arguments (fuel : Nat) : Parse (List Expr) :=
  match fuel with
  | 0 => do
    outOfSteps
    return []
  | fuel + 1 => do
    discard (expectSymbol .lparen)
    let args ← argumentItems fuel
    discard (expectSymbol .rparen)
    return args

/-- Arguments with commas between them, and perhaps a last comma. -/
def argumentItems (fuel : Nat) : Parse (List Expr) :=
  match fuel with
  | 0 => do
    outOfSteps
    return []
  | fuel + 1 => do
    let l ← lexeme
    if l = .symbol .rparen ∨ l = .endOfInput then
      return []
    else
      let arg ← expression fuel 0
      if ← eatSymbol .comma then
        let rest ← argumentItems fuel
        return arg :: rest
      else
        return [arg]

end

end ComputeKernel.Parse
