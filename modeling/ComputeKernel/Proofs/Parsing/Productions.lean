import ComputeKernel.Closure.Parse

/-!
Readings as plans. The readings of the grammar call one another, and the fuel they are given says
only how deep they may do so. A plan is one such reading with its calls left open: elementary steps
that act on the cursor at once, and calls of productions, whose answers the rest waits for. Plans know
no fuel. Answered by the readings with `fuel` steps, the plan of a production is the reading with one
step more; followed through to the end, it is a run of the reading, with a count of what it took.
-/

namespace ComputeKernel

open Parse

/-- The readings that call themselves or one another, each with what it is given. Passing over tokens
is one of them, as it goes from token to token. -/
inductive Production : Type → Type where
  | skip (stop : Lexeme → Bool) : stop .endOfInput → Production Unit
  | pathTail : Production (List String)
  | typeRef : Production TypeRef
  | typeArgs : Production (List HostType)
  | expression (floor : Nat) : Production Expr
  | operators (floor : Nat) (left : Expr) : Production Expr
  | operand : Production Expr
  | members (receiver : Expr) : Production Expr
  | primary : Production Expr
  | parenthesized : Production Expr
  | tupleItems : Production (List Expr)
  | conditional : Production Expr
  | branch : Production Expr
  | arguments : Production (List Expr)
  | argumentItems : Production (List Expr)
  | block : Production Block
  | statements : Production (List Stmt)
  | statement : Production Stmt
  | ifStmt : Production Stmt
  | forStmt : Production Stmt

inductive Plan (α : Type) : Type 1 where
  | done (a : α)
  /-- An elementary step, and what is done with what it finds. -/
  | move {β : Type} (step : Parse β) (next : β → Plan α)
  /-- A call, and what is done with what it reads. -/
  | call {β : Type} (p : Production β) (next : β → Plan α)

namespace Plan

variable {α β : Type}

def bind : Plan α → (α → Plan β) → Plan β
  | done a, f => f a
  | move step next, f => move step fun b => (next b).bind f
  | call p next, f => call p fun b => (next b).bind f

instance : Monad Plan where
  pure := done
  bind := bind

instance : MonadLift Parse Plan := ⟨fun step => move step done⟩

def ask (p : Production α) : Plan α := call p done

/-! ### The plans of the grammar -/

def skip (stop : Lexeme → Bool) (hstop : stop .endOfInput) : Plan Unit := do
  if stop (← lexeme) then
    return
  else
    advance
    ask (.skip stop hstop)

def pathTail : Plan (List String) := do
  if ← eatSymbol .colonColon then
    let segment ← identifier
    let rest ← ask .pathTail
    return segment.text :: rest
  else
    return []

def typeRef : Plan TypeRef := do
  let start ← here
  let first ← identifier
  let rest ← ask .pathTail
  let args ← (do
    if ← eatSymbol .lt then
      let args ← ask .typeArgs
      closeAngle
      return args
    else
      return [] : Plan (List HostType))
  return ⟨⟨Text.joinPath (first.text :: rest), args⟩, start.merge (← behind)⟩

def typeArgs : Plan (List HostType) := do
  let arg ← ask .typeRef
  if ← eatSymbol .comma then
    let rest ← ask .typeArgs
    return arg.type :: rest
  else
    return [arg.type]

def expression (floor : Nat) : Plan Expr := do
  if ← enter then
    let first ← ask .operand
    let whole ← ask (.operators floor first)
    leave
    return whole
  else
    let span ← here
    ask (.skip isEnd (by decide))
    return missingExpr span

def operators (floor : Nat) (left : Expr) : Plan Expr := do
  match ← lexeme with
  | .keyword .as =>
    advance
    let type ← ask .typeRef
    ask (.operators floor (.cast (left.span.merge type.span) left type))
  | .symbol s =>
    match s.binaryOp? with
    | none => return left
    | some op =>
      if op.rank < floor then
        return left
      else
        advance
        let right ← ask (.expression (op.rank + 1))
        ask (.operators floor (.binary (left.span.merge right.span) op left right))
  | _ => return left

def operand : Plan Expr := do
  let start ← here
  match ← lexeme with
  | .symbol .minus =>
    advance
    let inner ← ask .operand
    return .unary (start.merge inner.span) .neg inner
  | .symbol .bang =>
    advance
    let inner ← ask .operand
    return .unary (start.merge inner.span) .not inner
  | _ =>
    let first ← ask .primary
    ask (.members first)

def members (receiver : Expr) : Plan Expr := do
  match ← lexeme with
  | .symbol .dot =>
    advance
    let member ← memberName
    if ← atSymbol .lparen then
      let args ← ask .arguments
      ask (.members (.method (receiver.span.merge (← behind)) receiver member args))
    else
      ask (.members (.field (receiver.span.merge member.span) receiver member))
  | .symbol .lbracket =>
    advance
    let index ← ask (.expression 0)
    discard (expectSymbol .rbracket)
    ask (.members (.index (receiver.span.merge (← behind)) receiver index))
  | .symbol .lparen =>
    faultWithHelp "only paths can be called in kernels"
      "call intrinsics through `Hlsl::name(..)` and constructors through `Type::new(..)`"
    discard (ask .arguments)
    ask (.members receiver)
  | _ => return receiver

def primary : Plan Expr := do
  let start ← here
  match ← lexeme with
  | .integer digits suffix =>
    advance
    return .literal start (.integer digits suffix)
  | .float digits suffix =>
    advance
    return .literal start (.float digits suffix)
  | .keyword .true_ =>
    advance
    return .literal start (.bool true)
  | .keyword .false_ =>
    advance
    return .literal start (.bool false)
  | .ident first =>
    advance
    let rest ← ask .pathTail
    let pathSpan := start.merge (← behind)
    if ← atSymbol .lparen then
      let args ← ask .arguments
      return .call (start.merge (← behind)) (first :: rest) pathSpan args
    else if rest.isEmpty then
      return .name pathSpan first
    else
      return .path pathSpan (first :: rest)
  | .symbol .lparen => ask .parenthesized
  | .keyword .if_ => ask .conditional
  | l =>
    fault s!"expected expression, found {l.description}"
    if ! isBlockEnd l then
      advance
    return missingExpr start

def parenthesized : Plan Expr := do
  let start ← expectSymbol .lparen
  if ← atSymbol .rparen then
    fault "the unit value `()` is not supported in kernel expressions"
    let stop ← expectSymbol .rparen
    return .tuple (start.merge stop) []
  else
    let first ← ask (.expression 0)
    if ← atSymbol .rparen then
      let stop ← expectSymbol .rparen
      return .paren (start.merge stop) first
    else
      let rest ← ask .tupleItems
      let stop ← expectSymbol .rparen
      return .tuple (start.merge stop) (first :: rest)

def tupleItems : Plan (List Expr) := do
  if ← eatSymbol .comma then
    if ← atSymbol .rparen then
      return []
    else
      let item ← ask (.expression 0)
      let rest ← ask .tupleItems
      return item :: rest
  else
    return []

def conditional : Plan Expr := do
  let start ← here
  discard (expectKeyword .if_)
  let condition ← ask (.expression 0)
  let yes ← ask .branch
  if ← eat (.keyword .else_) then
    let no ← (do
      if ← atKeyword .if_ then ask .conditional else ask .branch : Plan Expr)
    return .choice (start.merge no.span) condition yes no
  else
    faultWithHelp "`if` used as a value needs an `else` branch"
      "add `else \x7b ... \x7d` or turn the `if` into a statement"
    return missingExpr (start.merge yes.span)

def branch : Plan Expr := do
  discard (expectSymbol .lbrace)
  let value ← ask (.expression 0)
  if ! (← atSymbol .rbrace) then
    faultWithHelp "`if` branches used as values must be a single expression"
      "compute the branch value with statements before the `if`"
    ask (.skip isBlockEnd (by decide))
  discard (expectSymbol .rbrace)
  return value

def arguments : Plan (List Expr) := do
  discard (expectSymbol .lparen)
  let args ← ask .argumentItems
  discard (expectSymbol .rparen)
  return args

def argumentItems : Plan (List Expr) := do
  let l ← lexeme
  if l = .symbol .rparen ∨ l = .endOfInput then
    return []
  else
    let arg ← ask (.expression 0)
    if ← eatSymbol .comma then
      let rest ← ask .argumentItems
      return arg :: rest
    else
      return [arg]

def simpleStmt (isBody : Bool) : Plan Stmt := do
  let first ← ask (.expression 0)
  let assign? := match ← lexeme with
    | .symbol s => s.assignOp?
    | _ => none
  let stmt ← (do
    match assign? with
    | some op =>
      advance
      let value ← ask (.expression 0)
      return .assign (first.span.merge value.span) op first value
    | none => return .eval first.span first : Plan Stmt)
  let isLast := (← atSymbol .rbrace) || (isBody && (← at? .endOfInput))
  let endsWithBrace := match stmt with
    | .eval _ (.choice ..) => true
    | _ => false
  if ! isLast && ! endsWithBrace then
    discard (expectSymbol .semicolon)
  return stmt

def letStmt : Plan Stmt := do
  let start ← here
  discard (expectKeyword .let_)
  let mutable ← eat (.keyword .mut_)
  let name ← identifier
  let type ← (do
    if ← eatSymbol .colon then return some (← ask .typeRef) else return none :
      Plan (Option TypeRef))
  let value ← (do
    if ← eatSymbol .eq then return some (← ask (.expression 0)) else return none :
      Plan (Option Expr))
  if ! (← atSymbol .rbrace) then
    discard (expectSymbol .semicolon)
  return .let (start.merge (← behind)) mutable name type value

def jumpStmt (kind : Jump) : Plan Stmt := do
  let start ← here
  advance
  let l ← lexeme
  if l ≠ .symbol .semicolon ∧ l ≠ .symbol .rbrace then
    fault <| match kind with
      | .return => "kernel bodies cannot return a value"
      | _ => "loop labels and break values are not supported in kernels"
    ask (.skip (fun l => l = .symbol .semicolon || isBlockEnd l) (by decide))
  discard (eatSymbol .semicolon)
  return .jump start kind

def block : Plan Block := do
  if ← enter then
    let start ← expectSymbol .lbrace
    let stmts ← ask .statements
    let stop ← expectSymbol .rbrace
    leave
    return ⟨start.merge stop, stmts⟩
  else
    let span ← here
    ask (.skip isEnd (by decide))
    return ⟨span, []⟩

def statements : Plan (List Stmt) := do
  if isBlockEnd (← lexeme) then
    return []
  else if ← eatSymbol .semicolon then
    ask .statements
  else
    let stmt ← ask .statement
    let rest ← ask .statements
    return stmt :: rest

def statement : Plan Stmt := do
  let start ← here
  match ← lexeme with
  | .keyword .let_ => letStmt
  | .keyword .if_ => ask .ifStmt
  | .keyword .for_ => ask .forStmt
  | .keyword .while_ =>
    advance
    let condition ← ask (.expression 0)
    let body ← ask .block
    return .while (start.merge body.span) condition body
  | .keyword .loop =>
    advance
    let body ← ask .block
    return .loop (start.merge body.span) body
  | .keyword .break_ => jumpStmt .break
  | .keyword .continue_ => jumpStmt .continue
  | .keyword .return_ => jumpStmt .return
  | .symbol .lbrace =>
    let body ← ask .block
    return .nested body.span body
  | _ => simpleStmt false

def ifStmt : Plan Stmt := do
  let start ← here
  discard (expectKeyword .if_)
  let condition ← ask (.expression 0)
  let body ← ask .block
  let otherwise ← (do
    if ← eat (.keyword .else_) then
      if ← atKeyword .if_ then
        let chained ← ask .ifStmt
        return some ⟨chained.span, [chained]⟩
      else
        return some (← ask .block)
    else
      return none : Plan (Option Block))
  return .if (start.merge (← behind)) condition body otherwise

def forStmt : Plan Stmt := do
  let start ← here
  discard (expectKeyword .for_)
  let counter ← identifier
  discard (expectKeyword .in_)
  let first ← ask (.expression 0)
  let range ← lexeme
  if range ≠ .symbol .dotDot ∧ range ≠ .symbol .dotDotEq then
    faultWithHelp s!"expected range, found {range.description}"
      "kernel loops iterate integer ranges: `for i in 0..n \x7b ... \x7d`"
  advance
  let stop ← ask (.expression 0)
  let body ← ask .block
  return .for (start.merge body.span) counter first stop (range == .symbol .dotDotEq) body

def closureBody : Plan Block := do
  if ← atSymbol .lbrace then
    ask .block
  else
    let stmt ← simpleStmt true
    return ⟨stmt.span, [stmt]⟩

def closureFromParam : Plan Closure := do
  let param ← identifier
  let paramType ← (do
    if ← eatSymbol .colon then return some (← ask .typeRef) else return none :
      Plan (Option TypeRef))
  if ← atSymbol .comma then
    faultWithHelp "kernel closure takes more than one parameter" oneParameter
  ask (.skip (fun l => l = .symbol .pipe || isEnd l) (by decide))
  discard (expectSymbol .pipe)
  let body ← closureBody
  let l ← lexeme
  if ! isEnd l then
    fault s!"unexpected {l.description} after kernel body"
  return { param, paramType, body }

/-- A closure is read once, by no production. -/
def closure : Plan (Option Closure) := do
  discard (eat (.keyword .move))
  match ← lexeme with
  | .symbol .pipePipe =>
    faultWithHelp "kernel closure has no parameters" oneParameter
    return none
  | .symbol .pipe =>
    advance
    return some (← closureFromParam)
  | l =>
    faultWithHelp s!"expected kernel closure, found {l.description}" closureShape
    return none

end Plan

/-- What a call of a production does. -/
def Production.body : {α : Type} → Production α → Plan α
  | _, .skip stop hstop => .skip stop hstop
  | _, .pathTail => .pathTail
  | _, .typeRef => .typeRef
  | _, .typeArgs => .typeArgs
  | _, .expression floor => .expression floor
  | _, .operators floor left => .operators floor left
  | _, .operand => .operand
  | _, .members receiver => .members receiver
  | _, .primary => .primary
  | _, .parenthesized => .parenthesized
  | _, .tupleItems => .tupleItems
  | _, .conditional => .conditional
  | _, .branch => .branch
  | _, .arguments => .arguments
  | _, .argumentItems => .argumentItems
  | _, .block => .block
  | _, .statements => .statements
  | _, .statement => .statement
  | _, .ifStmt => .ifStmt
  | _, .forStmt => .forStmt

/-- The reading of a production with `fuel` steps. -/
def Production.read (fuel : Nat) : {α : Type} → Production α → Parse α
  | _, .skip stop _ => skipUntil stop
  | _, .pathTail => Parse.pathTail fuel
  | _, .typeRef => Parse.typeRef fuel
  | _, .typeArgs => Parse.typeArgs fuel
  | _, .expression floor => Parse.expression fuel floor
  | _, .operators floor left => Parse.operators fuel floor left
  | _, .operand => Parse.operand fuel
  | _, .members receiver => Parse.members fuel receiver
  | _, .primary => Parse.primary fuel
  | _, .parenthesized => Parse.parenthesized fuel
  | _, .tupleItems => Parse.tupleItems fuel
  | _, .conditional => Parse.conditional fuel
  | _, .branch => Parse.branch fuel
  | _, .arguments => Parse.arguments fuel
  | _, .argumentItems => Parse.argumentItems fuel
  | _, .block => Parse.block fuel
  | _, .statements => Parse.statements fuel
  | _, .statement => Parse.statement fuel
  | _, .ifStmt => Parse.ifStmt fuel
  | _, .forStmt => Parse.forStmt fuel

/-! ### Plans whose calls are answered -/

namespace Plan

variable {α β : Type}

/-- The reading that answers each call of a plan by `read`. -/
def runWith (read : {β : Type} → Production β → Parse β) : Plan α → Parse α
  | done a => Pure.pure a
  | move step next => step >>= fun b => (next b).runWith read
  | call p next => read p >>= fun b => (next b).runWith read

section

variable (read : {β : Type} → Production β → Parse β)

@[simp]
theorem runWith_pure (a : α) : (Pure.pure a : Plan α).runWith read = Pure.pure a := rfl

@[simp]
theorem runWith_bind (plan : Plan α) (f : α → Plan β) :
    (plan >>= f).runWith read = plan.runWith read >>= fun a => (f a).runWith read := by
  induction plan with
  | done a => rfl
  | move step next ih => exact (congrArg (step >>= ·) (funext ih)).trans (bind_assoc _ _ _).symm
  | call p next ih => exact (congrArg (read p >>= ·) (funext ih)).trans (bind_assoc _ _ _).symm

@[simp]
theorem runWith_discard (plan : Plan α) :
    (discard plan).runWith read = discard (plan.runWith read) := runWith_bind read plan _

@[simp]
theorem runWith_lift (step : Parse α) : (liftM step : Plan α).runWith read = step := rfl

@[simp]
theorem runWith_ask (p : Production α) : (ask p).runWith read = read p := rfl

@[simp]
theorem runWith_ite {c : Prop} [Decidable c] (x y : Plan α) :
    (if c then x else y).runWith read = if c then x.runWith read else y.runWith read := by
  split <;> rfl

end

end Plan

/-! ### Plans and readings -/

/-- Tokens are passed over from one to the next. -/
theorem Cursor.skipUntil_eq (stop : Lexeme → Bool) (c : Cursor) :
    c.skipUntil stop = if stop c.lexeme then c else c.advance.skipUntil stop := by
  obtain ⟨tokens, passed, depth, diagnostics⟩ := c
  rcases tokens with _ | ⟨t, _ | ⟨u, rest⟩⟩
  · split <;> rfl
  · split <;> rfl
  · cases hstop : stop t.lexeme <;> simp [skipUntil, skipTokens, advance, lexeme, hstop]

theorem Parse.skipUntil_eq (stop : Lexeme → Bool) : skipUntil stop = (do
    if stop (← lexeme) then
      return
    else
      advance
      skipUntil stop : Parse Unit) := by
  refine StateT.ext fun c => (congrArg (Prod.mk ()) (c.skipUntil_eq stop)).trans ?_
  cases hstop : stop c.lexeme <;> simp [Parse.lexeme, hstop] <;> rfl

namespace Plan

theorem simpleStmt_runWith (fuel : Nat) (isBody : Bool) :
    (simpleStmt isBody).runWith (Production.read fuel) = Parse.simpleStmt fuel isBody := by
  simp only [simpleStmt, Parse.simpleStmt, Production.read, runWith_bind, runWith_ask, runWith_lift]
  refine congrArg _ (funext fun first => congrArg _ (funext fun l => ?_))
  refine congr (congrArg _ ?_) (funext fun stmt => ?_)
  · cases l with
    | symbol s => cases hs : s.assignOp? <;> simp [hs, Production.read]
    | _ => simp
  · -- What follows asks whether the statement is a conditional.
    cases stmt with
    | eval _ e => cases e <;> simp
    | _ => simp

theorem letStmt_runWith (fuel : Nat) :
    letStmt.runWith (Production.read fuel) = Parse.letStmt fuel := by
  simp [letStmt, Parse.letStmt, Production.read]

theorem jumpStmt_runWith (fuel : Nat) (kind : Jump) :
    (jumpStmt kind).runWith (Production.read fuel) = Parse.jumpStmt kind := by
  cases kind <;> simp [jumpStmt, Parse.jumpStmt, Production.read]

theorem closure_runWith (fuel : Nat) :
    closure.runWith (Production.read fuel) = Parse.closure fuel := by
  have hbody : closureBody.runWith (Production.read fuel) = Parse.closureBody fuel := by
    simp [closureBody, Parse.closureBody, Production.read, simpleStmt_runWith]
  have hrest : closureFromParam.runWith (Production.read fuel) = Parse.closureFromParam fuel := by
    simp [closureFromParam, Parse.closureFromParam, Production.read, hbody]
  simp only [closure, Parse.closure, runWith_bind, runWith_lift, runWith_discard]
  refine congrArg _ (funext fun _ => congrArg _ (funext fun l => ?_))
  split <;> simp [hrest]

end Plan

namespace Production

open Plan

variable {α : Type}

/-- With one step more, a production is read by its plan. -/
theorem read_succ (fuel : Nat) (p : Production α) :
    p.read (fuel + 1) = p.body.runWith (read fuel) := by
  cases p with
  | skip stop hstop => simpa [read, body, Plan.skip] using Parse.skipUntil_eq stop
  | pathTail => simp [read, body, Parse.pathTail, Plan.pathTail]
  | typeRef => simp [read, body, Parse.typeRef, Plan.typeRef]
  | typeArgs => simp [read, body, Parse.typeArgs, Plan.typeArgs]
  | expression floor => simp [read, body, Parse.expression, Plan.expression]
  | operators floor left =>
    simp only [read, body, Parse.operators, Plan.operators, runWith_bind, runWith_lift]
    refine congrArg _ (funext fun l => ?_)
    cases l with
    | keyword k => cases k <;> simp [read]
    | symbol s => cases hop : s.binaryOp? <;> simp [hop, read]
    | _ => simp
  | operand =>
    simp only [read, body, Parse.operand, Plan.operand, runWith_bind, runWith_lift]
    refine congrArg _ (funext fun start => congrArg _ (funext fun l => ?_))
    split <;> simp [read]
  | members receiver =>
    simp only [read, body, Parse.members, Plan.members, runWith_bind, runWith_lift]
    refine congrArg _ (funext fun l => ?_)
    split <;> simp [read]
  | primary =>
    simp only [read, body, Parse.primary, Plan.primary, runWith_bind, runWith_lift]
    refine congrArg _ (funext fun start => congrArg _ (funext fun l => ?_))
    split <;> simp [read]
  | parenthesized => simp [read, body, Parse.parenthesized, Plan.parenthesized]
  | tupleItems => simp [read, body, Parse.tupleItems, Plan.tupleItems]
  | conditional => simp [read, body, Parse.conditional, Plan.conditional]
  | branch => simp [read, body, Parse.branch, Plan.branch]
  | arguments => simp [read, body, Parse.arguments, Plan.arguments]
  | argumentItems => simp [read, body, Parse.argumentItems, Plan.argumentItems]
  | block => simp [read, body, Parse.block, Plan.block]
  | statements => simp [read, body, Parse.statements, Plan.statements]
  | statement =>
    simp only [read, body, Parse.statement, Plan.statement, runWith_bind, runWith_lift]
    refine congrArg _ (funext fun start => congrArg _ (funext fun l => ?_))
    split <;> simp [read, simpleStmt_runWith, letStmt_runWith, jumpStmt_runWith]
  | ifStmt => simp [read, body, Parse.ifStmt, Plan.ifStmt]
  | forStmt => simp [read, body, Parse.forStmt, Plan.forStmt]

end Production

/-! ### Runs -/

namespace Plan

variable {α β γ : Type}

/-- That following a plan from `c` comes to an end, with `a` at `c'`, after `n` elementary steps and
calls, those within the calls included. -/
inductive Runs : {α : Type} → Plan α → Cursor → α → Cursor → Nat → Prop where
  | done {α : Type} {a : α} {c : Cursor} : Runs (.done a) c a c 0
  | move {α β : Type} {step : Parse β} {next : β → Plan α} {c c' : Cursor} {a : α} {n : Nat} :
      Runs (next (step.run c).1) (step.run c).2 a c' n → Runs (.move step next) c a c' (n + 1)
  | call {α β : Type} {p : Production β} {next : β → Plan α} {c c₁ c' : Cursor} {b : β} {a : α}
      {k n : Nat} :
      Runs p.body c b c₁ k → Runs (next b) c₁ a c' n → Runs (.call p next) c a c' (k + n + 1)

/-- A plan comes to one end only. -/
theorem Runs.unique {plan : Plan α} {c c' d' : Cursor} {a b : α} {n m : Nat}
    (h : plan.Runs c a c' n) (h' : plan.Runs c b d' m) : a = b ∧ c' = d' ∧ n = m := by
  induction h generalizing d' m with
  | done =>
    cases h'
    exact ⟨rfl, rfl, rfl⟩
  | move _ ih =>
    cases h' with
    | move hnext =>
      obtain ⟨rfl, rfl, rfl⟩ := ih hnext
      exact ⟨rfl, rfl, rfl⟩
  | call _ _ ihCall ihNext =>
    cases h' with
    | call hcall hnext =>
      obtain ⟨rfl, rfl, rfl⟩ := ihCall hcall
      obtain ⟨rfl, rfl, rfl⟩ := ihNext hnext
      exact ⟨rfl, rfl, rfl⟩

/-- That a plan followed from `c` itself calls `q`, when the cursor is at `d`. -/
inductive Calls (q : Production γ) (d : Cursor) : {α : Type} → Plan α → Cursor → Prop where
  | now {α : Type} {next : γ → Plan α} : Calls q d (.call q next) d
  | move {α β : Type} {step : Parse β} {next : β → Plan α} {c : Cursor} :
      Calls q d (next (step.run c).1) (step.run c).2 → Calls q d (.move step next) c
  | later {α β : Type} {p : Production β} {next : β → Plan α} {c c' : Cursor} {b : β} {k : Nat} :
      p.body.Runs c b c' k → Calls q d (next b) c' → Calls q d (.call p next) c

end Plan

end ComputeKernel
