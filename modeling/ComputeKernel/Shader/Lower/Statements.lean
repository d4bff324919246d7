import ComputeKernel.Shader.Lower.Expressions

/-!
Statements in shader code. A counting loop tests its bound before each run of the body, so a bound
that the body could change is evaluated once, into a variable declared in front of the loop.
-/

namespace ComputeKernel.Shader.Lower

/-! ### Loop bounds -/

mutual

/-- Whether the value of an expression is the same whenever it is evaluated: it reads literals,
captures, statics and immutable locals only. Elements of buffers can be written by a loop. -/
def isInvariant (m : Model) : ComputeKernel.Expr → Bool
  | .literal .. => true
  | .name span _ | .path span _ =>
    match m.referent? span with
    | some (.local id) => (m.local? id).any fun l => ! l.mutable
    | some (.capture _) | some (.static _) => true
    | none => false
  | .paren _ e | .unary _ _ e | .cast _ e _ | .field _ e _ => isInvariant m e
  | .binary _ _ left right => isInvariant m left && isInvariant m right
  | .method _ receiver _ args => isInvariant m receiver && areInvariant m args
  | .call _ _ _ args | .tuple _ args => areInvariant m args
  | .index .. | .choice .. => false

def areInvariant (m : Model) : List ComputeKernel.Expr → Bool
  | [] => true
  | e :: es => isInvariant m e && areInvariant m es

end

/-! ### Statements -/

def initial (ctx : Context) : Option ComputeKernel.Expr → Lower (Option Expr)
  | none => return none
  | some e => return some (← expr ctx e)

mutual

/-- The code of a statement. A counting loop has its bound set to a variable in front of it, unless
the bound is the same in each test. -/
def stmt (ctx : Context) : ComputeKernel.Stmt → Lower (List Stmt)
  | .let _ _ name _ value => do
    let (l, ident) ← declared ctx name.span
    let type ← typeName ctx l.type.toHost name.span
    return [.declare type ident (← initial ctx value)]
  | .assign _ op place value => do
    if let some op := op then
      checkOperator ctx op place.span value.span
    let target ← expr ctx place
    return [.assign target op (← expr ctx value)]
  | .if _ condition body otherwise => do
    let c ← expr ctx condition
    let b ← block ctx body
    return [.branch c b (← optionalBlock ctx otherwise)]
  | .for _ counter start stop inclusive body => do
    let (l, ident) ← declared ctx counter.span
    let type ← typeName ctx l.type.toHost counter.span
    let lo ← expr ctx start
    let hi ← expr ctx stop
    if isInvariant ctx.model stop then
      let bound := hi.atLeast (relationalRank + 1)
      return [.count type ident lo inclusive bound (← block ctx body)]
    else
      let bound ← allocate s!"{ident}_end"
      return [.declare type bound (some hi),
        .count type ident lo inclusive (.var bound) (← block ctx body)]
  | .while _ condition body => do
    let c ← expr ctx condition
    return [.while c (← block ctx body)]
  | .loop _ body => return [.while (.literal "true") (← block ctx body)]
  | .jump _ kind => return [.jump kind]
  | .eval _ value => return [.eval (← expr ctx value)]
  | .nested _ body => return [.nested (← block ctx body)]

def optionalBlock (ctx : Context) : Option ComputeKernel.Block → Lower (Option (List Stmt))
  | none => return none
  | some b => return some (← block ctx b)

def block (ctx : Context) : ComputeKernel.Block → Lower (List Stmt)
  | ⟨_, body⟩ => stmts ctx body

def stmts (ctx : Context) : List ComputeKernel.Stmt → Lower (List Stmt)
  | [] => return []
  | s :: ss => do
    let code ← stmt ctx s
    return code ++ (← stmts ctx ss)

end

end ComputeKernel.Shader.Lower
