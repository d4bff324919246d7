import ComputeKernel.Shader.Literal
import ComputeKernel.Shader.Lower.Context
import ComputeKernel.Typing.Selector

/-!
Expressions in shader code. The tree of an expression is kept; parentheses are added where C would
read it otherwise.
-/

namespace ComputeKernel.Shader.Lower

/-- A unary operator on a value of a type. A minus in front of another one is kept apart from it. -/
def unary (op : ComputeKernel.UnaryOp) (type : Ty) (inner : Expr) : Lower Expr := do
  let e := inner.atLeast unaryRank
  match op, type with
  | .neg, type =>
    let e := if e.startsWithMinus then .paren e else e
    match type with
    | .value (.vector ..) => apply .vector .neg "" [e]
    | .value (.matrix ..) => apply .matrix .neg "" [e]
    | _ => return .unary .minus e
  | .not, .value (.vector .bool _) => apply .vector .not "" [e]
  | .not, .value (.vector ..) => apply .vector .complement "" [e]
  | .not, .value (.scalar .bool) => return .unary .not e
  | .not, _ => return .unary .complement e

/-- The selector of an element, counted from zero. -/
def selector (position : Nat × Nat) : String := s!"_m{position.1 - 1}{position.2 - 1}"

/-- The selectors of a matrix swizzle, written one behind the other. -/
def selectors : List ComputeKernel.Expr → Lower String
  | [] => return ""
  | .path span path :: items => do
    let position ← require (.noSelector span) (matrixIndexPosition? path)
    return selector position ++ (← selectors items)
  | item :: _ => defect (.noSelector item.span)

/-- A member call on a vector or a matrix, which selects components or an element. -/
def select (receiver : Receiver) (name : String) (e : Expr) : Lower Expr :=
  let operand := e.atLeast memberRank
  match receiver, elementPosition? name with
  | .matrix, some position => apply receiver .element (selector position) [operand]
  | _, _ => apply receiver .swizzle name [operand]

def isSplat (callee : Path) : Bool := callee.last == "splat"

def isNew (callee : Path) : Bool := callee.last == "new"

/-- A call of an intrinsic or a constructor. -/
def call (ctx : Context) (callee : Path) (calleeSpan span : Span) (args : List Expr) :
    Lower Expr := do
  if callee.owner? = some intrinsicOwner then
    apply .hlsl .intrinsic callee.last args
  else if isSplat callee || isNew callee then
    let type ← typeName ctx (← typeAt ctx span).toHost calleeSpan
    apply .constructor (if isSplat callee then .splat else .new) type args
  else
    defect (.noFunction callee)

/-! ### Expressions -/

mutual

def expr (ctx : Context) : ComputeKernel.Expr → Lower Expr
  | .literal _ value => return .literal value.hlsl
  | .name span _ => return .var (← referentName ctx span)
  | .path span _ => return .var (← referentName ctx span)
  | .paren _ inner => return .paren (← expr ctx inner)
  | .unary _ op operand => do
    let type ← typeAt ctx operand.span
    unary op type (← expr ctx operand)
  | .binary _ op left right => do
    checkOperator ctx op left.span right.span
    let l ← expr ctx left
    let r ← expr ctx right
    return .binary op (l.atLeast (rank op)) (r.atLeast (rank op + 1))
  | .cast _ operand type => do
    let name ← typeName ctx type.type type.span
    return .cast name (← expr ctx operand)
  | .field _ receiver member => do
    let kind ← receiverAt ctx receiver.span
    let e ← expr ctx receiver
    apply kind .component member.text [e.atLeast memberRank]
  | .method _ receiver member args => do
    let kind ← receiverAt ctx receiver.span
    let e ← expr ctx receiver
    match kind with
    | .scalar =>
      let m ← require (.noScalarMethod member.text) (scalarMethod? member.text)
      apply .scalar .method m.function (e :: (← exprs ctx args))
    | _ => select kind member.text e
  | .call span callee calleeSpan args => do
    call ctx callee calleeSpan span (← exprs ctx args)
  | .index _ base index => do
    let kind ← receiverAt ctx base.span
    let b ← expr ctx base
    let operand := b.atLeast memberRank
    match kind, index with
    | .matrix, .tuple _ items => apply .matrix .matrixSwizzle (← selectors items) [operand]
    | _, _ => apply kind .index "" [operand, ← expr ctx index]
  | .tuple span _ => defect (.strayTuple span)
  | .choice _ condition yes no =>
    return .choice (← expr ctx condition) (← expr ctx yes) (← expr ctx no)

def exprs (ctx : Context) : List ComputeKernel.Expr → Lower (List Expr)
  | [] => return []
  | e :: es => return (← expr ctx e) :: (← exprs ctx es)

end

end ComputeKernel.Shader.Lower
