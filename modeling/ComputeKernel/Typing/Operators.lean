import ComputeKernel.Shader.Rule
import ComputeKernel.Typing.Check

/-!
Types of operators and casts. An operator on scalars brings both operands to one type; on vectors
and matrices it needs a rewriting rule, and takes a second operand of the same type or a scalar of
the component type.
-/

namespace ComputeKernel.Check

open Shader (Receiver Member hasRule)

/-- Whether values of a type have the unary operator. -/
def hasUnary (op : UnaryOp) (type : Ty) : Bool :=
  match op, type with
  | .neg, .value (.scalar k) => k != .bool && k != .uint
  | .neg, .value (.vector k _) => k != .bool && k != .uint
  | .neg, .value (.matrix k _ _) => k != .bool && hasRule .matrix .neg
  | .not, .value (.scalar k) => ! k.isFloat
  | .not, .value (.vector .bool _) => hasRule .vector .not
  | .not, .value (.vector k _) => k.isInteger && hasRule .vector .complement
  | _, _ => false

def unary (op : UnaryOp) (t : Typed) (span : Span) : Check (Option Typed) := do
  if hasUnary op t.type then
    return some t.detached
  else
    fail s!"cannot apply unary operator `{op.symbol}` to type `{t.type.display}`" span

/-- What is said of operands that an operator does not go with. -/
def operandsMessage (op : BinaryOp) (left right : Typed) : String :=
  s!"cannot apply `{op.symbol}` to `{left.type.display}` and `{right.type.display}`"

/-- Whether two scalars of a kind have the operator. -/
def hasScalar (op : BinaryOp) (k : ScalarKind) : Bool :=
  if op.isArithmetic then k != .bool
  else if op.isBitwise then k != .float && k != .double
  else true

/-- Whether vectors and matrices of a kind have the operator, if their shapes have it. -/
def hasAggregate (op : BinaryOp) (k : ScalarKind) : Bool :=
  if op.isArithmetic then k != .bool
  else if op.isBitwise || op.isShift then k.isInteger || (k == .bool && op.isBitwise)
  else true

/-- An operator on scalars. A shift takes its type from the left operand alone. -/
def scalarBinary (op : BinaryOp) (left right : Typed) (span : Span) : Check (Option Typed) := do
  let mismatch := fail (operandsMessage op left right) span
  match left.type, right.type with
  | .value (.scalar _), .value (.scalar _) =>
    if op.isShift then
      if left.isInteger && right.isInteger then return some left.detached else mismatch
    else
      match ← unify left right with
      | none => mismatch
      | some common =>
        if ! common.type.kind?.any (hasScalar op) then mismatch
        else if op.isComparison then return some { type := .bool }
        else return some common.detached
  | _, _ => mismatch

/-- An operator of which one operand at least is a vector or a matrix. -/
def aggregateBinary (receiver : Receiver) (op : BinaryOp) (left right : Typed) (span : Span) :
    Check (Option Typed) := do
  let (main, other) := if left.type.isAggregate then (left, right) else (right, left)
  if ! (Member.ofOperator? op).any (hasRule receiver) then
    fail s!"operator `{op.symbol}` is not supported on `{main.type.display}`" span
  else
    match main.type with
    | .value v =>
      let matching ← (do
        if other.type.isAggregate then return main.type == other.type
        else coerce other (.scalar v.kind) : Check Bool)
      if ! matching then
        failWithHelp (operandsMessage op left right)
          "use `Hlsl::mul` for matrix and vector products" span
      else if ! hasAggregate op v.kind then fail (operandsMessage op left right) span
      else if op.isComparison then return some { type := .value (v.withKind .bool) }
      else return some { type := main.type }
    | _ => return none

def binary (op : BinaryOp) (left right : Typed) (span : Span) : Check (Option Typed) := do
  if op.isLogical then
    if left.type = .bool ∧ right.type = .bool then return some { type := .bool }
    else fail (operandsMessage op left right) span
  else
    match Receiver.ofOperands? left.type right.type with
    | some receiver => aggregateBinary receiver op left right span
    | none => scalarBinary op left right span

/-- A cast goes from a scalar to a scalar, but not to `bool`, and not from `bool` to a float. -/
def cast (t : Typed) (target : TypeRef) : Check (Option Typed) := do
  match t.type, Ty.ofHost? target.type with
  | _, some (.value (.scalar .bool)) =>
    failWithHelp s!"cannot cast `{t.type.display}` as `bool`"
      "compare with zero instead: `x != 0`" target.span
  | .value (.scalar k), some (.value (.scalar l)) =>
    if k = .bool ∧ l.isFloat then
      fail s!"cannot cast `bool` as `{target.type.text}`" target.span
    else
      return some { type := .scalar l }
  | .value (.scalar _), _ => fail s!"cannot cast to `{target.type.text}`" target.span
  | _, _ =>
    fail s!"non-primitive cast: `{t.type.display}` as `{target.type.text}`" target.span

end ComputeKernel.Check
