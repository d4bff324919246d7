import ComputeKernel.Host.Ty
import ComputeKernel.Shader.Template
import ComputeKernel.Shader.Text

/-!
Rewriting rules. A closure uses the members and operators of the host's vector, matrix and buffer
types; a rule says, by the kind of the receiver and of the member, which form of shader code stands
for such a use. What has no rule is not part of the language.
-/

namespace ComputeKernel.Shader

/-- The kind of what a member is used on. -/
inductive Receiver where
  | buffer | vector | matrix | threadIds | scalar
  /-- The owner of the intrinsics. -/
  | hlsl
  /-- A vector or matrix type, the owner of its constructors. -/
  | constructor
  deriving DecidableEq, Repr, Inhabited

namespace Receiver

def ofValue : ValueType → Receiver
  | .scalar _ => scalar
  | .vector .. => vector
  | .matrix .. => matrix

def of? : Ty → Option Receiver
  | .value v => some (ofValue v)
  | .buffer .. => some buffer
  | .threadIds => some threadIds
  | .matrixIndex | .selectors _ | .unknown => none

/-- The receiver whose rules a binary operator follows, if an operand is a vector or a matrix. -/
def ofOperands? (left right : Ty) : Option Receiver :=
  match left, right with
  | .value (.matrix ..), _ | _, .value (.matrix ..) => some matrix
  | .value (.vector ..), _ | _, .value (.vector ..) => some vector
  | _, _ => none

end Receiver

inductive Member where
  /-- `x[i]` -/
  | index
  /-- `m[(MatrixIndex::M11, MatrixIndex::M22)]` -/
  | matrixSwizzle
  /-- `v.xy()` -/
  | swizzle
  /-- `v.x` -/
  | component
  /-- `m.m12()` -/
  | element
  | neg
  /-- Negation of truth values. -/
  | not
  /-- Negation of the bits of integers. -/
  | complement
  | arith
  | compare
  /-- Bitwise operators and shifts. -/
  | bitwise
  /-- A mathematical method of scalars. -/
  | method
  | intrinsic
  | new
  | splat
  deriving DecidableEq, Repr, Inhabited

/-- The family of a binary operator. The logical operators do not apply to aggregates. -/
def Member.ofOperator? (op : BinaryOp) : Option Member :=
  if op.isArithmetic then some .arith
  else if op.isComparison then some .compare
  else if op.isBitwise || op.isShift then some .bitwise
  else none

/-! ### Forms -/

/-- A form of shader code, made of operands and of the text of a member. -/
inductive Form where
  | index | select | negate | invert | complement | operator | call | convert
  deriving DecidableEq, Repr, Inhabited

namespace Form

def template : Form → String
  | index => "{0}[{1}]"
  | select => "{0}.{m}"
  | negate => "-{0}"
  | invert => "!{0}"
  | complement => "~{0}"
  | operator => "{0} {m} {1}"
  | call => "{m}({*})"
  | convert => "({m})({0})"

/-- The code of a form, if it has the operands that the form takes. -/
def build? (member : String) : Form → List Expr → Option Expr
  | index, [base, i] => some (.index base i)
  | select, [receiver] => some (.member receiver member)
  | negate, [e] => some (.unary .minus e)
  | invert, [e] => some (.unary .not e)
  | complement, [e] => some (.unary .complement e)
  | operator, [a, b] => (BinaryOp.ofSymbol? member).map fun op => .binary op a b
  | call, args => some (.call member args)
  | convert, [e] => some (.cast member e)
  | _, _ => none

end Form

/-! ### Rules -/

structure Rule where
  receiver : Receiver
  member : Member
  form : Form
  deriving DecidableEq, Repr

def rules : List Rule :=
  [⟨.buffer, .index, .index⟩,
    ⟨.vector, .index, .index⟩,
    ⟨.matrix, .index, .index⟩,
    ⟨.matrix, .matrixSwizzle, .select⟩,
    ⟨.matrix, .element, .select⟩,
    ⟨.vector, .swizzle, .select⟩,
    ⟨.vector, .component, .select⟩,
    ⟨.threadIds, .component, .select⟩,
    ⟨.vector, .neg, .negate⟩,
    ⟨.matrix, .neg, .negate⟩,
    ⟨.vector, .not, .invert⟩,
    ⟨.vector, .complement, .complement⟩,
    ⟨.vector, .arith, .operator⟩,
    ⟨.matrix, .arith, .operator⟩,
    ⟨.vector, .compare, .operator⟩,
    ⟨.vector, .bitwise, .operator⟩,
    ⟨.scalar, .method, .call⟩,
    ⟨.hlsl, .intrinsic, .call⟩,
    ⟨.constructor, .new, .call⟩,
    ⟨.constructor, .splat, .convert⟩]

def rule? (receiver : Receiver) (member : Member) : Option Rule :=
  rules.find? fun r => r.receiver = receiver ∧ r.member = member

def hasRule (receiver : Receiver) (member : Member) : Bool := (rule? receiver member).isSome

end ComputeKernel.Shader
