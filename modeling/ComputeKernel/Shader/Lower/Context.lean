import ComputeKernel.Host.TypeTable
import ComputeKernel.Kernel.Catalog
import ComputeKernel.Shader.NamePool
import ComputeKernel.Shader.Rule
import ComputeKernel.Source.Diagnostic
import ComputeKernel.Typing.Model

/-!
Taking a checked closure over into shader code. What the model does not say of a name or an
expression, or has no rewriting rule, is a defect of the model and not a fault of the closure; a type
without a name in the type table is a fault, and is reported where the type is used.

Names are given out in the order captures, locals, and then statics and loop bounds as they are met;
a static is recorded when it is met for the first time.
-/

namespace ComputeKernel.Shader

/-- How a closure and a symbol model can fail to go together. -/
inductive Defect where
  | undeclared (span : Span)
  | unresolved (span : Span)
  | untyped (span : Span)
  | noReceiver (type : Ty)
  | noRule (receiver : Receiver) (member : Member)
  | wrongOperands (form : Form)
  | noAggregateForm (op : BinaryOp)
  | noScalarMethod (name : String)
  | noFunction (path : Path)
  | noSelector (span : Span)
  | strayTuple (span : Span)
  deriving DecidableEq, Repr

/-- A static that a body reads. -/
structure StaticUse where
  /-- Its place among the visible statics. -/
  index : Nat
  decl : StaticDecl
  /-- Its identifier in the shader. -/
  name : String
  deriving DecidableEq, Repr

/-- What a body is taken over with. -/
structure Context where
  model : Model
  statics : List StaticDecl
  table : TypeTable
  captureNames : List String
  /-- Identifiers of the locals, by number. -/
  localNames : List String

structure Progress where
  pool : NamePool
  /-- The statics met so far, in order. -/
  statics : List StaticUse := []
  diagnostics : List Diagnostic := []

abbrev Lower := StateT Progress (Except Defect)

namespace Lower

def defect {α : Type} (d : Defect) : Lower α := throw d

/-- The value, which is there unless the model is defective. -/
def require {α : Type} (d : Defect) : Option α → Lower α
  | some a => return a
  | none => defect d

/-! ### Names -/

def allocate (base : String) : Lower String := do
  let s ← get
  let (name, pool) := s.pool.allocate base
  set { s with pool }
  return name

/-- The identifier of a static, which is a new one if the static is met for the first time. -/
def staticName (ctx : Context) (index : Nat) (span : Span) : Lower String := do
  match (← get).statics.find? fun u => u.index == index with
  | some u => return u.name
  | none =>
    let decl ← require (.unresolved span) ctx.statics[index]?
    let name ← allocate decl.name
    modify fun s => { s with statics := s.statics ++ [{ index, decl, name }] }
    return name

def referentName (ctx : Context) (span : Span) : Lower String := do
  match ctx.model.referent? span with
  | some (.local id) => require (.unresolved span) ctx.localNames[id]?
  | some (.capture field) => require (.unresolved span) ctx.captureNames[field]?
  | some (.static index) => staticName ctx index span
  | none => defect (.unresolved span)

/-- The local that is declared at a range, with its identifier. -/
def declared (ctx : Context) (span : Span) : Lower (Local × String) := do
  match ctx.model.referent? span with
  | some (.local id) =>
    return (← require (.undeclared span) (ctx.model.local? id),
      ← require (.undeclared span) ctx.localNames[id]?)
  | _ => defect (.undeclared span)

/-! ### Types -/

/-- The shading language's name of a type, or a makeshift for a type that has none. -/
def typeName (ctx : Context) (type : HostType) (span : Span) : Lower String := do
  match ctx.table.shaderName? type with
  | some name => return name
  | none =>
    modify fun s =>
      { s with
        diagnostics := s.diagnostics ++
          [.error s!"type `{type.text}` has no HLSL equivalent" span] }
    return type.base

def typeAt (ctx : Context) (span : Span) : Lower Ty := require (.untyped span) (ctx.model.type? span)

def receiverAt (ctx : Context) (span : Span) : Lower Receiver := do
  let type ← typeAt ctx span
  require (.noReceiver type) (Receiver.of? type)

/-! ### Rules -/

/-- The code that the rule for a member of a receiver makes of the operands. -/
def apply (receiver : Receiver) (member : Member) (text : String) (operands : List Expr) :
    Lower Expr := do
  let rule ← require (.noRule receiver member) (rule? receiver member)
  require (.wrongOperands rule.form) (rule.form.build? text operands)

/-- An operator with a vector or a matrix among its operands needs a rule. -/
def checkOperator (ctx : Context) (op : BinaryOp) (left right : Span) : Lower Unit := do
  match Receiver.ofOperands? (← typeAt ctx left) (← typeAt ctx right) with
  | none => return
  | some receiver =>
    let member ← require (.noAggregateForm op) (Member.ofOperator? op)
    discard (require (.noRule receiver member) (rule? receiver member))

end Lower

end ComputeKernel.Shader
