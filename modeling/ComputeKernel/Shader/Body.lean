import ComputeKernel.Kernel.CheckedBody
import ComputeKernel.Shader.Lower.Statements

/-!
Shader bodies: the code that a checked closure becomes, with the identifiers that it uses.
-/

namespace ComputeKernel

namespace Shader

/-- The body of a kernel in the shading language. -/
structure Body where
  code : List Stmt
  /-- The identifier of the thread index. -/
  threadIds : String
  /-- The identifiers of the instance captures, by field. -/
  captureNames : List String
  /-- The statics that the body reads, in the order in which it comes to them. -/
  statics : List StaticUse

def Body.text (b : Body) : String := Stmt.bodyText b.code

/-- Why a checked body has no shader body. -/
inductive BodyError where
  /-- Types without a name in the type table. -/
  | unnamedTypes (diagnostics : List Diagnostic)
  | defect (d : Defect)
  deriving DecidableEq, Repr

/-- What to report. A defect, which a checked body does not have, is reported without a diagnostic. -/
def BodyError.diagnostics : BodyError → List Diagnostic
  | unnamedTypes diagnostics => diagnostics
  | defect _ => []

/-- Takes a checked body over, with types named by `table`. -/
def Body.of (body : CheckedBody) (table : TypeTable) : Except BodyError Body :=
  let (captureNames, pool) := Shader.captureNames (body.catalog.fields.map (·.name))
  let (localNames, pool) := pool.allocateAll (body.model.locals.map (·.name))
  let ctx : Context :=
    { model := body.model, statics := body.catalog.statics, table, captureNames, localNames }
  match (Lower.block ctx body.closure.body).run { pool } with
  | .error d => .error (.defect d)
  | .ok (code, progress) =>
    match progress.diagnostics, localNames[Model.paramId]? with
    | [], some threadIds => .ok { code, threadIds, captureNames, statics := progress.statics }
    | [], none => .error (.defect (.undeclared body.closure.param.span))
    | diagnostics, _ => .error (.unnamedTypes diagnostics)

end Shader

end ComputeKernel
