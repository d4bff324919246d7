import ComputeKernel.Closure.Parse
import ComputeKernel.Kernel.Error
import ComputeKernel.Typing.Statements

/-!
Checked closures: what reading a kernel's source and checking it against the kernel's catalog gives.
-/

namespace ComputeKernel

/-- A closure with its symbol model, and what it was read from and checked against. -/
structure CheckedBody where
  kernel : String
  source : String
  closure : Closure
  model : Model
  catalog : Catalog

/-- Reads and checks the closure of a kernel. -/
def CheckedBody.of (kernel source : String) (catalog : Catalog) :
    Except TranslateError CheckedBody :=
  match Closure.parse source with
  | .error ds => .error (.rejected kernel source ds)
  | .ok closure =>
    match closure.bind catalog with
    | .error ds => .error (.rejected kernel source ds)
    | .ok model => .ok { kernel, source, closure, model, catalog }

end ComputeKernel
