import ComputeKernel.Source.Report

/-!
Why a kernel cannot be translated. Each cause ends the translation of its kernel.
-/

namespace ComputeKernel

inductive TranslateError where
  /-- The kernel type declares a static field. -/
  | invalidShape (kernel field : String)
  /-- The type of a capture has no category or no name in the type table. -/
  | unsupportedCapture (kernel field type : String)
  /-- The closure is not part of the language, or uses a type that the shader has no name for. -/
  | rejected (kernel source : String) (diagnostics : List Diagnostic)
  deriving DecidableEq, Repr

namespace TranslateError

def message : TranslateError → String
  | invalidShape kernel field =>
    s!"kernel `{kernel}` declares static field `{field}`; kernel types may only declare instance captures"
  | unsupportedCapture kernel field type =>
    s!"unsupported field `{field}` of type {type} in kernel `{kernel}`"
  | rejected kernel _ diagnostics =>
    s!"cannot decompile kernel `{kernel}`: {Diagnostic.summary diagnostics}"

/-- The message, or for a rejected closure its diagnostics drawn into the source. -/
def report : TranslateError → String
  | rejected kernel source diagnostics =>
    "\n".intercalate (diagnostics.map fun d => d.drawn kernel source)
  | e => e.message

end TranslateError

end ComputeKernel
