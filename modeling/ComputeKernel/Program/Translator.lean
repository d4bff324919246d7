import ComputeKernel.Kernel.CheckedBody
import ComputeKernel.Memo
import ComputeKernel.Program.Descriptor
import ComputeKernel.Program.Render
import ComputeKernel.Shader.Body

/-!
Translation of kernel types. The closure of a kernel type is read and checked once, whatever the type
table; with the built-in table the kernel type is also translated once. Both memories keep failures
like successes.

A translation fails for the first reason in this order: a static field, a field without a category or
a name, a closure that is not accepted or uses a type without a name, a static without a category or a
name. The first two leave the closure unread.
-/

namespace ComputeKernel

structure Translator where
  /-- Checked closures, by kernel type. -/
  bodies : Memo KernelId (Except TranslateError CheckedBody) := {}
  /-- Descriptors under the built-in type table, by kernel type. -/
  descriptors : Memo KernelId (Except TranslateError Descriptor) := {}

namespace Translator

/-- The captures that the fields of a kernel type are. Statics may follow. -/
def fieldCaptures (k : Kernel) (table : TypeTable) : Except TranslateError Captures := do
  let fields := k.catalog.fields
  checkShape k.name fields
  let (names, _) := Shader.captureNames (fields.map (·.name))
  Captures.extend {} (Classify.addFields k.name table 0 (fields.zip names))

/-- The descriptor of a kernel type with a checked closure, given the captures that the fields are. -/
def describe (id : KernelId) (captures : Captures) (body : CheckedBody) (table : TypeTable) :
    Except TranslateError Descriptor := do
  match Shader.Body.of body table with
  | .error e => throw (.rejected body.kernel body.source e.diagnostics)
  | .ok shader =>
    let statics := shader.statics.map fun u => (u.decl, u.name)
    let captures ← captures.extend (Classify.addStatics body.kernel table statics)
    return {
      id
      body := shader.text
      threadIds := shader.threadIds
      captures := captures.finish }

/-- The closure of a kernel type, read and checked. -/
def checkedBody (t : Translator) (k : Kernel) : Except TranslateError CheckedBody × Translator :=
  match t.bodies.value? k.toKernelId with
  | some body => (body, t)
  | none =>
    let body := CheckedBody.of k.name k.source k.catalog
    (body, { t with bodies := (t.bodies.start k.toKernelId).store k.toKernelId body })

/-- Translates a kernel type with a type table. -/
def translateWith (t : Translator) (k : Kernel) (table : TypeTable) :
    Except TranslateError Descriptor × Translator :=
  match fieldCaptures k table with
  | .error e => (.error e, t)
  | .ok captures =>
    match t.checkedBody k with
    | (.error e, t) => (.error e, t)
    | (.ok body, t) => (describe k.toKernelId captures body table, t)

/-- Translates a kernel type with the built-in type table. -/
def translate (t : Translator) (k : Kernel) : Except TranslateError Descriptor × Translator :=
  match t.descriptors.value? k.toKernelId with
  | some descriptor => (descriptor, t)
  | none =>
    let (descriptor, t) := t.translateWith k .hlsl
    (descriptor,
      { t with
        descriptors := (t.descriptors.start k.toKernelId).store k.toKernelId descriptor })

/-- Translates kernel types one after the other. -/
def translateAll (t : Translator) :
    List Kernel → List (Except TranslateError Descriptor) × Translator
  | [] => ([], t)
  | k :: ks =>
    let (descriptor, t) := t.translate k
    let (descriptors, t) := t.translateAll ks
    (descriptor :: descriptors, t)

/-- The program of a kernel type. -/
def compile (t : Translator) (k : Kernel) (s : Settings) :
    Except TranslateError String × Translator :=
  let (descriptor, t) := t.translate k
  (descriptor.map (·.render s), t)

/-- Whether a kernel type has been translated, successfully or not. -/
def isTranslated (t : Translator) (k : Kernel) : Bool := t.descriptors.contains k.toKernelId

/-- Whether the closure of a kernel type has been read, successfully or not. -/
def isRead (t : Translator) (k : Kernel) : Bool := t.bodies.contains k.toKernelId

/-- How many times the closure of a kernel type has been read. -/
def readings (t : Translator) (k : Kernel) : Nat := t.bodies.computations k.toKernelId

end Translator

end ComputeKernel
