import ComputeKernel.Host.TypeTable
import ComputeKernel.Kernel.Catalog
import ComputeKernel.Kernel.Error

/-!
Captures of a kernel: its fields first, then the statics that its body reads. The type table gives
each its category; those that are bound on their own get a slot from their category's counter, in the
order in which they are added.
-/

namespace ComputeKernel

/-- Where the value of a capture comes from. -/
inductive CaptureSource where
  /-- A field of the instance, by its place in the catalog. -/
  | field (index : Nat)
  | static (decl : StaticDecl)
  deriving DecidableEq, Repr, Inhabited

structure Capture where
  /-- The name on the host. -/
  name : String
  /-- The identifier in the shader. -/
  shaderName : String
  hostType : HostType
  shaderType : String
  category : Category
  /-- The slot within the category, for a resource. -/
  slot : Option Nat
  source : CaptureSource
  deriving Repr, Inhabited

/-- An instance of a kernel type, with the values of its fields in the order of the catalog. -/
structure Instance where
  kernel : KernelId
  values : List CaptureValue
  deriving Repr, Inhabited

/-- The value of a capture on an instance. A field without a value reads as no bytes. -/
def Capture.read (c : Capture) (instance_ : Instance) : CaptureValue :=
  match c.source with
  | .field index => instance_.values[index]?.getD (.bytes [])
  | .static decl => decl.value

def Capture.isStatic (c : Capture) : Bool :=
  match c.source with
  | .field _ => false
  | .static _ => true

/-- The captures of a kernel in the order in which they were added. -/
structure CaptureLists where
  /-- Those that are bound on their own. -/
  resources : List Capture := []
  /-- Those that go into the uniform buffer. -/
  scalars : List Capture := []
  deriving Repr, Inhabited

def CaptureLists.push (cs : CaptureLists) (c : Capture) : CaptureLists :=
  if c.category.isResource then { cs with resources := cs.resources ++ [c] }
  else { cs with scalars := cs.scalars ++ [c] }

/-- Captures that are being added, and the slots that come next. Slot 0 of the constant buffers is the
implicit uniform buffer's. -/
structure Captures extends CaptureLists where
  nextConstant : Nat := 1
  nextReadOnly : Nat := 0
  nextReadWrite : Nat := 0
  deriving Repr, Inhabited

/-- A step that may be refused. The captures that it leaves, with their counters, are there in either
case. -/
abbrev Classify := ExceptT TranslateError (StateM Captures)

namespace Captures

/-- Takes the next slot of a category. What goes into the uniform buffer has none. -/
def takeSlot (cs : Captures) : Category → Option Nat × Captures
  | .scalarOrVector => (none, cs)
  | .constantBuffer => (some cs.nextConstant, { cs with nextConstant := cs.nextConstant + 1 })
  | .readOnlyBuffer => (some cs.nextReadOnly, { cs with nextReadOnly := cs.nextReadOnly + 1 })
  | .readWriteBuffer => (some cs.nextReadWrite, { cs with nextReadWrite := cs.nextReadWrite + 1 })

def push (cs : Captures) (c : Capture) : Captures :=
  { cs with toCaptureLists := cs.toCaptureLists.push c }

/-- The result of a step, and the captures that it leaves. -/
def answer (cs : Captures) (step : Classify Unit) : Except TranslateError Unit × Captures :=
  step.run.run cs

/-- The captures that a step leaves, unless the step is refused. -/
def extend (cs : Captures) (step : Classify Unit) : Except TranslateError Captures :=
  let (result, cs) := cs.answer step
  result.map fun _ => cs

/-- The captures in the end. -/
def finish (cs : Captures) : CaptureLists := cs.toCaptureLists

end Captures

namespace Classify

/-- Adds a capture, unless its type is malformed or the table has no category or name for it. -/
def add (kernel : String) (table : TypeTable) (name type shaderName : String)
    (source : CaptureSource) : Classify Unit := do
  let some hostType := HostType.parse? type | throw (.unsupportedCapture kernel name type)
  let some category := table.category? hostType
    | throw (.unsupportedCapture kernel name hostType.text)
  let some shaderType := table.shaderName? hostType
    | throw (.unsupportedCapture kernel name hostType.text)
  let slot ← modifyGet fun cs => cs.takeSlot category
  modify (·.push { name, shaderName, hostType, shaderType, category, slot, source })

def addField (kernel : String) (table : TypeTable) (index : Nat) (f : FieldDecl)
    (shaderName : String) : Classify Unit :=
  add kernel table f.name f.type shaderName (.field index)

def addStatic (kernel : String) (table : TypeTable) (s : StaticDecl) (shaderName : String) :
    Classify Unit :=
  add kernel table s.name s.type shaderName (.static s)

/-- Adds the fields of a catalog from the place `index` on, each with its identifier. -/
def addFields (kernel : String) (table : TypeTable) (index : Nat) :
    List (FieldDecl × String) → Classify Unit
  | [] => return
  | (f, shaderName) :: rest => do
    addField kernel table index f shaderName
    addFields kernel table (index + 1) rest

/-- Adds statics, each with its identifier. -/
def addStatics (kernel : String) (table : TypeTable) : List (StaticDecl × String) → Classify Unit
  | [] => return
  | (s, shaderName) :: rest => do
    addStatic kernel table s shaderName
    addStatics kernel table rest

end Classify

namespace Captures

/-- The captures with a field more, unless it is refused. -/
def addField (cs : Captures) (kernel : String) (table : TypeTable) (index : Nat) (f : FieldDecl)
    (shaderName : String) : Except TranslateError Captures :=
  cs.extend (Classify.addField kernel table index f shaderName)

/-- The captures with a static more, unless it is refused. -/
def addStatic (cs : Captures) (kernel : String) (table : TypeTable) (s : StaticDecl)
    (shaderName : String) : Except TranslateError Captures :=
  cs.extend (Classify.addStatic kernel table s shaderName)

end Captures

/-- A kernel type may not declare static fields; the first one is named. -/
def checkShape (kernel : String) (fields : List FieldDecl) : Except TranslateError Unit :=
  match fields.find? fun f => f.isStatic with
  | some f => .error (.invalidShape kernel f.name)
  | none => .ok ()

end ComputeKernel
