import ComputeKernel.Bytes.Word
import ComputeKernel.Text.Segments

/-!
Kernel types: the closure, the fields of the instances, which are the captures of the closure, and the
statics that the closure can see.
-/

namespace ComputeKernel

/-- The value of a capture at the time of a dispatch. -/
inductive CaptureValue where
  /-- The bytes of a scalar, vector or matrix as the host lays it out. -/
  | bytes (data : List UInt8)
  /-- The handle of a buffer. -/
  | resource (handle : String)
  deriving DecidableEq, Repr, Inhabited

def CaptureValue.bytes? : CaptureValue → Option (List UInt8)
  | bytes data => some data
  | resource _ => none

/-- Words laid out one after the other. -/
def CaptureValue.ofWords (ws : List UInt32) : CaptureValue := bytes (ws.flatMap Bytes.littleEndian)

/-- Single-precision numbers laid out one after the other. -/
def CaptureValue.ofFloats (xs : List Float32) : CaptureValue := ofWords (xs.map Float32.toBits)

def CaptureValue.ofInt32 (n : Int32) : CaptureValue := ofWords [n.toUInt32]

/-- A truth value, which takes a whole word. -/
def CaptureValue.ofBool (b : Bool) : CaptureValue := ofWords [if b then 1 else 0]

structure FieldDecl where
  name : String
  /-- The type as written on the host. -/
  type : String
  /-- Whether the field belongs to the kernel type and not to its instances. -/
  isStatic : Bool := false
  deriving DecidableEq, Repr, Inhabited

structure StaticDecl where
  /-- The full path. A closure may use any end of it that no other static has. -/
  path : String
  type : String
  value : CaptureValue := .bytes []
  deriving DecidableEq, Repr, Inhabited

def StaticDecl.name (s : StaticDecl) : String := Text.lastSegment s.path

structure Catalog where
  fields : List FieldDecl := []
  statics : List StaticDecl := []
  deriving DecidableEq, Repr, Inhabited

/-- The identity of a kernel type. Different kernel types may have one name. -/
structure KernelId where
  name : String
  /-- Tells kernel types of one name apart. -/
  key : Nat := 0
  deriving DecidableEq, Repr, Inhabited

/-- A kernel type. -/
structure Kernel extends KernelId where
  /-- The text of the closure. -/
  source : String
  catalog : Catalog := {}
  deriving DecidableEq, Repr, Inhabited

end ComputeKernel
