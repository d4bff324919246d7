import ComputeKernel.Binding.Manifest
import ComputeKernel.Binding.Uniform
import ComputeKernel.Bytes.Hex
import ComputeKernel.Digest.Blake3

/-!
Descriptors of translated kernels: the shader body, the captures and how they are bound. A
descriptor belongs to a kernel type; the values of its captures are read from an instance.
-/

namespace ComputeKernel

structure Descriptor where
  id : KernelId
  /-- The block of statements of the entry point, braces included. -/
  body : String
  /-- The identifier of the thread index in the body. -/
  threadIds : String
  captures : CaptureLists
  deriving Repr, Inhabited

namespace Descriptor

/-- The name of the kernel type. -/
def kernel (d : Descriptor) : String := d.id.name

def resources (d : Descriptor) : List Capture := d.captures.resources

def scalars (d : Descriptor) : List Capture := d.captures.scalars

def slots (d : Descriptor) : List BindingSlot := BindingSlot.assemble d.resources

def parameters (d : Descriptor) : List BindingParameter := d.slots.map (·.parameter)

def uniforms (d : Descriptor) : Uniform.Layout := Uniform.layout d.scalars

/-- The digest of the body text, in hexadecimal. -/
def fingerprint (d : Descriptor) : String :=
  Bytes.Hex.encode (Digest.Blake3.hash d.body.toUTF8.toList)

def scalarValues (d : Descriptor) (i : Instance) : List CaptureValue :=
  d.scalars.map fun c => c.read i

def resourceValues (d : Descriptor) (i : Instance) : List CaptureValue :=
  d.resources.map fun c => c.read i

/-- The image of the uniform buffer for a dispatch of an instance of the descriptor's kernel. -/
def pack (d : Descriptor) (i : Instance) : Except Uniform.Error (List UInt8) :=
  if i.kernel = d.id then d.uniforms.pack ((d.scalarValues i).map CaptureValue.bytes?)
  else .error (.kernelMismatch d.kernel i.kernel.name)

end Descriptor

end ComputeKernel
