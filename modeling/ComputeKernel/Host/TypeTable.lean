import ComputeKernel.Host.Ty

/-!
Type tables. A table sorts the types of captures into categories and names types in the shading
language. The built-in table knows HLSL; a kernel can be translated against another one.
-/

namespace ComputeKernel

/-- What a capture is to the shader, decided by its declared type alone. -/
inductive Category where
  /-- A value in the implicit uniform buffer, at constant-buffer slot 0. -/
  | scalarOrVector
  | constantBuffer
  | readOnlyBuffer
  | readWriteBuffer
  deriving DecidableEq, Repr, Inhabited

namespace Category

/-- Whether captures of this category are bound on their own. -/
def isResource : Category → Bool
  | scalarOrVector => false
  | _ => true

def name : Category → String
  | scalarOrVector => "ScalarOrVector"
  | constantBuffer => "ConstantBuffer"
  | readOnlyBuffer => "ReadOnlyBuffer"
  | readWriteBuffer => "ReadWriteBuffer"

def all : List Category := [scalarOrVector, constantBuffer, readOnlyBuffer, readWriteBuffer]

def ofName? (name : String) : Option Category := all.find? fun c => c.name == name

end Category

structure TypeTable where
  /-- The category of a capture of this type, if captures can have it. -/
  category? : HostType → Option Category
  /-- The shading language's name of a type. A type may have one without being capturable. -/
  shaderName? : HostType → Option String

/-- The HLSL spelling of a type. A constant buffer is declared as an array of its elements. -/
def Ty.hlslName? : Ty → Option String
  | value v => some v.hlslName
  | buffer .constant element => some element.hlslName
  | buffer .readOnly element => some s!"StructuredBuffer<{element.hlslName}>"
  | buffer .readWrite element => some s!"RWStructuredBuffer<{element.hlslName}>"
  | threadIds => some "uint3"
  | matrixIndex | selectors _ => none
  | unknown => some "void"

/-- The category of a capture of this type. -/
def Ty.category? : Ty → Option Category
  | value _ => some .scalarOrVector
  | buffer .constant _ => some .constantBuffer
  | buffer .readOnly _ => some .readOnlyBuffer
  | buffer .readWrite _ => some .readWriteBuffer
  | threadIds | matrixIndex | selectors _ | unknown => none

/-- Whether the type of this name has one size on every host, as the integers of pointer size have
not. -/
def HostType.isFixedBase (base : String) : Bool := base != "usize" && base != "isize"

/-! A type can be captured only if it and its arguments have one size on every host. -/

mutual

def HostType.hasFixedSize : HostType → Bool
  | ⟨name, args⟩ => HostType.isFixedBase (Text.lastSegment name) && HostType.haveFixedSize args

def HostType.haveFixedSize : List HostType → Bool
  | [] => true
  | t :: ts => t.hasFixedSize && HostType.haveFixedSize ts

end

namespace TypeTable

def hlsl : TypeTable where
  category? t := if t.hasFixedSize then Ty.ofHost? t >>= Ty.category? else none
  shaderName? t := Ty.ofHost? t >>= Ty.hlslName?

/-- A table that answers from lists where they hold the type's text, and otherwise as `base` does. -/
def override (base : TypeTable) (categories : List (String × Option Category))
    (names : List (String × Option String)) : TypeTable where
  category? t := (categories.lookup t.text).getD (base.category? t)
  shaderName? t := (names.lookup t.text).getD (base.shaderName? t)

end TypeTable

end ComputeKernel
