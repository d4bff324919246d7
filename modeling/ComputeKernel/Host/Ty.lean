import ComputeKernel.Host.HostType

/-!
The types that kernels compute with. Values are scalars, vectors and matrices of one scalar kind;
buffers hold values. A host type denotes one of these by the last segment of its path: `f32`,
`Float4`, `Int3x3`, `ReadOnlyBuffer<Float4>`.
-/

namespace ComputeKernel

inductive ScalarKind where
  | bool | int | uint | float | double
  deriving DecidableEq, Repr, Inhabited

namespace ScalarKind

def all : List ScalarKind := [uint, int, bool, float, double]

/-- The name of the scalar type on the host. -/
def hostName : ScalarKind → String
  | bool => "bool" | int => "i32" | uint => "u32" | float => "f32" | double => "f64"

/-- What the names of the vectors and matrices of this kind begin with on the host. -/
def aggregateStem : ScalarKind → String
  | bool => "Bool" | int => "Int" | uint => "UInt" | float => "Float" | double => "Double"

def hlslName : ScalarKind → String
  | bool => "bool" | int => "int" | uint => "uint" | float => "float" | double => "double"

/-- Bytes of one component in a constant buffer. -/
def size : ScalarKind → Nat
  | double => 8
  | _ => 4

def isFloat : ScalarKind → Bool
  | float | double => true
  | _ => false

def isInteger : ScalarKind → Bool
  | int | uint => true
  | _ => false

def ofHostName? : String → Option ScalarKind
  | "bool" => some bool
  | "i32" | "isize" => some int
  | "u32" | "usize" => some uint
  | "f32" => some float
  | "f64" => some double
  | _ => none

end ScalarKind

inductive ValueType where
  | scalar (kind : ScalarKind)
  | vector (kind : ScalarKind) (size : Nat)
  | matrix (kind : ScalarKind) (rows columns : Nat)
  deriving DecidableEq, Repr, Inhabited

namespace ValueType

def kind : ValueType → ScalarKind
  | scalar k | vector k _ | matrix k _ _ => k

/-- The same shape with components of another kind. -/
def withKind (k : ScalarKind) : ValueType → ValueType
  | scalar _ => scalar k
  | vector _ n => vector k n
  | matrix _ r c => matrix k r c

def isScalar : ValueType → Bool
  | scalar _ => true
  | _ => false

/-- How many components a value has. -/
def components : ValueType → Nat
  | scalar _ => 1
  | vector _ n => n
  | matrix _ r c => r * c

/-- A vector, or a scalar where there is one component only. -/
def row (k : ScalarKind) (n : Nat) : ValueType := if n = 1 then scalar k else vector k n

def hostName : ValueType → String
  | scalar k => k.hostName
  | vector k n => s!"{k.aggregateStem}{n}"
  | matrix k r c => s!"{k.aggregateStem}{r}x{c}"

def hlslName : ValueType → String
  | scalar k => k.hlslName
  | vector k n => s!"{k.hlslName}{n}"
  | matrix k r c => s!"{k.hlslName}{r}x{c}"

/-- A dimension from `low` to 4, as one digit. -/
def dimension? (low : Nat) (c : Char) : Option Nat :=
  (Text.digitValue 10 c).filter fun n => low ≤ n ∧ n ≤ 4

/-- The shape that the end of an aggregate's name gives: `3` or `3x4`. -/
def shape? (k : ScalarKind) : List Char → Option ValueType
  | [n] => (dimension? 2 n).map (vector k)
  | [r, 'x', c] => do return matrix k (← dimension? 1 r) (← dimension? 1 c)
  | _ => none

def ofAggregateName? (name : String) : Option ValueType :=
  ScalarKind.all.findSome? fun k =>
    if k.aggregateStem.toList.isPrefixOf name.toList then
      shape? k (name.toList.drop k.aggregateStem.toList.length)
    else none

def ofHostName? (name : String) : Option ValueType :=
  match ScalarKind.ofHostName? name with
  | some k => some (scalar k)
  | none => ofAggregateName? name

@[simp] theorem kind_withKind (k : ScalarKind) (v : ValueType) : (v.withKind k).kind = k := by
  cases v <;> rfl

@[simp] theorem withKind_kind (v : ValueType) : v.withKind v.kind = v := by cases v <;> rfl

end ValueType

/-- How a kernel may use the memory behind a buffer. -/
inductive BufferAccess where
  | constant | readOnly | readWrite
  deriving DecidableEq, Repr, Inhabited

namespace BufferAccess

def hostName : BufferAccess → String
  | constant => "ConstantBuffer"
  | readOnly => "ReadOnlyBuffer"
  | readWrite => "ReadWriteBuffer"

def ofHostName? : String → Option BufferAccess
  | "ConstantBuffer" => some constant
  | "ReadOnlyBuffer" => some readOnly
  | "ReadWriteBuffer" => some readWrite
  | _ => none

end BufferAccess

inductive Ty where
  | value (type : ValueType)
  | buffer (access : BufferAccess) (element : ValueType)
  /-- The index of the thread, three unsigned components. -/
  | threadIds
  /-- A selector of one element of a matrix. -/
  | matrixIndex
  /-- Several selectors, which pick a vector out of a matrix. -/
  | selectors (count : Nat)
  /-- The type of a local that an error left without one. -/
  | unknown
  deriving DecidableEq, Repr, Inhabited

namespace Ty

abbrev scalar (k : ScalarKind) : Ty := value (.scalar k)

abbrev vector (k : ScalarKind) (n : Nat) : Ty := value (.vector k n)

abbrev bool : Ty := scalar .bool

/-- The type that a name without arguments denotes. -/
def ofHostName? (name : String) : Option Ty :=
  if name = "ThreadIds" then some threadIds
  else if name = "MatrixIndex" then some matrixIndex
  else (ValueType.ofHostName? name).map value

/-- The type that a host type denotes, if kernels can use it. The one argument of a buffer is a value
type, which has no arguments itself. -/
def ofHost? (host : HostType) : Option Ty :=
  match host.args with
  | [] => ofHostName? host.base
  | [element] => do
    let access ← BufferAccess.ofHostName? host.base
    match element.args, ofHostName? element.base with
    | [], some (value v) => return buffer access v
    | _, _ => none
  | _ => none

/-- The host type of this name, where there is one. -/
def ofText? (source : String) : Option Ty := HostType.parse? source >>= ofHost?

/-- The canonical host spelling. -/
def toHost : Ty → HostType
  | value v => .named v.hostName
  | buffer access element => ⟨access.hostName, [.named element.hostName]⟩
  | threadIds => .named "ThreadIds"
  | matrixIndex => .named "MatrixIndex"
  | selectors n => ⟨"Tuple", List.replicate n (.named "MatrixIndex")⟩
  | unknown => .named "()"

/-- How messages name the type. -/
def display : Ty → String
  | selectors n => "(" ++ ", ".intercalate (List.replicate n matrixIndex.toHost.text) ++ ")"
  | t => t.toHost.text

def value? : Ty → Option ValueType
  | value v => some v
  | _ => none

/-- The scalar kind of a value. -/
def kind? (t : Ty) : Option ScalarKind := t.value?.map ValueType.kind

def isValue (t : Ty) : Bool := t.value?.isSome

def isBool (t : Ty) : Bool := t.kind? = some .bool

def isInteger : Ty → Bool
  | value (.scalar k) => k.isInteger
  | _ => false

/-- A vector or a matrix. -/
def isAggregate : Ty → Bool
  | value v => ! v.isScalar
  | _ => false

/-- The shape of this type with components of another kind; what has no shape becomes a scalar. -/
def withKind (k : ScalarKind) : Ty → Ty
  | value v => value (v.withKind k)
  | _ => scalar k

end Ty

end ComputeKernel
