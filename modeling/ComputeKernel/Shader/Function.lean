/-!
Functions of the shading language that closures can call: as methods of scalars under the host's
names, and as intrinsics under their own.
-/

namespace ComputeKernel.Shader

/-- A mathematical method of scalars. -/
structure ScalarMethod where
  name : String
  /-- The function that it stands for. -/
  function : String
  /-- Arguments besides the receiver. -/
  arity : Nat
  /-- Whether integers have the method. -/
  onIntegers : Bool := false
  deriving DecidableEq, Repr

/-- The methods of scalars by name. -/
def scalarMethods : List ScalarMethod :=
  [⟨"abs", "abs", 0, true⟩,
    ⟨"acos", "acos", 0, false⟩,
    ⟨"asin", "asin", 0, false⟩,
    ⟨"atan", "atan", 0, false⟩,
    ⟨"atan2", "atan2", 1, false⟩,
    ⟨"ceil", "ceil", 0, false⟩,
    ⟨"clamp", "clamp", 2, true⟩,
    ⟨"cos", "cos", 0, false⟩,
    ⟨"cosh", "cosh", 0, false⟩,
    ⟨"exp", "exp", 0, false⟩,
    ⟨"exp2", "exp2", 0, false⟩,
    ⟨"floor", "floor", 0, false⟩,
    ⟨"fract", "frac", 0, false⟩,
    ⟨"ln", "log", 0, false⟩,
    ⟨"log10", "log10", 0, false⟩,
    ⟨"log2", "log2", 0, false⟩,
    ⟨"max", "max", 1, true⟩,
    ⟨"min", "min", 1, true⟩,
    ⟨"mul_add", "mad", 2, false⟩,
    ⟨"powf", "pow", 1, false⟩,
    ⟨"powi", "pow", 1, false⟩,
    ⟨"round", "round", 0, false⟩,
    ⟨"signum", "sign", 0, false⟩,
    ⟨"sin", "sin", 0, false⟩,
    ⟨"sinh", "sinh", 0, false⟩,
    ⟨"sqrt", "sqrt", 0, false⟩,
    ⟨"tan", "tan", 0, false⟩,
    ⟨"tanh", "tanh", 0, false⟩,
    ⟨"to_degrees", "degrees", 0, false⟩,
    ⟨"to_radians", "radians", 0, false⟩,
    ⟨"trunc", "trunc", 0, false⟩]

def scalarMethod? (name : String) : Option ScalarMethod :=
  scalarMethods.find? fun m => m.name == name

/-- How the type of an intrinsic's result follows from its arguments. -/
inductive ResultKind where
  /-- The common type of the arguments, where scalars take the shape of vectors and matrices. -/
  | operands
  /-- The component type of the common type. -/
  | component
  | bool
  /-- The product of matrices and vectors. -/
  | product
  deriving DecidableEq, Repr, Inhabited

structure Intrinsic where
  name : String
  arity : Nat
  result : ResultKind
  deriving DecidableEq, Repr

/-- The intrinsics by name. -/
def intrinsics : List Intrinsic :=
  [⟨"abs", 1, .operands⟩,
    ⟨"acos", 1, .operands⟩,
    ⟨"all", 1, .bool⟩,
    ⟨"any", 1, .bool⟩,
    ⟨"asin", 1, .operands⟩,
    ⟨"atan", 1, .operands⟩,
    ⟨"atan2", 2, .operands⟩,
    ⟨"ceil", 1, .operands⟩,
    ⟨"clamp", 3, .operands⟩,
    ⟨"cos", 1, .operands⟩,
    ⟨"cosh", 1, .operands⟩,
    ⟨"cross", 2, .operands⟩,
    ⟨"degrees", 1, .operands⟩,
    ⟨"distance", 2, .component⟩,
    ⟨"dot", 2, .component⟩,
    ⟨"exp", 1, .operands⟩,
    ⟨"exp2", 1, .operands⟩,
    ⟨"floor", 1, .operands⟩,
    ⟨"fmod", 2, .operands⟩,
    ⟨"frac", 1, .operands⟩,
    ⟨"length", 1, .component⟩,
    ⟨"lerp", 3, .operands⟩,
    ⟨"log", 1, .operands⟩,
    ⟨"log2", 1, .operands⟩,
    ⟨"mad", 3, .operands⟩,
    ⟨"max", 2, .operands⟩,
    ⟨"min", 2, .operands⟩,
    ⟨"mul", 2, .product⟩,
    ⟨"normalize", 1, .operands⟩,
    ⟨"pow", 2, .operands⟩,
    ⟨"radians", 1, .operands⟩,
    ⟨"reflect", 2, .operands⟩,
    ⟨"round", 1, .operands⟩,
    ⟨"rsqrt", 1, .operands⟩,
    ⟨"saturate", 1, .operands⟩,
    ⟨"sign", 1, .operands⟩,
    ⟨"sin", 1, .operands⟩,
    ⟨"sinh", 1, .operands⟩,
    ⟨"smoothstep", 3, .operands⟩,
    ⟨"sqrt", 1, .operands⟩,
    ⟨"step", 2, .operands⟩,
    ⟨"tan", 1, .operands⟩,
    ⟨"tanh", 1, .operands⟩,
    ⟨"trunc", 1, .operands⟩]

def intrinsic? (name : String) : Option Intrinsic := intrinsics.find? fun i => i.name == name

/-- The segment in front of an intrinsic's name where a closure calls it. -/
def intrinsicOwner : String := "Hlsl"

end ComputeKernel.Shader
