import ComputeKernel.Shader.Function

/-!
Identifiers of a shader. A name of the host that the shading language keeps for itself gets a
leading underscore; a name that is given out already gets the first numeric suffix that makes it
new: `x`, `x_1`, `x_2`.
-/

namespace ComputeKernel.Shader

/-- Words that cannot name a variable. -/
def reservedWords : List String :=
  ["AppendStructuredBuffer", "BlendState", "Buffer", "ByteAddressBuffer", "CompileShader",
    "ComputeShader", "ConsumeStructuredBuffer", "DepthStencilState", "DomainShader",
    "GeometryShader", "Hullshader", "InputPatch", "LineStream", "OutputPatch", "PixelShader",
    "PointStream", "RWBuffer", "RWByteAddressBuffer", "RWStructuredBuffer", "RWTexture1D",
    "RWTexture2D", "RWTexture3D", "RasterizerState", "SamplerComparisonState", "SamplerState",
    "StructuredBuffer", "Texture1D", "Texture2D", "Texture3D", "TextureCube", "TriangleStream",
    "VertexShader", "asm", "break", "case", "cbuffer", "centroid", "class", "column_major",
    "compile", "const", "continue", "default", "discard", "do", "else", "export", "extern",
    "false", "for", "groupshared", "if", "in", "inline", "inout", "interface", "linear",
    "matrix", "namespace", "nointerpolation", "noperspective", "out", "packoffset", "pass",
    "precise", "register", "return", "row_major", "sample", "sampler", "shared", "snorm",
    "static", "string", "struct", "switch", "tbuffer", "technique", "texture", "true",
    "typedef", "uniform", "unorm", "unsigned", "vector", "void", "volatile", "while"]

/-- Scalar types, with whose names those of the built-in vectors and matrices begin. -/
def scalarTypeNames : List String :=
  ["bool", "int", "uint", "dword", "half", "float", "double", "min16float", "min10float",
    "min16int", "min12int", "min16uint"]

def isDimension (c : Char) : Bool := '1' ≤ c && c ≤ '4'

/-- What may stand behind a scalar type's name in the name of a built-in type. -/
def isShape : List Char → Bool
  | [] => true
  | [n] => isDimension n
  | [r, 'x', c] => isDimension r && isDimension c
  | _ => false

/-- Whether a name is that of a built-in type such as `float`, `int3` or `double4x4`. -/
def isTypeName (name : String) : Bool :=
  scalarTypeNames.any fun scalar =>
    scalar.toList.isPrefixOf name.toList && isShape (name.toList.drop scalar.toList.length)

/-- Whether a host's identifier cannot be used as it is. -/
def isReserved (name : String) : Bool :=
  reservedWords.contains name || isTypeName name || intrinsics.any fun i => i.name == name

/-- The names that were given out, the latest first. -/
structure NamePool where
  taken : List String := []
  deriving DecidableEq, Repr, Inhabited

namespace NamePool

def isTaken (pool : NamePool) (name : String) : Bool := pool.taken.contains name

/-- The name that is asked for first. -/
def stem (base : String) : String := if isReserved base then "_" ++ base else base

/-- The stem with the suffix `n`; there is no suffix 0. -/
def candidate (stem : String) (n : Nat) : String := if n = 0 then stem else s!"{stem}_{n}"

/-- The first free candidate. Of one more candidate than there are names one is free. -/
def free (pool : NamePool) (stem : String) : String :=
  (((List.range (pool.taken.length + 1)).map (candidate stem)).find?
    fun name => ! pool.isTaken name).getD stem

def allocate (pool : NamePool) (base : String) : String × NamePool :=
  let name := pool.free (stem base)
  (name, ⟨name :: pool.taken⟩)

/-- Allocates names in order. -/
def allocateAll (pool : NamePool) : List String → List String × NamePool
  | [] => ([], pool)
  | base :: bases =>
    let (name, pool) := pool.allocate base
    let (names, pool) := pool.allocateAll bases
    (name :: names, pool)

end NamePool

/-- The identifiers of instance captures, in the order of the fields. -/
def captureNames (fields : List String) : List String × NamePool :=
  NamePool.allocateAll {} fields

end ComputeKernel.Shader
