import ComputeKernel.Program.Descriptor
import ComputeKernel.Settings.Basic

/-!
The text of a complete shader program: the uniform block, the constant buffers as arrays in blocks of
their own, the other buffers, and the entry point. Blocks are named so that no capture has the name.
-/

namespace ComputeKernel

namespace Descriptor

/-- The identifiers of the captures. -/
def shaderNames (d : Descriptor) : List String :=
  (d.resources ++ d.scalars).map (·.shaderName)

/-- `base` with the fewest underscores behind it that make it none of the names. One more candidate
than there are names is enough. -/
def blockName (names : List String) (base : String) : String :=
  let candidate := fun n => base ++ String.ofList (List.replicate n '_')
  (((List.range (names.length + 1)).map candidate).find? fun name => ! names.contains name).getD base

/-- A block at a register, with a blank line behind it. -/
def block (name register : String) (members : List String) : List String :=
  [s!"cbuffer {name} : register({register})", "\x7b"] ++ members.map ("    " ++ ·) ++ ["\x7d;", ""]

/-- The block of the scalar captures, if there are any. -/
def uniformBlock (d : Descriptor) : List String :=
  let members := (d.scalars.zip d.uniforms.entries).map fun (c, e) =>
    s!"{c.shaderType} {c.shaderName} : packoffset({e.packOffset});"
  if members.isEmpty then [] else block (blockName d.shaderNames "_uniforms") "b0" members

/-- The slots of the resources with the captures that they bind. -/
def boundResources (d : Descriptor) : List (BindingSlot × Capture) :=
  d.slots.filterMap fun slot => do return (slot, ← d.resources[← slot.resource]?)

def constantBlocks (d : Descriptor) (capacity : Nat) : List String :=
  d.boundResources.flatMap fun (slot, c) =>
    if slot.category = .constantBuffer then
      block (blockName d.shaderNames s!"_cb_{c.shaderName}") slot.register
        [s!"{c.shaderType} {c.shaderName}[{capacity}];"]
    else []

/-- The declarations of the buffers that are no constant buffers, with a blank line behind them. -/
def bufferLines (d : Descriptor) : List String :=
  let lines := d.boundResources.filterMap fun (slot, c) =>
    if slot.category = .constantBuffer then none
    else some s!"{c.shaderType} {c.shaderName} : register({slot.register});"
  if lines.isEmpty then [] else lines ++ [""]

def entryLines (d : Descriptor) (s : Settings) : List String :=
  [s!"[numthreads({s.groupX}, {s.groupY}, {s.groupZ})]",
    s!"void {s.entryPoint}(uint3 {d.threadIds} : SV_DispatchThreadID)", d.body]

/-- The program with the given settings. -/
def render (d : Descriptor) (s : Settings) : String :=
  let lines :=
    ["#pragma pack_matrix(row_major)", ""] ++ d.uniformBlock ++
      d.constantBlocks s.constantBufferCapacity ++ d.bufferLines ++ d.entryLines s
  "\n".intercalate lines ++ "\n"

end Descriptor

end ComputeKernel
