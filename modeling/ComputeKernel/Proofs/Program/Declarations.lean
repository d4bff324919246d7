import ComputeKernel.Program.Render
import ComputeKernel.Proofs.Binding.Packing
import ComputeKernel.Proofs.Binding.Registers

/-!
Declarations of a program. What a program declares in front of its entry point is one block for the
scalars, a block for each constant buffer and a line for each other buffer. How declarations, registers
and offsets are written in the shader language is said here once more, and the text of a program is shown
to be the text of its declarations. Each resource stands at the register of the parameter that binds it,
and each scalar at the byte where packing puts its value.
-/

namespace ComputeKernel

/-! ### Registers and offsets -/

/-- A register of a class, as in `t3`. -/
structure Register where
  kind : RangeKind
  number : Nat
  deriving DecidableEq, Repr

namespace Register

/-- The letter of a class: `b` for constant buffers, `t` for what is read and `u` for what is written. -/
def letter : RangeKind → Char
  | .cbv => 'b'
  | .srv => 't'
  | .uav => 'u'

def text (r : Register) : String := s!"{letter r.kind}{r.number}"

theorem toList_text (r : Register) : r.text.toList = letter r.kind :: r.number.repr.toList := by
  simp [text, toString]

theorem text_injective : Function.Injective text := by
  rintro ⟨kind, number⟩ ⟨kind', number'⟩ h
  have hlist := congrArg String.toList h
  rw [toList_text, toList_text] at hlist
  obtain ⟨hclass, hnumber⟩ := List.cons.inj hlist
  have hkind : kind = kind' := by
    cases kind <;> cases kind' <;> first | rfl | cases hclass
  have hvalues := congrArg (Nat.ofDigitChars 10 · 0) hnumber
  have hnumbers : number = number' := by simpa using hvalues
  rw [hkind, hnumbers]

end Register

/-- Where the range of a parameter begins. -/
def BindingParameter.register (p : BindingParameter) : Register := ⟨p.kind, p.baseRegister⟩

/-- A slot is declared at the register where its parameter begins. -/
theorem BindingSlot.register_eq (slot : BindingSlot) :
    slot.register = slot.parameter.register.text := by
  rw [String.ext_iff, Register.toList_text, register, String.toList_append]
  show slot.kind.registerClass.toList ++ _ = Register.letter slot.kind :: _
  cases slot.kind <;> rfl

/-- A register of a constant buffer and one of its four words, as in `c3.y`. -/
structure PackOffset where
  register : Nat
  component : Fin 4
  deriving DecidableEq, Repr

namespace PackOffset

/-- The words of a register are `x`, `y`, `z` and `w`. -/
def letter : Fin 4 → Char
  | 0 => 'x'
  | 1 => 'y'
  | 2 => 'z'
  | 3 => 'w'

def text (o : PackOffset) : String := s!"c{o.register}.{letter o.component}"

/-- The byte that an offset means. -/
def bytes (o : PackOffset) : Nat := 16 * o.register + 4 * o.component

/-- The offset of a byte, rounded down to a word. -/
def ofBytes (n : Nat) : PackOffset := ⟨n / 16, ⟨n % 16 / 4, by omega⟩⟩

theorem bytes_ofBytes {n : Nat} (h : 4 ∣ n) : (ofBytes n).bytes = n := by
  show 16 * (n / 16) + 4 * (n % 16 / 4) = n
  omega

/-- An entry is declared at the word that it begins in. -/
theorem packOffset_eq (e : Uniform.Entry) : e.packOffset = (ofBytes e.offset).text := by
  have hletter : ∀ i : Fin 4, Uniform.Entry.componentLetter i = String.singleton (letter i) := by
    decide
  have hcomponent := hletter (ofBytes e.offset).component
  exact congrArg (s!"c{e.offset / 16}." ++ ·) hcomponent

end PackOffset

/-! ### Programs -/

structure ScalarDecl where
  type : String
  name : String
  offset : PackOffset
  deriving DecidableEq, Repr

def ScalarDecl.line (x : ScalarDecl) : String :=
  s!"{x.type} {x.name} : packoffset({x.offset.text});"

/-- The block of the scalars. -/
structure UniformDecl where
  block : String
  register : Register
  members : List ScalarDecl

def UniformDecl.lines (u : UniformDecl) : List String :=
  s!"cbuffer {u.block} : register({u.register.text})" :: "\x7b" ::
    u.members.map (fun x => s!"    {x.line}") ++ ["\x7d;", ""]

structure ResourceDecl where
  type : String
  name : String
  register : Register
  deriving DecidableEq, Repr

def ResourceDecl.line (x : ResourceDecl) : String :=
  s!"{x.type} {x.name} : register({x.register.text});"

/-- A constant buffer, an array of the given capacity in a block of its own. -/
structure ConstantDecl extends ResourceDecl where
  block : String
  capacity : Nat

def ConstantDecl.lines (x : ConstantDecl) : List String :=
  [s!"cbuffer {x.block} : register({x.register.text})", "\x7b",
    s!"    {x.type} {x.name}[{x.capacity}];", "\x7d;", ""]

structure Program where
  uniforms : Option UniformDecl
  constants : List ConstantDecl
  buffers : List ResourceDecl
  /-- The entry point. -/
  entry : List String

namespace Program

def text (p : Program) : String :=
  let uniforms := (p.uniforms.map UniformDecl.lines).getD []
  let buffers := if p.buffers.isEmpty then [] else p.buffers.map (·.line) ++ [""]
  "\n".intercalate (["#pragma pack_matrix(row_major)", ""] ++ uniforms ++
    p.constants.flatMap ConstantDecl.lines ++ buffers ++ p.entry) ++ "\n"

def scalars (p : Program) : List ScalarDecl := (p.uniforms.map (·.members)).getD []

def resources (p : Program) : List ResourceDecl :=
  p.constants.map (·.toResourceDecl) ++ p.buffers

/-- Every register that something is declared at. -/
def registers (p : Program) : List Register :=
  (p.uniforms.map (·.register)).toList ++ p.resources.map (·.register)

end Program

namespace Descriptor

def scalarDecls (d : Descriptor) : List ScalarDecl :=
  (d.scalars.zip d.uniforms.entries).map fun (c, e) =>
    ⟨c.shaderType, c.shaderName, .ofBytes e.offset⟩

def resourceDecl (x : BindingSlot × Capture) : ResourceDecl :=
  ⟨x.2.shaderType, x.2.shaderName, x.1.parameter.register⟩

def constantDecl? (d : Descriptor) (s : Settings) (x : BindingSlot × Capture) :
    Option ConstantDecl :=
  if x.1.category = .constantBuffer then
    some ⟨resourceDecl x, blockName d.shaderNames s!"_cb_{x.2.shaderName}", s.constantBufferCapacity⟩
  else none

def bufferDecl? (x : BindingSlot × Capture) : Option ResourceDecl :=
  if x.1.category = .constantBuffer then none else some (resourceDecl x)

/-- The program of a descriptor. -/
def program (d : Descriptor) (s : Settings) : Program where
  uniforms :=
    if d.scalarDecls.isEmpty then none
    else some ⟨blockName d.shaderNames "_uniforms", ⟨.cbv, 0⟩, d.scalarDecls⟩
  constants := d.boundResources.filterMap (d.constantDecl? s)
  buffers := d.boundResources.filterMap bufferDecl?
  entry := d.entryLines s

/-! ### Text -/

theorem uniformBlock_eq (d : Descriptor) (s : Settings) :
    d.uniformBlock = ((d.program s).uniforms.map UniformDecl.lines).getD [] := by
  have hlines : (d.scalars.zip d.uniforms.entries).map (fun (c, e) =>
      s!"{c.shaderType} {c.shaderName} : packoffset({e.packOffset});") =
        d.scalarDecls.map (·.line) := by
    rw [scalarDecls, List.map_map]
    refine List.map_congr_left fun x _ => ?_
    simp only [PackOffset.packOffset_eq]
    rfl
  have hregister : "b0" = Register.text ⟨.cbv, 0⟩ := by decide +kernel
  simp only [uniformBlock, program, hlines, List.isEmpty_map, hregister]
  split
  · rfl
  · rw [block, List.map_map]
    rfl

theorem constantBlocks_eq (d : Descriptor) (s : Settings) :
    d.constantBlocks s.constantBufferCapacity =
      (d.program s).constants.flatMap ConstantDecl.lines := by
  unfold constantBlocks program
  induction d.boundResources with
  | nil => rfl
  | cons x xs ih =>
    rw [List.flatMap_cons, ih, List.filterMap_cons]
    by_cases hconstant : x.1.category = .constantBuffer
    · simp only [constantDecl?, if_pos hconstant, List.flatMap_cons, BindingSlot.register_eq]
      rfl
    · simp only [constantDecl?, if_neg hconstant, List.nil_append]

theorem bufferLines_eq (d : Descriptor) (s : Settings) :
    d.bufferLines = if (d.program s).buffers.isEmpty then []
      else (d.program s).buffers.map (·.line) ++ [""] := by
  have hlines : (d.program s).buffers.map (·.line) = d.boundResources.filterMap fun x =>
      if x.1.category = .constantBuffer then none
      else some s!"{x.2.shaderType} {x.2.shaderName} : register({x.1.register});" := by
    rw [program, List.map_filterMap]
    refine List.filterMap_congr fun x _ => ?_
    by_cases hconstant : x.1.category = .constantBuffer
    · simp only [bufferDecl?, if_pos hconstant]
      rfl
    · simp only [bufferDecl?, if_neg hconstant, BindingSlot.register_eq]
      rfl
  rw [← List.isEmpty_map, hlines]
  rfl

/-- The text of a program is that of its declarations and of its entry point. -/
theorem render_eq_text (d : Descriptor) (s : Settings) : d.render s = (d.program s).text := by
  rw [render, Program.text, uniformBlock_eq d s, constantBlocks_eq, bufferLines_eq d s]
  rfl

end Descriptor

end ComputeKernel
