import ComputeKernel.Text.Numeral

/-!
Templates of shader code. In a template `{0}`, `{1}`, … stand for operands, `{*}` for all operands
with commas between them, and `{m}` for the text of a member. An opening brace that is never closed
is text.
-/

namespace ComputeKernel.Shader

namespace Template

inductive Part where
  | text (chars : List Char)
  /-- What stands between two braces. -/
  | slot (token : List Char)
  deriving DecidableEq, Repr

/-- The parts of a template that has at most `limit` slots. -/
def cut (limit : Nat) (cs : List Char) : List Part :=
  match limit with
  | 0 => [.text cs]
  | limit + 1 =>
    match cs.dropWhile (· ≠ '\x7b') with
    | [] => [.text cs]
    | _ :: inner =>
      match inner.dropWhile (· ≠ '\x7d') with
      | [] => [.text cs]
      | _ :: rest =>
        .text (cs.takeWhile (· ≠ '\x7b')) :: .slot (inner.takeWhile (· ≠ '\x7d')) ::
          cut limit rest

def parts (template : String) : List Part := cut template.toList.length template.toList

/-- What a slot stands for. Operands are numbered by numerals below 2⁶⁴, of any length. -/
def fill (member : String) (operands : List String) (token : List Char) : Option String :=
  if token = ['m'] then some member
  else if token = ['*'] then some (", ".intercalate operands)
  else do operands[← Text.readUnsigned 10 Text.bound64 token]?

/-- The text of a list of parts, or the first slot that stands for no operand. -/
def join (member : String) (operands : List String) : List Part → Except String String
  | [] => .ok ""
  | .text cs :: parts => do return String.ofList cs ++ (← join member operands parts)
  | .slot token :: parts =>
    match fill member operands token with
    | some text => do return text ++ (← join member operands parts)
    | none => .error (String.ofList token)

end Template

/-- A slot of a template that stands for no operand. -/
structure MissingOperand where
  template : String
  slot : String
  deriving DecidableEq, Repr

def MissingOperand.message (e : MissingOperand) : String :=
  s!"internal error: entered unreachable code: template `{e.template}` has no operand `{e.slot}`"

/-- The text of a template with its slots filled in. -/
def Template.render (template member : String) (operands : List String) :
    Except MissingOperand String :=
  match Template.join member operands (Template.parts template) with
  | .ok text => .ok text
  | .error slot => .error ⟨template, slot⟩

end ComputeKernel.Shader
