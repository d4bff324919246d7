import ComputeKernel.Closure.Tree

/-!
Literals in shader code. Digits are written without gaps, binary and octal integers in decimal, and
suffixes of the host are dropped except that unsigned integers are marked with `u`.
-/

namespace ComputeKernel

namespace Literal

/-- Suffixes of unsigned integers. -/
def unsignedSuffixes : List String := ["u", "U", "u32", "usize"]

/-- The digits in decimal, or as they are if they denote no number below 2⁶⁴. -/
def inDecimal (radix : Nat) (digits tail : List Char) : List Char :=
  match Text.readUnsigned radix Text.bound64 tail with
  | some n => (toString n).toList
  | none => digits

def hlslDigits (digits : List Char) : List Char :=
  match digits with
  | '0' :: 'b' :: tail => inDecimal 2 digits tail
  | '0' :: 'o' :: tail => inDecimal 8 digits tail
  | _ => digits

/-- Whether a number is written with a point or an exponent. -/
def isFractional (digits : List Char) : Bool :=
  digits.any fun c => c = '.' || c = 'e' || c = 'E'

def hlsl : Literal → String
  | bool value => if value then "true" else "false"
  | integer digits suffix =>
    let text := hlslDigits (digits.toList.filter (· ≠ '_'))
    let mark := if suffix.any (· ∈ unsignedSuffixes) then ['u'] else []
    String.ofList (text ++ mark)
  | float digits suffix =>
    let text := digits.toList.filter (· ≠ '_')
    let mark := if suffix.isSome && ! isFractional text then ['.', '0'] else []
    String.ofList (text ++ mark)

end Literal

end ComputeKernel
