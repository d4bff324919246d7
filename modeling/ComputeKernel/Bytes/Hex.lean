import ComputeKernel.Text.Numeral

/-!
Bytes as hexadecimal digits, in lower case and two for each byte.
-/

namespace ComputeKernel.Bytes.Hex

def digit (n : Nat) : Char :=
  if n < 10 then Char.ofNat ('0'.toNat + n) else Char.ofNat ('a'.toNat + (n - 10))

def encode (bytes : List UInt8) : String :=
  String.ofList (bytes.flatMap fun b => [digit (b.toNat / 16), digit (b.toNat % 16)])

def decodeChars : List Char → Option (List UInt8)
  | [] => some []
  | h :: l :: rest => do
    let high ← Text.digitValue 16 h
    let low ← Text.digitValue 16 l
    return UInt8.ofNat (16 * high + low) :: (← decodeChars rest)
  | [_] => none

def decode (text : String) : Option (List UInt8) := decodeChars text.toList

end ComputeKernel.Bytes.Hex
