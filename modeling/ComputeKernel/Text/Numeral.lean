/-!
Numerals. A numeral is read in a radix up to sixteen; where a number of fixed width is wanted, one
leading `+` and leading zeros are allowed, and a value that does not fit is refused.
-/

namespace ComputeKernel.Text

/-- Numbers of 32 bits are below this bound. -/
def bound32 : Nat := 0x100000000

/-- Numbers of 64 bits are below this bound. -/
def bound64 : Nat := 0x10000000000000000

def isDigit (c : Char) : Bool := '0' ≤ c && c ≤ '9'

/-- The value of a digit in a radix up to sixteen, letters of either case standing for ten and up. -/
def digitValue (radix : Nat) (c : Char) : Option Nat :=
  let value : Option Nat :=
    if '0' ≤ c ∧ c ≤ '9' then some (c.toNat - '0'.toNat)
    else if 'a' ≤ c ∧ c ≤ 'f' then some (c.toNat - 'a'.toNat + 10)
    else if 'A' ≤ c ∧ c ≤ 'F' then some (c.toNat - 'A'.toNat + 10)
    else none
  value.filter (· < radix)

def isDigitIn (radix : Nat) (c : Char) : Bool := (digitValue radix c).isSome

/-- The number that a list of digits denotes, most significant first, on top of `acc`. -/
def readDigits (radix acc : Nat) : List Char → Option Nat
  | [] => some acc
  | c :: cs =>
    match digitValue radix c with
    | some d => readDigits radix (acc * radix + d) cs
    | none => none

/-- Reads an unsigned number below `bound`. -/
def readUnsigned (radix bound : Nat) (cs : List Char) : Option Nat :=
  let digits := match cs with
    | '+' :: rest => rest
    | _ => cs
  if digits = [] then none else (readDigits radix 0 digits).filter (· < bound)

end ComputeKernel.Text
