/-!
White space. The closure language separates tokens by five ASCII characters only; configuration
files and host type names are read with the wider class of the Unicode property `White_Space`,
which contains the narrow one and the vertical tab besides.
-/

namespace ComputeKernel.Text

/-- White space between the tokens of a closure. The vertical tab is not in it. -/
def isSpace (c : Char) : Bool :=
  c = ' ' || c = '\t' || c = '\n' || c = '\x0c' || c = '\r'

/-- The Unicode property `White_Space`, as closed ranges of code points. -/
def blankRanges : List (Nat × Nat) :=
  [(0x9, 0xd), (0x20, 0x20), (0x85, 0x85), (0xa0, 0xa0), (0x1680, 0x1680), (0x2000, 0x200a),
    (0x2028, 0x2029), (0x202f, 0x202f), (0x205f, 0x205f), (0x3000, 0x3000)]

def isBlank (c : Char) : Bool :=
  blankRanges.any fun (first, last) => first ≤ c.toNat && c.toNat ≤ last

/-! ### Trimming -/

def trimStart (cs : List Char) : List Char := cs.dropWhile isBlank

def trimEnd (cs : List Char) : List Char := (cs.reverse.dropWhile isBlank).reverse

def trim (cs : List Char) : List Char := trimEnd (trimStart cs)

/-- Removes every leading and trailing occurrence of one character. -/
def stripChar (d : Char) (cs : List Char) : List Char :=
  ((cs.dropWhile (· = d)).reverse.dropWhile (· = d)).reverse

end ComputeKernel.Text
