import ComputeKernel.Closure.Tree
import ComputeKernel.Text.Numeral

/-!
Selectors of components and elements. Components of a vector are named by letters, elements of a
matrix by row and column, counted from one: `m12` and `MatrixIndex::M12`.
-/

namespace ComputeKernel

/-- The number of a component, from zero. -/
def componentIndex? : Char → Option Nat
  | 'x' => some 0
  | 'y' => some 1
  | 'z' => some 2
  | 'w' => some 3
  | _ => none

/-- The component that a name of one letter selects. -/
def component? (name : String) : Option Nat :=
  match name.toList with
  | [c] => componentIndex? c
  | _ => none

/-- Whether a name selects two to four components of a vector of `size` components. -/
def isSwizzle (name : String) (size : Nat) : Bool :=
  let letters := name.toList
  2 ≤ letters.length && letters.length ≤ 4 &&
    letters.all fun c => (componentIndex? c).any (· < size)

/-- A row or a column, counted from one. -/
def ordinal? (c : Char) : Option Nat :=
  (Text.digitValue 10 c).filter fun n => 1 ≤ n ∧ n ≤ 4

/-- The row and column behind a letter. -/
def positionBehind? (letter : Char) (name : String) : Option (Nat × Nat) :=
  match name.toList with
  | [l, r, c] => if l = letter then do return (← ordinal? r, ← ordinal? c) else none
  | _ => none

def elementPosition? (name : String) : Option (Nat × Nat) := positionBehind? 'm' name

/-- The type that owns the selectors of matrix elements. -/
def matrixIndexOwner : String := "MatrixIndex"

def matrixIndexPosition? (path : Path) : Option (Nat × Nat) :=
  if path.owner? = some matrixIndexOwner then positionBehind? 'M' path.last else none

end ComputeKernel
