import ComputeKernel.Capture.Captures

/-!
The uniform buffer. It is laid out in registers of sixteen bytes, in the order of the captures: a
value is aligned to its components and crosses no end of a register; a matrix begins a register and
has each row in a register of its own. Packing copies the host's bytes, which have no gaps, to where
the layout puts them.
-/

namespace ComputeKernel

namespace Uniform

/-- Bytes of a register. -/
def register : Nat := 16

/-- The least multiple of `unit` that is not below `n`. -/
def roundUp (n unit : Nat) : Nat := (n + (unit - 1)) / unit * unit

/-- How a value lies in memory. -/
structure Shape where
  /-- Rows of a matrix, 1 of anything else. -/
  rows : Nat
  /-- Bytes of a row on the host. -/
  rowSize : Nat
  /-- Bytes of a component. -/
  component : Nat
  isMatrix : Bool := false
  deriving DecidableEq, Repr

/-- The shape of a type; one that is no value lies like a scalar of four bytes. -/
def shape : Option Ty → Shape
  | some (.value (.scalar k)) => { rows := 1, rowSize := k.size, component := k.size }
  | some (.value (.vector k n)) => { rows := 1, rowSize := n * k.size, component := k.size }
  | some (.value (.matrix k r c)) =>
    { rows := r, rowSize := c * k.size, component := k.size, isMatrix := true }
  | _ => { rows := 1, rowSize := 4, component := 4 }

/-- The place of one capture in the buffer. -/
structure Entry where
  name : String
  /-- Bytes from the start of the buffer. -/
  offset : Nat
  rows : Nat
  rowSize : Nat
  /-- Bytes from the start of a row to that of the next. -/
  rowStride : Nat
  deriving DecidableEq, Repr, Inhabited

namespace Entry

/-- Bytes that the host supplies. -/
def hostSize (e : Entry) : Nat := e.rows * e.rowSize

/-- Where the last row ends. -/
def stop (e : Entry) : Nat := e.offset + ((e.rows - 1) * e.rowStride + e.rowSize)

def componentLetter : Nat → String
  | 0 => "x"
  | 1 => "y"
  | 2 => "z"
  | _ => "w"

/-- The register and the component that the value begins at, as in `c3.y`. -/
def packOffset (e : Entry) : String :=
  s!"c{e.offset / register}.{componentLetter (e.offset % register / 4)}"

end Entry

/-- The first offset from `offset` on that a shape may begin at. -/
def place (offset : Nat) (s : Shape) : Nat :=
  let aligned := roundUp offset s.component
  if s.isMatrix || aligned % register + s.rowSize > register then roundUp aligned register
  else aligned

def entry (offset : Nat) (c : Capture) : Entry :=
  let s := shape (Ty.ofHost? c.hostType)
  { name := c.shaderName
    offset := place offset s
    rows := s.rows
    rowSize := s.rowSize
    rowStride := roundUp s.rowSize register }

/-- The entries of captures from `offset` on. -/
def entries (offset : Nat) : List Capture → List Entry
  | [] => []
  | c :: cs =>
    let e := entry offset c
    e :: entries e.stop cs

structure Layout where
  entries : List Entry := []
  /-- Bytes of the buffer, a whole number of registers. -/
  size : Nat := 0
  deriving DecidableEq, Repr, Inhabited

/-- Where the last of a list of entries ends. -/
def extent (entries : List Entry) : Nat := (entries.getLast?.map Entry.stop).getD 0

def layout (scalars : List Capture) : Layout :=
  let es := entries 0 scalars
  ⟨es, roundUp (extent es) register⟩

/-! ### Packing -/

inductive Error where
  | sizeMismatch (capture : String) (expected found : Nat)
  | notAValue (capture : String)
  /-- The instance is of another kernel than the layout. -/
  | kernelMismatch (expected found : String)
  deriving DecidableEq, Repr

def Error.message : Error → String
  | sizeMismatch capture expected found =>
    s!"capture `{capture}` supplied {found} bytes, expected {expected}"
  | notAValue capture => s!"capture `{capture}` is a resource, not a value"
  | kernelMismatch expected found =>
    s!"descriptor of kernel `{expected}` cannot pack uniforms for `{found}`"

/-- The buffer with `bytes` in place of what was there from `offset` on. -/
def overwrite (buffer : List UInt8) (offset : Nat) (bytes : List UInt8) : List UInt8 :=
  buffer.take offset ++ bytes ++ buffer.drop (offset + bytes.length)

/-- A row of a value. -/
def row (e : Entry) (bytes : List UInt8) (r : Nat) : List UInt8 :=
  (bytes.drop (r * e.rowSize)).take e.rowSize

/-- Writes the rows of a value to their places. -/
def writeRows (e : Entry) (bytes buffer : List UInt8) : List UInt8 :=
  (List.range e.rows).foldl
    (fun buffer r => overwrite buffer (e.offset + r * e.rowStride) (row e bytes r)) buffer

/-- Writes values to the places of entries. The first value that is missing, is no value, or has the
wrong size ends the packing. -/
def packInto (buffer : List UInt8) :
    List Entry → List (Option (List UInt8)) → Except Error (List UInt8)
  | [], _ => .ok buffer
  | e :: es, values =>
    match values.head?.join with
    | none => .error (.notAValue e.name)
    | some bytes =>
      if bytes.length = e.hostSize then packInto (writeRows e bytes buffer) es values.tail
      else .error (.sizeMismatch e.name e.hostSize bytes.length)

/-- The image of the buffer with the given values, one for each entry. -/
def Layout.pack (l : Layout) (values : List (Option (List UInt8))) :
    Except Error (List UInt8) :=
  packInto (List.replicate l.size 0) l.entries values

end Uniform

end ComputeKernel
