import ComputeKernel.Text.Blank
import ComputeKernel.Text.Numeral
import ComputeKernel.Text.Segments

/-!
Types as the host writes them: a path, with arguments in angle brackets if it is generic. White
space is free in the written form; the canonical text puts one blank behind each comma.
-/

namespace ComputeKernel

structure HostType where
  /-- The path as written, without arguments. -/
  name : String
  args : List HostType
  deriving BEq, Repr, Inhabited

namespace HostType

def named (name : String) : HostType := ⟨name, []⟩

/-- The last segment of the path. -/
def base (t : HostType) : String := Text.lastSegment t.name

mutual

def text : HostType → String
  | ⟨name, []⟩ => name
  | ⟨name, arg :: args⟩ => name ++ "<" ++ ", ".intercalate (texts (arg :: args)) ++ ">"

def texts : List HostType → List String
  | [] => []
  | t :: ts => t.text :: texts ts

end

/-! ### Reading -/

def isNameChar (c : Char) : Bool :=
  Text.isDigit c || ('a' ≤ c && c ≤ 'z') || ('A' ≤ c && c ≤ 'Z') || c = '_' || c = ':'

/-- The name that a text begins with, which neither begins nor ends with a colon. -/
def readName (cs : List Char) : Option (List Char × List Char) :=
  let name := cs.takeWhile isNameChar
  if name = [] ∨ name.head? = some ':' ∨ name.getLast? = some ':' then none
  else some (name, cs.dropWhile isNameChar)

mutual

/-- Reads a type from the front of a text without white space. -/
def readFront (fuel : Nat) (cs : List Char) : Option (HostType × List Char) :=
  match fuel with
  | 0 => none
  | fuel + 1 => do
    let (name, rest) ← readName cs
    match rest with
    | '<' :: rest =>
      let (args, rest) ← readArgs fuel rest
      return (⟨String.ofList name, args⟩, rest)
    | _ => return (named (String.ofList name), rest)

/-- Reads the arguments behind `<`, and the closing `>`. -/
def readArgs (fuel : Nat) (cs : List Char) : Option (List HostType × List Char) :=
  match fuel with
  | 0 => none
  | fuel + 1 => do
    let (arg, rest) ← readFront fuel cs
    match rest with
    | ',' :: rest =>
      let (args, rest) ← readArgs fuel rest
      return (arg :: args, rest)
    | '>' :: rest => return ([arg], rest)
    | _ => none

end

/-- Reads a type from its written form. Each level of the reading uses up a character or is followed
by one that does, so twice the length is enough. -/
def parse? (source : String) : Option HostType :=
  let compact := source.toList.filter fun c => ! Text.isBlank c
  match readFront (2 * compact.length + 1) compact with
  | some (t, []) => some t
  | _ => none

/-- What is said of a text that is no host type. -/
def malformed (source : String) : String := s!"malformed host type `{source}`"

end HostType

end ComputeKernel
