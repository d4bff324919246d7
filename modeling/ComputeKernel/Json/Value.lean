import ComputeKernel.Json.Quoted

/-!
Values of JSON, read from text. A number is kept as it is written; a string that stands for no text,
because of half a pair, is kept as such, so that it does no harm where nobody looks at it.
-/

namespace ComputeKernel.Json

inductive Value where
  | null
  | bool (b : Bool)
  | number (text : List Char)
  /-- A string, without a text if there is half a pair in it. -/
  | string (text : Option String)
  | array (items : List Value)
  /-- An object, with its members in the order in which they are written. -/
  | object (members : List (Option String × Value))

/-- The white space of JSON. -/
def isSpace (c : Char) : Bool := c = ' ' || c = '\t' || c = '\n' || c = '\r'

def skipSpace (cs : List Char) : List Char := cs.dropWhile isSpace

/-! ### Numbers -/

/-- Reads one or more digits. -/
def readDigits (cs : List Char) : Option (List Char × List Char) :=
  match cs.takeWhile Text.isDigit with
  | [] => none
  | digits => some (digits, cs.dropWhile Text.isDigit)

/-- Reads the digits before the point: a zero alone, or digits that do not begin with one. -/
def readWhole : List Char → Option (List Char × List Char)
  | '0' :: rest => some (['0'], rest)
  | cs => readDigits cs

/-- Reads a point and the digits behind it, if there is a point. -/
def readFraction : List Char → Option (List Char × List Char)
  | '.' :: rest => (readDigits rest).map fun (digits, rest) => ('.' :: digits, rest)
  | cs => some ([], cs)

/-- Reads a power of ten, if there is one. -/
def readPower : List Char → Option (List Char × List Char)
  | c :: rest =>
    if c = 'e' ∨ c = 'E' then
      let (sign, rest) := match rest with
        | '+' :: rest => (['+'], rest)
        | '-' :: rest => (['-'], rest)
        | _ => ([], rest)
      (readDigits rest).map fun (digits, rest) => (c :: sign ++ digits, rest)
    else some ([], c :: rest)
  | [] => some ([], [])

def readNumber (cs : List Char) : Option (List Char × List Char) := do
  let (sign, cs) := match cs with
    | '-' :: rest => (['-'], rest)
    | _ => ([], cs)
  let (whole, cs) ← readWhole cs
  let (fraction, cs) ← readFraction cs
  let (power, cs) ← readPower cs
  return (sign ++ whole ++ fraction ++ power, cs)

/-! ### Values -/

def readString (cs : List Char) : Option (Option String × List Char) :=
  (readUnits cs).map fun (units, rest) => ((pairUp units).map String.ofList, rest)

/-- Reads something that must be there. -/
def expect (text : String) (cs : List Char) : Option (List Char) :=
  if text.toList.isPrefixOf cs then some (cs.drop text.length) else none

mutual

/-- Reads a value, with white space before it allowed. Each call of a reader below has one less to
spend than its caller, and no character needs more than two calls. -/
def readValue : Nat → List Char → Option (Value × List Char)
  | 0, _ => none
  | limit + 1, cs =>
    match skipSpace cs with
    | '[' :: rest =>
      match skipSpace rest with
      | ']' :: rest => some (.array [], rest)
      | rest => (readItems limit rest).map fun (items, rest) => (.array items, rest)
    | '\x7b' :: rest =>
      match skipSpace rest with
      | '\x7d' :: rest => some (.object [], rest)
      | rest => (readMembers limit rest).map fun (members, rest) => (.object members, rest)
    | '"' :: rest => (readString rest).map fun (text, rest) => (.string text, rest)
    | 'n' :: rest => (expect "ull" rest).map fun rest => (.null, rest)
    | 't' :: rest => (expect "rue" rest).map fun rest => (.bool true, rest)
    | 'f' :: rest => (expect "alse" rest).map fun rest => (.bool false, rest)
    | rest => (readNumber rest).map fun (text, rest) => (.number text, rest)

/-- Reads the items of an array, of which there is at least one, and the bracket behind them. -/
def readItems : Nat → List Char → Option (List Value × List Char)
  | 0, _ => none
  | limit + 1, cs =>
    match readValue limit cs with
    | none => none
    | some (item, rest) =>
      match skipSpace rest with
      | ',' :: rest => (readItems limit rest).map fun (items, rest) => (item :: items, rest)
      | ']' :: rest => some ([item], rest)
      | _ => none

/-- Reads the members of an object, of which there is at least one, and the brace behind them. -/
def readMembers : Nat → List Char → Option (List (Option String × Value) × List Char)
  | 0, _ => none
  | limit + 1, cs =>
    match (expect "\"" (skipSpace cs)).bind readString with
    | none => none
    | some (key, rest) =>
      match (expect ":" (skipSpace rest)).bind (readValue limit) with
      | none => none
      | some (value, rest) =>
        match skipSpace rest with
        | ',' :: rest =>
          (readMembers limit rest).map fun (members, rest) => ((key, value) :: members, rest)
        | '\x7d' :: rest => some ([(key, value)], rest)
        | _ => none

end

/-- The value that a text is, with nothing but white space around it. -/
def Value.parse? (text : String) : Option Value :=
  match readValue (2 * text.length + 2) text.toList with
  | some (value, rest) => if (skipSpace rest).isEmpty then some value else none
  | none => none

end ComputeKernel.Json
