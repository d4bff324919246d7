import ComputeKernel.Settings.Basic
import ComputeKernel.Source.Diagnostic
import ComputeKernel.Text.Blank
import ComputeKernel.Text.Numeral

/-!
Settings files. A file has a setting `key = value` on each line, blank lines and lines that begin with
`#` apart, and sections that begin with a line such as `[shader]`. Only the section `shader` is read;
keys that it does not know are passed over, and of several lines with one key the last counts. The
first line that is wrong is reported by its number.
-/

namespace ComputeKernel.Settings.File

/-- What is wrong with a line. -/
inductive Fault where
  | noValue (line : String)
  | emptyEntryPoint
  | badGroup (value : String)
  | badCapacity (value : String)
  deriving DecidableEq, Repr

def Fault.message : Fault → String
  | noValue line => s!"expected `key = value`, found `{line}`"
  | emptyEntryPoint => "`entry_point` cannot be empty"
  | badGroup value => s!"`thread_group` must be 1 to 3 positive integers, found `{value}`"
  | badCapacity value =>
    s!"`constant_buffer_capacity` must be a positive integer, found `{value}`"

/-- Why a file gives no settings. -/
inductive Error where
  | missing
  /-- The bytes are not UTF-8. -/
  | notText
  | faulty (line : Nat) (fault : Fault)
  deriving DecidableEq, Repr

def Error.message (path : String) : Error → String
  | missing => s!"cannot read '{path}': No such file or directory (os error 2)"
  | notText => s!"cannot read '{path}': stream did not contain valid UTF-8"
  | faulty line fault => s!"{path}:{line}: {fault.message}"

/-- The error as a diagnostic, which is about no range of a source. -/
def Error.diagnostic (path : String) (e : Error) : Diagnostic := .error (e.message path) ⟨0, 0⟩

/-! ### Values -/

/-- A positive number. -/
def readCount (cs : List Char) : Option Nat :=
  (Text.readUnsigned 10 Text.bound32 cs).filter (0 < ·)

/-- The pieces between separators. There is always at least one. -/
def splitOn (separator : Char) : List Char → List (List Char)
  | [] => [[]]
  | c :: cs =>
    if c = separator then [] :: splitOn separator cs
    else
      match splitOn separator cs with
      | [] => [[c]]
      | piece :: pieces => (c :: piece) :: pieces

/-- What stands between brackets, if the text begins and ends with them. -/
def unbracket : List Char → Option (List Char)
  | '[' :: cs => if cs.getLast? = some ']' then some cs.dropLast else none
  | _ => none

/-- One to three positive numbers between brackets, with commas between them. Entries that are blank
are passed over, and dimensions that are missing have one thread. -/
def readGroup (value : List Char) : Option (Nat × Nat × Nat) := do
  let entries := ((splitOn ',' (← unbracket value)).map Text.trim).filter (! ·.isEmpty)
  match ← entries.mapM readCount with
  | [x] => some (x, 1, 1)
  | [x, y] => some (x, y, 1)
  | [x, y, z] => some (x, y, z)
  | _ => none

/-! ### Lines -/

/-- What a line of a file is, once the white space around it is removed. -/
inductive Line where
  /-- A blank line or a remark. -/
  | nothing
  | header (name : List Char)
  | setting (key value : List Char)
  | other (text : List Char)
  deriving DecidableEq, Repr

def Line.ofChars (line : List Char) : Line :=
  let line := Text.trim line
  if line.isEmpty || line.head? = some '#' then nothing
  else if line.contains '=' then
    let key := Text.stripChar '"' (Text.trim (line.takeWhile (· ≠ '=')))
    setting key (Text.trim ((line.dropWhile (· ≠ '=')).drop 1))
  else
    match unbracket line with
    | some name => header (Text.trim name)
    | none => other line

/-- How far a file has been read. -/
structure Progress where
  settings : Settings := {}
  inShader : Bool := false

def setEntry (s : Settings) (value : List Char) : Except Fault Settings :=
  match Text.stripChar '"' value with
  | [] => .error .emptyEntryPoint
  | name => .ok { s with entryPoint := String.ofList name }

def setGroup (s : Settings) (value : List Char) : Except Fault Settings :=
  match readGroup value with
  | some (x, y, z) => .ok (s.withGroup x y z)
  | none => .error (.badGroup (String.ofList value))

def setCapacity (s : Settings) (value : List Char) : Except Fault Settings :=
  match readCount value with
  | some n => .ok { s with constantBufferCapacity := n }
  | none => .error (.badCapacity (String.ofList value))

/-- Changes the setting with the given key. -/
def assign (s : Settings) (key value : List Char) : Except Fault Settings :=
  if key = "entry_point".toList then setEntry s value
  else if key = "thread_group".toList then setGroup s value
  else if key = "constant_buffer_capacity".toList then setCapacity s value
  else .ok s

def Progress.read (p : Progress) : Line → Except Fault Progress
  | .nothing => .ok p
  | .header name => .ok { p with inShader := name = "shader".toList }
  | .setting key value =>
    if p.inShader then (assign p.settings key value).map fun settings => { p with settings }
    else .ok p
  | .other text => if p.inShader then .error (.noValue (String.ofList text)) else .ok p

/-- Reads lines, of which the first has the given number. -/
def readLines (p : Progress) (number : Nat) : List (List Char) → Except Error Settings
  | [] => .ok p.settings
  | line :: lines =>
    match p.read (.ofChars line) with
    | .ok p => readLines p (number + 1) lines
    | .error fault => .error (.faulty number fault)

def ofText (text : String) : Except Error Settings := readLines {} 1 (splitOn '\n' text.toList)

/-- The settings in a file with the given bytes, or in a file that is not there. -/
def load : Option ByteArray → Except Error Settings
  | none => .error .missing
  | some bytes =>
    match String.fromUTF8? bytes with
    | some text => ofText text
    | none => .error .notText

end ComputeKernel.Settings.File
