import ComputeKernel.Source.Diagnostic
import ComputeKernel.Text.Blank

/-!
Diagnostics drawn into the source. The line that a range begins on is shown with its number, the
range underlined, and the message hung below the middle of the underline; a suggestion and the last
note follow. A range that reaches beyond the text is cut off where the text ends.
-/

namespace ComputeKernel.Diagnostic

/-- Whether a line ends behind this character. -/
def endsLine (c : Char) : Bool :=
  ['\n', '\x0b', '\x0c', '\r', '\u0085', '\u2028', '\u2029'].contains c

/-- The lines of a text, each with what ends it. A carriage return and the line feed behind it end one
line together. Behind the last end of a line no other line begins, so that the empty text has none. -/
def sourceLines : List Char → List (List Char)
  | [] => []
  | '\r' :: '\n' :: rest => ['\r', '\n'] :: sourceLines rest
  | c :: rest =>
    if endsLine c then [c] :: sourceLines rest
    else
      match sourceLines rest with
      | [] => [[c]]
      | line :: lines => (c :: line) :: lines

def repeated (n : Nat) (c : Char) : String := String.ofList (List.replicate n c)

/-- Line number, column and text of the line that a position is on, if there is a line at all. Columns
are counted from zero. The position behind the text is on the last line. -/
def locate? (number offset : Nat) : List (List Char) → Option (Nat × Nat × List Char)
  | [] => none
  | [line] => some (number, offset, line)
  | line :: lines =>
    if offset < line.length then some (number, offset, line)
    else locate? (number + 1) (offset - line.length) lines

/-- The underline of `length` columns and the line below, which leads to the message. -/
def pointer (column length : Nat) (message : String) : List String :=
  let pad := repeated column ' '
  let middle := length / 2
  let underline :=
    if length = 0 then pad ++ "│ "
    else
      pad ++ repeated middle '─' ++ "┬" ++ repeated (length - middle - 1) '─' ++ "  "
  let hook :=
    pad ++ repeated middle ' ' ++ "╰" ++ repeated (length - middle + 1) '─' ++ " " ++ message
  [underline, hook]

/-- A remark below the drawing. -/
def remark (gap label text : String) : List String :=
  [gap ++ "│ ", gap ++ "│ " ++ label ++ ": " ++ text]

/-- The lines of a drawing that marks `length` columns of a line. -/
def drawing (d : Diagnostic) (kernel : String) (number column length : Nat) (line : List Char) :
    List String :=
  let width := (toString number).length + 2
  let gap := repeated width ' '
  [gap ++ s!"╭─[{kernel}:{number}:{column + 1}]",
    gap ++ "│",
    s!" {number} │ " ++ String.ofList (Text.trimEnd line)] ++
  (pointer column length d.message).map (gap ++ "│ " ++ ·) ++
  (d.help.toList.flatMap (remark gap "Help")) ++
  (d.notes.getLast?.toList.flatMap (remark gap "Note")) ++
  [repeated width '─' ++ "╯"]

/-- The message and the drawing. There is no drawing of an empty source. -/
def drawn (d : Diagnostic) (kernel source : String) : String :=
  let limit := source.utf8ByteSize
  let start := min d.span.start limit
  let stop := max start (min d.span.stop limit)
  let lines :=
    match locate? 1 start (sourceLines source.toList) with
    | some (number, column, line) => drawing d kernel number column (stop - start) line
    | none => []
  String.join ((s!"Error: {d.message}" :: lines).map (· ++ "\n"))

end ComputeKernel.Diagnostic
