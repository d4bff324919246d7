import ComputeKernel.Source.Span

/-!
Diagnostics: a message about a range of the source, with notes and at most one suggestion.
-/

namespace ComputeKernel

structure Diagnostic where
  message : String
  span : Span
  notes : List String := []
  help : Option String := none
  deriving DecidableEq, Repr, Inhabited

namespace Diagnostic

def error (message : String) (span : Span) : Diagnostic := { message, span }

def withHelp (d : Diagnostic) (help : String) : Diagnostic := { d with help := some help }

def withNote (d : Diagnostic) (note : String) : Diagnostic := { d with notes := d.notes ++ [note] }

/-- Moves a diagnostic about a part of the source to where that part begins. -/
def shift (offset : Nat) (d : Diagnostic) : Diagnostic := { d with span := d.span.shift offset }

/-- The message with its range, on one line. -/
def display (d : Diagnostic) : String := s!"{d.message} (at {d.span.start}..{d.span.stop})"

/-- One line about a list of diagnostics: the first message, and how many more there are. -/
def summary : List Diagnostic → String
  | [] => "no diagnostics"
  | [d] => d.message
  | d :: rest => s!"{d.message} (and {rest.length} more)"

end Diagnostic

end ComputeKernel
