import ComputeKernel.Kernel.Catalog
import ComputeKernel.Source.Diagnostic
import ComputeKernel.Typing.Model

/-!
Checking state. Checking a closure builds its symbol model and collects diagnostics. A check that
has no type to give answers `none`; by then a diagnostic says why.

A literal without a suffix, and a local that was set from one, has a type that is not settled yet: it
becomes the type of the first thing that it is put together with, if literals can have that type.
-/

namespace ComputeKernel

/-- What is known of an expression's value. -/
structure Typed where
  type : Ty
  /-- Set where the type is not settled. -/
  family : Option LiteralFamily := none
  /-- The local whose unsettled type this is, where the expression names one. -/
  origin : Option Nat := none
  deriving DecidableEq, Repr, Inhabited

namespace Typed

def isInteger (t : Typed) : Bool := t.type.isInteger

/-- The type and family without the local that they come from. -/
def detached (t : Typed) : Typed := { t with origin := none }

end Typed

structure Checking where
  model : Model := {}
  /-- The open scopes, innermost first, each with its latest declaration first. -/
  scopes : List (List (String × Nat)) := []
  /-- How many loops are open. -/
  loops : Nat := 0
  diagnostics : List Diagnostic := []
  deriving Inhabited

abbrev Check := StateM Checking

namespace Check

def report (d : Diagnostic) : Check Unit :=
  modify fun s => { s with diagnostics := s.diagnostics ++ [d] }

def error (message : String) (span : Span) : Check Unit := report (.error message span)

def errorWithHelp (message help : String) (span : Span) : Check Unit :=
  report ((Diagnostic.error message span).withHelp help)

/-- Reports an error in place of a type. -/
def fail (message : String) (span : Span) : Check (Option Typed) := do
  error message span
  return none

def failWithHelp (message help : String) (span : Span) : Check (Option Typed) := do
  errorWithHelp message help span
  return none

/-! ### The model -/

def setReferent (span : Span) (r : Referent) : Check Unit :=
  modify fun s => { s with model.referents := s.model.referents.insert span r }

def setType (span : Span) (t : Ty) : Check Unit :=
  modify fun s => { s with model.types := s.model.types.insert span t }

/-- Notes the type of the expression at `span`, if it has one. -/
def typed (span : Span) (t : Option Typed) : Check (Option Typed) := do
  if let some t := t then
    setType span t.type
  return t

/-! ### Scopes -/

def openScope : Check Unit := modify fun s => { s with scopes := [] :: s.scopes }

def closeScope : Check Unit := modify fun s => { s with scopes := s.scopes.drop 1 }

/-- Adds a local to the model and to the innermost scope. -/
def declare (name : Name) (type : Ty) (mutable : Bool) (family : Option LiteralFamily) :
    Check Unit := do
  let id := (← get).model.locals.length
  modify fun s =>
    { s with
      model.locals :=
        s.model.locals ++ [{ name := name.text, type, mutable, span := name.span, family }]
      scopes := match s.scopes with
        | scope :: outer => ((name.text, id) :: scope) :: outer
        | [] => [] }
  setReferent name.span (.local id)

/-- The local that a name stands for: the latest of the innermost scope that declares it. -/
def findLocal? (name : String) : Check (Option Nat) :=
  return (← get).scopes.findSome? fun scope => scope.lookup name

/-! ### Unsettled types -/

/-- Gives the type `target` to the local that `t` comes from, if it comes from one. -/
def settle (t : Typed) (target : Ty) : Check Unit := do
  if let some id := t.origin then
    modify fun s =>
      { s with
        model.locals := s.model.locals.modify id fun l =>
          { l with type := target, family := none } }

/-- Whether `t` has the type `target` or can settle on it, which it then does. -/
def coerce (t : Typed) (target : Ty) : Check Bool := do
  if t.type = target then
    settle t target
    return true
  else
    match t.family, target with
    | some family, .value (.scalar k) =>
      if family.accepts k then
        settle t target
        return true
      else
        return false
    | _, _ => return false

/-- The common type of two values. Two unsettled ones have one only within a family, so that an
integer literal never becomes a float. -/
def unify (a b : Typed) : Check (Option Typed) := do
  match a.family, b.family with
  | none, none => return if a.type = b.type then some a else none
  | some _, none => return if ← coerce a b.type then some b else none
  | none, some _ => return if ← coerce b a.type then some a else none
  | some f, some g =>
    return if f = g ∧ a.type = b.type then some { type := a.type, family := some f } else none

end Check

end ComputeKernel
