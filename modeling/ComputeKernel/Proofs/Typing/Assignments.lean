import ComputeKernel.Proofs.Parsing.Extraction
import ComputeKernel.Proofs.Typing.Acceptance

/-!
Assignments. The operator of an assignment is that of a symbol which assigns, as the parser has read it,
and its place has the form of one, as the checker has found.
-/

namespace ComputeKernel

mutual

/-- The assignments in a statement, each with its operator and its place. -/
def Stmt.assignments : Stmt → List (Option BinaryOp × Expr)
  | .assign _ op place _ => [(op, place)]
  | .let .. | .jump .. | .eval .. => []
  | .if _ _ body none => body.assignments
  | .if _ _ body (some otherwise) => body.assignments ++ otherwise.assignments
  | .for _ _ _ _ _ body | .while _ _ body | .loop _ body | .nested _ body => body.assignments

def Block.assignments : Block → List (Option BinaryOp × Expr)
  | ⟨_, stmts⟩ => Stmt.allAssignments stmts

def Stmt.allAssignments : List Stmt → List (Option BinaryOp × Expr)
  | [] => []
  | s :: ss => s.assignments ++ Stmt.allAssignments ss

end

/-- Whether an expression has the form of a place. -/
def Expr.IsPlace : Expr → Prop
  | .name .. | .index .. | .field .. | .paren .. => True
  | _ => False

namespace Parse

/-- The operators with which a symbol assigns. -/
def Assigns (op : Option BinaryOp) : Prop := ∃ s : Symbol, s.assignOp? = some op

def StmtPhrase.assignments : StmtPhrase → List (Option BinaryOp × Expr)
  | .block b => b.assignments
  | .statements ss => Stmt.allAssignments ss
  | .statement s => s.assignments

theorem ReadsSimple.assigns {isBody : Bool} {c c' : Cursor} {s : Stmt}
    (h : ReadsSimple isBody c s c') : ∀ a ∈ s.assignments, Assigns a.1 := by
  cases h with
  | eval => exact nofun
  | assign _ _ hop => exact List.forall_mem_singleton.mpr ⟨_, hop⟩

theorem ReadsStmt.assigns {c c' : Cursor} {p : StmtPhrase} (h : ReadsStmt c p c') :
    ∀ a ∈ p.assignments, Assigns a.1 := by
  induction h with
  | block _ _ _ _ ih | emptyStatement _ _ ih | ifOnly _ _ _ _ ih | «while» _ _ _ ih | loop _ _ ih
  | nested _ _ ih | «for» _ _ _ _ _ _ _ _ ih => exact ih
  | noStatement | «let» | jump => exact nofun
  | moreStatements _ _ _ _ ihFirst ihRest => exact List.forall_mem_append.mpr ⟨ihFirst, ihRest⟩
  | ifElse _ _ _ _ _ _ ihBody ihOtherwise => exact List.forall_mem_append.mpr ⟨ihBody, ihOtherwise⟩
  | ifChain _ _ _ _ _ _ ihBody ihChained =>
    refine List.forall_mem_append.mpr ⟨ihBody, ?_⟩
    exact List.forall_mem_append.mpr ⟨ihChained, nofun⟩
  | simple _ hs => exact hs.assigns

theorem ReadsClosure.assigns {c c' : Cursor} {closure : Closure} (h : ReadsClosure c closure c') :
    ∀ a ∈ closure.body.assignments, Assigns a.1 := by
  cases h with
  | mk _ _ _ _ _ _ _ hbody _ =>
    cases hbody with
    | block _ hb => exact hb.assigns
    | simple _ hs => exact List.forall_mem_append.mpr ⟨hs.assigns, nofun⟩

end Parse

namespace Check

def StmtJudgment.assignments : StmtJudgment → List (Option BinaryOp × Expr)
  | .stmt s => s.assignments
  | .stmts ss => Stmt.allAssignments ss
  | .block b => b.assignments

theorem Assignable.isPlace {m : Model} {e : Expr} (h : Assignable m e) : e.IsPlace := by
  cases h <;> trivial

theorem ChecksStmt.places {catalog : Catalog} {s s' : Checking} {j : StmtJudgment}
    (h : ChecksStmt catalog s j s') : ∀ a ∈ j.assignments, a.2.IsPlace := by
  induction h with
  | declare | annotated | inferred | jump | eval | nil => exact nofun
  | assign _ _ hplace _ => exact List.forall_mem_singleton.mpr hplace.isPlace
  | ifOnly _ _ _ ih | «for» _ _ _ _ _ ih | «while» _ _ _ ih | loop _ ih | nested _ ih | block _ ih =>
    exact ih
  | ifElse _ _ _ _ ihBody ihOtherwise => exact List.forall_mem_append.mpr ⟨ihBody, ihOtherwise⟩
  | cons _ _ ihFirst ihRest => exact List.forall_mem_append.mpr ⟨ihFirst, ihRest⟩

end Check

/-- Each assignment in an accepted closure has an operator that assigns and the form of a place on its
left. -/
theorem Closure.assignments_of_bind {source : String} {c : Closure} {catalog : Catalog} {m : Model}
    (hparse : Closure.parse source = .ok c) (hbind : c.bind catalog = .ok m) :
    ∀ a ∈ c.body.assignments, Parse.Assigns a.1 ∧ a.2.IsPlace := by
  obtain ⟨⟨c', hreads⟩, _⟩ := Closure.reads_of_parse hparse
  obtain ⟨s, hchecks, rfl⟩ := c.checks_of_bind hbind
  cases hchecks with
  | mk _ hbody => exact fun a ha => ⟨hreads.assigns a ha, hbody.places a ha⟩

end ComputeKernel
