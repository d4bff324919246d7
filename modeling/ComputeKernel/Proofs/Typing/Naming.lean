import ComputeKernel.Proofs.Parsing.Spelling
import ComputeKernel.Proofs.Typing.Acceptance
import ComputeKernel.Proofs.Typing.Frame

/-!
The names of locals. Checking an expression adds no local, and checking a statement adds those that
the statement declares, so the locals of a model carry names that stand in the closure.
-/

namespace ComputeKernel

namespace Check

open Checking

variable {catalog : Catalog} {s s' : Checking}

theorem Selects.heads_eq {rows columns : Nat} {items : List Expr}
    (h : Selects rows columns items s s') : s'.model.heads = s.model.heads := by
  induction h with
  | nil => rfl
  | cons _ _ _ _ ih => exact ih

/-- Expressions declare nothing. -/
theorem Checks.heads_eq {j : Judgment} (h : Checks catalog s j s') :
    s'.model.heads = s.model.heads := by
  induction h with
  | literal | «local» | capture | static | path | nil => rfl
  | unary _ _ ih | cast _ _ ih | field _ _ ih | paren _ ih => exact ih
  | binary _ _ hop ihLeft ihRight => exact hop.settles.heads.trans (ihRight.trans ihLeft)
  | method _ _ hmethod ihReceiver ihArgs =>
    exact hmethod.settles.heads.trans (ihArgs.trans ihReceiver)
  | call _ hcall ihArgs => exact hcall.settles.heads.trans ihArgs
  | element _ _ _ _ _ ihBase ihIndex => exact ihIndex.trans ihBase
  | swizzle _ _ _ _ hselects ih => exact hselects.heads_eq.trans ih
  | choice _ _ _ _ hunify ihCondition ihYes ihNo =>
    exact hunify.settles.heads.trans (ihNo.trans (ihYes.trans ihCondition))
  | cons _ _ ihFirst ihRest => exact ihRest.trans ihFirst

/-- Whether the locals of a model carry words for names. -/
def Named (s : Checking) : Prop := ∀ l ∈ s.model.locals, IsWord l.name.toList

theorem Named.of_heads (h : Named s) (heads : s'.model.heads = s.model.heads) : Named s' := by
  intro l hl
  have hmem : l.head ∈ s'.model.heads := List.mem_map_of_mem hl
  rw [heads] at hmem
  obtain ⟨l', hl', hhead⟩ := List.mem_map.mp hmem
  have hname : l'.name = l.name := congrArg (fun p : Name × Bool => p.1.text) hhead
  exact hname ▸ h l' hl'

theorem Named.of_settles (h : Named s) (hsettles : s.Settles s') : Named s' :=
  h.of_heads hsettles.heads

theorem Named.of_checks (h : Named s) {j : Judgment} (hchecks : Checks catalog s j s') : Named s' :=
  h.of_heads hchecks.heads_eq

theorem Named.declare (h : Named s) {name : Name} (hname : name.Spelled) (type : Ty)
    (mutable : Bool) (family : Option LiteralFamily) :
    Named (s.declare name type mutable family) := by
  intro l hl
  rcases List.mem_append.mp hl with hl | hl
  · exact h l hl
  · obtain rfl := List.mem_singleton.mp hl
    exact hname

def StmtJudgment.Spelled : StmtJudgment → Prop
  | .stmt st => st.Spelled
  | .stmts sts => Stmt.AllSpelled sts
  | .block b => b.Spelled

theorem ChecksStmt.named {j : StmtJudgment} (h : ChecksStmt catalog s j s') (hj : j.Spelled)
    (hs : Named s) : Named s' := by
  induction h with
  | declare _ => exact hs.declare hj.1 _ _ _
  | annotated he _ _ => exact ((hs.of_checks he).of_settles (.settle _ _ _)).declare hj.1 _ _ _
  | inferred he _ => exact (hs.of_checks he).declare hj.1 _ _ _
  | assign hplace hvalue _ hassigns =>
    exact ((hs.of_checks hplace).of_checks hvalue).of_settles hassigns.settles
  | ifOnly hcondition _ _ ih => exact ih hj.2.1 (hs.of_checks hcondition)
  | ifElse hcondition _ _ _ ihBody ihOtherwise =>
    exact ihOtherwise hj.2.2 (ihBody hj.2.1 (hs.of_checks hcondition))
  | «for» hstart hstop hunify _ _ ih =>
    obtain ⟨hcounter, _, _, hbody⟩ := hj
    have hopen := ((hs.of_checks hstart).of_checks hstop).of_settles
      (hunify.settles.trans (.openScope _))
    exact ih hbody ((hopen.declare hcounter _ _ _).of_settles (.enterLoop _))
  | «while» hcondition _ _ ih =>
    exact ih hj.2 ((hs.of_checks hcondition).of_settles (.enterLoop _))
  | loop _ ih => exact ih hj (hs.of_settles (.enterLoop _))
  | jump _ => exact hs
  | eval he => exact hs.of_checks he
  | nested _ ih => exact ih hj hs
  | nil => exact hs
  | cons _ _ ihFirst ihRest => exact ihRest hj.2 (ihFirst hj.1 hs)
  | block _ ih => exact ih hj hs

end Check

/-- The locals of an accepted closure carry words for names. -/
theorem Closure.named_of_bind {c : Closure} {catalog : Catalog} {m : Model} (hc : c.Spelled)
    (h : c.bind catalog = .ok m) : ∀ l ∈ m.locals, IsWord l.name.toList := by
  obtain ⟨s, hchecks, rfl⟩ := c.checks_of_bind h
  cases hchecks with
  | mk _ hbody =>
    have hempty : Check.Named ({} : Checking).openScope := nofun
    exact hbody.named hc.body (hempty.declare hc.param _ _ _)

end ComputeKernel
