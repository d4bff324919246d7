import ComputeKernel.Proofs.Shader.Statements
import ComputeKernel.Proofs.Typing.Scoping
import Mathlib.Data.List.Forall2

/-!
Identifiers in shader code and what they stand for. Read in the order of the text, the identifiers of
the code are those of the entities that the closure names, declares and counts with, with a variable in
between for each bound of a loop that was set apart.
-/

namespace ComputeKernel

namespace Shader

open Check (StmtJudgment)

/-- What an identifier of the code stands for: what a name of the closure refers to, or the bound of
the loop that a local counts. -/
inductive Entity where
  | referent (r : Referent)
  | bound (counter : Nat)
  deriving DecidableEq, Repr

/-! ### Identifiers of the code -/

mutual

/-- The variables of an expression, in the order of the text. -/
def Expr.variables : Expr → List String
  | .literal _ => []
  | .var name => [name]
  | .paren e | .unary _ e | .cast _ e | .member e _ => e.variables
  | .binary _ l r => l.variables ++ r.variables
  | .index base i => base.variables ++ i.variables
  | .call _ args => Expr.allVariables args
  | .choice c y n => c.variables ++ (y.variables ++ n.variables)

def Expr.allVariables : List Expr → List String
  | [] => []
  | e :: es => e.variables ++ Expr.allVariables es

end

theorem Expr.variables_atLeast (least : Nat) (e : Expr) :
    (e.atLeast least).variables = e.variables := by
  unfold atLeast
  split <;> rfl

theorem variables_unaryOperand (op : ComputeKernel.UnaryOp) (c : Expr) :
    (unaryOperand op c).variables = c.variables := by
  cases op with
  | neg =>
    simp only [unaryOperand]
    split <;> exact Expr.variables_atLeast _ _
  | not => exact Expr.variables_atLeast _ _

mutual

/-- The variables and the counters of a statement, in the order of the text. -/
def Stmt.identifiers : Stmt → List String
  | .declare _ name none => [name]
  | .declare _ name (some value) => name :: value.variables
  | .assign target _ value => target.variables ++ value.variables
  | .branch condition body none => condition.variables ++ Stmt.allIdentifiers body
  | .branch condition body (some otherwise) =>
    condition.variables ++ (Stmt.allIdentifiers body ++ Stmt.allIdentifiers otherwise)
  | .count _ counter start _ bound body =>
    counter :: (start.variables ++ counter :: (bound.variables ++
      counter :: Stmt.allIdentifiers body))
  | .while condition body => condition.variables ++ Stmt.allIdentifiers body
  | .jump _ => []
  | .eval value => value.variables
  | .nested body => Stmt.allIdentifiers body

def Stmt.allIdentifiers : List Stmt → List String
  | [] => []
  | s :: ss => s.identifiers ++ Stmt.allIdentifiers ss

end

theorem Stmt.allIdentifiers_singleton (s : Stmt) : allIdentifiers [s] = s.identifiers :=
  List.append_nil _

theorem Stmt.allIdentifiers_append (ss ts : List Stmt) :
    allIdentifiers (ss ++ ts) = allIdentifiers ss ++ allIdentifiers ts := by
  induction ss with
  | nil => rfl
  | cons s ss ih => rw [List.cons_append, allIdentifiers, allIdentifiers, ih, List.append_assoc]

/-! ### Places of the closure -/

/-- A place of a closure that has an identifier in the code. -/
inductive Place where
  | mention (x : Mention)
  /-- A name that is declared, or that counts. -/
  | declared (name : Name)
  /-- The bound of a loop, set apart in front of it. -/
  | bound (counter : Name)

/-- What the model says that a place stands for. -/
def Place.entity? (m : Model) : Place → Option Entity
  | .mention x => (m.referent? x.span).map .referent
  | .declared name => (m.referent? name.span).map .referent
  | .bound counter =>
    match m.referent? counter.span with
    | some (.local id) => some (.bound id)
    | _ => none

def Place.ofExpr (e : ComputeKernel.Expr) : List Place := e.mentions.map .mention

mutual

/-- The places of a statement, in the order in which the code has their identifiers. -/
def Place.ofStmt (m : Model) : ComputeKernel.Stmt → List Place
  | .let _ _ name _ none => [.declared name]
  | .let _ _ name _ (some value) => .declared name :: Place.ofExpr value
  | .assign _ _ place value => Place.ofExpr place ++ Place.ofExpr value
  | .if _ condition body none => Place.ofExpr condition ++ Place.ofBlock m body
  | .if _ condition body (some otherwise) =>
    Place.ofExpr condition ++ (Place.ofBlock m body ++ Place.ofBlock m otherwise)
  | .for _ counter start stop _ body =>
    if Lower.isInvariant m stop then
      .declared counter :: (Place.ofExpr start ++ .declared counter :: (Place.ofExpr stop ++
        .declared counter :: Place.ofBlock m body))
    else
      .bound counter :: (Place.ofExpr stop ++ .declared counter :: (Place.ofExpr start ++
        .declared counter :: .bound counter :: .declared counter :: Place.ofBlock m body))
  | .while _ condition body => Place.ofExpr condition ++ Place.ofBlock m body
  | .loop _ body | .nested _ body => Place.ofBlock m body
  | .jump .. => []
  | .eval _ value => Place.ofExpr value

def Place.ofBlock (m : Model) : Block → List Place
  | ⟨_, stmts⟩ => Place.ofStmts m stmts

def Place.ofStmts (m : Model) : List ComputeKernel.Stmt → List Place
  | [] => []
  | s :: ss => Place.ofStmt m s ++ Place.ofStmts m ss

end

/-! ### Names of entities -/

/-- The entities of a body with their identifiers: captures, locals, statics that have been met and
bounds that were set apart. -/
def Context.names (ctx : Context) (statics : List StaticUse) (bounds : List (Nat × String)) :
    List (Entity × String) :=
  ctx.captureNames.zipIdx.map (fun p => (.referent (.capture p.2), p.1)) ++
    (ctx.localNames.zipIdx.map (fun p => (.referent (.local p.2), p.1)) ++
      (statics.map (fun u => (.referent (.static u.index), u.name)) ++
        bounds.map fun b => (.bound b.1, b.2)))

/-- Whether an identifier is that of the entity that a place stands for. -/
def Place.Names (m : Model) (names : List (Entity × String)) (x : Place) (ident : String) : Prop :=
  ∃ entity, x.entity? m = some entity ∧ (entity, ident) ∈ names

section

variable {ctx : Context} {catalog : Catalog} {statics : List StaticUse}
  {bounds bounds' : List (Nat × String)}

theorem Context.mem_names_of_identifies {r : Referent} {ident : String}
    (h : Lower.Identifies ctx statics r ident) :
    (.referent r, ident) ∈ ctx.names statics bounds := by
  cases h with
  | «local» hid => exact List.mem_append_right _ (List.mem_append_left _ (List.mem_map.mpr
      ⟨(_, _), List.mem_zipIdx_iff_getElem?.mpr hid, rfl⟩))
  | capture hfield => exact List.mem_append_left _ (List.mem_map.mpr
      ⟨(_, _), List.mem_zipIdx_iff_getElem?.mpr hfield, rfl⟩)
  | static hfind =>
    refine List.mem_append_right _ (List.mem_append_right _ (List.mem_append_left _ ?_))
    exact List.mem_map_of_mem (List.mem_of_find?_eq_some hfind)

theorem Context.mem_names_of_bound {b : Nat × String} (h : b ∈ bounds) :
    (.bound b.1, b.2) ∈ ctx.names statics bounds :=
  List.mem_append_right _ (List.mem_append_right _ (List.mem_append_right _
    (List.mem_map_of_mem (f := fun b : Nat × String => (Entity.bound b.1, b.2)) h)))

/-! ### Expressions -/

/-- Whether the variables of the code are those of what is mentioned. -/
def Outcome.Named (m : Model) (names : List (Entity × String)) : Outcome → Prop
  | .expr e c => List.Forall₂ (fun x => Place.Names m names (.mention x)) e.mentions c.variables
  | .exprs es cs => List.Forall₂ (fun x => Place.Names m names (.mention x))
      (ComputeKernel.Expr.allMentions es) (Expr.allVariables cs)

theorem Place.names_of_identifies {x : Mention} {r : Referent} {ident : String}
    (hr : ctx.model.referent? x.span = some r) (h : Lower.Identifies ctx statics r ident) :
    Place.Names ctx.model (ctx.names statics bounds) (.mention x) ident :=
  ⟨.referent r, by rw [Place.entity?, hr]; rfl, ctx.mem_names_of_identifies h⟩

theorem Lowers.named {o : Outcome} (h : Lowers ctx catalog statics o) :
    o.Named ctx.model (ctx.names statics bounds) := by
  induction h with
  | literal | nil => exact .nil
  | name hr _ hident => exact .cons (Place.names_of_identifies hr hident) .nil
  | path hr _ hident => exact .cons (Place.names_of_identifies hr hident) .nil
  | paren _ ih | cast _ _ ih => exact ih
  | unary _ _ _ ih =>
    rw [Outcome.Named, Expr.variables, variables_unaryOperand]
    exact ih
  | binary _ _ ihLeft ihRight =>
    rw [Outcome.Named, Expr.variables, Expr.variables_atLeast, Expr.variables_atLeast]
    exact List.rel_append ihLeft ihRight
  | field _ _ _ _ ih =>
    rw [Outcome.Named, Expr.variables, Expr.variables_atLeast]
    exact ih
  | swizzle _ _ _ _ ih | element _ _ _ _ ih =>
    rw [Outcome.Named, Expr.variables, Expr.variables_atLeast, ComputeKernel.Expr.mentions,
      ComputeKernel.Expr.allMentions, List.append_nil]
    exact ih
  | method _ _ _ _ ih ihArgs => exact List.rel_append ih ihArgs
  | intrinsic _ _ _ ihArgs => exact ihArgs
  | new _ _ _ _ _ _ ihArgs => exact ihArgs
  | splat _ _ _ _ _ _ ih =>
    rw [Outcome.Named, ComputeKernel.Expr.mentions, ComputeKernel.Expr.allMentions,
      ComputeKernel.Expr.allMentions, List.append_nil]
    exact ih
  | index _ _ _ _ _ ihBase ihIndex =>
    rw [Outcome.Named, Expr.variables, Expr.variables_atLeast]
    exact List.rel_append ihBase ihIndex
  | matrixSwizzle _ _ _ _ _ ih =>
    rw [Outcome.Named, Expr.variables, Expr.variables_atLeast, ComputeKernel.Expr.mentions,
      ComputeKernel.Expr.mentions, List.append_nil]
    exact ih
  | choice _ _ _ ihCondition ihYes ihNo =>
    exact List.rel_append ihCondition (List.rel_append ihYes ihNo)
  | cons _ _ ihFirst ihRest => exact List.rel_append ihFirst ihRest

/-- The variables of an expression stand for what it mentions. -/
theorem Lowers.places {e : ComputeKernel.Expr} {c : Expr} (h : Lowers ctx catalog statics (.expr e c)) :
    List.Forall₂ (Place.Names ctx.model (ctx.names statics bounds)) (Place.ofExpr e) c.variables :=
  List.forall₂_map_left_iff.mpr h.named

/-! ### Statements -/

def Place.ofJudgment (m : Model) : StmtJudgment → List Place
  | .stmt st => Place.ofStmt m st
  | .stmts sts => Place.ofStmts m sts
  | .block b => Place.ofBlock m b

variable {name : Name} {id : Nat} {l : Local} {ident : String}

theorem Context.Declares.names (h : ctx.Declares name id l ident) :
    Place.Names ctx.model (ctx.names statics bounds) (.declared name) ident :=
  ⟨.referent (.local id), by rw [Place.entity?, h.referent]; rfl,
    ctx.mem_names_of_identifies (.local h.ident)⟩

theorem Context.Declares.names_bound (h : ctx.Declares name id l ident) {bound : String}
    (hbound : (id, bound) ∈ bounds) :
    Place.Names ctx.model (ctx.names statics bounds) (.bound name) bound :=
  ⟨.bound id, by rw [Place.entity?, h.referent], ctx.mem_names_of_bound hbound⟩

/-- The identifiers of statements stand for their places. -/
theorem LowersStmt.places {j : StmtJudgment} {code : List Stmt}
    (h : LowersStmt ctx catalog statics j code bounds) (hbounds : bounds ⊆ bounds') :
    List.Forall₂ (Place.Names ctx.model (ctx.names statics bounds')) (Place.ofJudgment ctx.model j)
      (Stmt.allIdentifiers code) := by
  induction h with
  | declare hdeclares => exact .cons hdeclares.names .nil
  | set hdeclares he =>
    rw [Stmt.allIdentifiers_singleton]
    exact .cons hdeclares.names he.places
  | assign hplace hvalue =>
    rw [Stmt.allIdentifiers_singleton]
    exact List.rel_append hplace.places hvalue.places
  | ifOnly hcondition _ ih =>
    rw [Stmt.allIdentifiers_singleton]
    exact List.rel_append hcondition.places (ih hbounds)
  | ifElse hcondition _ _ ihBody ihOtherwise =>
    obtain ⟨hfirst, hrest⟩ := List.append_subset.mp hbounds
    rw [Stmt.allIdentifiers_singleton]
    exact List.rel_append hcondition.places (List.rel_append (ihBody hfirst) (ihOtherwise hrest))
  | «for» hdeclares hstart hstop hinvariant _ ih =>
    rw [Stmt.allIdentifiers_singleton, Stmt.identifiers, Expr.variables_atLeast, Place.ofJudgment,
      Place.ofStmt, if_pos hinvariant]
    exact .cons hdeclares.names (List.rel_append hstart.places (.cons hdeclares.names
      (List.rel_append hstop.places (.cons hdeclares.names (ih hbounds)))))
  | hoisted hdeclares hstart hstop hinvariant _ _ ih =>
    obtain ⟨hbound, hrest⟩ := List.cons_subset.mp hbounds
    rw [Place.ofJudgment, Place.ofStmt, if_neg hinvariant]
    simp only [Stmt.allIdentifiers, Stmt.identifiers, Expr.variables, List.append_nil,
      List.cons_append, List.nil_append]
    exact .cons (hdeclares.names_bound hbound) (List.rel_append hstop.places (.cons hdeclares.names
      (List.rel_append hstart.places (.cons hdeclares.names (.cons (hdeclares.names_bound hbound)
        (.cons hdeclares.names (ih hrest)))))))
  | «while» hcondition _ ih =>
    rw [Stmt.allIdentifiers_singleton]
    exact List.rel_append hcondition.places (ih hbounds)
  | loop _ ih =>
    rw [Stmt.allIdentifiers_singleton]
    exact ih hbounds
  | jump | nil => exact .nil
  | eval he =>
    rw [Stmt.allIdentifiers_singleton]
    exact he.places
  | nested _ ih =>
    rw [Stmt.allIdentifiers_singleton]
    exact ih hbounds
  | cons _ _ ihFirst ihRest =>
    obtain ⟨hfirst, hrest⟩ := List.append_subset.mp hbounds
    rw [Stmt.allIdentifiers_append]
    exact List.rel_append (ihFirst hfirst) (ihRest hrest)
  | block _ ih => exact ih hbounds

end

end Shader

end ComputeKernel
