import Mathlib.Logic.Relation
import ComputeKernel.Proofs.Typing.Places
import ComputeKernel.Proofs.Typing.Resolution

/-!
What assignments write to. From the place of an assignment one comes, through parentheses, members and
elements of values, to an element of a writable buffer or to a local that is declared mutable, and to
nothing that cannot be written.
-/

namespace ComputeKernel

open Relation (ReflTransGen)

/-! ### Declarations -/

/-- What declares a local. -/
inductive DeclarationKind where
  | parameter
  | counter
  | let (mutable : Bool)
  deriving DecidableEq

/-- Whether the local can be assigned. -/
def DeclarationKind.isMutable : DeclarationKind → Bool
  | .let mutable => mutable
  | .parameter | .counter => false

mutual

/-- The names that a statement declares and what declares them, in the order of the text. -/
def Stmt.locals : Stmt → List (Name × DeclarationKind)
  | .let _ mutable name _ _ => [(name, .let mutable)]
  | .assign .. | .jump .. | .eval .. => []
  | .if _ _ body none => body.locals
  | .if _ _ body (some otherwise) => body.locals ++ otherwise.locals
  | .for _ counter _ _ _ body => (counter, .counter) :: body.locals
  | .while _ _ body | .loop _ body | .nested _ body => body.locals

def Block.locals : Block → List (Name × DeclarationKind)
  | ⟨_, stmts⟩ => Stmt.allLocals stmts

def Stmt.allLocals : List Stmt → List (Name × DeclarationKind)
  | [] => []
  | s :: ss => s.locals ++ Stmt.allLocals ss

end

/-- The locals of a closure in the order of their declarations. -/
def Closure.locals (c : Closure) : List (Name × DeclarationKind) :=
  (c.param, .parameter) :: c.body.locals

mutual

theorem Stmt.map_fst_locals : ∀ s : Stmt, s.locals.map Prod.fst = s.declarations
  | .let .. | .assign .. | .jump .. | .eval .. => rfl
  | .if _ _ body none | .while _ _ body | .loop _ body | .nested _ body => body.map_fst_locals
  | .if _ _ body (some otherwise) => by
    rw [Stmt.locals, Stmt.declarations, List.map_append, body.map_fst_locals,
      otherwise.map_fst_locals]
  | .for _ counter _ _ _ body => congrArg (counter :: ·) body.map_fst_locals

theorem Block.map_fst_locals : ∀ b : Block, b.locals.map Prod.fst = b.declarations
  | ⟨_, stmts⟩ => Stmt.map_fst_allLocals stmts

theorem Stmt.map_fst_allLocals :
    ∀ ss : List Stmt, (Stmt.allLocals ss).map Prod.fst = Stmt.allDeclarations ss
  | [] => rfl
  | s :: ss => by
    rw [Stmt.allLocals, Stmt.allDeclarations, List.map_append, s.map_fst_locals,
      Stmt.map_fst_allLocals ss]

end

theorem Closure.map_fst_locals (c : Closure) : c.locals.map Prod.fst = c.declarations :=
  congrArg (c.param :: ·) c.body.map_fst_locals

/-- Whether the model resolves the name at a range to the local of a declaration. -/
def Closure.Uses (c : Closure) (m : Model) (span : Span) (d : Name) (kind : DeclarationKind) : Prop :=
  ∃ id, m.referent? span = some (.local id) ∧ m.referent? d.span = some (.local id) ∧
    c.locals[id]? = some (d, kind)

/-- A name is that of one declaration. -/
theorem Closure.Uses.unique {c : Closure} {m : Model} {span : Span} {d d' : Name}
    {kind kind' : DeclarationKind} (h : c.Uses m span d kind) (h' : c.Uses m span d' kind') :
    d = d' ∧ kind = kind' := by
  obtain ⟨id, hspan, -, hd⟩ := h
  obtain ⟨id', hspan', -, hd'⟩ := h'
  obtain rfl := Referent.local.inj (Option.some.inj (hspan.symm.trans hspan'))
  exact Prod.mk.inj (Option.some.inj (hd.symm.trans hd'))

/-! ### Places -/

/-- One step from a place to what it is a part of: out of parentheses, from a member to what has it,
and from an element of a value to the value. A swizzle of a matrix is such an element. -/
inductive Expr.Inward (m : Model) : Expr → Expr → Prop where
  | paren {span inner} : Inward m (.paren span inner) inner
  | field {span receiver member} : Inward m (.field span receiver member) receiver
  | element {span base index v} : m.type? base.span = some (.value v) →
      Inward m (.index span base index) base

/-- Whether an expression is storage that can be written: an element of a writable buffer or a local
that is declared mutable. -/
inductive Expr.Writable (c : Closure) (m : Model) : Expr → Prop where
  | element {span base index t} : m.type? base.span = some (.buffer .readWrite t) →
      Writable c m (.index span base index)
  | local {span text d} : c.Uses m span d (.let true) → Writable c m (.name span text)

/-- Whether an expression has a value of its own, which is stored nowhere. A swizzle of a vector is the
call of a method. -/
def Expr.IsTemporary : Expr → Prop
  | .literal .. | .unary .. | .binary .. | .cast .. | .method .. | .call .. | .tuple ..
  | .choice .. => True
  | .name .. | .path .. | .field .. | .index .. | .paren .. => False

/-- Whether an expression is none that can be written. -/
inductive Expr.Unwritable (c : Closure) (m : Model) : Expr → Prop where
  | parameter {span text d} : c.Uses m span d .parameter → Unwritable c m (.name span text)
  | immutable {span text d} : c.Uses m span d (.let false) → Unwritable c m (.name span text)
  | counter {span text d} : c.Uses m span d .counter → Unwritable c m (.name span text)
  | capture {span text index} : m.referent? span = some (.capture index) →
      Unwritable c m (.name span text)
  | static {span text index} : m.referent? span = some (.static index) →
      Unwritable c m (.name span text)
  | path {span path} : Unwritable c m (.path span path)
  | element {span base index access t} : m.type? base.span = some (.buffer access t) →
      access ≠ .readWrite → Unwritable c m (.index span base index)
  | temporary {e} : e.IsTemporary → Unwritable c m e

namespace Expr

variable {c : Closure} {m : Model} {e x y : Expr}

theorem Inward.rightUnique : Relator.RightUnique (Inward m) := by
  rintro e x y hx hy
  cases hx <;> cases hy <;> rfl

theorem Writable.not_inward (h : e.Writable c m) : ¬ Inward m e x := by
  intro hx
  cases h with
  | element hbuffer =>
    cases hx with
    | element hvalue => exact nomatch hbuffer.symm.trans hvalue
  | «local» => cases hx

theorem Unwritable.not_inward (h : e.Unwritable c m) : ¬ Inward m e x := by
  intro hx
  cases h with
  | element hbuffer =>
    cases hx with
    | element hvalue => exact nomatch hbuffer.symm.trans hvalue
  | temporary he => cases hx <;> exact he
  | _ => cases hx

theorem Writable.not_unwritable (h : e.Writable c m) : ¬ e.Unwritable c m := by
  intro h'
  cases h with
  | element hbuffer =>
    cases h' with
    | element hother haccess =>
      cases hbuffer.symm.trans hother
      exact haccess rfl
    | temporary he => exact he
  | «local» huses =>
    cases h' with
    | parameter huses' | immutable huses' | counter huses' => cases (huses.unique huses').2
    | capture hreferent | static hreferent =>
      obtain ⟨id, hlocal, -⟩ := huses
      cases hlocal.symm.trans hreferent
    | temporary he => exact he

/-- Of what one comes to on the way inward to storage nothing is unwritable. -/
theorem Writable.not_reaches_unwritable (hx : ReflTransGen (Inward m) e x) (h : x.Writable c m)
    (hy : ReflTransGen (Inward m) e y) : ¬ y.Unwritable c m := by
  intro h'
  rcases ReflTransGen.total_of_right_unique Inward.rightUnique hx hy with hxy | hyx
  · rcases hxy.cases_head with rfl | ⟨_, hstep, -⟩
    · exact h.not_unwritable h'
    · exact h.not_inward hstep
  · rcases hyx.cases_head with rfl | ⟨_, hstep, -⟩
    · exact h.not_unwritable h'
    · exact h'.not_inward hstep

end Expr

/-- Whether an expression is an element of a writable buffer or a mutable local of the model. -/
inductive Model.Stores (m : Model) : Expr → Prop where
  | element {span base index t} : m.type? base.span = some (.buffer .readWrite t) →
      Stores m (.index span base index)
  | local {span text id l} : m.referent? span = some (.local id) → m.local? id = some l → l.mutable →
      Stores m (.name span text)

/-- Whether one comes inward from an expression to storage. -/
def Model.Reaches (m : Model) (e : Expr) : Prop := ∃ x, ReflTransGen (Expr.Inward m) e x ∧ m.Stores x

theorem Model.Reaches.step {m : Model} {e x : Expr} (hx : Expr.Inward m e x) (h : m.Reaches x) :
    m.Reaches e := h.imp fun _ hy => ⟨hy.1.head hx, hy.2⟩

namespace Check

variable {catalog : Catalog} {m : Model} {s s₁ s₂ s' : Checking}

/-- What has elements is a buffer or a value. -/
theorem exists_value_of_elementType? {t type : Ty} (h : elementType? t = some type)
    (hbuffer : ∀ access element, t ≠ .buffer access element) : ∃ v, t = .value v := by
  cases t with
  | buffer access element => exact (hbuffer access element rfl).elim
  | value v => exact ⟨v, rfl⟩
  | _ => cases h

/-- A place that can be assigned leads inward to storage. -/
theorem Assignable.reaches {place : Expr} (h : Assignable s₂.model place) {target : Typed}
    (hplace : Checks catalog s (.expr place target) s₁) (hm : place.Kept s₁ m)
    (hm₂ : place.Kept s₂ m) (hheads : s₁.model.heads <+: s₂.model.heads) : m.Reaches place := by
  induction h generalizing s₁ target with
  | @name _ text hname =>
    cases hplace with
    | «local» _ hl =>
      have hreferent := Expr.Kept.referent?_noted hm
      have hassigned : (Referent.local _).IsAssigned catalog m := isAssigned_of_nameAssignable hname
        (hm₂.referent?_eq.symm.trans hreferent) hl hheads hm₂.2.heads
      rcases hassigned with hbuffer | hlocal
      · exact hbuffer.elim
      · obtain ⟨id, l, hid, hl', hmutable⟩ := hlocal
        exact ⟨.name _ text, .refl, .local (hid ▸ hreferent) hl' hmutable⟩
    | capture | static =>
      exact (not_nameAssignable (hm₂.referent?_eq.symm.trans (Expr.Kept.referent?_noted hm)) nofun
        hname).elim
  | element htype => exact ⟨_, .refl, .element ((Expr.Kept.base hm₂).type?_eq.trans htype)⟩
  | index hbuffer _ ih =>
    cases hplace with
    | @element _ _ _ _ _ _ b _ _ hbase _ hindex _ helement =>
      obtain ⟨hb, -⟩ := Expr.Kept.index hm hindex
      have htype := hbase.type?_eq hb
      obtain ⟨v, hv⟩ := exists_value_of_elementType? helement fun access t ht =>
        hbuffer access t ((Expr.Kept.base hm₂).type?_eq.symm.trans (ht ▸ htype))
      exact .step (.element (hv ▸ htype))
        (ih hbase hb (Expr.Kept.base hm₂) (hindex.heads_eq ▸ hheads))
    | swizzle hbase hmatrix _ _ hselects =>
      have hb := Expr.Kept.swizzle hm hselects
      exact .step (.element (hmatrix ▸ hbase.type?_eq hb))
        (ih hbase hb (Expr.Kept.base hm₂) (hselects.heads_eq ▸ hheads))
  | field _ ih =>
    cases hplace with
    | field he _ =>
      exact .step .field (ih he (Expr.Kept.field hm) (Expr.Kept.receiver hm₂) hheads)
  | paren _ ih =>
    cases hplace with
    | paren he => exact .step .paren (ih he (Expr.Kept.paren hm) (Expr.Kept.inner hm₂) hheads)

/-- The place of an assignment that was checked leads inward to storage. -/
theorem reaches_of_met {span : Span} {op : Option BinaryOp} {place value : Expr}
    (h : Met catalog m (.assign span op place value)) : m.Reaches place := by
  obtain ⟨s, s', _, hchecks, hm⟩ := h
  cases hchecks with
  | assign hplace hvalue hassignable hassigns =>
    obtain ⟨hp, -⟩ := Stmt.Kept.assign hm hvalue hassigns.settles
    have hp₂ := Stmt.Kept.place hm hassigns.settles
    exact hassignable.reaches hplace hp hp₂ (hvalue.heads_eq ▸ List.prefix_refl _)

/-! ### Locals of the model -/

def StmtJudgment.locals : StmtJudgment → List (Name × DeclarationKind)
  | .stmt s => s.locals
  | .stmts ss => Stmt.allLocals ss
  | .block b => b.locals

/-- The name of a declaration and whether its local can be assigned. -/
def declared (d : Name × DeclarationKind) : Name × Bool := (d.1, d.2.isMutable)

theorem heads_declare (s : Checking) (name : Name) (t : Ty) (mutable : Bool)
    (family : Option LiteralFamily) :
    (s.declare name t mutable family).model.heads = s.model.heads ++ [(name, mutable)] := by
  simp [Model.heads, Local.head, Checking.declare]

/-- Checking a statement adds one local for each of its declarations, mutable if it is declared so. -/
theorem ChecksStmt.heads_eq {j : StmtJudgment} (h : ChecksStmt catalog s j s') :
    s'.model.heads = s.model.heads ++ j.locals.map declared := by
  induction h with
  | declare _ => exact heads_declare _ _ _ _ _
  | annotated he _ _ =>
    rw [heads_declare, (Checking.Settles.settle _ _ _).heads, he.heads_eq]
    rfl
  | inferred he _ =>
    rw [heads_declare, he.heads_eq]
    rfl
  | assign hplace hvalue _ hassigns =>
    rw [hassigns.settles.heads, hvalue.heads_eq, hplace.heads_eq]
    exact (List.append_nil _).symm
  | ifOnly hcondition _ _ ih =>
    rw [ih, hcondition.heads_eq]
    rfl
  | ifElse hcondition _ _ _ ihBody ihOtherwise =>
    rw [ihOtherwise, ihBody, hcondition.heads_eq, List.append_assoc, ← List.map_append]
    rfl
  | «for» hstart hstop hunify _ _ ih =>
    have hheads := hunify.settles.heads.trans (hstop.heads_eq.trans hstart.heads_eq)
    refine ih.trans ?_
    rw [← hheads]
    exact (congrArg (· ++ _) (heads_declare _ _ _ _ _)).trans (List.append_assoc _ _ _)
  | «while» hcondition _ _ ih => exact ih.trans (hcondition.heads_eq ▸ rfl)
  | loop _ ih | nested _ ih | block _ ih => exact ih
  | jump _ | nil => exact (List.append_nil _).symm
  | eval he =>
    rw [he.heads_eq]
    exact (List.append_nil _).symm
  | cons _ _ ihFirst ihRest =>
    rw [ihRest, ihFirst, List.append_assoc, ← List.map_append]
    rfl

end Check

open Check

/-- The locals of the model of an accepted closure are those that it declares. -/
theorem Closure.heads_of_bind {c : Closure} {catalog : Catalog} {m : Model}
    (h : c.bind catalog = .ok m) : m.heads = c.locals.map declared := by
  obtain ⟨s, hchecks, rfl⟩ := c.checks_of_bind h
  cases hchecks with
  | mk _ hbody => exact hbody.heads_eq

/-- What a mutable local of the model is declared by. -/
theorem Closure.uses_of_mutable {c : Closure} {m : Model} {span : Span} {id : Nat} {l : Local}
    (hheads : m.heads = c.locals.map declared) (hnumbered : Numbered m 0 c.declarations)
    (hspan : m.referent? span = some (.local id)) (hl : m.local? id = some l) (hmutable : l.mutable) :
    ∃ d, c.Uses m span d (.let true) := by
  have hhead : m.heads[id]? = some l.head := by
    rw [Model.heads, List.getElem?_map, show m.locals[id]? = some l from hl]
    rfl
  rw [hheads, List.getElem?_map] at hhead
  obtain ⟨⟨d, kind⟩, hd, hdeclared⟩ := Option.map_eq_some_iff.mp hhead
  have hkind : kind = .let true := by
    have hisMutable : kind.isMutable = true := (congrArg Prod.snd hdeclared).trans hmutable
    cases kind with
    | «let» mutable => exact congrArg _ hisMutable
    | parameter | counter => cases hisMutable
  have hdeclaration : c.declarations[id]? = some d := by
    rw [← c.map_fst_locals, List.getElem?_map]
    exact congrArg (Option.map Prod.fst) hd
  refine ⟨d, id, hspan, ?_, hkind ▸ hd⟩
  rw [hnumbered id d hdeclaration, Nat.zero_add]

/-! ### Closures -/

/-- Whether an assignment to a place writes to storage and to nothing else. -/
structure Closure.Writes (c : Closure) (m : Model) (place : Expr) : Prop where
  /-- Inward from the place one comes to storage. -/
  reaches : ∃ x, ReflTransGen (Expr.Inward m) place x ∧ x.Writable c m
  /-- Nothing on the way is the thread index, an immutable local, a counter, a capture, a static, an
  element of another buffer or a value that is stored nowhere. -/
  only : ∀ x, ReflTransGen (Expr.Inward m) place x → ¬ x.Unwritable c m

/-- Only storage that can be written is written by an accepted closure. A swizzle of a matrix writes
elements of the local that has the matrix; the swizzle of a vector is a call and is not assigned. -/
theorem Closure.writes_of_bind {source : String} {c : Closure} {catalog : Catalog} {m : Model}
    (hparse : Closure.parse source = .ok c) (h : c.bind catalog = .ok m) :
    ∀ a ∈ c.body.assignments, c.Writes m a.2 := by
  obtain ⟨hi, hlaid⟩ := Closure.laid_of_parse hparse
  have hheads := c.heads_of_bind h
  have hnumbered := c.numbered_of_bind hlaid h
  intro a ha
  obtain ⟨_, _, hmet⟩ := (c.met_of_bind hlaid h).2 a ha
  obtain ⟨x, hx, hstores⟩ := reaches_of_met hmet
  have hwritable : x.Writable c m := by
    cases hstores with
    | element hbuffer => exact .element hbuffer
    | «local» hspan hl hmutable =>
      obtain ⟨d, huses⟩ := Closure.uses_of_mutable hheads hnumbered hspan hl hmutable
      exact .local huses
  exact ⟨⟨x, hx, hwritable⟩, fun y hy => hwritable.not_reaches_unwritable hx hy⟩

/-- A closure that assigns a component, an element of an element and a swizzle of mutable locals, and a
component of an element of a buffer. -/
def scatter : String :=
  "|ids| \x7b let mut v = offset; (v.x) = 1.0; v[2] += gain; let mut m = basis; m[1][0] = 2.0; "
    ++ "m[(MatrixIndex::M11, MatrixIndex::M22)] = v.xy(); "
    ++ "for i in 0..4 \x7b out[ids.x].y = v.x; \x7d \x7d"

def scatterCatalog : Catalog where
  fields := [⟨"offset", "Float4", false⟩, ⟨"basis", "Float4x4", false⟩, ⟨"gain", "f32", false⟩,
    ⟨"out", "ReadWriteBuffer<Float2>", false⟩]

theorem Closure.writes_of_bind_scatter :
    ∃ c m, Closure.parse scatter = .ok c ∧ c.bind scatterCatalog = .ok m ∧
      c.body.assignments.length = 5 ∧ ∀ a ∈ c.body.assignments, c.Writes m a.2 := by
  have hrun : ((Closure.parse scatter).toOption.any fun c =>
      c.body.assignments.length == 5 && (c.bind scatterCatalog).isOk) = true := by
    decide +kernel
  obtain ⟨c, hc, hrun⟩ := (Option.any_eq_true _ _).mp hrun
  obtain ⟨hlength, hbound⟩ := Bool.and_eq_true_iff.mp hrun
  obtain ⟨m, hm⟩ := exists_of_isOk hbound
  have hparse := eq_ok_of_toOption hc
  exact ⟨c, m, hparse, hm, of_decide_eq_true hlength, Closure.writes_of_bind hparse hm⟩

end ComputeKernel
