import ComputeKernel.Proofs.Typing.Naming
import ComputeKernel.Proofs.Typing.Parts
import ComputeKernel.Proofs.Typing.Settling

/-!
Lexical scoping. In the model of an accepted closure a name refers to a local exactly where one of that
name is in scope, and then to the latest of the innermost scope that has one; locals are numbered in
the order of their declarations.
-/

namespace ComputeKernel

/-- Open scopes, innermost first, each with its latest declaration first. -/
abbrev Scopes := List (List (String × Nat))

namespace Scopes

def find? (scopes : Scopes) (name : String) : Option Nat :=
  scopes.findSome? fun scope => scope.lookup name

def declare : Scopes → String → Nat → Scopes
  | [], _, _ => []
  | scope :: outer, name, id => ((name, id) :: scope) :: outer

/-- The locals in scope. -/
def ids (scopes : Scopes) : List Nat := scopes.flatMap fun scope => scope.map Prod.snd

theorem mem_ids_of_find? {scopes : Scopes} {name : String} {id : Nat}
    (h : scopes.find? name = some id) : id ∈ scopes.ids := by
  obtain ⟨scope, hscope, hid⟩ := List.exists_of_findSome?_eq_some h
  obtain ⟨front, back, hsplit, _⟩ := List.lookup_eq_some_iff.mp hid
  refine List.mem_flatMap.mpr ⟨scope, hscope, List.mem_map.mpr ⟨(name, id), ?_, rfl⟩⟩
  rw [hsplit]
  exact List.mem_append_right _ List.mem_cons_self

end Scopes

/-! ### Expressions -/

/-- A use of a name or a path. -/
inductive Mention where
  | name (span : Span) (text : String)
  | path (span : Span) (path : Path)

def Mention.span : Mention → Span
  | name span _ | path span _ => span

mutual

/-- What an expression mentions, in the order of the text. The selectors of a matrix swizzle stand for
nothing. -/
def Expr.mentions : Expr → List Mention
  | .literal .. | .tuple .. => []
  | .name span text => [.name span text]
  | .path span p => [.path span p]
  | .unary _ _ e | .cast _ e _ | .field _ e _ | .paren _ e => e.mentions
  | .binary _ _ left right => left.mentions ++ right.mentions
  | .method _ receiver _ args => receiver.mentions ++ Expr.allMentions args
  | .call _ _ _ args => Expr.allMentions args
  | .index _ base i => base.mentions ++ i.mentions
  | .choice _ condition yes no => condition.mentions ++ (yes.mentions ++ no.mentions)

def Expr.allMentions : List Expr → List Mention
  | [] => []
  | e :: es => e.mentions ++ Expr.allMentions es

end

/-- Whether a mention refers to the local that the scopes have for it, if they have one. -/
def Mention.Resolved (m : Model) (scopes : Scopes) : Mention → Prop
  | .name span text => ∀ id, m.referent? span = some (.local id) ↔ scopes.find? text = some id
  | .path span _ => ∀ id, m.referent? span ≠ some (.local id)

/-- What the check of a name or of a path notes of it. -/
inductive Mention.Noted (catalog : Catalog) (m : Model) (scopes : Scopes) : Mention → Prop where
  | local {span text id} : scopes.find? text = some id → m.referent? span = some (.local id) →
      Noted catalog m scopes (.name span text)
  | capture {span text index t} : scopes.find? text = none →
      Check.NamesCapture catalog text index t → m.referent? span = some (.capture index) →
      Noted catalog m scopes (.name span text)
  | static {span text index t} : scopes.find? text = none →
      (catalog.fields.findIdx? fun f => f.name == text) = none →
      Check.NamesStatic catalog [text] index t → m.referent? span = some (.static index) →
      Noted catalog m scopes (.name span text)
  | path {span path index t} : path.owner? ≠ some matrixIndexOwner →
      Check.NamesStatic catalog path index t → m.referent? span = some (.static index) →
      Noted catalog m scopes (.path span path)

theorem Mention.Noted.resolved {catalog : Catalog} {m : Model} {scopes : Scopes} {x : Mention}
    (h : x.Noted catalog m scopes) : x.Resolved m scopes := by
  cases h with
  | «local» hfind hreferent =>
    intro id
    rw [hreferent, hfind]
    simp
  | capture hfind _ hreferent | static hfind _ _ hreferent =>
    intro id
    rw [hreferent, hfind]
    simp
  | path _ _ hreferent =>
    intro id
    rw [hreferent]
    simp

def Expr.Resolved (m : Model) (scopes : Scopes) (e : Expr) : Prop :=
  ∀ x ∈ e.mentions, x.Resolved m scopes

/-- A local that is mentioned is in scope. -/
theorem Expr.Resolved.mem_ids {m : Model} {scopes : Scopes} {e : Expr} (h : e.Resolved m scopes)
    {x : Mention} (hx : x ∈ e.mentions) {id : Nat} (hid : m.referent? x.span = some (.local id)) :
    id ∈ scopes.ids := by
  cases x with
  | name span text => exact Scopes.mem_ids_of_find? ((h _ hx id).mp hid)
  | path span path => exact absurd hid (h _ hx id)

namespace Check

open Checking

variable {catalog : Catalog} {m : Model} {s s' : Checking}

theorem Selects.scopes_eq {rows columns : Nat} {items : List Expr}
    (h : Selects rows columns items s s') : s'.scopes = s.scopes := by
  induction h with
  | nil => rfl
  | cons _ _ _ _ ih => exact ih

/-- Expressions open no scope and declare nothing. -/
theorem Checks.scopes_eq {j : Judgment} (h : Checks catalog s j s') : s'.scopes = s.scopes := by
  induction h with
  | literal | «local» | capture | static | path | nil => rfl
  | unary _ _ ih | cast _ _ ih | field _ _ ih | paren _ ih => exact ih
  | binary _ _ hop ihLeft ihRight => exact hop.settling.scopes_eq.trans (ihRight.trans ihLeft)
  | method _ _ hmethod ihReceiver ihArgs =>
    exact hmethod.settling.scopes_eq.trans (ihArgs.trans ihReceiver)
  | call _ hcall ihArgs => exact hcall.settling.scopes_eq.trans ihArgs
  | element _ _ _ _ _ ihBase ihIndex => exact ihIndex.trans ihBase
  | swizzle _ _ _ _ hselects ih => exact hselects.scopes_eq.trans ih
  | choice _ _ _ _ hunify ihCondition ihYes ihNo =>
    exact hunify.settling.scopes_eq.trans (ihNo.trans (ihYes.trans ihCondition))
  | cons _ _ ihFirst ihRest => exact ihRest.trans ihFirst

def Judgment.mentions : Judgment → List Mention
  | .expr e _ => e.mentions
  | .args es _ => Expr.allMentions es

/-- What is noted of names and paths is what the scopes that are open there and the catalog say. -/
theorem Checks.noted {j : Judgment} (h : Checks catalog s j s') (hm : j.Kept s' m) :
    ∀ x ∈ j.mentions, x.Noted catalog m s.scopes := by
  induction h with
  | literal | nil => exact nofun
  | «local» hfind =>
    exact List.forall_mem_singleton.mpr (.local hfind (Expr.Kept.referent?_noted hm))
  | capture hfind hcapture =>
    exact List.forall_mem_singleton.mpr (.capture hfind hcapture (Expr.Kept.referent?_noted hm))
  | static hfind hfield hstatic =>
    exact List.forall_mem_singleton.mpr
      (.static hfind hfield hstatic (Expr.Kept.referent?_noted hm))
  | path howner hstatic =>
    exact List.forall_mem_singleton.mpr (.path howner hstatic (Expr.Kept.referent?_noted hm))
  | unary _ _ ih => exact ih (Expr.Kept.unary hm)
  | binary hleft hright hop ihLeft ihRight =>
    obtain ⟨hl, hr⟩ := Expr.Kept.binary hm hright hop.settles
    exact List.forall_mem_append.mpr ⟨ihLeft hl, hleft.scopes_eq ▸ ihRight hr⟩
  | cast _ _ ih => exact ih (Expr.Kept.cast hm)
  | field _ _ ih => exact ih (Expr.Kept.field hm)
  | method hreceiver hargs hmethod ihReceiver ihArgs =>
    obtain ⟨he, hes⟩ := Expr.Kept.method hm hargs hmethod.settles
    exact List.forall_mem_append.mpr ⟨ihReceiver he, hreceiver.scopes_eq ▸ ihArgs hes⟩
  | call _ hcall ihArgs => exact ihArgs (Expr.Kept.call hm hcall.settles)
  | element hbase _ hindex _ _ ihBase ihIndex =>
    obtain ⟨hb, hi⟩ := Expr.Kept.index hm hindex
    exact List.forall_mem_append.mpr ⟨ihBase hb, hbase.scopes_eq ▸ ihIndex hi⟩
  | swizzle _ _ _ _ hselects ih =>
    exact List.forall_mem_append.mpr ⟨ih (Expr.Kept.swizzle hm hselects), nofun⟩
  | paren _ ih => exact ih (Expr.Kept.paren hm)
  | choice hcondition _ hyes hno hunify ihCondition ihYes ihNo =>
    obtain ⟨hc, hy, hn⟩ := Expr.Kept.choice hm hyes hno hunify.settles
    exact List.forall_mem_append.mpr ⟨ihCondition hc, List.forall_mem_append.mpr
      ⟨hcondition.scopes_eq ▸ ihYes hy, (hyes.scopes_eq.trans hcondition.scopes_eq) ▸ ihNo hn⟩⟩
  | cons hfirst hrest ihFirst ihRest =>
    obtain ⟨he, hes⟩ := Expr.AllKept.cons hm hrest
    exact List.forall_mem_append.mpr ⟨ihFirst he, hfirst.scopes_eq ▸ ihRest hes⟩

/-- Names are resolved by the scopes that are open where they are checked. -/
theorem Checks.resolved {j : Judgment} (h : Checks catalog s j s') (hm : j.Kept s' m) :
    ∀ x ∈ j.mentions, x.Resolved m s.scopes :=
  fun x hx => (h.noted hm x hx).resolved

theorem Checks.length_locals_eq {j : Judgment} (h : Checks catalog s j s') :
    s'.model.locals.length = s.model.locals.length := by
  have hlength := congrArg List.length h.heads_eq
  simpa [Model.heads] using hlength

/-! ### Statements -/

/-- How statements are resolved, from open scopes and the number of the next local to what they leave
behind. -/
inductive ResolvesStmt (m : Model) : Scopes → Nat → StmtJudgment → Scopes → Nat → Prop where
  | let {scopes next span mutable name type value} : (∀ e ∈ value, e.Resolved m scopes) →
      m.referent? name.span = some (.local next) →
      ResolvesStmt m scopes next (.stmt (.let span mutable name type value))
        (scopes.declare name.text next) (next + 1)
  | assign {scopes next span op place value} : place.Resolved m scopes → value.Resolved m scopes →
      ResolvesStmt m scopes next (.stmt (.assign span op place value)) scopes next
  | ifOnly {scopes next next' span condition body} : condition.Resolved m scopes →
      ResolvesStmt m scopes next (.block body) scopes next' →
      ResolvesStmt m scopes next (.stmt (.if span condition body none)) scopes next'
  | ifElse {scopes next next₁ next' span condition body otherwise} : condition.Resolved m scopes →
      ResolvesStmt m scopes next (.block body) scopes next₁ →
      ResolvesStmt m scopes next₁ (.block otherwise) scopes next' →
      ResolvesStmt m scopes next (.stmt (.if span condition body (some otherwise))) scopes next'
  | for {scopes next next' span counter start stop inclusive body} : start.Resolved m scopes →
      stop.Resolved m scopes → m.referent? counter.span = some (.local next) →
      ResolvesStmt m ([(counter.text, next)] :: scopes) (next + 1) (.block body)
        ([(counter.text, next)] :: scopes) next' →
      ResolvesStmt m scopes next (.stmt (.for span counter start stop inclusive body)) scopes next'
  | while {scopes next next' span condition body} : condition.Resolved m scopes →
      ResolvesStmt m scopes next (.block body) scopes next' →
      ResolvesStmt m scopes next (.stmt (.while span condition body)) scopes next'
  | loop {scopes next next' span body} : ResolvesStmt m scopes next (.block body) scopes next' →
      ResolvesStmt m scopes next (.stmt (.loop span body)) scopes next'
  | jump {scopes next span kind} : ResolvesStmt m scopes next (.stmt (.jump span kind)) scopes next
  | eval {scopes next span e} : e.Resolved m scopes →
      ResolvesStmt m scopes next (.stmt (.eval span e)) scopes next
  | nested {scopes next next' span body} : ResolvesStmt m scopes next (.block body) scopes next' →
      ResolvesStmt m scopes next (.stmt (.nested span body)) scopes next'
  | nil {scopes next} : ResolvesStmt m scopes next (.stmts []) scopes next
  | cons {scopes scopes₁ scopes' next next₁ next' st sts} :
      ResolvesStmt m scopes next (.stmt st) scopes₁ next₁ →
      ResolvesStmt m scopes₁ next₁ (.stmts sts) scopes' next' →
      ResolvesStmt m scopes next (.stmts (st :: sts)) scopes' next'
  | block {scopes scopes' next next' span sts} :
      ResolvesStmt m ([] :: scopes) next (.stmts sts) scopes' next' →
      ResolvesStmt m scopes next (.block ⟨span, sts⟩) scopes next'

theorem ResolvesStmt.le {scopes scopes' : Scopes} {next next' : Nat} {j : StmtJudgment}
    (h : ResolvesStmt m scopes next j scopes' next') : next ≤ next' := by
  induction h with
  | «let» | assign | jump | eval | nil => omega
  | ifOnly _ _ ih | «for» _ _ _ _ ih | «while» _ _ ih | loop _ ih | nested _ ih | block _ ih => omega
  | ifElse _ _ _ ih ih' | cons _ _ ih ih' => omega

/-- How scopes come out of a check: a block restores them, and other statements declare locals in the
innermost one at most. -/
def StmtJudgment.Restores (s s' : Checking) : StmtJudgment → Prop
  | .block _ => s'.scopes = s.scopes
  | _ => s'.scopes.drop 1 = s.scopes.drop 1

theorem drop_one_scopes_declare (s : Checking) (name : Name) (t : Ty) (mutable : Bool)
    (family : Option LiteralFamily) :
    (s.declare name t mutable family).scopes.drop 1 = s.scopes.drop 1 := by
  unfold Checking.declare
  cases s.scopes <;> rfl

theorem scopes_declare (s : Checking) (name : Name) (t : Ty) (mutable : Bool)
    (family : Option LiteralFamily) : (s.declare name t mutable family).scopes =
      Scopes.declare s.scopes name.text s.model.locals.length := by
  unfold Checking.declare
  cases s.scopes <;> rfl

theorem length_locals_declare (s : Checking) (name : Name) (t : Ty) (mutable : Bool)
    (family : Option LiteralFamily) :
    (s.declare name t mutable family).model.locals.length = s.model.locals.length + 1 := by
  simp [Checking.declare]

theorem ChecksStmt.restores {j : StmtJudgment} (h : ChecksStmt catalog s j s') :
    j.Restores s s' := by
  induction h with
  | declare _ => exact drop_one_scopes_declare _ _ _ _ _
  | annotated he _ _ =>
    refine (drop_one_scopes_declare _ _ _ _ _).trans ?_
    rw [Settling.scopes_settle, he.scopes_eq]
  | inferred he _ => exact (drop_one_scopes_declare _ _ _ _ _).trans (congrArg _ he.scopes_eq)
  | assign hplace hvalue _ hassigns =>
    exact congrArg _ (hassigns.settling.scopes_eq.trans (hvalue.scopes_eq.trans hplace.scopes_eq))
  | ifOnly hcondition _ _ ih => exact congrArg _ (ih.trans hcondition.scopes_eq)
  | ifElse hcondition _ _ _ ihBody ihOtherwise =>
    exact congrArg _ (ihOtherwise.trans (ihBody.trans hcondition.scopes_eq))
  | «for» hstart hstop hunify _ _ ih =>
    refine congrArg _ ((congrArg _ (ih : _ = _)).trans ?_)
    exact hunify.settling.scopes_eq.trans (hstop.scopes_eq.trans hstart.scopes_eq)
  | «while» hcondition _ _ ih => exact congrArg _ (ih.trans hcondition.scopes_eq)
  | loop _ ih => exact congrArg _ ih
  | jump _ => rfl
  | eval he => exact congrArg _ he.scopes_eq
  | nested _ ih => exact congrArg _ ih
  | nil => rfl
  | cons _ _ ihFirst ihRest => exact ihRest.trans ihFirst
  | block _ ih => exact ih

theorem resolved_of_checks {e : Expr} {t : Typed} (h : Checks catalog s (.expr e t) s')
    {scopes : Scopes} (hscopes : s.scopes = scopes) (hm : e.Kept s' m) : e.Resolved m scopes :=
  hscopes ▸ h.resolved hm

/-- The model resolves what was checked by the scopes that were open. -/
theorem ChecksStmt.resolves {j : StmtJudgment} (h : ChecksStmt catalog s j s') (hm : j.Kept s' m) :
    ResolvesStmt m s.scopes s.model.locals.length j s'.scopes s'.model.locals.length := by
  induction h with
  | declare _ =>
    obtain ⟨hname, _⟩ := Stmt.Kept.let hm
    rw [scopes_declare, length_locals_declare]
    exact .let nofun hname
  | @annotated _ s₁ _ _ _ _ t _ v he _ _ =>
    obtain ⟨hname, hvalue⟩ := Stmt.Kept.let hm
    have hlength := (Settling.length_locals_settle s₁ v t).trans he.length_locals_eq
    rw [scopes_declare, length_locals_declare, Settling.scopes_settle, he.scopes_eq, hlength]
    refine .let (fun e hmem => ?_) (hlength ▸ hname)
    obtain rfl := Option.some.inj hmem
    exact he.resolved ((hvalue _ rfl).of_settles (.settle s₁ v t))
  | inferred he _ =>
    obtain ⟨hname, hvalue⟩ := Stmt.Kept.let hm
    rw [scopes_declare, length_locals_declare, he.scopes_eq, he.length_locals_eq]
    refine .let (fun e hmem => ?_) (he.length_locals_eq ▸ hname)
    obtain rfl := Option.some.inj hmem
    exact he.resolved (hvalue _ rfl)
  | assign hplace hvalue _ hassigns =>
    obtain ⟨hp, hv⟩ := Stmt.Kept.assign hm hvalue hassigns.settles
    rw [hassigns.settling.scopes_eq, hvalue.scopes_eq, hplace.scopes_eq,
      hassigns.settling.length_locals_eq, hvalue.length_locals_eq, hplace.length_locals_eq]
    exact .assign (hplace.resolved hp) (resolved_of_checks hvalue hplace.scopes_eq hv)
  | ifOnly hcondition _ hbody ih =>
    obtain ⟨hc, hb⟩ := Stmt.Kept.ifOnly hm hbody
    have hrest := ih hb
    rw [hbody.restores, hcondition.scopes_eq, hcondition.length_locals_eq] at hrest
    rw [hbody.restores, hcondition.scopes_eq]
    exact .ifOnly (hcondition.resolved hc) hrest
  | ifElse hcondition _ hbody hotherwise ihBody ihOtherwise =>
    obtain ⟨hc, hb, ho⟩ := Stmt.Kept.ifElse hm hbody hotherwise
    have hfirst := ihBody hb
    have hrest := ihOtherwise ho
    rw [hotherwise.restores, hbody.restores, hcondition.scopes_eq] at hrest ⊢
    rw [hbody.restores, hcondition.scopes_eq, hcondition.length_locals_eq] at hfirst
    exact .ifElse (hcondition.resolved hc) hfirst hrest
  | «for» hstart hstop hunify _ hbody ih =>
    obtain ⟨hl, hh, hcounter, hb⟩ := Stmt.Kept.for hm hstop hunify.settles hbody
    have hscopes := hunify.settling.scopes_eq.trans (hstop.scopes_eq.trans hstart.scopes_eq)
    have hlength := hunify.settling.length_locals_eq.trans
      (hstop.length_locals_eq.trans hstart.length_locals_eq)
    have hrest := ih hb
    have hrestores : _ = _ := hbody.restores
    simp only [Checking.enterLoop, scopes_declare, length_locals_declare] at hrest hrestores
    rw [hrestores] at hrest
    have hclosed : (Checking.leaveLoop _).closeScope.scopes = _ := congrArg (List.drop 1) hrestores
    rw [hclosed]
    simp only [Checking.openScope, Scopes.declare, hscopes, hlength, List.drop_one, List.tail_cons]
      at hcounter hrest ⊢
    exact .for (hstart.resolved hl) (resolved_of_checks hstop hstart.scopes_eq hh) hcounter hrest
  | «while» hcondition _ hbody ih =>
    obtain ⟨hc, hb⟩ := Stmt.Kept.while hm hbody
    have hrest := ih hb
    have hrestores : _ = _ := hbody.restores.trans hcondition.scopes_eq
    simp only [Checking.enterLoop, hcondition.scopes_eq, hcondition.length_locals_eq, hrestores]
      at hrest
    simp only [Checking.leaveLoop, hrestores]
    exact .while (hcondition.resolved hc) hrest
  | loop hbody ih =>
    have hrest := ih (Stmt.Kept.loop hm)
    have hrestores : _ = _ := hbody.restores
    simp only [Checking.enterLoop, hrestores] at hrest
    simp only [Checking.leaveLoop, hrestores]
    exact .loop hrest
  | jump _ => exact .jump
  | eval he =>
    rw [he.scopes_eq, he.length_locals_eq]
    exact .eval (he.resolved (Stmt.Kept.eval hm))
  | nested hbody ih =>
    have hrest := ih (Stmt.Kept.nested hm)
    rw [hbody.restores] at hrest ⊢
    exact .nested hrest
  | nil => exact .nil
  | cons _ hrest ihFirst ihRest =>
    obtain ⟨hst, hsts⟩ := Stmt.AllKept.cons hm hrest
    exact .cons (ihFirst hst) (ihRest hsts)
  | block hstmts ih =>
    have hrest := ih (Block.Kept.stmts hm)
    have hrestores : Checking.scopes (Checking.closeScope _) = _ := hstmts.restores
    rw [hrestores]
    exact .block hrest

end Check

open Check in
/-- The body of an accepted closure is resolved from the scope of the parameter, the first local. -/
theorem Closure.resolves_of_bind {c : Closure} {catalog : Catalog} {m : Model} {hi : Nat}
    (hlaid : c.Laid hi) (h : c.bind catalog = .ok m) :
    ResolvesStmt m [[(c.param.text, Model.paramId)]] 1 (.block c.body)
      [[(c.param.text, Model.paramId)]] m.locals.length := by
  obtain ⟨s, hchecks, rfl⟩ := c.checks_of_bind h
  cases hchecks with
  | @mk s _ hbody =>
    have hkept := hlaid.2.2.2.1.kept s
    have hresolves := hbody.resolves hkept
    rw [hbody.restores] at hresolves
    exact hresolves

end ComputeKernel
