import ComputeKernel.Proofs.Typing.Scoping
import ComputeKernel.Proofs.Parsing.Placement
import Mathlib.Data.List.Forall2
import Mathlib.Data.List.Nodup

/-!
What names stand for, said of the tree alone. Around each expression of a closure stand declarations,
scope by scope; a name stands for the last declaration of it in the innermost scope that has one, and
without one for a field or for the only static of that name. The model of an accepted closure says the
same, and has one local for each declaration.
-/

namespace ComputeKernel

/-! ### Declarations around an expression -/

/-- The declarations in front of a place of the scopes around it. The innermost scope is the first, and
in a scope the latest declaration is. -/
abbrev Surroundings := List (List Name)

namespace Surroundings

/-- The last declaration of a name in the innermost scope that has one. -/
def find? (around : Surroundings) (text : String) : Option Name :=
  around.findSome? fun scope => scope.find? fun d => d.text == text

def declare : Surroundings → Name → Surroundings
  | [], _ => []
  | scope :: outer, d => (d :: scope) :: outer

end Surroundings

/-- The surroundings of what stands behind a statement. -/
def Stmt.behind (around : Surroundings) : Stmt → Surroundings
  | .let _ _ name _ _ => around.declare name
  | _ => around

mutual

/-- The expressions of a statement, each with the declarations around it. The counter of a loop is
declared in a scope around its body. -/
def Stmt.expressions (around : Surroundings) : Stmt → List (Expr × Surroundings)
  | .let _ _ _ _ none | .jump .. => []
  | .let _ _ _ _ (some value) | .eval _ value => [(value, around)]
  | .assign _ _ place value => [(place, around), (value, around)]
  | .if _ condition body none => (condition, around) :: body.expressions around
  | .if _ condition body (some otherwise) =>
    (condition, around) :: (body.expressions around ++ otherwise.expressions around)
  | .for _ counter start stop _ body =>
    (start, around) :: (stop, around) :: body.expressions ([counter] :: around)
  | .while _ condition body => (condition, around) :: body.expressions around
  | .loop _ body | .nested _ body => body.expressions around

def Block.expressions (around : Surroundings) : Block → List (Expr × Surroundings)
  | ⟨_, stmts⟩ => Stmt.allExpressions ([] :: around) stmts

def Stmt.allExpressions (around : Surroundings) : List Stmt → List (Expr × Surroundings)
  | [] => []
  | s :: ss => s.expressions around ++ Stmt.allExpressions (s.behind around) ss

end

/-- The expressions of a closure. The parameter is declared in the outermost scope. -/
def Closure.expressions (c : Closure) : List (Expr × Surroundings) := c.body.expressions [[c.param]]

mutual

/-- The names that a statement declares, in the order of the text. -/
def Stmt.declarations : Stmt → List Name
  | .let _ _ name _ _ => [name]
  | .assign .. | .jump .. | .eval .. => []
  | .if _ _ body none => body.declarations
  | .if _ _ body (some otherwise) => body.declarations ++ otherwise.declarations
  | .for _ counter _ _ _ body => counter :: body.declarations
  | .while _ _ body | .loop _ body | .nested _ body => body.declarations

def Block.declarations : Block → List Name
  | ⟨_, stmts⟩ => Stmt.allDeclarations stmts

def Stmt.allDeclarations : List Stmt → List Name
  | [] => []
  | s :: ss => s.declarations ++ Stmt.allDeclarations ss

end

def Closure.declarations (c : Closure) : List Name := c.param :: c.body.declarations

mutual

/-- The parts of an expression that are a single identifier, wherever they stand. -/
def Expr.identifiers : Expr → List Mention
  | .literal .. | .path .. => []
  | .name span text => [.name span text]
  | .unary _ _ e | .cast _ e _ | .field _ e _ | .paren _ e => e.identifiers
  | .binary _ _ left right => left.identifiers ++ right.identifiers
  | .method _ receiver _ args => receiver.identifiers ++ Expr.allIdentifiers args
  | .call _ _ _ args | .tuple _ args => Expr.allIdentifiers args
  | .index _ base i => base.identifiers ++ i.identifiers
  | .choice _ condition yes no =>
    condition.identifiers ++ (yes.identifiers ++ no.identifiers)

def Expr.allIdentifiers : List Expr → List Mention
  | [] => []
  | e :: es => e.identifiers ++ Expr.allIdentifiers es

end

/-! ### What names stand for -/

/-- Whether the static with this number is the only one whose path ends with the segments. -/
structure Catalog.OnlyStatic (catalog : Catalog) (path : Path) (index : Nat) : Prop where
  ends : ∃ decl, catalog.statics[index]? = some decl ∧ path <:+ Text.splitPath decl.path
  unique : ∀ i decl, catalog.statics[i]? = some decl → path <:+ Text.splitPath decl.path → i = index

/-- Whether the model resolves a name or a path by the declarations around it: to a local, which is
declared at the last declaration of the name in the innermost scope that has one; without one to the
first field of the name; and otherwise to the only static whose path ends with it. -/
inductive Mention.Denotes (catalog : Catalog) (m : Model) (around : Surroundings) : Mention → Prop where
  | local {span text d id} : around.find? text = some d → m.referent? d.span = some (.local id) →
      m.referent? span = some (.local id) → Denotes catalog m around (.name span text)
  | capture {span text index} : around.find? text = none →
      (catalog.fields.findIdx? fun f => f.name == text) = some index →
      m.referent? span = some (.capture index) → Denotes catalog m around (.name span text)
  | static {span text index} : around.find? text = none → (∀ f ∈ catalog.fields, f.name ≠ text) →
      catalog.OnlyStatic [text] index → m.referent? span = some (.static index) →
      Denotes catalog m around (.name span text)
  | path {span path index} : path.owner? ≠ some matrixIndexOwner → catalog.OnlyStatic path index →
      m.referent? span = some (.static index) → Denotes catalog m around (.path span path)

/-- The names of the locals, where they are declared. -/
def Model.names (m : Model) : List Name := m.locals.map fun l => ⟨l.name, l.span⟩

theorem Model.names_of_heads {m m' : Model} (h : m'.heads = m.heads) : m'.names = m.names := by
  have hnames (m : Model) : m.names = m.heads.map Prod.fst := by
    simp [Model.names, Model.heads, Local.head]
  rw [hnames, hnames, h]

namespace Check

open Checking

variable {catalog : Catalog} {m : Model} {s s' : Checking}

theorem mem_staticsNamed {path : Path} {i : Nat} : i ∈ staticsNamed path catalog.statics ↔
    ∃ decl, catalog.statics[i]? = some decl ∧ path <:+ Text.splitPath decl.path := by
  simp only [staticsNamed, List.mem_filter, List.mem_range, Option.any_eq_true, Path.names,
    List.isSuffixOf_iff_suffix]
  refine ⟨fun h => h.2, ?_⟩
  rintro ⟨decl, hdecl, h⟩
  exact ⟨(List.getElem?_eq_some_iff.mp hdecl).1, decl, hdecl, h⟩

/-- A path names one static only if no other static ends with it. -/
theorem onlyStatic_iff {path : Path} {index : Nat} :
    staticsNamed path catalog.statics = [index] ↔ catalog.OnlyStatic path index := by
  constructor
  · intro h
    refine ⟨mem_staticsNamed.mp (h ▸ List.mem_singleton_self _), fun i decl hdecl hends => ?_⟩
    have hi := mem_staticsNamed.mpr ⟨decl, hdecl, hends⟩
    rw [h] at hi
    exact List.mem_singleton.mp hi
  · rintro ⟨hends, hunique⟩
    refine List.perm_singleton.mp ((List.perm_ext_iff_of_nodup
      (List.nodup_range.filter _) (List.nodup_singleton _)).mpr fun i => ?_)
    rw [List.mem_singleton]
    exact ⟨fun hi => (mem_staticsNamed.mp hi).elim fun decl h => hunique i decl h.1 h.2,
      fun hi => hi ▸ mem_staticsNamed.mpr hends⟩

/-! ### Scopes of a check -/

/-- Whether the scopes of a check are the surroundings of a place: the same names, each declared at
its local. -/
def Aligned (m : Model) : Scopes → Surroundings → Prop :=
  List.Forall₂ (List.Forall₂ fun p d => p.1 = d.text ∧ m.referent? d.span = some (.local p.2))

theorem Aligned.declare {scopes : Scopes} {around : Surroundings} {name : Name} {id : Nat}
    (h : Aligned m scopes around) (hname : m.referent? name.span = some (.local id)) :
    Aligned m (scopes.declare name.text id) (around.declare name) := by
  cases h with
  | nil => exact .nil
  | cons hscope houter => exact .cons (.cons ⟨rfl, hname⟩ hscope) houter

theorem Aligned.openLoop {around : Surroundings} (h : Aligned m s.scopes around) {counter : Name}
    (hcounter : m.referent? counter.span = some (.local s.model.locals.length)) {t : Ty}
    {family : Option LiteralFamily} :
    Aligned m (s.openScope.declare counter t false family).enterLoop.scopes ([counter] :: around) :=
  .cons (.cons ⟨rfl, hcounter⟩ .nil) h

theorem Aligned.closeScope {scope : List Name} {around : Surroundings}
    (h : Aligned m s.scopes (scope :: around)) : Aligned m s.closeScope.scopes around :=
  List.forall₂_drop 1 h

/-- A scope has a local of a name where it has a declaration of that name. -/
theorem lookup_of_aligned {scope : List (String × Nat)} {ds : List Name} {text : String}
    (h : List.Forall₂ (fun p d => p.1 = d.text ∧ m.referent? d.span = some (.local p.2)) scope ds) :
    (scope.lookup text = none ∧ (ds.find? fun d => d.text == text) = none) ∨
      ∃ id d, scope.lookup text = some id ∧ (ds.find? fun d => d.text == text) = some d ∧
        m.referent? d.span = some (.local id) := by
  induction h with
  | nil => exact .inl ⟨rfl, rfl⟩
  | @cons p d _ _ hfirst _ ih =>
    obtain ⟨htext, hreferent⟩ := hfirst
    rw [List.lookup_cons, List.find?_cons, ← htext]
    by_cases heq : p.1 = text
    · right
      refine ⟨p.2, d, ?_, ?_, hreferent⟩ <;> simp [heq]
    · simpa [heq, Ne.symm heq, beq_eq_false_iff_ne.mpr heq, beq_eq_false_iff_ne.mpr (Ne.symm heq)] using ih

theorem Aligned.find? {scopes : Scopes} {around : Surroundings} (h : Aligned m scopes around)
    (text : String) : (scopes.find? text = none ∧ around.find? text = none) ∨
      ∃ id d, scopes.find? text = some id ∧ around.find? text = some d ∧
        m.referent? d.span = some (.local id) := by
  induction h with
  | nil => exact .inl ⟨rfl, rfl⟩
  | cons hscope _ ih =>
    simp only [Scopes.find?, Surroundings.find?, List.findSome?_cons]
    rcases lookup_of_aligned hscope with ⟨hlookup, hfind⟩ | ⟨id, d, hlookup, hfind, hreferent⟩
    · rw [hlookup, hfind]
      exact ih
    · rw [hlookup, hfind]
      exact .inr ⟨id, d, rfl, rfl, hreferent⟩

theorem Aligned.find?_eq_none {scopes : Scopes} {around : Surroundings} (h : Aligned m scopes around)
    {text : String} (hfind : scopes.find? text = none) : around.find? text = none := by
  rcases h.find? text with ⟨_, hnone⟩ | ⟨id, _, hid, _⟩
  · exact hnone
  · rw [hfind] at hid
    cases hid

/-! ### Expressions -/

/-- What is noted of a name by the open scopes is what the declarations around it say. -/
theorem denotes_of_noted {scopes : Scopes} {around : Surroundings} {x : Mention}
    (h : x.Noted catalog m scopes) (haligned : Aligned m scopes around) :
    x.Denotes catalog m around := by
  cases h with
  | @«local» span text id hfind hreferent =>
    rcases haligned.find? text with ⟨hnone, _⟩ | ⟨id', d, hid', hd, hdeclared⟩
    · rw [hfind] at hnone
      cases hnone
    · obtain rfl := Option.some.inj (hid'.symm.trans hfind)
      exact .local hd hdeclared hreferent
  | @capture span text index t hfind hcapture hreferent =>
    exact .capture (haligned.find?_eq_none hfind) hcapture.1 hreferent
  | @static span text index t hfind hfield hstatic hreferent =>
    refine .static (haligned.find?_eq_none hfind) (fun f hf heq => ?_) (onlyStatic_iff.mp hstatic.1)
      hreferent
    exact absurd (List.findIdx?_eq_none_iff.mp hfield f hf) (by simp [heq])
  | path howner hstatic hreferent =>
    exact .path howner (onlyStatic_iff.mp hstatic.1) hreferent

theorem Selects.allIdentifiers_eq {rows columns : Nat} {items : List Expr}
    (h : Selects rows columns items s s') : Expr.allIdentifiers items = [] := by
  induction h with
  | nil => rfl
  | cons _ _ _ _ ih => exact ih

def Judgment.identifiers : Judgment → List Mention
  | .expr e _ => e.identifiers
  | .args es _ => Expr.allIdentifiers es

/-- In what was checked, a name that is not mentioned stands nowhere: a tuple holds selectors only. -/
theorem Checks.identifiers_subset {j : Judgment} (h : Checks catalog s j s') :
    ∀ x ∈ j.identifiers, x ∈ j.mentions := by
  induction h with
  | literal | «local» | capture | static | nil => exact fun x hx => hx
  | path => exact nofun
  | unary _ _ ih | cast _ _ ih | field _ _ ih | paren _ ih | call _ _ ih => exact ih
  | binary _ _ _ ih ih' | method _ _ _ ih ih' | element _ _ _ _ _ ih ih' | cons _ _ ih ih' =>
    exact fun x hx => List.mem_append.mpr ((List.mem_append.mp hx).imp (ih x) (ih' x))
  | swizzle _ _ _ _ hselects ih =>
    intro x hx
    rcases List.mem_append.mp hx with hx | hx
    · exact List.mem_append_left _ (ih x hx)
    · rw [Expr.identifiers, hselects.allIdentifiers_eq] at hx
      cases hx
  | choice _ _ _ _ _ ihCondition ihYes ihNo =>
    intro x hx
    refine List.mem_append.mpr ((List.mem_append.mp hx).imp (ihCondition x) fun hx => ?_)
    exact List.mem_append.mpr ((List.mem_append.mp hx).imp (ihYes x) (ihNo x))

/-- Whether an expression was checked where the scopes are its surroundings, and the model still says
what was found. -/
def CheckedAround (catalog : Catalog) (m : Model) (e : Expr) (around : Surroundings) : Prop :=
  ∃ s s' t, Checks catalog s (.expr e t) s' ∧ e.Kept s' m ∧ Aligned m s.scopes around

/-- All that an expression mentions denotes what its surroundings say. -/
theorem CheckedAround.mentions {e : Expr} {around : Surroundings}
    (h : CheckedAround catalog m e around) : ∀ x ∈ e.mentions, x.Denotes catalog m around := by
  obtain ⟨s, s', t, hchecks, hkept, haligned⟩ := h
  exact fun x hx => denotes_of_noted (hchecks.noted (j := .expr e t) hkept x hx) haligned

theorem CheckedAround.identifiers {e : Expr} {around : Surroundings}
    (h : CheckedAround catalog m e around) : ∀ x ∈ e.identifiers, x.Denotes catalog m around := by
  obtain ⟨s, s', t, hchecks, _⟩ := id h
  exact fun x hx => h.mentions x (hchecks.identifiers_subset x hx)

/-! ### Statements -/

def StmtJudgment.expressions (around : Surroundings) : StmtJudgment → List (Expr × Surroundings)
  | .stmt st => st.expressions around
  | .stmts sts => Stmt.allExpressions around sts
  | .block b => b.expressions around

def StmtJudgment.behind (around : Surroundings) : StmtJudgment → Surroundings
  | .stmt st => st.behind around
  | .stmts sts => sts.foldl Stmt.behind around
  | .block _ => around

def StmtJudgment.declarations : StmtJudgment → List Name
  | .stmt st => st.declarations
  | .stmts sts => Stmt.allDeclarations sts
  | .block b => b.declarations

/-- Every expression of a statement is checked where the scopes are its surroundings, and so are the
scopes behind the statement. -/
theorem ChecksStmt.checked_around {j : StmtJudgment} (h : ChecksStmt catalog s j s')
    (hm : j.Kept s' m) {around : Surroundings} (haligned : Aligned m s.scopes around) :
    (∀ p ∈ j.expressions around, CheckedAround catalog m p.1 p.2) ∧
      Aligned m s'.scopes (j.behind around) := by
  induction h generalizing around with
  | declare _ =>
    obtain ⟨hname, _⟩ := Stmt.Kept.let hm
    rw [scopes_declare]
    exact ⟨nofun, haligned.declare hname⟩
  | @annotated _ s₁ _ _ _ _ t _ v he _ _ =>
    obtain ⟨hname, hvalue⟩ := Stmt.Kept.let hm
    rw [scopes_declare, Settling.scopes_settle, he.scopes_eq]
    exact ⟨List.forall_mem_singleton.mpr
      ⟨_, _, _, he, (hvalue _ rfl).of_settles (.settle s₁ v t), haligned⟩, haligned.declare hname⟩
  | inferred he _ =>
    obtain ⟨hname, hvalue⟩ := Stmt.Kept.let hm
    rw [scopes_declare, he.scopes_eq]
    exact ⟨List.forall_mem_singleton.mpr ⟨_, _, _, he, hvalue _ rfl, haligned⟩,
      haligned.declare hname⟩
  | assign hplace hvalue _ hassigns =>
    obtain ⟨hp, hv⟩ := Stmt.Kept.assign hm hvalue hassigns.settles
    rw [hassigns.settling.scopes_eq, hvalue.scopes_eq, hplace.scopes_eq]
    exact ⟨List.forall_mem_cons.mpr ⟨⟨_, _, _, hplace, hp, haligned⟩, List.forall_mem_singleton.mpr
      ⟨_, _, _, hvalue, hv, hplace.scopes_eq ▸ haligned⟩⟩, haligned⟩
  | ifOnly hcondition _ hbody ih =>
    obtain ⟨hc, hb⟩ := Stmt.Kept.ifOnly hm hbody
    obtain ⟨hexpressions, hscopes⟩ := ih hb (hcondition.scopes_eq ▸ haligned)
    exact ⟨List.forall_mem_cons.mpr ⟨⟨_, _, _, hcondition, hc, haligned⟩, hexpressions⟩, hscopes⟩
  | ifElse hcondition _ hbody hotherwise ihBody ihOtherwise =>
    obtain ⟨hc, hb, ho⟩ := Stmt.Kept.ifElse hm hbody hotherwise
    obtain ⟨hfirst, hmid⟩ := ihBody hb (hcondition.scopes_eq ▸ haligned)
    obtain ⟨hrest, hscopes⟩ := ihOtherwise ho hmid
    exact ⟨List.forall_mem_cons.mpr ⟨⟨_, _, _, hcondition, hc, haligned⟩,
      List.forall_mem_append.mpr ⟨hfirst, hrest⟩⟩, hscopes⟩
  | «for» hstart hstop hunify _ hbody ih =>
    obtain ⟨hl, hh, hcounter, hb⟩ := Stmt.Kept.for hm hstop hunify.settles hbody
    have hscopes := hunify.settling.scopes_eq.trans (hstop.scopes_eq.trans hstart.scopes_eq)
    obtain ⟨hexpressions, hclose⟩ := ih hb ((hscopes ▸ haligned).openLoop hcounter)
    exact ⟨List.forall_mem_cons.mpr ⟨⟨_, _, _, hstart, hl, haligned⟩, List.forall_mem_cons.mpr
      ⟨⟨_, _, _, hstop, hh, hstart.scopes_eq ▸ haligned⟩, hexpressions⟩⟩, hclose.closeScope⟩
  | «while» hcondition _ hbody ih =>
    obtain ⟨hc, hb⟩ := Stmt.Kept.while hm hbody
    obtain ⟨hexpressions, hscopes⟩ := ih hb
      (show Aligned m (Checking.enterLoop _).scopes around from hcondition.scopes_eq ▸ haligned)
    exact ⟨List.forall_mem_cons.mpr ⟨⟨_, _, _, hcondition, hc, haligned⟩, hexpressions⟩, hscopes⟩
  | loop _ ih => exact ih (Stmt.Kept.loop hm) haligned
  | jump _ => exact ⟨nofun, haligned⟩
  | eval he =>
    exact ⟨List.forall_mem_singleton.mpr ⟨_, _, _, he, Stmt.Kept.eval hm, haligned⟩,
      he.scopes_eq ▸ haligned⟩
  | nested _ ih => exact ih (Stmt.Kept.nested hm) haligned
  | nil => exact ⟨nofun, haligned⟩
  | cons _ hrest ihFirst ihRest =>
    obtain ⟨hst, hsts⟩ := Stmt.AllKept.cons hm hrest
    obtain ⟨hfirst, hmid⟩ := ihFirst hst haligned
    obtain ⟨hexpressions, hscopes⟩ := ihRest hsts hmid
    exact ⟨List.forall_mem_append.mpr ⟨hfirst, hexpressions⟩, hscopes⟩
  | block hstmts ih =>
    obtain ⟨hexpressions, _⟩ := ih (Block.Kept.stmts hm) (List.Forall₂.cons .nil haligned)
    have hrestores : Checking.scopes (Checking.closeScope _) = _ := hstmts.restores
    exact ⟨hexpressions, hrestores ▸ haligned⟩

/-! ### Declarations -/

theorem names_declare (s : Checking) (name : Name) (t : Ty) (mutable : Bool)
    (family : Option LiteralFamily) :
    (s.declare name t mutable family).model.names = s.model.names ++ [name] := by
  simp [Model.names, Checking.declare]

/-- Checking a statement adds one local for each of its declarations, in their order. -/
theorem ChecksStmt.names_eq {j : StmtJudgment} (h : ChecksStmt catalog s j s') :
    s'.model.names = s.model.names ++ j.declarations := by
  induction h with
  | declare _ => exact names_declare _ _ _ _ _
  | annotated he _ _ =>
    rw [names_declare, Model.names_of_heads (Settles.settle _ _ _).heads,
      Model.names_of_heads he.heads_eq]
    rfl
  | inferred he _ =>
    rw [names_declare, Model.names_of_heads he.heads_eq]
    rfl
  | assign hplace hvalue _ hassigns =>
    rw [Model.names_of_heads hassigns.settles.heads, Model.names_of_heads hvalue.heads_eq,
      Model.names_of_heads hplace.heads_eq]
    exact (List.append_nil _).symm
  | ifOnly hcondition _ _ ih => rw [ih, Model.names_of_heads hcondition.heads_eq]; rfl
  | ifElse hcondition _ _ _ ihBody ihOtherwise =>
    rw [ihOtherwise, ihBody, Model.names_of_heads hcondition.heads_eq, List.append_assoc]
    rfl
  | «for» hstart hstop hunify _ _ ih =>
    have hnames := hunify.settles.heads.trans (hstop.heads_eq.trans hstart.heads_eq)
    refine ih.trans ?_
    rw [← Model.names_of_heads hnames]
    exact (congrArg (· ++ _) (names_declare _ _ _ _ _)).trans (List.append_assoc _ _ _)
  | «while» hcondition _ _ ih => exact ih.trans (Model.names_of_heads hcondition.heads_eq ▸ rfl)
  | loop _ ih | nested _ ih | block _ ih => exact ih
  | jump _ | nil => exact (List.append_nil _).symm
  | eval he =>
    rw [Model.names_of_heads he.heads_eq]
    exact (List.append_nil _).symm
  | cons _ _ ihFirst ihRest =>
    rw [ihRest, ihFirst, List.append_assoc]
    rfl

/-- Whether declarations have the locals with the numbers from `next` on. -/
def Numbered (m : Model) (next : Nat) (ds : List Name) : Prop :=
  ∀ k d, ds[k]? = some d → m.referent? d.span = some (.local (next + k))

theorem Numbered.append {next : Nat} {ds ds' : List Name} (h : Numbered m next ds)
    (h' : Numbered m (next + ds.length) ds') : Numbered m next (ds ++ ds') := by
  intro k d hd
  rcases Nat.lt_or_ge k ds.length with hk | hk
  · exact h k d (List.getElem?_append_left hk ▸ hd)
  · rw [List.getElem?_append_right hk] at hd
    have := h' _ d hd
    rwa [show next + ds.length + (k - ds.length) = next + k by omega] at this

theorem numbered_singleton {next : Nat} {d : Name} (h : m.referent? d.span = some (.local next)) :
    Numbered m next [d] := by
  rintro (_ | k) d' hd
  · obtain rfl := Option.some.inj hd
    exact h
  · cases hd

theorem numbered_nil {next : Nat} : Numbered m next [] := nofun

/-- The name of each declaration refers to the local that it declares. -/
theorem ResolvesStmt.numbered {scopes scopes' : Scopes} {next next' : Nat} {j : StmtJudgment}
    (h : ResolvesStmt m scopes next j scopes' next') :
    next' = next + j.declarations.length ∧ Numbered m next j.declarations := by
  induction h with
  | «let» _ hname => exact ⟨rfl, numbered_singleton hname⟩
  | assign | jump | eval | nil => exact ⟨rfl, numbered_nil⟩
  | ifOnly _ _ ih | «while» _ _ ih | loop _ ih | nested _ ih | block _ ih => exact ih
  | ifElse _ _ _ ihFirst ihRest | cons _ _ ihFirst ihRest =>
    obtain ⟨rfl, hfirst⟩ := ihFirst
    obtain ⟨hnext, hrest⟩ := ihRest
    exact ⟨hnext.trans (List.length_append ▸ Nat.add_assoc _ _ _), hfirst.append hrest⟩
  | «for» _ _ hcounter _ ih =>
    obtain ⟨hnext, hbody⟩ := ih
    refine ⟨?_, (numbered_singleton hcounter).append hbody⟩
    simp only [StmtJudgment.declarations, Stmt.declarations, List.length_cons] at hnext ⊢
    omega

end Check

/-! ### Closures -/

/-- Whether a model binds the names of a closure lexically. -/
structure Closure.Lexical (c : Closure) (catalog : Catalog) (m : Model) : Prop where
  /-- The locals are the declarations, in the order of the text. -/
  locals : m.names = c.declarations
  /-- The name of a declaration is bound to its own local. -/
  declarations : ∀ id d, c.declarations[id]? = some d → m.referent? d.span = some (.local id)
  /-- A single identifier is bound by the declarations around it. -/
  identifiers : ∀ p ∈ c.expressions, ∀ x ∈ p.1.identifiers, x.Denotes catalog m p.2
  /-- All else that an expression mentions is bound as well. -/
  mentions : ∀ p ∈ c.expressions, ∀ x ∈ p.1.mentions, x.Denotes catalog m p.2

open Check in
/-- The parameter of an accepted closure is the first local. -/
theorem Closure.referent?_param_of_bind {c : Closure} {catalog : Catalog} {m : Model} {hi : Nat}
    (hlaid : c.Laid hi) (h : c.bind catalog = .ok m) :
    m.referent? c.param.span = some (.local Model.paramId) := by
  obtain ⟨s, hchecks, rfl⟩ := c.checks_of_bind h
  obtain ⟨hparam, _, hbehind, hbodyLaid, _⟩ := hlaid
  cases hchecks with
  | mk _ hbody =>
    have hapart : ¬ c.param.span.Between c.body.span.start c.body.span.stop := by
      rintro ⟨hlo, _, _⟩
      unfold Span.Proper at hparam
      omega
    exact ((Block.Kept.keeps hbodyLaid hbody).referents _ hapart).trans
      (SpanMap.get?_insert_self _ _ _)

open Check in
/-- The name of each declaration refers to the local of its number. -/
theorem Closure.numbered_of_bind {c : Closure} {catalog : Catalog} {m : Model} {hi : Nat}
    (hlaid : c.Laid hi) (h : c.bind catalog = .ok m) : Numbered m 0 c.declarations :=
  (numbered_singleton (c.referent?_param_of_bind hlaid h)).append
    (c.resolves_of_bind hlaid h).numbered.2

open Check in
/-- Every expression of an accepted closure is checked where the scopes are its surroundings. -/
theorem Closure.checkedAround_of_bind {c : Closure} {catalog : Catalog} {m : Model} {hi : Nat}
    (hlaid : c.Laid hi) (h : c.bind catalog = .ok m) :
    ∀ p ∈ c.expressions, CheckedAround catalog m p.1 p.2 := by
  have hnoted := c.referent?_param_of_bind hlaid h
  obtain ⟨s, hchecks, rfl⟩ := c.checks_of_bind h
  cases hchecks with
  | @mk s _ hbody =>
    have hopen : Aligned s.closeScope.model
        ((({} : Checking).openScope).declare c.param .threadIds false none).scopes [[c.param]] :=
      .cons (.cons ⟨rfl, hnoted⟩ .nil) .nil
    exact (hbody.checked_around (hlaid.2.2.2.1.kept s) hopen).1

open Check in
/-- The model of an accepted closure binds its names lexically. -/
theorem Closure.lexical_of_bind {source : String} {c : Closure} {catalog : Catalog} {m : Model}
    (hparse : Closure.parse source = .ok c) (h : c.bind catalog = .ok m) : c.Lexical catalog m := by
  obtain ⟨hi, hlaid⟩ := Closure.laid_of_parse hparse
  have hchecked := c.checkedAround_of_bind hlaid h
  have hnumbered := c.numbered_of_bind hlaid h
  obtain ⟨s, hchecks, rfl⟩ := c.checks_of_bind h
  cases hchecks with
  | mk _ hbody =>
    refine ⟨hbody.names_eq, fun id d hd => ?_, fun p hp => (hchecked p hp).identifiers,
      fun p hp => (hchecked p hp).mentions⟩
    rw [hnumbered id d hd, Nat.zero_add]

/-- A closure that declares a name again behind its first declaration, in a block and as a counter that
its own bounds do not see, and that reads a capture of the name first. -/
def renamed : String :=
  "|ids| \x7b let n = n; let n = n + 1; \x7b let n = 2u32; o[n] = gain; \x7d "
    ++ "for n in 0..n \x7b o[n] = gain; \x7d o[n] = gain; \x7d"

def renamedCatalog : Catalog :=
  { fields := [⟨"o", "ReadWriteBuffer<f32>", false⟩, ⟨"n", "u32", false⟩]
    statics := [{ path := "app::gain", type := "f32" }] }

theorem lexical_of_bind_renamed :
    ∃ c m, Closure.parse renamed = .ok c ∧ c.bind renamedCatalog = .ok m ∧
      ((c.expressions.map (·.1)).flatMap Expr.identifiers).map (fun x => m.referent? x.span) =
        [some (.capture 1), some (.local 1), some (.capture 0), some (.local 3), some (.static 0),
          some (.local 2), some (.capture 0), some (.local 4), some (.static 0), some (.capture 0),
          some (.local 2), some (.static 0)] ∧
      c.Lexical renamedCatalog m := by
  have hrun : ((Closure.parse renamed).toOption.any fun c =>
      (c.bind renamedCatalog).toOption.any fun m =>
        ((c.expressions.map (·.1)).flatMap Expr.identifiers).map (fun x => m.referent? x.span) =
          [some (.capture 1), some (.local 1), some (.capture 0), some (.local 3),
            some (.static 0), some (.local 2), some (.capture 0), some (.local 4),
            some (.static 0), some (.capture 0), some (.local 2), some (.static 0)]) = true := by
    decide +kernel
  obtain ⟨c, hc, hrun⟩ := (Option.any_eq_true _ _).mp hrun
  obtain ⟨m, hm, hreferents⟩ := (Option.any_eq_true _ _).mp hrun
  have hparse := eq_ok_of_toOption hc
  have hbind := eq_ok_of_toOption hm
  exact ⟨c, m, hparse, hbind, of_decide_eq_true hreferents, Closure.lexical_of_bind hparse hbind⟩

end ComputeKernel
