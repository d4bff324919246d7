import ComputeKernel.Proofs.Reading.Keywords
import ComputeKernel.Proofs.Reading.Lines
import ComputeKernel.Proofs.Reading.Translation
import ComputeKernel.Proofs.Shader.Vocabulary
import ComputeKernel.Proofs.Typing.Assignments

/-!
The statements that a body is read as. They are those of the closure, in their order and in their
blocks: a `loop` is a `while` on `true`, a conditional alone behind `else` may do without a block of its
own, and the declaration of a bound that is evaluated once stands in front of its loop.
-/

namespace ComputeKernel.Reading

open Check (StmtJudgment)
open Shader (Context StaticUse Lowers LowersStmt unaryRank relationalRank BoundName)
open Shader.Lower (Identifies nameOf isInvariant)

/-! ### What statements are rendered as -/

/-- Whether a tree is the one that an expression stands for, up to parentheses. -/
def Means (ctx : Context) (statics : List StaticUse) (e : Expr) (t : Tree) : Prop :=
  t.ungrouped = meaning ctx statics e

/-- A name that is declared, with the identifier and the name of the type of its local in shader code. -/
structure Declaration (ctx : Context) (name : Name) (type ident : String) : Prop where
  exists_local : ∃ id l, ctx.Declares name id l ident ∧ ctx.table.shaderName? l.type.toHost = some type

/-- The test of a loop that counts up to a bound. -/
def testTree (counter : String) (inclusive : Bool) (bound : Tree) : Tree :=
  .binary (if inclusive then .le else .lt) (.atom counter) bound

/-- The statements that those of a closure are rendered as. -/
inductive Renders (ctx : Context) (statics : List StaticUse) : StmtJudgment → List Statement → Prop where
  | declare {span mutable name annotation type ident} : Declaration ctx name type ident →
      Renders ctx statics (.stmt (.let span mutable name annotation none)) [.declare type ident none]
  | set {span mutable name annotation e type ident t} : Declaration ctx name type ident →
      Means ctx statics e t →
      Renders ctx statics (.stmt (.let span mutable name annotation (some e)))
        [.declare type ident (some t)]
  | assign {span op place value t u} : Means ctx statics place t → Means ctx statics value u →
      Renders ctx statics (.stmt (.assign span op place value)) [.assign t op u]
  | ifOnly {span condition body t ss} : Means ctx statics condition t →
      Renders ctx statics (.block body) ss →
      Renders ctx statics (.stmt (.if span condition body none)) [.ifOnly t (.block ss)]
  | ifElse {span condition body otherwise t ss us} : Means ctx statics condition t →
      Renders ctx statics (.block body) ss → Renders ctx statics (.block otherwise) us →
      Renders ctx statics (.stmt (.if span condition body (some otherwise)))
        [.ifElse t (.block ss) (.block us)]
  /-- A conditional alone behind `else`. -/
  | elseIf {span condition body blockSpan span' condition' body' otherwise' t ss u} :
      Means ctx statics condition t → Renders ctx statics (.block body) ss →
      Renders ctx statics (.stmt (.if span' condition' body' otherwise')) [u] →
      Renders ctx statics
        (.stmt (.if span condition body (some ⟨blockSpan, [.if span' condition' body' otherwise']⟩)))
        [.ifElse t (.block ss) u]
  | for {span counter start stop inclusive body type ident t u ss} :
      Declaration ctx counter type ident → Means ctx statics start t → Means ctx statics stop u →
      isInvariant ctx.model stop → Renders ctx statics (.block body) ss →
      Renders ctx statics (.stmt (.for span counter start stop inclusive body))
        [.for type ident t (testTree ident inclusive u) ident (.block ss)]
  /-- A loop whose bound is declared in front of it. -/
  | hoisted {span counter start stop inclusive body type ident bound t u ss} :
      Declaration ctx counter type ident → Means ctx statics start t → Means ctx statics stop u →
      ¬ isInvariant ctx.model stop → Renders ctx statics (.block body) ss →
      Renders ctx statics (.stmt (.for span counter start stop inclusive body))
        [.declare type bound (some u),
          .for type ident t (testTree ident inclusive (.atom bound)) ident (.block ss)]
  | while {span condition body t ss} : Means ctx statics condition t →
      Renders ctx statics (.block body) ss →
      Renders ctx statics (.stmt (.while span condition body)) [.while t (.block ss)]
  | loop {span body ss} : Renders ctx statics (.block body) ss →
      Renders ctx statics (.stmt (.loop span body)) [.while (.atom "true") (.block ss)]
  | jump {span kind} : Renders ctx statics (.stmt (.jump span kind)) [.jump kind]
  | eval {span e t} : Means ctx statics e t →
      Renders ctx statics (.stmt (.eval span e)) [.eval t]
  | nested {span body ss} : Renders ctx statics (.block body) ss →
      Renders ctx statics (.stmt (.nested span body)) [.block ss]
  | nil : Renders ctx statics (.stmts []) []
  | cons {st sts ss us} : Renders ctx statics (.stmt st) ss → Renders ctx statics (.stmts sts) us →
      Renders ctx statics (.stmts (st :: sts)) (ss ++ us)
  | block {span sts ss} : Renders ctx statics (.stmts sts) ss →
      Renders ctx statics (.block ⟨span, sts⟩) ss

/-! ### Legible code -/

variable {ctx : Context} {catalog : Catalog} {statics : List StaticUse}
  {bounds : List (Nat × String)}

/-- Whether the identifiers of a body are read as they should be. -/
structure Readies (ctx : Context) (catalog : Catalog) (statics : List StaticUse) : Prop where
  worded : Worded ctx catalog statics
  locals : ∀ l ∈ ctx.model.locals, l.Sound
  idents : ∀ r ident, Identifies ctx statics r ident → ident ∉ keywords

theorem legible_of_lowers (hctx : Readies ctx catalog statics) {e : Expr} {c : Shader.Expr}
    (h : Lowers ctx catalog statics (.expr e c)) (he : e.Spelled) :
    Legible c ∧ Means ctx statics e (tree c) := by
  obtain ⟨hclean, hmeans⟩ := readsAs_of_lowers hctx.worded h he
  exact ⟨⟨hclean, plain_of_lowers hctx.worded.table hctx.idents h he⟩, hmeans⟩

theorem isVariable_of_declares (hctx : Readies ctx catalog statics) {name : Name} {id : Nat} {l : Local}
    {ident : String} (h : ctx.Declares name id l ident) : IsVariable ident :=
  ⟨hctx.worded.locals id ident h.ident, hctx.idents _ _ (.local h.ident)⟩

theorem isTypeWord_of_declares (hctx : Readies ctx catalog statics) {name : Name} {id : Nat} {l : Local}
    {ident : String} (h : ctx.Declares name id l ident) : IsTypeWord (nameOf ctx l.type.toHost) :=
  Shader.isTypeWord_of_sound hctx.worded.table (hctx.locals l (List.mem_of_getElem? h.local?))

theorem declaration_of_declares (hctx : Readies ctx catalog statics) {name : Name} {id : Nat} {l : Local}
    {ident : String} (h : ctx.Declares name id l ident) :
    Declaration ctx name (nameOf ctx l.type.toHost) ident := by
  have hl := hctx.locals l (List.mem_of_getElem? h.local?)
  obtain ⟨type, htype⟩ := Option.isSome_iff_exists.mp
    (Shader.namesLocals_hlsl _ _ (Shader.Lower.ofHost?_toHost_of_sound hl) hl.isLocal)
  refine ⟨id, l, h, ?_⟩
  rw [nameOf, hctx.worded.table, htype]
  rfl

/-- Code of a place can stand on the left of an assignment. -/
theorem unaryRank_le_of_isPlace {e : Expr} {c : Shader.Expr} (he : e.IsPlace)
    (h : Lowers ctx catalog statics (.expr e c)) : unaryRank ≤ c.rank := by
  cases h with
  | name | paren | field | index | matrixSwizzle => exact of_decide_eq_true rfl
  | _ => exact he.elim

theorem legible_atLeast {c : Shader.Expr} (h : Legible c) (k : Nat) : Legible (c.atLeast k) :=
  ⟨clean_atLeast h.clean k, plain_tokens_atLeast.mpr h.plain⟩

theorem legible_var {name : String} (h : IsVariable name) : Legible (.var name) :=
  ⟨h.1, plain_cons_word.mpr ⟨h.2, plain_nil⟩⟩

theorem legible_true : Legible (.literal "true") :=
  ⟨isNumber_or_isName_hlsl (v := .bool true) trivial, plain_literalToken (v := .bool true) trivial⟩

theorem legible_countTest {ident : String} {bound : Shader.Expr} (hident : IsVariable ident)
    (hbound : Legible bound) (hrank : relationalRank < bound.rank) (inclusive : Bool) :
    Legible (countTest ident inclusive bound) := by
  constructor
  · cases inclusive <;> exact ⟨hident.1, hbound.clean, of_decide_eq_true rfl, hrank⟩
  · cases inclusive <;> simpa [countTest, tokens] using ⟨hident.2, hbound.plain⟩

theorem mem_compoundOperators {op : Option BinaryOp} (h : Parse.Assigns op) :
    ∀ o ∈ op, o ∈ compoundOperators := by
  obtain ⟨s, hs⟩ := h
  rintro o ⟨⟩
  cases s <;> cases hs <;> decide

theorem isVariable_of_boundName {ident bound : String} (hident : IsVariable ident)
    (h : BoundName ident bound) (hbound : bound ∉ keywords) : IsVariable bound := by
  obtain ⟨pool, rfl⟩ := h
  refine ⟨isName_allocate pool ?_, hbound⟩
  have htext : s!"{ident}_end".toList = ident.toList ++ "_end".toList := by
    show (ident ++ "_end").toList = _
    exact String.toList_append
  rw [htext]
  exact IsWord.append hident.1.1 (List.all_eq_true.mp rfl)

/-! ### Statements -/

theorem allStmtClean_append {code code' : List Shader.Stmt} (h : AllStmtClean code)
    (h' : AllStmtClean code') : AllStmtClean (code ++ code') := by
  induction code with
  | nil => exact h'
  | cons s ss ih => exact ⟨h.1, ih h.2⟩

theorem statements_append (code code' : List Shader.Stmt) :
    statements (code ++ code') = statements code ++ statements code' := by
  induction code with
  | nil => rfl
  | cons s ss ih => rw [List.cons_append, statements, statements, ih, List.cons_append]

/-- Every statement leaves code behind. -/
theorem ne_nil_of_lowersStmt {st : Stmt} {code : List Shader.Stmt}
    (h : LowersStmt ctx catalog statics (.stmt st) code bounds) : code ≠ [] := by
  cases h <;> exact nofun

theorem eq_nil_of_lowersStmt {sts : List Stmt} {code : List Shader.Stmt}
    (h : LowersStmt ctx catalog statics (.stmts sts) code bounds) (hcode : code = []) : sts = [] := by
  cases h with
  | nil => rfl
  | cons hfirst _ => exact (ne_nil_of_lowersStmt hfirst (List.append_eq_nil_iff.mp hcode).1).elim

/-- Only a block of one conditional becomes one conditional. -/
theorem eq_if_of_branch {b : Block} {c : Shader.Expr} {body : List Shader.Stmt}
    {otherwise : Option (List Shader.Stmt)}
    (h : LowersStmt ctx catalog statics (.block b) [.branch c body otherwise] bounds) :
    ∃ span span' condition' body' otherwise', b = ⟨span, [.if span' condition' body' otherwise']⟩ := by
  cases h with
  | @block span _ _ _ hstmts =>
    generalize hcode : [Shader.Stmt.branch c body otherwise] = code at hstmts
    cases hstmts with
    | nil => cases hcode
    | cons hfirst hrest =>
      rcases List.append_eq_singleton_iff.mp hcode.symm with ⟨hfirstCode, _⟩ | ⟨hfirstCode, hrestCode⟩
      · exact (ne_nil_of_lowersStmt hfirst hfirstCode).elim
      · obtain rfl := eq_nil_of_lowersStmt hrest hrestCode
        subst hfirstCode
        cases hfirst with
        | ifOnly | ifElse => exact ⟨span, _, _, _, _, rfl⟩

theorem renders_of_single {span : Span} {st : Stmt} {ss : List Statement}
    (h : Renders ctx statics (.block ⟨span, [st]⟩) ss) : Renders ctx statics (.stmt st) ss := by
  cases h with
  | block hstmts => cases hstmts with
    | cons hfirst hrest =>
      cases hrest
      rwa [List.append_nil]

/-- Whether code is clean and is read as what a part of a body is rendered as. -/
structure Rendered (ctx : Context) (statics : List StaticUse) (j : StmtJudgment)
    (code : List Shader.Stmt) : Prop where
  clean : AllStmtClean code
  renders : Renders ctx statics j (statements code)

/-- The statement behind an `else` is rendered with a block of its own or, if it is a conditional,
without one. -/
theorem renders_ifElse {span : Span} {condition : Expr} {body otherwise : Block} {t : Tree}
    {ss : List Statement} {code : List Shader.Stmt}
    (ht : Means ctx statics condition t) (hbody : Renders ctx statics (.block body) ss)
    (hcode : LowersStmt ctx catalog statics (.block otherwise) code bounds)
    (hotherwise : Renders ctx statics (.block otherwise) (statements code)) :
    ∃ u, elseStatement (some code) = some u ∧
      Renders ctx statics (.stmt (.if span condition body (some otherwise)))
        [.ifElse t (.block ss) u] := by
  by_cases hbranch : ∃ c b o, code = [.branch c b o]
  · obtain ⟨c, b, o, rfl⟩ := hbranch
    obtain ⟨blockSpan, span', condition', body', otherwise', rfl⟩ := eq_if_of_branch hcode
    exact ⟨_, by rw [elseStatement], .elseIf ht hbody (renders_of_single hotherwise)⟩
  · refine ⟨_, ?_, .ifElse ht hbody hotherwise⟩
    rw [elseStatement]
    exact fun c b o hcode => hbranch ⟨c, b, o, hcode⟩

/-- The code of statements is read as what they are rendered as. -/
theorem rendered_of_lowersStmt (hctx : Readies ctx catalog statics) {j : StmtJudgment}
    {code : List Shader.Stmt} (h : LowersStmt ctx catalog statics j code bounds) :
    j.Spelled → (∀ a ∈ j.assignments, Parse.Assigns a.1 ∧ a.2.IsPlace) →
      (∀ b ∈ bounds, b.2 ∉ keywords) → Rendered ctx statics j code := by
  induction h with
  | declare hdeclares =>
    intro _ _ _
    exact ⟨⟨⟨isTypeWord_of_declares hctx hdeclares, isVariable_of_declares hctx hdeclares, nofun⟩,
      trivial⟩, .declare (declaration_of_declares hctx hdeclares)⟩
  | set hdeclares he =>
    rintro ⟨_, hspelled⟩ _ _
    obtain ⟨hlegible, hmeans⟩ := legible_of_lowers hctx he (hspelled _ rfl)
    refine ⟨⟨⟨isTypeWord_of_declares hctx hdeclares, isVariable_of_declares hctx hdeclares, ?_⟩,
      trivial⟩, .set (declaration_of_declares hctx hdeclares) hmeans⟩
    rintro _ ⟨⟩
    exact hlegible
  | assign hplace hvalue =>
    rintro ⟨hplaceSpelled, hvalueSpelled⟩ hassignments _
    obtain ⟨hop, hform⟩ := hassignments _ (List.mem_singleton_self _)
    obtain ⟨htarget, htargetMeans⟩ := legible_of_lowers hctx hplace hplaceSpelled
    obtain ⟨hlegible, hmeans⟩ := legible_of_lowers hctx hvalue hvalueSpelled
    exact ⟨⟨⟨htarget, unaryRank_le_of_isPlace hform hplace, mem_compoundOperators hop, hlegible⟩,
      trivial⟩, .assign htargetMeans hmeans⟩
  | ifOnly hcondition _ ih =>
    rintro ⟨hspelled, hbodySpelled, _⟩ hassignments hbounds
    obtain ⟨hlegible, hmeans⟩ := legible_of_lowers hctx hcondition hspelled
    obtain ⟨hclean, hrenders⟩ := ih hbodySpelled hassignments hbounds
    exact ⟨⟨⟨hlegible, hclean, trivial⟩, trivial⟩, .ifOnly hmeans hrenders⟩
  | ifElse hcondition _ hotherwise ihBody ihOtherwise =>
    rintro ⟨hspelled, hbodySpelled, hotherwiseSpelled⟩ hassignments hbounds
    obtain ⟨hbodyAssignments, hotherwiseAssignments⟩ := List.forall_mem_append.mp hassignments
    obtain ⟨hbodyBounds, hotherwiseBounds⟩ := List.forall_mem_append.mp hbounds
    obtain ⟨hlegible, hmeans⟩ := legible_of_lowers hctx hcondition hspelled
    obtain ⟨hclean, hrenders⟩ := ihBody hbodySpelled hbodyAssignments hbodyBounds
    obtain ⟨hclean', hrenders'⟩ :=
      ihOtherwise hotherwiseSpelled hotherwiseAssignments hotherwiseBounds
    refine ⟨⟨⟨hlegible, hclean, hclean'⟩, trivial⟩, ?_⟩
    obtain ⟨u, hu, hrendersElse⟩ := renders_ifElse hmeans hrenders hotherwise hrenders'
    rw [statements, statements, statement, hu]
    exact hrendersElse
  | «for» hdeclares hstart hstop hinvariant _ ih =>
    rintro ⟨_, hstartSpelled, hstopSpelled, hbodySpelled⟩ hassignments hbounds
    obtain ⟨hlegible, hmeans⟩ := legible_of_lowers hctx hstart hstartSpelled
    obtain ⟨hbound, hboundMeans⟩ := legible_of_lowers hctx hstop hstopSpelled
    obtain ⟨hclean, hrenders⟩ := ih hbodySpelled hassignments hbounds
    have hident := isVariable_of_declares hctx hdeclares
    have htest := legible_countTest hident (legible_atLeast hbound (relationalRank + 1))
      (Shader.Expr.le_rank_atLeast _ (by decide))
    exact ⟨⟨⟨isTypeWord_of_declares hctx hdeclares, hident, hlegible, htest _, hclean⟩, trivial⟩,
      .for (declaration_of_declares hctx hdeclares) hmeans
        ((ungrouped_atLeast _ _).trans hboundMeans) hinvariant hrenders⟩
  | hoisted hdeclares hstart hstop hinvariant hname _ ih =>
    rintro ⟨_, hstartSpelled, hstopSpelled, hbodySpelled⟩ hassignments hbounds
    obtain ⟨hbound, hbounds⟩ := List.forall_mem_cons.mp hbounds
    obtain ⟨hlegible, hmeans⟩ := legible_of_lowers hctx hstart hstartSpelled
    obtain ⟨hlegibleStop, hmeansStop⟩ := legible_of_lowers hctx hstop hstopSpelled
    obtain ⟨hclean, hrenders⟩ := ih hbodySpelled hassignments hbounds
    have htype := isTypeWord_of_declares hctx hdeclares
    have hident := isVariable_of_declares hctx hdeclares
    have hvariable := isVariable_of_boundName hident hname hbound
    have htest := legible_countTest hident (legible_var hvariable) (of_decide_eq_true rfl)
    refine ⟨⟨⟨htype, hvariable, ?_⟩, ⟨htype, hident, hlegible, htest _, hclean⟩, trivial⟩,
      .hoisted (declaration_of_declares hctx hdeclares) hmeans hmeansStop hinvariant hrenders⟩
    rintro _ ⟨⟩
    exact hlegibleStop
  | «while» hcondition _ ih =>
    rintro ⟨hspelled, hbodySpelled⟩ hassignments hbounds
    obtain ⟨hlegible, hmeans⟩ := legible_of_lowers hctx hcondition hspelled
    obtain ⟨hclean, hrenders⟩ := ih hbodySpelled hassignments hbounds
    exact ⟨⟨⟨hlegible, hclean⟩, trivial⟩, .while hmeans hrenders⟩
  | loop _ ih =>
    intro hspelled hassignments hbounds
    obtain ⟨hclean, hrenders⟩ := ih hspelled hassignments hbounds
    exact ⟨⟨⟨legible_true, hclean⟩, trivial⟩, .loop hrenders⟩
  | jump => exact fun _ _ _ => ⟨⟨trivial, trivial⟩, .jump⟩
  | eval he =>
    intro hspelled _ _
    obtain ⟨hlegible, hmeans⟩ := legible_of_lowers hctx he hspelled
    exact ⟨⟨hlegible, trivial⟩, .eval hmeans⟩
  | nested _ ih =>
    intro hspelled hassignments hbounds
    obtain ⟨hclean, hrenders⟩ := ih hspelled hassignments hbounds
    exact ⟨⟨hclean, trivial⟩, .nested hrenders⟩
  | nil => exact fun _ _ _ => ⟨trivial, .nil⟩
  | cons _ _ ihFirst ihRest =>
    rintro ⟨hfirstSpelled, hrestSpelled⟩ hassignments hbounds
    obtain ⟨hfirstAssignments, hrestAssignments⟩ := List.forall_mem_append.mp hassignments
    obtain ⟨hfirstBounds, hrestBounds⟩ := List.forall_mem_append.mp hbounds
    obtain ⟨hclean, hrenders⟩ := ihFirst hfirstSpelled hfirstAssignments hfirstBounds
    obtain ⟨hclean', hrenders'⟩ := ihRest hrestSpelled hrestAssignments hrestBounds
    exact ⟨allStmtClean_append hclean hclean', statements_append _ _ ▸ .cons hrenders hrenders'⟩
  | block _ ih =>
    intro hspelled hassignments hbounds
    obtain ⟨hclean, hrenders⟩ := ih hspelled hassignments hbounds
    exact ⟨hclean, .block hrenders⟩

/-! ### Bodies -/

open Shader in
/-- The text of a body is read as statements in one way, and those are what the statements of the
closure are rendered as. -/
theorem renders_of_checked {kernel source : String} {body : CheckedBody} {b : Body}
    (hbody : CheckedBody.of kernel source catalog = .ok body) (hb : Body.of body .hlsl = .ok b) :
    ∃ ss, (∀ s, ReadsBody b.text s ↔ s = .block ss) ∧
      Renders (Context.of body .hlsl) b.statics (.block body.closure.body) ss := by
  obtain ⟨_, hparse, hbind⟩ := CheckedBody.read_and_bound hbody
  obtain ⟨bounds, haccounted⟩ := exists_accounted hbody hb
  have hctx : Readies (Context.of body .hlsl) body.catalog b.statics :=
    ⟨worded_of hbody haccounted.named, (CheckedBody.complete hbody).locals,
      fun r ident hident => not_mem_keywords_of_not_isReserved
        (haccounted.unreserved _ (Context.mem_names_of_identifies hident))⟩
  have hbounds : ∀ p ∈ bounds, p.2 ∉ keywords := fun p hp =>
    not_mem_keywords_of_not_isReserved (haccounted.unreserved _ (Context.mem_names_of_bound hp))
  obtain ⟨hclean, hrenders⟩ := rendered_of_lowersStmt hctx haccounted.lowers
    (Closure.spelled_of_parse hparse).body (Closure.assignments_of_bind hparse hbind) hbounds
  exact ⟨statements b.code, readsBody_bodyText_iff hclean, hrenders⟩

/-- A kernel with each kind of statement. -/
def walk : String :=
  "|ids| \x7b let n = steps[0]; let mut i = 0u32; "
    ++ "for k in 0..n \x7b if k == 3 \x7b continue; \x7d else if k > 9 \x7b break; \x7d "
    ++ "else \x7b i <<= k; \x7d \x7d while i > 4 \x7b i -= 1; \x7d "
    ++ "loop \x7b if i == 0 \x7b return; \x7d \x7b i = i / 2; \x7d \x7d "
    ++ "for j in 1..=i \x7b i = j; \x7d Hlsl::abs(1.0); out[ids.x] = i; \x7d"

def walkCatalog : Catalog :=
  { fields := [⟨"steps", "ReadOnlyBuffer<u32>", false⟩, ⟨"out", "ReadWriteBuffer<u32>", false⟩] }

open Shader in
theorem renders_of_checked_walk :
    ∃ body b, CheckedBody.of "Walk" walk walkCatalog = .ok body ∧ Body.of body .hlsl = .ok b ∧
      ∃ ss, (∀ s, ReadsBody b.text s ↔ s = .block ss) ∧
        Renders (Context.of body .hlsl) b.statics (.block body.closure.body) ss := by
  obtain ⟨body, hbody⟩ := exists_of_isOk (x := CheckedBody.of "Walk" walk walkCatalog)
    (by decide +kernel)
  obtain ⟨b, hb⟩ := exists_body_of_checked hbody
  exact ⟨body, b, hbody, hb, renders_of_checked hbody hb⟩

end ComputeKernel.Reading
