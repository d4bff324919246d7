import ComputeKernel.Proofs.Parsing.Boundaries
import ComputeKernel.Proofs.Typing.Steps

/-!
Reports of a check. Checking notes what it finds and reports faults of the ranges in the tree, so what
it reports of a closure whose ranges are ranges of the text is reported in the text.
-/

namespace ComputeKernel

/-- What a check does in one elementary step: it leaves the diagnostics as they are, or it reports in
the text. -/
inductive Checking.Step (source : String) (s : Checking) : Checking → Prop where
  | note {s' : Checking} : s'.diagnostics = s.diagnostics → Step source s s'
  | report (d : Diagnostic) : d.span.InText source →
      Step source s { s with diagnostics := s.diagnostics ++ [d] }

/-- Expressions in the text are in it one by one. -/
theorem Expr.AllInText.of_mem {source : String} {es : List Expr} (h : Expr.AllInText source es)
    {e : Expr} (he : e ∈ es) : e.InText source := by
  induction es with
  | nil => cases he
  | cons _ es ih =>
    rcases List.mem_cons.mp he with rfl | he
    · exact h.1
    · exact ih h.2 he

namespace Check

open Checking (Step Noting MayReport MaySettle)

variable {source : String} {span : Span}

instance : Noting (Step source) where
  note h _ := .note h
  declare _ _ _ _ _ := .note rfl

theorem mayReport_of_inText (h : span.InText source) : MayReport (Step source) span :=
  fun _ d hd => .report d (hd ▸ h)

/-- A settlement reports nothing. -/
theorem maySettle_step (t : Typed) : MaySettle (Step source) t := by
  intro s target _
  refine .note ?_
  rw [Checking.settle]
  split <;> rfl

/-- Arguments whose expressions have their ranges in the text are reported in the text. -/
theorem mayTake_of_allInText {args : List Expr} (h : Expr.AllInText source args)
    (types : List (Option Typed)) : ∀ as ∈ pairArguments args types, MayTake (Step source) as := by
  intro as has a ha
  obtain ⟨⟨e, he, hspan⟩, -⟩ := mem_of_pairArguments has ha
  exact ⟨hspan ▸ mayReport_of_inText (h.of_mem he).span, maySettle_step _⟩

/-! ### Expressions -/

theorem swizzleItems?_inText {base : Ty} {index : Expr} (h : index.InText source) {k : ScalarKind}
    {rows columns : Nat} {items : List Expr}
    (hitems : swizzleItems? base index = some (k, rows, columns, items)) :
    Expr.AllInText source items := by
  unfold swizzleItems? at hitems
  split at hitems
  · cases hitems
    exact h.2
  · cases hitems

mutual

theorem expr_walks (catalog : Catalog) : ∀ {e : Expr}, e.InText source →
    Walks (Step source) (expr catalog e)
  | .literal .., h => inferInstanceAs (Walks _ (typed _ _))
  | .name .., h => (name_walks catalog _ (mayReport_of_inText h)).seq inferInstance
  | .path .., h => (path_walks catalog _ (mayReport_of_inText h)).seq inferInstance
  | .unary .., h => (expr_walks catalog h.2).seq fun t => by
      have := unary_walks (mayReport_of_inText h.1)
      split <;> infer_instance
  | .binary .., h => (expr_walks catalog h.2.1).seq fun l =>
      (expr_walks catalog h.2.2).seq fun r => by
        have := fun op l r =>
          binary_walks (mayReport_of_inText h.1) op (maySettle_step l) (maySettle_step r)
        split <;> infer_instance
  | .cast .., h => (expr_walks catalog h.2.1).seq fun t => by
      have := fun t => cast_walks t (mayReport_of_inText h.2.2)
      split <;> infer_instance
  | .field .., h => (expr_walks catalog h.2.1).seq fun t => by
      have := fun t => field_walks t (mayReport_of_inText h.2.2)
      split <;> infer_instance
  | .method _ _ _ args, h => (expr_walks catalog h.2.1).seq fun r =>
      (exprs_walks catalog h.2.2.2).seq fun types => by
        have := fun r => method_walks (maySettle_step r) (mayReport_of_inText h.2.2.1) args.length
          (mayTake_of_allInText h.2.2.2 types)
        split <;> infer_instance
  | .call _ callee _ args, h => (exprs_walks catalog h.2.2).seq fun types =>
      (call_walks callee (mayReport_of_inText h.2.1) args.length (mayTake_of_allInText h.2.2 types)
        (mayReport_of_inText h.1)).seq inferInstance
  | .index _ base index, h => (expr_walks catalog h.2.1).seq fun b => by
      split
      · infer_instance
      · split
        · rename_i hitems
          have := fun k rows columns => matrixSwizzle_walks k rows columns
            (fun item hitem => mayReport_of_inText
              ((swizzleItems?_inText h.2.2 hitems).of_mem hitem).span)
            (mayReport_of_inText h.2.2.span)
          infer_instance
        · refine (expr_walks catalog h.2.2).seq fun i => ?_
          have := fun b i => element_walks b (mayReport_of_inText h.2.1.span) i
            (mayReport_of_inText h.2.2.span)
          split <;> infer_instance
  | .tuple .., h => fail_walks (mayReport_of_inText h.1) _
  | .paren .., h => (expr_walks catalog h.2).seq inferInstance
  | .choice .., h => (expr_walks catalog h.2.1).seq fun t =>
      (requireBool_walks t (mayReport_of_inText h.2.1.span)).seq fun _ =>
        (expr_walks catalog h.2.2.1).seq fun y => (expr_walks catalog h.2.2.2).seq fun n => by
          have := fun y n =>
            choice_walks (maySettle_step y) (maySettle_step n) (mayReport_of_inText h.1)
          split <;> infer_instance

theorem exprs_walks (catalog : Catalog) : ∀ {es : List Expr}, Expr.AllInText source es →
    Walks (Step source) (exprs catalog es)
  | [], _ => .pure _
  | _ :: _, h => (expr_walks catalog h.1).seq fun _ => (exprs_walks catalog h.2).seq inferInstance

end

/-! ### Statements -/

theorem letStmt_walks (catalog : Catalog) (mutable : Bool) {name : Name} (h : name.span.InText source)
    {type : Option TypeRef} (htype : ∀ t ∈ type, t.span.InText source) {value : Option Expr}
    (hvalue : ∀ e ∈ value, e.InText source) :
    Walks (Step source) (letStmt catalog mutable name type value) := by
  have hdeclare : ∀ initial missing,
      (∀ v ∈ initial, MaySettle (Step source) v.1 ∧ MayReport (Step source) v.2) →
        Walks (Step source) (declareFrom mutable name type initial missing) :=
    fun _ missing hinitial => declareFrom_walks mutable (mayReport_of_inText h)
      (fun t ht => mayReport_of_inText (htype t ht)) hinitial missing
  cases value with
  | none => exact letStmt_none catalog mutable name type ▸ hdeclare none true nofun
  | some e =>
    have he := hvalue e rfl
    rw [letStmt_some]
    refine (expr_walks catalog he).seq fun found => hdeclare _ false fun v hv => ?_
    obtain ⟨t, _, rfl⟩ := Option.map_eq_some_iff.mp hv
    exact ⟨maySettle_step t, mayReport_of_inText he.span⟩

theorem assignable_walks : ∀ {e : Expr}, e.InText source → Walks (Step source) (assignable e)
  | .name .., h => assignableName_walks _ (mayReport_of_inText h)
  | .path .., h => error_walks (mayReport_of_inText h) _
  | .index _ base _, h => by
    have := errorWithHelp_walks (mayReport_of_inText h.1)
    have := assignable_walks h.2.1
    refine .seq inferInstance fun s => ?_
    split <;> infer_instance
  | .field _ receiver _, h => by
    rw [assignable]
    exact assignable_walks (e := receiver) h.2.1
  | .paren _ inner, h => by
    rw [assignable]
    exact assignable_walks (e := inner) h.2
  | .literal .., h => error_walks (mayReport_of_inText h) _
  | .unary .., h | .binary .., h | .cast .., h | .method .., h | .call .., h | .tuple .., h
  | .choice .., h => error_walks (mayReport_of_inText h.1) _

theorem assign_walks (catalog : Catalog) (op : Option BinaryOp) {place value : Expr}
    (hplace : place.InText source) (hvalue : value.InText source) (h : span.InText source) :
    Walks (Step source) (assign catalog op place value span) :=
  (expr_walks catalog hplace).seq fun _ => (expr_walks catalog hvalue).seq fun _ =>
    have := assignable_walks hplace
    assignFrom_walks op (mayReport_of_inText hvalue.span) (mayReport_of_inText h)
      (fun t _ => maySettle_step t) fun t _ => maySettle_step t

mutual

theorem stmt_walks (catalog : Catalog) : ∀ {s : Stmt}, s.InText source →
    Walks (Step source) (stmt catalog s)
  | .let .., h => letStmt_walks catalog _ h.2.1 h.2.2.1 h.2.2.2
  | .assign .., h => assign_walks catalog _ h.2.1 h.2.2 h.1
  | .if _ condition body none, h => (expr_walks catalog h.2.1).seq fun t =>
      (requireBool_walks t (mayReport_of_inText h.2.1.span)).seq fun _ =>
        (block_walks catalog h.2.2).seq fun _ => .pure _
  | .if _ condition body (some otherwise), h => (expr_walks catalog h.2.1).seq fun t =>
      (requireBool_walks t (mayReport_of_inText h.2.1.span)).seq fun _ =>
        (block_walks catalog h.2.2.1).seq fun _ => block_walks catalog h.2.2.2
  | .for _ counter start stop _ body, h => (expr_walks catalog h.2.2.1).seq fun lo =>
      (expr_walks catalog h.2.2.2.1).seq fun hi =>
        (counterType_walks (fun t _ => maySettle_step t) (fun t _ => maySettle_step t)
          (mayReport_of_inText (h.2.2.1.span.merge h.2.2.2.1.span))).seq fun found => by
          have := block_walks catalog h.2.2.2.2
          refine .seq inferInstance fun _ => ?_
          split <;> infer_instance
  | .while .., h => (expr_walks catalog h.2.1).seq fun t =>
      (requireBool_walks t (mayReport_of_inText h.2.1.span)).seq fun _ => by
        have := block_walks catalog h.2.2
        infer_instance
  | .loop .., h => by
    have := block_walks catalog h.2
    exact .seq inferInstance fun _ => inferInstance
  | .jump .., h => jump_walks _ (mayReport_of_inText h)
  | .eval .., h => by
    have := expr_walks catalog h.2
    exact .discard
  | .nested .., h => block_walks catalog h.2

theorem block_walks (catalog : Catalog) : ∀ {b : Block}, b.InText source →
    Walks (Step source) (block catalog b)
  | ⟨_, _⟩, h => by
    have := stmts_walks catalog h.2
    exact .seq inferInstance fun _ => inferInstance

theorem stmts_walks (catalog : Catalog) : ∀ {ss : List Stmt}, Stmt.AllInText source ss →
    Walks (Step source) (stmts catalog ss)
  | [], _ => .pure _
  | _ :: _, h => (stmt_walks catalog h.1).seq fun _ => stmts_walks catalog h.2

end

/-- The check of a closure walks. -/
theorem closure_walks (catalog : Catalog) {c : Closure} (h : c.InText source) :
    Walks (Step source) (closure catalog c) := by
  have := block_walks catalog h.body
  have hrest : Walks (Step source) (do
      openScope
      declare c.param .threadIds false none
      block catalog c.body
      closeScope : Check Unit) := inferInstance
  unfold closure
  cases htype : c.paramType with
  | none => exact hrest
  | some type =>
    have := errorWithHelp_walks (mayReport_of_inText (h.paramType type htype))
    dsimp only
    split
    · exact .seq inferInstance fun _ => hrest
    · exact hrest

/-- A step keeps the reports in the text. -/
theorem step_inText {s s' : Checking} (h : Step source s s')
    (hs : ∀ d ∈ s.diagnostics, d.span.InText source) :
    ∀ d ∈ s'.diagnostics, d.span.InText source := by
  cases h with
  | note hkeep => exact hkeep ▸ hs
  | report d hd =>
    intro d' hd'
    rcases List.mem_append.mp hd' with hd' | hd'
    · exact hs d' hd'
    · exact List.mem_singleton.mp hd' ▸ hd

end Check

/-- A closure whose ranges are ranges of the text is accepted, or it is rejected with diagnostics, all
of them about ranges of the text. -/
theorem Closure.reports_of_bind {source : String} {c : Closure} (hc : c.InText source)
    {catalog : Catalog} {diagnostics : List Diagnostic} (h : c.bind catalog = .error diagnostics) :
    ReportsIn source diagnostics := by
  have hreported := (Check.closure_walks catalog hc).preserves (fun _ _ => Check.step_inText)
    (s := {}) nofun
  unfold Closure.bind at h
  split at h
  rename_i s hrun
  rw [hrun] at hreported
  split at h
  · cases h
  · rename_i hne
    cases h
    exact ⟨hne, hreported⟩

end ComputeKernel
