import ComputeKernel.Proofs.Typing.Moments

/-!
How final a settled type is. An operation settles its own operands only, and by what was known of them
when they were read. So a local that is settled keeps its type from one moment of a check to any later
one, unless a value that was read while the local was open waits in the first of them.
-/

namespace ComputeKernel

namespace Check

open Checking (Retains MaySettle MayReport)
open Moment (Leads Course)

variable {catalog : Catalog} {m : Moment}

/-- Values that wait settle. -/
theorem maySettle_after {e : Expr} {w : List Typed} (hw : (m.after catalog e).waiting ⊆ w)
    {t : Typed} (h : ((expr catalog e).run m.state).1 = some t) : MaySettle (Retains w) t :=
  .maySettle (hw (Moment.mem_waiting_after h))

theorem mayTake_of_mem {w : List Typed} {args : List Expr} {types : List (Option Typed)}
    (h : ∀ t, some t ∈ types → t ∈ w) : ∀ as ∈ pairArguments args types, MayTake (Retains w) as :=
  fun _ has _ ha => ⟨.mayReport w _, .maySettle (h _ (mem_of_pairArguments has ha).2)⟩

/-! ### From the operands of an expression to its value -/

theorem literal_leads (m : Moment) (span : Span) (value : Literal) :
    m.Leads (m.after catalog (.literal span value)) :=
  .after_of_detached (p := typed span (some (literal value))) rfl (List.Subset.refl _)
    inferInstance inferInstance

/-- A name is the one expression that gives a new value which comes from a local, and that is open. -/
theorem name_leads (m : Moment) (span : Span) (text : String) :
    m.Leads (m.after catalog (.name span text)) := by
  refine .after (p := name catalog text span >>= fun t => typed span t) rfl (List.Subset.refl _)
    ((name_walks catalog text (.mayReport _ span)).seq inferInstance) fun t ht => .inr ?_
  have hfound : ((name catalog text span).run m.state).1 = some t :=
    (fst_typed _ _ _).symm.trans ht
  exact fun id l hid hl => family_ne_none_of_name hfound hid hl

theorem path_leads (m : Moment) (span : Span) (p : Path) :
    m.Leads (m.after catalog (.path span p)) :=
  .after_of_detached (p := path catalog p span >>= fun t => typed span t) rfl (List.Subset.refl _)
    ((path_walks catalog p (.mayReport _ span)).seq inferInstance) inferInstance

theorem tuple_leads (m : Moment) (span : Span) (items : List Expr) :
    m.Leads (m.after catalog (.tuple span items)) :=
  .after_of_detached (p := fail _ span) rfl (List.Subset.refl _) (fail_walks (.mayReport _ span) _)
    inferInstance

theorem paren_leads (m : Moment) (span : Span) (inner : Expr) :
    (m.after catalog inner).Leads (m.after catalog (.paren span inner)) := by
  refine .after (p := typed span ((expr catalog inner).run m.state).1) rfl
    (m.waiting_subset_after inner) inferInstance fun t ht => .inl ?_
  rw [fst_typed] at ht
  exact Moment.mem_waiting_after ht

theorem unary_leads (m : Moment) (span : Span) (op : UnaryOp) (operand : Expr) :
    (m.after catalog operand).Leads (m.after catalog (.unary span op operand)) :=
  .after_of_detached (p := ((expr catalog operand).run m.state).1.elim (return none) fun t => do
    typed span (← unary op t span)) (run_bind_elim _ _ _) (m.waiting_subset_after operand)
    (.elim inferInstance fun t _ => (unary_walks (.mayReport _ span) op t).seq inferInstance)
    inferInstance

theorem cast_leads (m : Moment) (span : Span) (operand : Expr) (type : TypeRef) :
    (m.after catalog operand).Leads (m.after catalog (.cast span operand type)) :=
  .after_of_detached (p := ((expr catalog operand).run m.state).1.elim (return none) fun t => do
    typed span (← cast t type)) (run_bind_elim _ _ _) (m.waiting_subset_after operand)
    (.elim inferInstance fun t _ => (cast_walks t (.mayReport _ type.span)).seq inferInstance)
    inferInstance

theorem field_leads (m : Moment) (span : Span) (receiver : Expr) (member : Name) :
    (m.after catalog receiver).Leads (m.after catalog (.field span receiver member)) :=
  .after_of_detached (p := ((expr catalog receiver).run m.state).1.elim (return none) fun t => do
    typed span (← field t member)) (run_bind_elim _ _ _) (m.waiting_subset_after receiver)
    (.elim inferInstance fun t _ => (field_walks t (.mayReport _ member.span)).seq inferInstance)
    inferInstance

theorem binary_leads (m : Moment) (span : Span) (op : BinaryOp) (left right : Expr) :
    ((m.after catalog left).after catalog right).Leads
      (m.after catalog (.binary span op left right)) := by
  have hsub : (m.after catalog left).waiting ⊆ ((m.after catalog left).after catalog right).waiting :=
    Moment.waiting_subset_after _ right
  refine .after_of_detached (p := ((expr catalog left).run m.state).1.elim (return none) fun l =>
    ((expr catalog right).run (m.after catalog left).state).1.elim (return none) fun r => do
      typed span (← binary op l r span)) ?_
    (List.Subset.trans (m.waiting_subset_after left) hsub) ?_ inferInstance
  -- The operation depends on both values at once, so both are taken apart before the run is.
  · rw [expr]
    cases hl : ((expr catalog left).run m.state).1 <;>
      cases hr : ((expr catalog right).run (m.after catalog left).state).1 <;>
        exact (run_bind_of_fst hl).trans (run_bind_of_fst hr)
  · refine .elim inferInstance fun l hl => .elim inferInstance fun r hr => ?_
    exact (binary_walks (.mayReport _ span) op (maySettle_after hsub hl)
      (maySettle_after (List.Subset.refl _) hr)).seq inferInstance

theorem method_leads (m : Moment) (span : Span) (receiver : Expr) (member : Name)
    (args : List Expr) : ((m.after catalog receiver).afterAll catalog args).Leads
      (m.after catalog (.method span receiver member args)) := by
  have hsub : (m.after catalog receiver).waiting ⊆
      ((m.after catalog receiver).afterAll catalog args).waiting :=
    Moment.waiting_subset_afterAll _ args
  refine .after_of_detached (p := ((expr catalog receiver).run m.state).1.elim (return none)
    fun r => do
      typed span (← method r member args.length (pairArguments args
        ((exprs catalog args).run (m.after catalog receiver).state).1))) ?_
    (List.Subset.trans (m.waiting_subset_after receiver) hsub) ?_ inferInstance
  · rw [Moment.state_afterAll, expr]
    cases hr : ((expr catalog receiver).run m.state).1 <;> exact run_bind_of_fst hr
  · refine .elim inferInstance fun r hr => ?_
    exact (method_walks (maySettle_after hsub hr) (.mayReport _ member.span) args.length
      (mayTake_of_mem fun _ => Moment.mem_waiting_afterAll)).seq inferInstance

theorem call_leads (m : Moment) (span : Span) (callee : Path) (calleeSpan : Span)
    (args : List Expr) :
    (m.afterAll catalog args).Leads (m.after catalog (.call span callee calleeSpan args)) := by
  refine .after_of_detached (p := do
    typed span (← call callee calleeSpan args.length
      (pairArguments args ((exprs catalog args).run m.state).1) span)) ?_
    (m.waiting_subset_afterAll args) ?_ inferInstance
  · rw [Moment.state_afterAll]
    rfl
  · exact (call_walks callee (.mayReport _ calleeSpan) args.length
      (mayTake_of_mem fun _ => Moment.mem_waiting_afterAll) (.mayReport _ span)).seq inferInstance

theorem decided_leads (m : Moment) (question : Expr) :
    (m.after catalog question).Leads (m.decided catalog question) :=
  .of_walks (p := requireBool ((expr catalog question).run m.state).1 question.span)
    (requireBool_walks _ (.mayReport _ _)) fun _ ht => .inl (m.waiting_subset_after question ht)

/-- The value of a conditional is that of a branch, which has waited, or comes from no local. -/
theorem choice_leads (m : Moment) (span : Span) (question yes no : Expr) :
    (((m.decided catalog question).after catalog yes).after catalog no).Leads
      (m.after catalog (.choice span question yes no)) := by
  have hsub : ((m.decided catalog question).after catalog yes).waiting ⊆
      (((m.decided catalog question).after catalog yes).after catalog no).waiting :=
    Moment.waiting_subset_after _ no
  refine .after (p := ((expr catalog yes).run (m.decided catalog question).state).1.elim
    (return none) fun y =>
      ((expr catalog no).run ((m.decided catalog question).after catalog yes).state).1.elim
        (return none) fun n => do typed span (← choice y n span)) ?_
    (List.Subset.trans ((m.decided catalog question).waiting_subset_after yes) hsub) ?_
    fun t ht => ?_
  · rw [expr]
    cases hy : ((expr catalog yes).run (m.decided catalog question).state).1 <;>
      cases hn : ((expr catalog no).run
        ((m.decided catalog question).after catalog yes).state).1 <;>
          exact (run_bind_of_fst rfl).trans
            ((run_bind_of_fst rfl).trans ((run_bind_of_fst hy).trans (run_bind_of_fst hn)))
  · refine .elim inferInstance fun y hy => .elim inferInstance fun n hn => ?_
    exact (choice_walks (maySettle_after hsub hy) (maySettle_after (List.Subset.refl _) hn)
      (.mayReport _ span)).seq inferInstance
  · obtain ⟨y, hy, ht⟩ := exists_of_found ht
    obtain ⟨n, hn, ht⟩ := exists_of_found ht
    have hfound : ((choice y n span).run _).1 = some t := (fst_typed _ _ _).symm.trans ht
    rcases found_of_choice hfound with rfl | rfl | hnone
    · exact .inl (hsub (Moment.mem_waiting_after hy))
    · exact .inl (Moment.mem_waiting_after hn)
    · exact .inr fun _ _ hid _ => nomatch hid.symm.trans hnone

/-! ### Indexes -/

theorem untyped_leads {span : Span} {base index : Expr}
    (hb : ((expr catalog base).run m.state).1 = none) :
    (m.after catalog base).Leads (m.after catalog (.index span base index)) := by
  refine .after_of_detached (p := return none) ?_ (m.waiting_subset_after base) inferInstance
    inferInstance
  rw [expr, run_bind_of_fst hb]
  rfl

theorem swizzle_leads {span : Span} {base index : Expr} {b : Typed}
    (hb : ((expr catalog base).run m.state).1 = some b) {k : ScalarKind} {rows columns : Nat}
    {items : List Expr} (hitems : swizzleItems? b.type index = some (k, rows, columns, items)) :
    (m.after catalog base).Leads (m.after catalog (.index span base index)) := by
  refine .after_of_detached (p := do typed span (← matrixSwizzle k rows columns items index.span))
    ?_ (m.waiting_subset_after base) ?_ inferInstance
  · rw [expr, run_bind_of_fst hb]
    dsimp only
    rw [hitems]
    rfl
  · exact (matrixSwizzle_walks k rows columns (fun _ _ => .mayReport _ _)
      (.mayReport _ _)).seq inferInstance

theorem element_leads {span : Span} {base index : Expr} {b : Typed}
    (hb : ((expr catalog base).run m.state).1 = some b)
    (hitems : swizzleItems? b.type index = none) :
    ((m.after catalog base).after catalog index).Leads
      (m.after catalog (.index span base index)) := by
  refine .after_of_detached
    (p := ((expr catalog index).run (m.after catalog base).state).1.elim (return none) fun i => do
      typed span (← element b base.span i index.span)) ?_
    (List.Subset.trans (m.waiting_subset_after base) (Moment.waiting_subset_after _ index)) ?_
    inferInstance
  · rw [expr, run_bind_of_fst hb]
    dsimp only
    rw [hitems]
    exact run_bind_elim _ _ _
  · exact .elim inferInstance fun i _ =>
      (element_walks b (.mayReport _ base.span) i (.mayReport _ index.span)).seq inferInstance

/-- An index is checked unless it is made of selectors. -/
theorem index_course {span : Span} {base index : Expr}
    (hbase : Course m (exprMoments catalog base m) (m.after catalog base))
    (hindex : Course (m.after catalog base) (exprMoments catalog index (m.after catalog base))
      ((m.after catalog base).after catalog index)) :
    Course m (exprMoments catalog (.index span base index) m)
      (m.after catalog (.index span base index)) := by
  have hskip (h : indexes ((expr catalog base).run m.state).1 index = false) :
      Course m (partMoments catalog (.index span base index) m) (m.after catalog base) := by
    rw [partMoments, h]
    exact hbase.append (.nil (.refl _))
  cases hb : ((expr catalog base).run m.state).1 with
  | none => exact .visit (hskip (by rw [hb]; rfl)) (untyped_leads hb)
  | some b =>
    cases hitems : swizzleItems? b.type index with
    | some selected =>
      exact .visit (hskip (by simp [hb, indexes, hitems])) (swizzle_leads hb hitems)
    | none =>
      refine .visit ?_ (element_leads hb hitems)
      rw [partMoments, if_pos (by simp [hb, indexes, hitems])]
      exact hbase.append hindex

/-! ### Expressions -/

-- By mutual induction on the tree: the courses of the operands stand one behind the other, and the
-- operation leads on from the last of them.
mutual

theorem expr_course (catalog : Catalog) : ∀ (e : Expr) (m : Moment),
    Course m (exprMoments catalog e m) (m.after catalog e)
  | .literal span value, m => .visit (.nil (.refl m)) (literal_leads m span value)
  | .name span text, m => .visit (.nil (.refl m)) (name_leads m span text)
  | .path span p, m => .visit (.nil (.refl m)) (path_leads m span p)
  | .unary span op operand, m => .visit (expr_course catalog operand m) (unary_leads m span op operand)
  | .binary span op left right, m =>
    .visit ((expr_course catalog left m).append (expr_course catalog right (m.after catalog left)))
      (binary_leads m span op left right)
  | .cast span operand type, m =>
    .visit (expr_course catalog operand m) (cast_leads m span operand type)
  | .field span receiver member, m =>
    .visit (expr_course catalog receiver m) (field_leads m span receiver member)
  | .method span receiver member args, m =>
    .visit ((expr_course catalog receiver m).append
      (args_course catalog args (m.after catalog receiver))) (method_leads m span receiver member args)
  | .call span callee calleeSpan args, m =>
    .visit (args_course catalog args m) (call_leads m span callee calleeSpan args)
  | .index _ base index, m =>
    index_course (expr_course catalog base m) (expr_course catalog index (m.after catalog base))
  | .tuple span items, m => .visit (.nil (.refl m)) (tuple_leads m span items)
  | .paren span inner, m => .visit (expr_course catalog inner m) (paren_leads m span inner)
  | .choice span question yes no, m =>
    .visit (((expr_course catalog question m).extend (decided_leads m question)).append
      ((expr_course catalog yes (m.decided catalog question)).append
        (expr_course catalog no ((m.decided catalog question).after catalog yes))))
      (choice_leads m span question yes no)

theorem args_course (catalog : Catalog) : ∀ (es : List Expr) (m : Moment),
    Course m (argMoments catalog es m) (m.afterAll catalog es)
  | [], m => .nil (.refl m)
  | e :: es, m => (expr_course catalog e m).append (args_course catalog es (m.after catalog e))

end

/-! ### Statements -/

theorem assignable_retains (w : List Typed) : ∀ e : Expr, Walks (Retains w) (assignable e)
  | .name span text => assignableName_walks text (.mayReport w span)
  | .index span base _ => by
    have := errorWithHelp_walks (Retains.mayReport w span)
    have := assignable_retains w base
    refine .seq inferInstance fun s => ?_
    split <;> infer_instance
  | .field _ receiver _ => by
    rw [assignable]
    exact assignable_retains w receiver
  | .paren _ inner => by
    rw [assignable]
    exact assignable_retains w inner
  | .path .. | .literal .. | .unary .. | .binary .. | .cast .. | .method .. | .call .. | .tuple ..
  | .choice .. => error_walks (.mayReport w _) _

/-- What a statement does behind its expressions leads on, and then nothing waits. -/
theorem leads_past {α : Type} {p : Check α} (h : Walks (Retains m.waiting) p) :
    m.Leads ⟨m.state.past p, []⟩ := .of_walks h nofun

theorem declare_leads (catalog : Catalog) (s : Checking) (mutable : Bool) (name : Name)
    (type : Option TypeRef) :
    Leads ⟨s, []⟩ ⟨s.past (letStmt catalog mutable name type none), []⟩ := by
  have hnone : ∀ v ∈ (none : Option (Typed × Span)),
      MaySettle (Retains []) v.1 ∧ MayReport (Retains []) v.2 := nofun
  refine leads_past (p := declareFrom mutable name type none true) ?_
  exact declareFrom_walks mutable (.mayReport _ _) (fun _ _ => .mayReport _ _) hnone true

theorem let_leads (s : Checking) (mutable : Bool) (name : Name) (type : Option TypeRef) (e : Expr) :
    (Moment.after catalog ⟨s, []⟩ e).Leads
      ⟨s.past (letStmt catalog mutable name type (some e)), []⟩ := by
  refine leads_past (p := declareFrom mutable name type
    (((expr catalog e).run s).1.map fun t => (t, e.span)) false) ?_
  refine declareFrom_walks mutable (.mayReport _ _) (fun _ _ => .mayReport _ _) (fun v hv => ?_) false
  obtain ⟨t, ht, rfl⟩ := Option.map_eq_some_iff.mp hv
  exact ⟨maySettle_after (m := ⟨s, []⟩) (List.Subset.refl _) ht, .mayReport _ _⟩

theorem assign_leads (s : Checking) (op : Option BinaryOp) (place value : Expr) (span : Span) :
    ((Moment.after catalog ⟨s, []⟩ place).after catalog value).Leads
      ⟨s.past (assign catalog op place value span), []⟩ := by
  have := fun w => assignable_retains w place
  refine leads_past (p := assignFrom op place value span ((expr catalog place).run s).1
    ((expr catalog value).run (s.past (expr catalog place))).1) ?_
  exact assignFrom_walks op (.mayReport _ _) (.mayReport _ _)
    (fun _ ht => maySettle_after (m := ⟨s, []⟩) (Moment.waiting_subset_after _ value) ht)
    fun _ ht => maySettle_after (List.Subset.refl _) ht

theorem count_leads (s : Checking) (counter : Name) (start stop : Expr) :
    ((Moment.after catalog ⟨s, []⟩ start).after catalog stop).Leads
      ⟨s.past (countBetween catalog counter start stop), []⟩ :=
  leads_past (p := countFrom counter (start.span.merge stop.span) ((expr catalog start).run s).1
      ((expr catalog stop).run (s.past (expr catalog start))).1) <|
    countFrom_walks counter
      (fun _ ht => maySettle_after (m := ⟨s, []⟩) (Moment.waiting_subset_after _ stop) ht)
      (fun _ ht => maySettle_after (List.Subset.refl _) ht) (.mayReport _ _)

/-- The check of a loop with a counter, taken apart in front of its body. -/
theorem stmt_for (catalog : Catalog) (span : Span) (counter : Name) (start stop : Expr)
    (inclusive : Bool) (body : Block) :
    stmt catalog (.for span counter start stop inclusive body) =
      countBetween catalog counter start stop >>= fun _ => block catalog body >>= fun _ =>
        leaveLoop >>= fun _ => closeScope := by
  rw [stmt]
  simp only [countBetween, countFrom, bind_assoc]
  refine bind_congr fun lo => bind_congr fun hi => bind_congr fun found => bind_congr fun _ => ?_
  cases found <;> simp only [bind_assoc]

-- Between the statements of a block nothing waits, so that courses of statements can be put together
-- by their states alone.
mutual

theorem stmt_course (catalog : Catalog) : ∀ (st : Stmt) (s : Checking),
    Course ⟨s, []⟩ (stmtMoments catalog st s) ⟨s.past (stmt catalog st), []⟩
  | .let _ mutable name type none, s => .nil (declare_leads catalog s mutable name type)
  | .let _ mutable name type (some e), s =>
    (expr_course catalog e ⟨s, []⟩).extend (let_leads s mutable name type e)
  | .assign span op place value, s =>
    ((expr_course catalog place ⟨s, []⟩).append (expr_course catalog value _)).extend
      (assign_leads s op place value span)
  | .if _ question body otherwise, s =>
    ((expr_course catalog question ⟨s, []⟩).extend (decided_leads ⟨s, []⟩ question)).append
      ((block_course catalog body _).append (optional_course catalog otherwise _))
  | .for _ counter start stop _ body, s => by
    have hbounds := (expr_course catalog start ⟨s, []⟩).append
      ((expr_course catalog stop _).extend (count_leads s counter start stop))
    have hleave := leads_past (m := ⟨(s.past (countBetween catalog counter start stop)).past
      (block catalog body), []⟩) (p := leaveLoop >>= fun _ => closeScope) inferInstance
    have := hbounds.append ((block_course catalog body _).extend hleave)
    rw [stmtMoments, ← List.append_assoc, stmt_for]
    exact this
  | .while _ question body, s => by
    have hquestion := (expr_course catalog question ⟨s, []⟩).extend (decided_leads ⟨s, []⟩ question)
    have henter := leads_past (m := Moment.decided catalog ⟨s, []⟩ question) (p := enterLoop)
      inferInstance
    have hleave := leads_past (m := ⟨((s.past (condition catalog question)).past enterLoop).past
      (block catalog body), []⟩) (p := leaveLoop) inferInstance
    exact (hquestion.extend henter).append ((block_course catalog body _).extend hleave)
  | .loop _ body, s => by
    have henter := leads_past (m := ⟨s, []⟩) (p := enterLoop) inferInstance
    have hleave := leads_past (m := ⟨(s.past enterLoop).past (block catalog body), []⟩)
      (p := leaveLoop) inferInstance
    exact (Course.nil henter).append ((block_course catalog body _).extend hleave)
  | .jump span kind, s =>
    .nil (leads_past (m := ⟨s, []⟩) (jump_walks kind (.mayReport _ span)))
  | .eval _ value, s =>
    (expr_course catalog value ⟨s, []⟩).extend (leads_past (.pure ()))
  | .nested _ body, s => block_course catalog body s

theorem optional_course (catalog : Catalog) : ∀ (b : Option Block) (s : Checking),
    Course ⟨s, []⟩ (optionalMoments catalog b s) ⟨s.past (optionalBlock catalog b), []⟩
  | none, _ => .nil (.refl _)
  | some b, s => block_course catalog b s

theorem block_course (catalog : Catalog) : ∀ (b : Block) (s : Checking),
    Course ⟨s, []⟩ (blockMoments catalog b s) ⟨s.past (block catalog b), []⟩
  | ⟨_, body⟩, s => by
    have hopen := leads_past (m := ⟨s, []⟩) (p := openScope) inferInstance
    have hclose := leads_past (m := ⟨(s.past openScope).past (stmts catalog body), []⟩)
      (p := closeScope) inferInstance
    exact (Course.nil hopen).append ((stmts_course catalog body _).extend hclose)

theorem stmts_course (catalog : Catalog) : ∀ (ss : List Stmt) (s : Checking),
    Course ⟨s, []⟩ (stmtsMoments catalog ss s) ⟨s.past (stmts catalog ss), []⟩
  | [], _ => .single _
  | st :: ss, s => (Course.single _).append
      ((stmt_course catalog st s).append (stmts_course catalog ss (s.past (stmt catalog st))))

end

/-! ### Closures -/

/-- The check of a closure, taken apart in front of its body. -/
theorem closure_eq (catalog : Catalog) (c : Closure) :
    closure catalog c = parameter c >>= fun _ => block catalog c.body >>= fun _ => closeScope := by
  unfold closure parameter
  cases c.paramType with
  | none => rfl
  | some type =>
    dsimp only
    split <;> rfl

theorem parameter_retains (w : List Typed) (c : Closure) : Walks (Retains w) (parameter c) := by
  have := fun span => errorWithHelp_walks (Retains.mayReport w span)
  unfold parameter
  cases c.paramType with
  | none => infer_instance
  | some type =>
    dsimp only
    split <;> infer_instance

theorem closure_course (catalog : Catalog) (c : Closure) :
    Course ⟨{}, []⟩ (c.moments catalog) ⟨Checking.past {} (closure catalog c), []⟩ := by
  have hbegin := leads_past (m := ⟨{}, []⟩) (parameter_retains [] c)
  have hbody := block_course catalog c.body (Checking.past {} (parameter c))
  have hend := leads_past (m := ⟨(Checking.past {} (parameter c)).past (block catalog c.body), []⟩)
    (p := closeScope) inferInstance
  rw [Closure.moments, closure_eq]
  exact ((Course.single _).extend hbegin).append ((hbody.extend hend).append (.single _))

end Check

/-- A local that is settled at one moment of a check is settled at every later one, on the same type or
on one that a value fits which waits at the first moment and was read while the local was open. So the
type is that of the final model, unless such a value waits. -/
theorem Closure.moments_retain_settled (c : Closure) (catalog : Catalog) :
    (c.moments catalog).Pairwise (fun m m' => ∀ id l,
      m.state.model.local? id = some l → l.family = none →
        ∃ type, m'.state.model.local? id = some { l with type } ∧
          (type = l.type ∨ ∃ t ∈ m.waiting, t.origin = some id ∧ t.Fits type)) ∧
      ∀ model, c.bind catalog = .ok model → ∀ m ∈ c.moments catalog, ∀ id l,
        m.state.model.local? id = some l → l.family = none →
          (∀ t ∈ m.waiting, t.origin ≠ some id) → model.local? id = some l := by
  have hcourse := Check.closure_course catalog c
  refine ⟨hcourse.ordered.imp fun h => h.retains, fun model hbind m hm id l hl hshut hfree => ?_⟩
  have hmodel : (Checking.past {} (Check.closure catalog c)).model = model := by
    unfold bind at hbind
    split at hbind
    rename_i s hrun
    split at hbind
    · cases hbind
      rw [Checking.past, hrun]
    · cases hbind
  obtain ⟨type, htype, rfl | ⟨t, ht, hid, _⟩⟩ := (hcourse.ends m hm).retains id l hl hshut
  · exact hmodel ▸ htype
  · exact absurd hid (hfree t ht)

/-- A kernel in which a local is read as the first operand of a sum, and then settled in the second. -/
def relapse : Closure :=
  ⟨⟨"ids", ⟨1, 4⟩⟩, none, ⟨⟨6, 48⟩,
    [.let ⟨8, 18⟩ false ⟨"x", ⟨12, 13⟩⟩ none (some (.literal ⟨16, 17⟩ (.integer "1" none))),
      .let ⟨19, 46⟩ false ⟨"y", ⟨23, 24⟩⟩ none (some (.binary ⟨27, 45⟩ .add (.name ⟨27, 28⟩ "x")
        (.cast ⟨31, 45⟩ (.paren ⟨31, 38⟩ (.binary ⟨32, 37⟩ .add (.name ⟨32, 33⟩ "x")
          (.name ⟨36, 37⟩ "n"))) ⟨.named "i32", ⟨42, 45⟩⟩)))]⟩⟩

/-- The local is open at first. When the sum waits to be stored it is settled, no value that names it
waits, and it keeps its type. -/
theorem Closure.moments_retain_settled_relapse :
    ∃ model, relapse.bind { fields := [⟨"n", "u32", false⟩] } = .ok model ∧
      (∃ m ∈ relapse.moments { fields := [⟨"n", "u32", false⟩] }, ∃ l,
        m.state.model.local? 1 = some l ∧ l.family = some .integer) ∧
      ∃ m ∈ relapse.moments { fields := [⟨"n", "u32", false⟩] }, ∃ l,
        m.waiting.map Typed.origin = [none] ∧ m.state.model.local? 1 = some l ∧
          l.family = none ∧ model.local? 1 = some l := by
  have hbind : (relapse.bind { fields := [⟨"n", "u32", false⟩] }).toOption.isSome = true := by
    decide +kernel
  obtain ⟨model, hmodel⟩ := Option.isSome_iff_exists.mp hbind
  have hopen : ((relapse.moments { fields := [⟨"n", "u32", false⟩] }).any fun m =>
      (m.state.model.local? 1).any fun l => l.family = some .integer) = true := by
    decide +kernel
  have hsettled : ((relapse.moments { fields := [⟨"n", "u32", false⟩] }).any fun m =>
      m.waiting.map Typed.origin = [none] ∧
        (m.state.model.local? 1).any fun l => l.family = none) = true := by
    decide +kernel
  obtain ⟨m₀, hm₀, hlocal₀⟩ := List.any_eq_true.mp hopen
  obtain ⟨l₀, hl₀, hopen₀⟩ := (Option.any_eq_true _ _).mp hlocal₀
  obtain ⟨m, hm, hfacts⟩ := List.any_eq_true.mp hsettled
  obtain ⟨hwaiting, hlocal⟩ := of_decide_eq_true hfacts
  obtain ⟨l, hl, hshut⟩ := (Option.any_eq_true _ _).mp hlocal
  have hfree : ∀ t ∈ m.waiting, t.origin ≠ some 1 := by
    intro t ht hid
    have horigin := List.mem_map_of_mem (f := Typed.origin) ht
    rw [hwaiting, hid] at horigin
    simp at horigin
  exact ⟨model, eq_ok_of_toOption hmodel, ⟨m₀, hm₀, l₀, hl₀, of_decide_eq_true hopen₀⟩, m, hm, l,
    hwaiting, hl, of_decide_eq_true hshut, (relapse.moments_retain_settled _).2 model
      (eq_ok_of_toOption hmodel) m hm 1 l hl (of_decide_eq_true hshut) hfree⟩

/-- A settled type changes: the sum settles its first operand anew, by what was known of it before the
second operand was checked. -/
theorem Closure.relapse_resettles :
    Closure.parse "|ids| { let x = 1; let y = x + (x + n) as i32; }" = .ok relapse ∧
      ¬ (relapse.moments { fields := [⟨"n", "u32", false⟩] }).Pairwise fun m m' => ∀ id l,
        m.state.model.local? id = some l → l.family = none →
          (m'.state.model.local? id).map Local.type = some l.type := by
  refine ⟨rfl, fun h => ?_⟩
  have hlocal := h.map (fun m => m.state.model.local? 1)
    (S := fun x y => ∀ l ∈ x, l.family = none → y.map Local.type = some l.type)
    fun m m' hm l hl => hm 1 l hl
  revert hlocal
  decide +kernel

end ComputeKernel
