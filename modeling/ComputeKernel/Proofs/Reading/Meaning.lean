import ComputeKernel.Proofs.Reading.Names
import ComputeKernel.Proofs.Shader.Lowering

/-!
The tree that an expression stands for in C. It has the operators and the operands of the expression
in their order and no parentheses; calls of methods, intrinsics and constructors are calls, `as` and
`splat` are casts, and swizzles and elements are members. What an expression is translated to reads as
this tree once its parentheses are dropped.
-/

namespace ComputeKernel.Reading

open Shader (Context StaticUse Lowers Outcome unaryOperator unaryOperand selectorText isLiteral
  scalarMethod? intrinsic? intrinsicOwner rank unaryRank memberRank primaryRank)
open Shader.Lower (Identifies nameOf selector)

/-! ### Grouping -/

mutual

/-- The tree without its parentheses. -/
def Tree.ungrouped : Tree → Tree
  | .atom text => .atom text
  | .paren inner => inner.ungrouped
  | .unary op operand => .unary op operand.ungrouped
  | .binary op left right => .binary op left.ungrouped right.ungrouped
  | .cast type operand => .cast type operand.ungrouped
  | .member receiver name => .member receiver.ungrouped name
  | .index base i => .index base.ungrouped i.ungrouped
  | .call function args => .call function.ungrouped (Tree.allUngrouped args)
  | .choice condition yes no => .choice condition.ungrouped yes.ungrouped no.ungrouped

def Tree.allUngrouped : List Tree → List Tree
  | [] => []
  | t :: ts => t.ungrouped :: Tree.allUngrouped ts

end

/-! ### Meaning -/

/-- The identifier of what stands at a range. -/
def identifierAt (ctx : Context) (statics : List StaticUse) (span : Span) : String :=
  match ctx.model.referent? span with
  | some (.local id) => ctx.localNames[id]?.getD ""
  | some (.capture field) => ctx.captureNames[field]?.getD ""
  | some (.static index) => ((statics.find? fun u => u.index == index).map (·.name)).getD ""
  | none => ""

/-- The type of what stands at a range. -/
def typeAt (ctx : Context) (span : Span) : Ty := (ctx.model.type? span).getD .unknown

/-- What a method call stands for: a call on a scalar, and a member of a vector or a matrix. -/
def methodTree (type : Ty) (name : String) (receiver : Tree) (args : List Tree) : Tree :=
  match type, elementPosition? name with
  | .value (.scalar _), _ =>
    .call (.atom (((scalarMethod? name).map (·.function)).getD "")) (receiver :: args)
  | .value (.matrix ..), some position => .member receiver (selector position)
  | _, _ => .member receiver name

/-- What the call of a constructor stands for. -/
def constructorTree (type : String) (isSplat : Bool) (args : List Tree) : Tree :=
  match isSplat, args with
  | true, [arg] => .cast type arg
  | _, _ => .call (.atom type) args

mutual

/-- The tree that an expression stands for, where `statics` are the statics that are met. A tuple
stands for nothing of its own. -/
def meaning (ctx : Context) (statics : List StaticUse) : Expr → Tree
  | .literal _ v => .atom v.hlsl
  | .name span _ | .path span _ => .atom (identifierAt ctx statics span)
  | .unary _ op e => .unary (unaryOperator op (typeAt ctx e.span)) (meaning ctx statics e)
  | .binary _ op l r => .binary op (meaning ctx statics l) (meaning ctx statics r)
  | .cast _ e target => .cast (nameOf ctx target.type) (meaning ctx statics e)
  | .field _ e member => .member (meaning ctx statics e) member.text
  | .method _ e member args =>
    methodTree (typeAt ctx e.span) member.text (meaning ctx statics e) (meanings ctx statics args)
  | .call span callee _ args =>
    if callee.owner? = some intrinsicOwner then
      .call (.atom callee.last) (meanings ctx statics args)
    else
      constructorTree (nameOf ctx (typeAt ctx span).toHost) (callee.last == "splat")
        (meanings ctx statics args)
  | .index _ base i =>
    match i with
    | .tuple _ items => .member (meaning ctx statics base) (selectorText items)
    | _ => .index (meaning ctx statics base) (meaning ctx statics i)
  | .tuple .. => .atom ""
  | .paren _ inner => meaning ctx statics inner
  | .choice _ condition yes no =>
    .choice (meaning ctx statics condition) (meaning ctx statics yes) (meaning ctx statics no)

def meanings (ctx : Context) (statics : List StaticUse) : List Expr → List Tree
  | [] => []
  | e :: es => meaning ctx statics e :: meanings ctx statics es

end

/-! ### Operands in parentheses -/

theorem clean_atLeast {c : Shader.Expr} (h : Clean c) (k : Nat) : Clean (c.atLeast k) := by
  unfold Shader.Expr.atLeast
  split
  · exact h
  · exact h

theorem ungrouped_atLeast (c : Shader.Expr) (k : Nat) :
    (tree (c.atLeast k)).ungrouped = (tree c).ungrouped := by
  unfold Shader.Expr.atLeast
  split <;> rfl

theorem atLeast_ne_literal {c : Shader.Expr} (h : ∀ text, c ≠ .literal text) (k : Nat) :
    ∀ text, c.atLeast k ≠ .literal text := by
  unfold Shader.Expr.atLeast
  split
  · exact nofun
  · exact h

/-- An operand of an operator that stands in front of it is kept apart from the operator. -/
theorem clean_unary {op : UnaryOp} {t : Ty} {c : Shader.Expr} (h : Clean c) :
    Clean (.unary (unaryOperator op t) (unaryOperand op c)) := by
  have hclean := clean_atLeast h unaryRank
  have hrank := c.le_rank_atLeast (show unaryRank ≤ primaryRank by decide)
  unfold unaryOperand
  cases op with
  | neg =>
    simp only
    split
    · exact ⟨hclean, of_decide_eq_true rfl, fun _ => rfl⟩
    · rename_i hminus
      exact ⟨hclean, hrank, fun _ => by simpa using hminus⟩
  | not =>
    refine ⟨hclean, hrank, fun hop => ?_⟩
    unfold unaryOperator at hop
    simp only at hop
    split at hop <;> cases hop

theorem ungrouped_unaryOperand (op : UnaryOp) (c : Shader.Expr) :
    (tree (unaryOperand op c)).ungrouped = (tree c).ungrouped := by
  have h := ungrouped_atLeast c unaryRank
  unfold unaryOperand
  cases op with
  | neg =>
    simp only
    split <;> exact h
  | not => exact h

theorem clean_binary {op : BinaryOp} {c d : Shader.Expr} (hc : Clean c) (hd : Clean d) :
    Clean (.binary op (c.atLeast (rank op)) (d.atLeast (rank op + 1))) := by
  have hop := Shader.Expr.rank_binary_lt op
  exact ⟨clean_atLeast hc _, clean_atLeast hd _,
    c.le_rank_atLeast (Nat.le_of_lt (Nat.lt_trans hop (by decide))),
    d.le_rank_atLeast (Nat.lt_trans hop (by decide))⟩

/-- What is selected of code that is no literal. -/
theorem clean_member {c : Shader.Expr} {name : String} (hc : Clean c)
    (hne : ∀ text, c ≠ .literal text) (hname : IsWord name.toList) :
    Clean (.member (c.atLeast memberRank) name) :=
  ⟨clean_atLeast hc _, c.le_rank_atLeast (by decide), atLeast_ne_literal hne _, hname⟩

/-! ### Names -/

/-- Whether a context gives out words for what a closure can name. -/
structure Worded (ctx : Context) (catalog : Catalog) (statics : List StaticUse) : Prop where
  table : ctx.table = .hlsl
  visible : ctx.statics = catalog.statics
  locals : ∀ (id : Nat) (ident : String), ctx.localNames[id]? = some ident → IsName ident
  captures : ∀ (field : Nat) (f : FieldDecl) (ident : String), catalog.fields[field]? = some f →
    ctx.captureNames[field]? = some ident → IsWord f.name.toList → IsName ident
  named : ∀ u ∈ statics, u.Named ctx

variable {ctx : Context} {catalog : Catalog} {statics : List StaticUse}

theorem identifierAt_eq {span : Span} {r : Referent} {ident : String}
    (hr : ctx.model.referent? span = some r) (h : Identifies ctx statics r ident) :
    identifierAt ctx statics span = ident := by
  unfold identifierAt
  rw [hr]
  cases h with
  | «local» hident | capture hident => simp [hident]
  | static hu => simp [hu]

theorem isName_of_identifies (hctx : Worded ctx catalog statics) {path : Path} {r : Referent}
    {ident : String} (hpath : path.Spelled) (hrefers : Check.Refers catalog ctx.model path r)
    (hident : Identifies ctx statics r ident) : IsName ident := by
  cases hrefers with
  | «local» _ =>
    cases hident with
    | «local» hident => exact hctx.locals _ _ hident
  | @capture text _ _ htext hcapture =>
    subst htext
    obtain ⟨hfind, f, hf, _⟩ := hcapture
    cases hident with
    | capture hident =>
      refine hctx.captures _ f ident hf hident ?_
      obtain ⟨hlt, hname, _⟩ := List.findIdx?_eq_some_iff_getElem.mp hfind
      have hf' := (List.getElem?_eq_some_iff.mp hf).2
      rw [hf', beq_iff_eq] at hname
      rw [hname]
      exact hpath.2 text List.mem_cons_self
  | static hstatic =>
    obtain ⟨hnames, decl, hdecl, _⟩ := hstatic
    cases hident with
    | @static u hu =>
      obtain ⟨hindex, pool, hname⟩ := hctx.named u (List.mem_of_find?_eq_some hu)
      rw [hctx.visible, hdecl] at hindex
      obtain rfl := Option.some.inj hindex
      rw [hname]
      refine isName_allocate pool (isWord_of_names hpath ?_)
      have hmem : u.index ∈ Check.staticsNamed path catalog.statics := by
        rw [hnames]
        exact List.mem_singleton_self _
      have hpath := (List.mem_filter.mp hmem).2
      rwa [hdecl] at hpath

/-! ### Reading -/

/-- What is said of code by its source. -/
def ReadsAs (ctx : Context) (statics : List StaticUse) : Outcome → Prop
  | .expr e c => e.Spelled → Clean c ∧ (tree c).ungrouped = meaning ctx statics e
  | .exprs es cs => Expr.AllSpelled es →
    AllClean cs ∧ Tree.allUngrouped (trees cs) = meanings ctx statics es

theorem ne_literal_of_lowers {e : Expr} {c : Shader.Expr}
    (h : Lowers ctx catalog statics (.expr e c)) (he : ¬ isLiteral e) : ∀ text, c ≠ .literal text := by
  cases h with
  | literal => exact (he rfl).elim
  | _ => exact nofun

theorem isWord_selectorText {rows columns : Nat} {items : List Expr}
    (h : ∀ item ∈ items, Check.IsSelector rows columns item) (hne : items ≠ []) :
    IsWord (selectorText items).toList := by
  induction items with
  | nil => exact (hne rfl).elim
  | cons item items ih =>
    rw [List.forall_mem_cons] at h
    obtain ⟨hitem, hitems⟩ := h
    unfold Check.IsSelector at hitem
    split at hitem
    · obtain ⟨row, column, hposition, _⟩ := hitem
      rw [selectorText, hposition, String.toList_append]
      refine IsWord.append (isWord_selector (row, column)) ?_
      cases items with
      | nil => simp [selectorText]
      | cons next items => exact IsWord.continues (ih hitems (List.cons_ne_nil next items))
    · exact hitem.elim

theorem isTypeWord_nameOf {host : HostType} {v : ValueType} (htable : ctx.table = .hlsl)
    (hhost : Ty.ofHost? host = some (.value v)) (hv : v.Shaped) : IsTypeWord (nameOf ctx host) := by
  obtain ⟨name, hname, hword⟩ := isTypeWord_of_shaderName? hhost hv
  rw [nameOf, htable, hname]
  exact hword

theorem isWord_last {path : Path} (h : path.Spelled) : IsWord path.last.toList := by
  rw [Path.last, List.getLast?_eq_some_getLast h.1]
  exact h.2 _ (List.getLast_mem h.1)

/-- Translated code has the meaning of its source. -/
theorem readsAs_of_lowers (hctx : Worded ctx catalog statics) {o : Outcome}
    (h : Lowers ctx catalog statics o) : ReadsAs ctx statics o := by
  induction h with
  | literal => exact fun hv => ⟨isNumber_or_isName_hlsl hv, rfl⟩
  | name hreferent hrefers hident =>
    intro hspelled
    have hpath : Path.Spelled [_] := ⟨nofun, List.forall_mem_singleton.mpr hspelled⟩
    refine ⟨isName_of_identifies hctx hpath hrefers hident, ?_⟩
    rw [meaning, identifierAt_eq hreferent hident]
    rfl
  | path hreferent hrefers hident =>
    intro hspelled
    refine ⟨isName_of_identifies hctx hspelled hrefers hident, ?_⟩
    rw [meaning, identifierAt_eq hreferent hident]
    rfl
  | paren _ ih => exact ih
  | @unary _ op _ _ _ _ htype _ ih =>
    intro hspelled
    obtain ⟨hclean, htree⟩ := ih hspelled
    refine ⟨clean_unary hclean, ?_⟩
    rw [meaning, typeAt, htype, tree, Tree.ungrouped, ungrouped_unaryOperand, htree]
    rfl
  | binary _ _ ihLeft ihRight =>
    rintro ⟨hl, hr⟩
    obtain ⟨hleft, hleftTree⟩ := ihLeft hl
    obtain ⟨hright, hrightTree⟩ := ihRight hr
    refine ⟨clean_binary hleft hright, ?_⟩
    rw [meaning, tree, Tree.ungrouped, ungrouped_atLeast, ungrouped_atLeast, hleftTree, hrightTree]
  | cast _ htarget ih =>
    intro hspelled
    obtain ⟨hclean, htree⟩ := ih hspelled
    refine ⟨⟨isTypeWord_nameOf hctx.table htarget trivial, hclean⟩, ?_⟩
    rw [meaning, tree, Tree.ungrouped, Tree.ungrouped, htree]
  | field h hne _ _ ih =>
    rintro ⟨he, hmember⟩
    obtain ⟨hclean, htree⟩ := ih he
    refine ⟨clean_member hclean (ne_literal_of_lowers h hne) hmember, ?_⟩
    rw [meaning, tree, Tree.ungrouped, ungrouped_atLeast, htree]
  | swizzle h hne htype _ ih =>
    rintro ⟨he, hmember, _⟩
    obtain ⟨hclean, htree⟩ := ih he
    refine ⟨clean_member hclean (ne_literal_of_lowers h hne) hmember, ?_⟩
    rw [meaning, typeAt, htype, tree, Tree.ungrouped, ungrouped_atLeast, htree]
    rfl
  | element h hne htype hposition ih =>
    rintro ⟨he, _, _⟩
    obtain ⟨hclean, htree⟩ := ih he
    refine ⟨clean_member hclean (ne_literal_of_lowers h hne) (isWord_selector _), ?_⟩
    rw [meaning, typeAt, htype, tree, Tree.ungrouped, ungrouped_atLeast, htree, methodTree.eq_def]
    simp [hposition]
  | method _ _ htype hm ih ihArgs =>
    rintro ⟨he, _, hargs⟩
    obtain ⟨hclean, htree⟩ := ih he
    obtain ⟨hcleanArgs, htrees⟩ := ihArgs hargs
    refine ⟨⟨isWord_of_scalarMethod? hm, hclean, hcleanArgs⟩, ?_⟩
    rw [meaning, typeAt, htype, tree, trees, Tree.ungrouped, Tree.allUngrouped, htree, htrees,
      methodTree.eq_def]
    simp [hm, Tree.ungrouped]
  | intrinsic _ howner hi ihArgs =>
    rintro ⟨hcallee, hargs⟩
    obtain ⟨hclean, htrees⟩ := ihArgs hargs
    refine ⟨⟨isWord_last hcallee, hclean⟩, ?_⟩
    rw [meaning, if_pos howner, tree, Tree.ungrouped, Tree.ungrouped, htrees]
  | new _ howner hlast hshaped hscalar htype ihArgs =>
    rintro ⟨_, hargs⟩
    obtain ⟨hclean, htrees⟩ := ihArgs hargs
    refine ⟨⟨(isTypeWord_nameOf hctx.table (Ty.ofHost?_toHost hshaped) hshaped).1, hclean⟩, ?_⟩
    rw [meaning, if_neg howner, typeAt, htype, hlast, tree, Tree.ungrouped, Tree.ungrouped, htrees]
    rfl
  | splat _ howner hlast hshaped hscalar htype ih =>
    rintro ⟨_, harg, _⟩
    obtain ⟨hclean, htree⟩ := ih harg
    refine ⟨⟨isTypeWord_nameOf hctx.table (Ty.ofHost?_toHost hshaped) hshaped, hclean⟩, ?_⟩
    rw [meaning, if_neg howner, typeAt, htype, hlast, tree, Tree.ungrouped, Tree.ungrouped, htree]
    rfl
  | index h hne hi _ _ ihBase ihIndex =>
    rintro ⟨hb, hindex⟩
    obtain ⟨hclean, htree⟩ := ihBase hb
    obtain ⟨hcleanIndex, hindexTree⟩ := ihIndex hindex
    refine ⟨⟨clean_atLeast hclean _, Shader.Expr.le_rank_atLeast _ (by decide),
      atLeast_ne_literal (ne_literal_of_lowers h hne) _, hcleanIndex⟩, ?_⟩
    rw [meaning, tree, Tree.ungrouped, ungrouped_atLeast, htree, hindexTree]
    rintro span items rfl
    cases hi
  | matrixSwizzle h hne htype hitems hselectors ih =>
    rintro ⟨hb, _⟩
    obtain ⟨hclean, htree⟩ := ih hb
    refine ⟨clean_member hclean (ne_literal_of_lowers h hne)
      (isWord_selectorText hselectors hitems), ?_⟩
    rw [meaning, tree, Tree.ungrouped, ungrouped_atLeast, htree]
  | choice _ _ _ ihCondition ihYes ihNo =>
    rintro ⟨hc, hy, hn⟩
    obtain ⟨hcondition, hconditionTree⟩ := ihCondition hc
    obtain ⟨hyes, hyesTree⟩ := ihYes hy
    obtain ⟨hno, hnoTree⟩ := ihNo hn
    refine ⟨⟨hcondition, hyes, hno⟩, ?_⟩
    rw [meaning, tree, Tree.ungrouped, Tree.ungrouped, hconditionTree, hyesTree, hnoTree]
  | nil => exact fun _ => ⟨trivial, rfl⟩
  | cons _ _ ihFirst ihRest =>
    rintro ⟨he, hes⟩
    obtain ⟨hfirst, hfirstTree⟩ := ihFirst he
    obtain ⟨hrest, hrestTree⟩ := ihRest hes
    refine ⟨⟨hfirst, hrest⟩, ?_⟩
    rw [meanings, trees, Tree.allUngrouped, hfirstTree, hrestTree]

end ComputeKernel.Reading
