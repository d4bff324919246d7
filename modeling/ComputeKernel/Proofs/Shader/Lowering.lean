import ComputeKernel.Proofs.Shader.Run
import ComputeKernel.Proofs.Typing.Coverage

/-!
The translation as a relation. What an expression becomes follows its tree and the types that the
model has for its operands; the relation says it without the state, against the statics that have
been met in the end. Whatever the model covers has a translation.
-/

namespace ComputeKernel.Shader

open Check (Covers Covered Refers Operable IsSelector)

/-- The operator that a unary operator on values of a type becomes. -/
def unaryOperator (op : ComputeKernel.UnaryOp) (type : Ty) : UnaryOp :=
  match op with
  | .neg => .minus
  | .not => if type.isBool then .not else .complement

/-- The operand of a unary operator, kept apart from the operator. -/
def unaryOperand (op : ComputeKernel.UnaryOp) (c : Expr) : Expr :=
  let e := c.atLeast unaryRank
  match op with
  | .neg => if e.startsWithMinus then .paren e else e
  | .not => e

/-- The selector of several elements of a matrix. -/
def selectorText : List ComputeKernel.Expr → String
  | .path _ path :: items =>
    ((matrixIndexPosition? path).map Lower.selector).getD "" ++ selectorText items
  | _ => ""

/-- Whether an expression is a literal, in front of which no member may be selected in C. -/
def isLiteral : ComputeKernel.Expr → Bool
  | .literal .. => true
  | _ => false

/-- What an expression becomes, or what several become. -/
inductive Outcome where
  | expr (e : ComputeKernel.Expr) (c : Expr)
  | exprs (es : List ComputeKernel.Expr) (cs : List Expr)

open Lower (Identifies nameOf)

inductive Lowers (ctx : Context) (catalog : Catalog) (statics : List StaticUse) : Outcome → Prop where
  | literal {span v} : Lowers ctx catalog statics (.expr (.literal span v) (.literal v.hlsl))
  | name {span text r ident} : ctx.model.referent? span = some r →
      Refers catalog ctx.model [text] r → Identifies ctx statics r ident →
      Lowers ctx catalog statics (.expr (.name span text) (.var ident))
  | path {span path r ident} : ctx.model.referent? span = some r →
      Refers catalog ctx.model path r → Identifies ctx statics r ident →
      Lowers ctx catalog statics (.expr (.path span path) (.var ident))
  | paren {span e c} : Lowers ctx catalog statics (.expr e c) →
      Lowers ctx catalog statics (.expr (.paren span e) (.paren c))
  | unary {span op e t c} : Lowers ctx catalog statics (.expr e c) →
      ctx.model.type? e.span = some t → Check.hasUnary op t →
      Lowers ctx catalog statics
        (.expr (.unary span op e) (.unary (unaryOperator op t) (unaryOperand op c)))
  | binary {span op l r c d} : Lowers ctx catalog statics (.expr l c) →
      Lowers ctx catalog statics (.expr r d) →
      Lowers ctx catalog statics
        (.expr (.binary span op l r) (.binary op (c.atLeast (rank op)) (d.atLeast (rank op + 1))))
  | cast {span e c target k} : Lowers ctx catalog statics (.expr e c) →
      Ty.ofHost? target.type = some (.scalar k) →
      Lowers ctx catalog statics (.expr (.cast span e target) (.cast (nameOf ctx target.type) c))
  | field {span e c member t type} : Lowers ctx catalog statics (.expr e c) → ¬ isLiteral e →
      ctx.model.type? e.span = some t → Check.componentType? t member.text = some type →
      Lowers ctx catalog statics
        (.expr (.field span e member) (.member (c.atLeast memberRank) member.text))
  | swizzle {span e c k n member} : Lowers ctx catalog statics (.expr e c) → ¬ isLiteral e →
      ctx.model.type? e.span = some (.vector k n) → isSwizzle member.text n →
      Lowers ctx catalog statics
        (.expr (.method span e member []) (.member (c.atLeast memberRank) member.text))
  | element {span e c k rows columns member position} : Lowers ctx catalog statics (.expr e c) →
      ¬ isLiteral e → ctx.model.type? e.span = some (.value (.matrix k rows columns)) →
      elementPosition? member.text = some position →
      Lowers ctx catalog statics
        (.expr (.method span e member [])
          (.member (c.atLeast memberRank) (Lower.selector position)))
  | method {span e c k f member args cs} : Lowers ctx catalog statics (.expr e c) →
      Lowers ctx catalog statics (.exprs args cs) →
      ctx.model.type? e.span = some (.scalar k) → scalarMethod? member.text = some f →
      Lowers ctx catalog statics (.expr (.method span e member args) (.call f.function (c :: cs)))
  | intrinsic {span callee calleeSpan args cs i} : Lowers ctx catalog statics (.exprs args cs) →
      callee.owner? = some intrinsicOwner → intrinsic? callee.last = some i →
      Lowers ctx catalog statics (.expr (.call span callee calleeSpan args) (.call callee.last cs))
  | new {span callee calleeSpan args cs v} : Lowers ctx catalog statics (.exprs args cs) →
      callee.owner? ≠ some intrinsicOwner → callee.last = "new" → v.Shaped → ¬ v.isScalar →
      ctx.model.type? span = some (.value v) →
      Lowers ctx catalog statics
        (.expr (.call span callee calleeSpan args) (.call (nameOf ctx (Ty.value v).toHost) cs))
  | splat {span callee calleeSpan arg c v} : Lowers ctx catalog statics (.expr arg c) →
      callee.owner? ≠ some intrinsicOwner → callee.last = "splat" → v.Shaped → ¬ v.isScalar →
      ctx.model.type? span = some (.value v) →
      Lowers ctx catalog statics
        (.expr (.call span callee calleeSpan [arg]) (.cast (nameOf ctx (Ty.value v).toHost) c))
  | index {span base i c d t type} : Lowers ctx catalog statics (.expr base c) →
      ¬ isLiteral base → Lowers ctx catalog statics (.expr i d) →
      ctx.model.type? base.span = some t → Check.elementType? t = some type →
      Lowers ctx catalog statics (.expr (.index span base i) (.index (c.atLeast memberRank) d))
  | matrixSwizzle {span base c k rows columns itemsSpan items} :
      Lowers ctx catalog statics (.expr base c) → ¬ isLiteral base →
      ctx.model.type? base.span = some (.value (.matrix k rows columns)) → items ≠ [] →
      (∀ item ∈ items, IsSelector rows columns item) →
      Lowers ctx catalog statics
        (.expr (.index span base (.tuple itemsSpan items))
          (.member (c.atLeast memberRank) (selectorText items)))
  | choice {span condition yes no c y n} : Lowers ctx catalog statics (.expr condition c) →
      Lowers ctx catalog statics (.expr yes y) → Lowers ctx catalog statics (.expr no n) →
      Lowers ctx catalog statics (.expr (.choice span condition yes no) (.choice c y n))
  | nil : Lowers ctx catalog statics (.exprs [] [])
  | cons {e es c cs} : Lowers ctx catalog statics (.expr e c) →
      Lowers ctx catalog statics (.exprs es cs) →
      Lowers ctx catalog statics (.exprs (e :: es) (c :: cs))

/-- Whether a context is one for closures that are checked against a catalog. -/
structure Context.Fits (ctx : Context) (catalog : Catalog) : Prop where
  statics : ctx.statics = catalog.statics
  captures : ctx.captureNames.length = catalog.fields.length
  locals : ctx.localNames.length = ctx.model.locals.length

namespace Lower

variable {ctx : Context} {catalog : Catalog}

theorem known_of_refers (hctx : ctx.Fits catalog) {path : Path} {r : Referent}
    (h : Refers catalog ctx.model path r) : Known ctx r := by
  cases h with
  | «local» hl =>
    rw [Known, hctx.locals]
    exact (List.getElem?_eq_some_iff.mp hl).1
  | capture _ hcapture =>
    obtain ⟨_, f, hf, _⟩ := hcapture
    rw [Known, hctx.captures]
    exact (List.getElem?_eq_some_iff.mp hf).1
  | static hstatic =>
    obtain ⟨_, decl, hdecl, _⟩ := hstatic
    rw [Known, hctx.statics]
    exact (List.getElem?_eq_some_iff.mp hdecl).1

/-! ### Operators and members -/

theorem unary_yields {op : ComputeKernel.UnaryOp} {t : Ty} (h : Check.hasUnary op t) (c : Expr)
    {s : Progress} {Q : Expr → Progress → Prop}
    (hQ : Q (.unary (unaryOperator op t) (unaryOperand op c)) s) : Yields (unary op t c) s Q := by
  unfold Lower.unary
  split
  · simp only
    split
    · exact apply_yields ⟨.vector, .neg, .negate⟩ rfl rfl hQ
    · exact apply_yields ⟨.matrix, .neg, .negate⟩ rfl rfl hQ
    · exact .pure hQ
  · exact apply_yields ⟨.vector, .not, .invert⟩ rfl rfl hQ
  · rename_i k n hk
    refine apply_yields ⟨.vector, .complement, .complement⟩ rfl rfl ?_
    have : (Ty.vector k n).isBool = false := by
      cases k <;> first | rfl | exact absurd rfl hk
    rwa [unaryOperator, this] at hQ
  · exact .pure hQ
  · rename_i _ hvector hscalar
    have hbool : t.isBool = false := by
      cases t with
      | value v =>
        cases v with
        | scalar k => cases k <;> first | rfl | exact (hscalar rfl).elim
        | vector k n => exact (hvector k n rfl).elim
        | matrix k r c => cases h
      | _ => rfl
    refine .pure ?_
    rwa [unaryOperator, hbool] at hQ

/-- An operator that needs no rule or has one is checked without a defect. -/
theorem checkOperator_yields {op : BinaryOp} {l r : Span} {tl tr : Ty}
    (hl : ctx.model.type? l = some tl) (hr : ctx.model.type? r = some tr)
    (h : Operable op tl tr) {s : Progress} {Q : Unit → Progress → Prop} (hQ : Q () s) :
    Yields (checkOperator ctx op l r) s Q := by
  refine Yields.bind (typeAt_yields hl (Yields.bind (typeAt_yields hr ?_)))
  cases hof : Receiver.ofOperands? tl tr with
  | none => exact .pure hQ
  | some receiver =>
    obtain ⟨member, hmember, hrule⟩ := h receiver hof
    obtain ⟨rule, hrule⟩ := Option.isSome_iff_exists.mp hrule
    refine Yields.bind (.require hmember ?_)
    refine ⟨(), s, ?_, hQ⟩
    rw [hrule]
    rfl

theorem selectors_yields {rows columns : Nat} {items : List ComputeKernel.Expr}
    (h : ∀ item ∈ items, IsSelector rows columns item) (s : Progress) :
    Yields (selectors items) s fun text s' => text = selectorText items ∧ s' = s := by
  induction items with
  | nil => exact .pure ⟨rfl, rfl⟩
  | cons item items ih =>
    rw [List.forall_mem_cons] at h
    obtain ⟨hitem, hitems⟩ := h
    unfold IsSelector at hitem
    split at hitem
    · obtain ⟨row, column, hposition, _, _⟩ := hitem
      refine Yields.bind (.require hposition (Yields.bind ((ih hitems).mono ?_)))
      rintro text s' ⟨rfl, rfl⟩
      exact .pure ⟨by simp [selectorText, hposition], rfl⟩
    · exact hitem.elim

theorem select_yields {name : String} {c : Expr} {s : Progress} {Q : Expr → Progress → Prop} :
    (Q (.member (c.atLeast memberRank) name) s → Yields (select .vector name c) s Q) ∧
      ∀ position, elementPosition? name = some position →
        Q (.member (c.atLeast memberRank) (selector position)) s →
        Yields (select .matrix name c) s Q := by
  refine ⟨fun hQ => ?_, fun position hposition hQ => ?_⟩
  · exact apply_yields ⟨.vector, .swizzle, .select⟩ rfl rfl hQ
  · unfold select
    rw [hposition]
    exact apply_yields ⟨.matrix, .element, .select⟩ rfl rfl hQ

/-- Literals are scalars. -/
theorem not_isLiteral {e : ComputeKernel.Expr} {t : Ty} (h : Covers catalog ctx.model (.expr e t))
    (ht : ∀ k, t ≠ .scalar k) : ¬ isLiteral e := by
  cases h with
  | @literal _ v =>
    have hscalar : ∃ k, (Check.literal v).type = .scalar k := by
      unfold Check.literal
      split <;> (try split) <;> exact ⟨_, rfl⟩
    obtain ⟨k, hk⟩ := hscalar
    exact (ht k hk).elim
  | _ => exact Bool.false_ne_true

/-- What has components is a vector or the index of a thread. -/
theorem componentRule {t type : Ty} {name : String} (h : Check.componentType? t name = some type) :
    ∃ r, Receiver.of? t = some r ∧ rule? r .component = some ⟨r, .component, .select⟩ := by
  unfold Check.componentType? at h
  split at h
  · exact ⟨.threadIds, rfl, rfl⟩
  · exact ⟨.vector, rfl, rfl⟩
  · cases h

/-- What has elements is a buffer, a vector or a matrix. -/
theorem indexRule {t type : Ty} (h : Check.elementType? t = some type) :
    ∃ r, Receiver.of? t = some r ∧ rule? r .index = some ⟨r, .index, .index⟩ := by
  unfold Check.elementType? at h
  split at h
  · exact ⟨.buffer, rfl, rfl⟩
  · exact ⟨.vector, rfl, rfl⟩
  · exact ⟨.matrix, rfl, rfl⟩
  · cases h

/-- No tuple has a type, so what is indexed by one is a matrix that is swizzled. -/
theorem index_ne_tuple {m : Model} {i : ComputeKernel.Expr} {t : Ty}
    (h : Covers catalog m (.expr i t)) : ∀ span items, i ≠ .tuple span items := by
  rintro span items rfl
  cases h

/-! ### Expressions -/

/-- What the translation of something covered by the model does, whatever has been met before. -/
def Translates (ctx : Context) (catalog : Catalog) : Covered → Prop
  | .expr e _ => ∀ s, Yields (expr ctx e) s fun c s' => Advances ctx s s' ∧
      ∀ statics, s'.statics <+: statics → Lowers ctx catalog statics (.expr e c)
  | .exprs es => ∀ s, Yields (exprs ctx es) s fun cs s' => Advances ctx s s' ∧
      ∀ statics, s'.statics <+: statics → Lowers ctx catalog statics (.exprs es cs)

/-- What the model covers has a translation. -/
theorem translates_of_covers (hctx : ctx.Fits catalog) {covered : Covered}
    (h : Covers catalog ctx.model covered) : Translates ctx catalog covered := by
  induction h with
  | literal _ => exact fun s => .pure ⟨.refl s, fun _ _ => .literal⟩
  | name hreferent hrefers _ =>
    intro s
    refine Yields.bind ((referentName_yields hreferent (known_of_refers hctx hrefers) s).mono ?_)
    rintro ident s' ⟨hadvances, hident⟩
    exact .pure ⟨hadvances, fun statics h => .name hreferent hrefers (hident statics h)⟩
  | path hreferent hrefers _ =>
    intro s
    refine Yields.bind ((referentName_yields hreferent (known_of_refers hctx hrefers) s).mono ?_)
    rintro ident s' ⟨hadvances, hident⟩
    exact .pure ⟨hadvances, fun statics h => .path hreferent hrefers (hident statics h)⟩
  | unary he hop _ ih =>
    intro s
    refine Yields.bind (typeAt_yields he.type? (Yields.bind ((ih s).mono ?_)))
    rintro c s' ⟨hadvances, hc⟩
    exact unary_yields hop c ⟨hadvances, fun statics h => .unary (hc statics h) he.type? hop⟩
  | binary hl hr hop _ ihLeft ihRight =>
    intro s
    refine Yields.bind (checkOperator_yields hl.type? hr.type? hop
      (Yields.bind ((ihLeft s).mono ?_)))
    rintro c s₁ ⟨hadvances, hc⟩
    refine Yields.bind ((ihRight s₁).mono ?_)
    rintro d s' ⟨hadvances', hd⟩
    exact .pure ⟨hadvances.trans hadvances', fun statics h =>
      .binary (hc statics (hadvances'.statics.trans h)) (hd statics h)⟩
  | cast _ htarget _ ih =>
    intro s
    refine Yields.bind ((typeName_yields ctx _ htarget rfl _ s).mono ?_)
    rintro name s₁ ⟨hadvances, rfl⟩
    refine Yields.bind ((ih s₁).mono ?_)
    rintro c s' ⟨hadvances', hc⟩
    exact .pure ⟨hadvances.trans hadvances', fun statics h => .cast (hc statics h) htarget⟩
  | field he hcomponent _ ih =>
    intro s
    obtain ⟨r, hr, hrule⟩ := componentRule hcomponent
    refine Yields.bind (receiverAt_yields he.type? hr (Yields.bind ((ih s).mono ?_)))
    rintro c s' ⟨hadvances, hc⟩
    exact apply_yields _ hrule rfl
      ⟨hadvances, fun statics h =>
        .field (hc statics h) (not_isLiteral he (by rintro k rfl; cases hcomponent)) he.type?
          hcomponent⟩
  | swizzle he hswizzle _ ih =>
    intro s
    refine Yields.bind (receiverAt_yields he.type? rfl (Yields.bind ((ih s).mono ?_)))
    rintro c s' ⟨hadvances, hc⟩
    exact select_yields.1 ⟨hadvances, fun statics h =>
      .swizzle (hc statics h) (not_isLiteral he nofun) he.type? hswizzle⟩
  | element he hposition _ _ _ ih =>
    intro s
    refine Yields.bind (receiverAt_yields he.type? rfl (Yields.bind ((ih s).mono ?_)))
    rintro c s' ⟨hadvances, hc⟩
    exact select_yields.2 _ hposition
      ⟨hadvances, fun statics h =>
        .element (hc statics h) (not_isLiteral he nofun) he.type? hposition⟩
  | method he hm _ _ _ ih ihArgs =>
    intro s
    refine Yields.bind (receiverAt_yields he.type? rfl (Yields.bind ((ih s).mono ?_)))
    rintro c s₁ ⟨hadvances, hc⟩
    refine Yields.bind (.require hm (Yields.bind ((ihArgs s₁).mono ?_)))
    rintro cs s' ⟨hadvances', hcs⟩
    exact apply_yields ⟨.scalar, .method, .call⟩ rfl rfl
      ⟨hadvances.trans hadvances', fun statics h =>
        .method (hc statics (hadvances'.statics.trans h)) (hcs statics h) he.type? hm⟩
  | intrinsic howner hi _ _ _ ihArgs =>
    intro s
    refine Yields.bind ((ihArgs s).mono ?_)
    rintro cs s' ⟨hadvances, hcs⟩
    unfold call
    rw [if_pos howner]
    exact apply_yields ⟨.hlsl, .intrinsic, .call⟩ rfl rfl
      ⟨hadvances, fun statics h => .intrinsic (hcs statics h) howner hi⟩
  | new howner hlast hshaped hscalar _ htype ihArgs =>
    intro s
    refine Yields.bind ((ihArgs s).mono ?_)
    rintro cs s₁ ⟨hadvances, hcs⟩
    unfold call
    rw [if_neg howner, if_pos (by simp [isNew, hlast])]
    refine Yields.bind (typeAt_yields htype (Yields.bind
      ((typeName_yields ctx _ (Ty.ofHost?_toHost hshaped) rfl _ s₁).mono ?_)))
    rintro name s' ⟨hadvances', rfl⟩
    rw [if_neg (by simp [isSplat, hlast])]
    exact apply_yields ⟨.constructor, .new, .call⟩ rfl rfl
      ⟨hadvances.trans hadvances', fun statics h =>
        .new (hcs statics (hadvances'.statics.trans h)) howner hlast hshaped hscalar htype⟩
  | splat howner hlast hshaped hscalar _ htype ihArgs =>
    intro s
    refine Yields.bind ((ihArgs s).mono ?_)
    rintro cs s₁ ⟨hadvances, hcs⟩
    unfold call
    rw [if_neg howner, if_pos (by simp [isSplat, hlast])]
    refine Yields.bind (typeAt_yields htype (Yields.bind
      ((typeName_yields ctx _ (Ty.ofHost?_toHost hshaped) rfl _ s₁).mono ?_)))
    rintro name s' ⟨hadvances', rfl⟩
    rw [if_pos (by simp [isSplat, hlast])]
    have hone : ∃ c, cs = [c] := by
      cases hcs _ (List.prefix_refl _) with
      | cons _ hnil =>
        cases hnil
        exact ⟨_, rfl⟩
    obtain ⟨c, rfl⟩ := hone
    refine apply_yields ⟨.constructor, .splat, .convert⟩ rfl rfl
      ⟨hadvances.trans hadvances', fun statics h => ?_⟩
    cases hcs statics (hadvances'.statics.trans h) with
    | cons hc _ => exact .splat hc howner hlast hshaped hscalar htype
  | index hb hi _ helement _ ihBase ihIndex =>
    intro s
    obtain ⟨r, hr, hrule⟩ := indexRule helement
    refine Yields.bind (receiverAt_yields hb.type? hr (Yields.bind ((ihBase s).mono ?_)))
    rintro c s₁ ⟨hadvances, hc⟩
    split
    · exact (index_ne_tuple hi _ _ rfl).elim
    · refine Yields.bind ((ihIndex s₁).mono ?_)
      rintro d s' ⟨hadvances', hd⟩
      exact apply_yields _ hrule rfl ⟨hadvances.trans hadvances', fun statics h =>
        .index (hc statics (hadvances'.statics.trans h))
          (not_isLiteral hb (by rintro k rfl; cases helement)) (hd statics h) hb.type? helement⟩
  | matrixSwizzle hb hne hitems _ ih =>
    intro s
    refine Yields.bind (receiverAt_yields hb.type? rfl (Yields.bind ((ih s).mono ?_)))
    rintro c s₁ ⟨hadvances, hc⟩
    refine Yields.bind ((selectors_yields hitems s₁).mono ?_)
    rintro text s' ⟨rfl, rfl⟩
    exact apply_yields ⟨.matrix, .matrixSwizzle, .select⟩ rfl rfl
      ⟨hadvances, fun statics h =>
        .matrixSwizzle (hc statics h) (not_isLiteral hb nofun) hb.type? hne hitems⟩
  | paren _ _ ih =>
    intro s
    refine Yields.bind ((ih s).mono ?_)
    rintro c s' ⟨hadvances, hc⟩
    exact .pure ⟨hadvances, fun statics h => .paren (hc statics h)⟩
  | choice _ _ _ _ ihCondition ihYes ihNo =>
    intro s
    refine Yields.bind ((ihCondition s).mono ?_)
    rintro c s₁ ⟨hadvances, hc⟩
    refine Yields.bind ((ihYes s₁).mono ?_)
    rintro y s₂ ⟨hadvances', hy⟩
    refine Yields.bind ((ihNo s₂).mono ?_)
    rintro n s' ⟨hadvances'', hn⟩
    exact .pure ⟨(hadvances.trans hadvances').trans hadvances'', fun statics h =>
      .choice (hc statics ((hadvances'.trans hadvances'').statics.trans h))
        (hy statics (hadvances''.statics.trans h)) (hn statics h)⟩
  | nil => exact fun s => .pure ⟨.refl s, fun _ _ => .nil⟩
  | cons _ _ ihFirst ihRest =>
    intro s
    refine Yields.bind ((ihFirst s).mono ?_)
    rintro c s₁ ⟨hadvances, hc⟩
    refine Yields.bind ((ihRest s₁).mono ?_)
    rintro cs s' ⟨hadvances', hcs⟩
    exact .pure ⟨hadvances.trans hadvances', fun statics h =>
      .cons (hc statics (hadvances'.statics.trans h)) (hcs statics h)⟩

end Lower

end ComputeKernel.Shader
