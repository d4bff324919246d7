import ComputeKernel.Proofs.Shader.Accounts
import ComputeKernel.Proofs.Shader.Lowering

/-!
The translation of statements as a relation. What a statement becomes follows its tree; the relation
says it without the state, against the statics that have been met in the end, and lists the bounds of
loops that got variables of their own, each with the local that counts up to it. Whatever the model
covers has a translation, and the pool accounts for the names in it.
-/

namespace ComputeKernel.Shader

open Check (Covers StmtJudgment CoversStmt)
open Lower (nameOf)

/-- Whether the model has a local for a name that is declared, under an identifier. -/
structure Context.Declares (ctx : Context) (name : Name) (id : Nat) (l : Local) (ident : String) :
    Prop where
  referent : ctx.model.referent? name.span = some (.local id)
  local? : ctx.model.local? id = some l
  ident : ctx.localNames[id]? = some ident

/-- Whether a pool gives out a name for the bound of a counter. -/
def BoundName (ident bound : String) : Prop :=
  ∃ pool : NamePool, bound = (pool.allocate s!"{ident}_end").1

/-- What statements become, with the bounds that got variables. -/
inductive LowersStmt (ctx : Context) (catalog : Catalog) (statics : List StaticUse) :
    StmtJudgment → List Stmt → List (Nat × String) → Prop where
  | declare {span mutable name type id l ident} : ctx.Declares name id l ident →
      LowersStmt ctx catalog statics (.stmt (.let span mutable name type none))
        [.declare (nameOf ctx l.type.toHost) ident none] []
  | set {span mutable name type e id l ident c} : ctx.Declares name id l ident →
      Lowers ctx catalog statics (.expr e c) →
      LowersStmt ctx catalog statics (.stmt (.let span mutable name type (some e)))
        [.declare (nameOf ctx l.type.toHost) ident (some c)] []
  | assign {span op place value c d} : Lowers ctx catalog statics (.expr place c) →
      Lowers ctx catalog statics (.expr value d) →
      LowersStmt ctx catalog statics (.stmt (.assign span op place value)) [.assign c op d] []
  | ifOnly {span condition body c code bounds} : Lowers ctx catalog statics (.expr condition c) →
      LowersStmt ctx catalog statics (.block body) code bounds →
      LowersStmt ctx catalog statics (.stmt (.if span condition body none)) [.branch c code none]
        bounds
  | ifElse {span condition body otherwise c code code' bounds bounds'} :
      Lowers ctx catalog statics (.expr condition c) →
      LowersStmt ctx catalog statics (.block body) code bounds →
      LowersStmt ctx catalog statics (.block otherwise) code' bounds' →
      LowersStmt ctx catalog statics (.stmt (.if span condition body (some otherwise)))
        [.branch c code (some code')] (bounds ++ bounds')
  | for {span counter start stop inclusive body id l ident c d code bounds} :
      ctx.Declares counter id l ident → Lowers ctx catalog statics (.expr start c) →
      Lowers ctx catalog statics (.expr stop d) → Lower.isInvariant ctx.model stop →
      LowersStmt ctx catalog statics (.block body) code bounds →
      LowersStmt ctx catalog statics (.stmt (.for span counter start stop inclusive body))
        [.count (nameOf ctx l.type.toHost) ident c inclusive (d.atLeast (relationalRank + 1)) code]
        bounds
  | hoisted {span counter start stop inclusive body id l ident bound c d code bounds} :
      ctx.Declares counter id l ident → Lowers ctx catalog statics (.expr start c) →
      Lowers ctx catalog statics (.expr stop d) → ¬ Lower.isInvariant ctx.model stop →
      BoundName ident bound → LowersStmt ctx catalog statics (.block body) code bounds →
      LowersStmt ctx catalog statics (.stmt (.for span counter start stop inclusive body))
        [.declare (nameOf ctx l.type.toHost) bound (some d),
          .count (nameOf ctx l.type.toHost) ident c inclusive (.var bound) code]
        ((id, bound) :: bounds)
  | while {span condition body c code bounds} : Lowers ctx catalog statics (.expr condition c) →
      LowersStmt ctx catalog statics (.block body) code bounds →
      LowersStmt ctx catalog statics (.stmt (.while span condition body)) [.while c code] bounds
  | loop {span body code bounds} : LowersStmt ctx catalog statics (.block body) code bounds →
      LowersStmt ctx catalog statics (.stmt (.loop span body)) [.while (.literal "true") code] bounds
  | jump {span kind} : LowersStmt ctx catalog statics (.stmt (.jump span kind)) [.jump kind] []
  | eval {span e c} : Lowers ctx catalog statics (.expr e c) →
      LowersStmt ctx catalog statics (.stmt (.eval span e)) [.eval c] []
  | nested {span body code bounds} : LowersStmt ctx catalog statics (.block body) code bounds →
      LowersStmt ctx catalog statics (.stmt (.nested span body)) [.nested code] bounds
  | nil : LowersStmt ctx catalog statics (.stmts []) [] []
  | cons {st sts code code' bounds bounds'} : LowersStmt ctx catalog statics (.stmt st) code bounds →
      LowersStmt ctx catalog statics (.stmts sts) code' bounds' →
      LowersStmt ctx catalog statics (.stmts (st :: sts)) (code ++ code') (bounds ++ bounds')
  | block {span sts code bounds} : LowersStmt ctx catalog statics (.stmts sts) code bounds →
      LowersStmt ctx catalog statics (.block ⟨span, sts⟩) code bounds

namespace Lower

variable {ctx : Context} {catalog : Catalog}

/-- What the translation of an expression leaves behind a state. -/
structure Passes (ctx : Context) (catalog : Catalog) (e : ComputeKernel.Expr) (s : Progress)
    (c : Expr) (s' : Progress) : Prop where
  advances : Advances ctx s s'
  lowers : ∀ statics, s'.statics <+: statics → Lowers ctx catalog statics (.expr e c)
  gives : s.Gives [] s'

/-- What the translation of statements leaves behind a state. -/
structure Proceeds (ctx : Context) (catalog : Catalog) (j : StmtJudgment) (s : Progress)
    (code : List Stmt) (s' : Progress) (bounds : List (Nat × String)) : Prop where
  advances : Advances ctx s s'
  lowers : ∀ statics, s'.statics <+: statics → LowersStmt ctx catalog statics j code bounds
  gives : s.Gives (bounds.map (·.2)) s'

/-- The translation of a part of a body. -/
def code (ctx : Context) : StmtJudgment → Lower (List Stmt)
  | .stmt st => stmt ctx st
  | .stmts sts => stmts ctx sts
  | .block b => block ctx b

theorem expr_yields (hctx : ctx.Fits catalog) {e : ComputeKernel.Expr} {t : Ty}
    (h : Covers catalog ctx.model (.expr e t)) (s : Progress) :
    Yields (expr ctx e) s (Passes ctx catalog e s) :=
  ((translates_of_covers hctx h s).gives (expr_accounted ctx · · e)).mono
    fun _ _ ⟨⟨hadvances, hlowers⟩, hgives⟩ => ⟨hadvances, hlowers, hgives⟩

/-- A declared local has an identifier, and a type with a host's name. -/
theorem declared_yields (hctx : ctx.Fits catalog) (hlocals : ∀ l ∈ ctx.model.locals, l.Sound)
    {name : Name} (h : Check.Declared ctx.model name) (s : Progress) :
    Yields (declared ctx name.span) s fun found s' =>
      s' = s ∧ found.1.Sound ∧ ∃ id, ctx.Declares name id found.1 found.2 := by
  obtain ⟨id, l, hreferent, hl⟩ := h
  have hlt : id < ctx.localNames.length := by
    rw [hctx.locals]
    exact (List.getElem?_eq_some_iff.mp hl).1
  have hid := List.getElem?_eq_getElem hlt
  unfold declared
  rw [hreferent]
  exact Yields.bind (.require hl (Yields.bind (.require hid
    (.pure ⟨rfl, hlocals l (List.mem_of_getElem? hl), id, hreferent, hl, hid⟩))))

theorem ofHost?_toHost_of_sound {l : Local} (hl : l.Sound) :
    Ty.ofHost? l.type.toHost = some l.type := by
  have hlocal := hl.isLocal
  have hshaped := hl.shaped
  cases htype : l.type with
  | value v =>
    rw [htype] at hshaped
    exact Ty.ofHost?_toHost hshaped
  | threadIds => exact Ty.ofHost?_toHost_threadIds
  | _ => simp [htype, Check.isLocalType, Ty.isValue, Ty.value?] at hlocal

theorem localTypeName_yields {l : Local} (hl : l.Sound) (span : Span) (s : Progress) :
    Yields (typeName ctx l.type.toHost span) s fun name s' => Advances ctx s s' ∧
      name = nameOf ctx l.type.toHost ∧ s.Gives [] s' :=
  ((typeName_yields ctx _ (ofHost?_toHost_of_sound hl) hl.isLocal span s).gives
    fun _ _ => typeName_accounted _ _).mono fun _ _ ⟨⟨hadvances, hname⟩, hgives⟩ =>
      ⟨hadvances, hname, hgives⟩

variable (ctx) in
theorem advances_allocate (s : Progress) (base : String) :
    Advances ctx s { s with pool := (s.pool.allocate base).2 } :=
  ⟨List.prefix_refl _, id, fun _ => rfl⟩

/-- Statements that the model covers have a translation. -/
theorem proceeds_of_covers (hctx : ctx.Fits catalog) (hlocals : ∀ l ∈ ctx.model.locals, l.Sound)
    {j : StmtJudgment} (h : CoversStmt catalog ctx.model j) :
    ∀ s, Yields (code ctx j) s fun code s' => ∃ bounds, Proceeds ctx catalog j s code s' bounds := by
  induction h with
  | @«let» _ _ name _ value hdeclared hvalue =>
    intro s
    refine Yields.bind ((declared_yields hctx hlocals hdeclared s).mono ?_)
    rintro ⟨l, ident⟩ _ ⟨rfl, hl, id, hdeclares⟩
    refine Yields.bind ((localTypeName_yields hl _ _).mono ?_)
    rintro _ s₁ ⟨h₁, rfl, hgives₁⟩
    cases value with
    | none => exact .pure ⟨[], h₁, fun _ _ => .declare hdeclares, hgives₁⟩
    | some e =>
      obtain ⟨t, he⟩ := hvalue e rfl
      refine Yields.bind (Yields.bind ((expr_yields hctx he s₁).mono fun c s' h' => .pure (.pure ?_)))
      exact ⟨[], h₁.trans h'.advances, fun statics hstatics => .set hdeclares (h'.lowers _ hstatics),
        hgives₁.trans h'.gives⟩
  | @assign span op _ _ _ _ hplace hvalue hop =>
    intro s
    have hrest : Yields (do
        let target ← expr ctx _
        return [Stmt.assign target op (← expr ctx _)]) s fun code s' =>
          ∃ bounds, Proceeds ctx catalog (.stmt (.assign span op _ _)) s code s' bounds :=
      Yields.bind ((expr_yields hctx hplace s).mono fun c s₁ h₁ =>
        Yields.bind ((expr_yields hctx hvalue s₁).mono fun d s' h' => .pure
          ⟨[], h₁.advances.trans h'.advances, fun statics hstatics =>
            .assign (h₁.lowers _ (h'.advances.statics.trans hstatics)) (h'.lowers _ hstatics),
            h₁.gives.trans h'.gives⟩))
    cases op with
    | none => exact hrest
    | some op => exact Yields.bind (checkOperator_yields hplace.type? hvalue.type? (hop op rfl) hrest)
  | @«if» _ _ _ otherwise _ hcondition _ _ ihBody ihOtherwise =>
    intro s
    refine Yields.bind ((expr_yields hctx hcondition s).mono fun c s₁ h₁ => ?_)
    refine Yields.bind ((ihBody s₁).mono ?_)
    rintro code s₂ ⟨bounds, h₂⟩
    cases otherwise with
    | none =>
      exact .pure ⟨bounds, h₁.advances.trans h₂.advances, fun statics hstatics =>
        .ifOnly (h₁.lowers _ (h₂.advances.statics.trans hstatics)) (h₂.lowers _ hstatics),
        h₁.gives.trans h₂.gives⟩
    | some b =>
      refine Yields.bind (Yields.bind ((ihOtherwise b rfl s₂).mono ?_))
      rintro code' s' ⟨bounds', h'⟩
      refine .pure (.pure ⟨bounds ++ bounds', (h₁.advances.trans h₂.advances).trans h'.advances,
        fun statics hstatics => ?_, ?_⟩)
      · have hstatics₂ := h'.advances.statics.trans hstatics
        exact .ifElse (h₁.lowers _ (h₂.advances.statics.trans hstatics₂)) (h₂.lowers _ hstatics₂)
          (h'.lowers _ hstatics)
      · rw [List.map_append]
        exact (h₁.gives.trans h₂.gives).trans h'.gives
  | «for» hdeclared hstart hstop _ ihBody =>
    intro s
    refine Yields.bind ((declared_yields hctx hlocals hdeclared s).mono ?_)
    rintro ⟨l, ident⟩ _ ⟨rfl, hl, id, hdeclares⟩
    refine Yields.bind ((localTypeName_yields hl _ _).mono ?_)
    rintro _ s₁ ⟨h₁, rfl, hgives₁⟩
    refine Yields.bind ((expr_yields hctx hstart s₁).mono fun c s₂ h₂ => ?_)
    refine Yields.bind ((expr_yields hctx hstop s₂).mono fun d s₃ h₃ => ?_)
    have hfront := (h₁.trans h₂.advances).trans h₃.advances
    have hgives := (hgives₁.trans h₂.gives).trans h₃.gives
    split
    · rename_i hinvariant
      refine Yields.bind ((ihBody s₃).mono ?_)
      rintro code s' ⟨bounds, h'⟩
      refine .pure ⟨bounds, hfront.trans h'.advances, fun statics hstatics => ?_,
        hgives.trans h'.gives⟩
      have hstatics₃ := h'.advances.statics.trans hstatics
      exact .for hdeclares (h₂.lowers _ (h₃.advances.statics.trans hstatics₃))
        (h₃.lowers _ hstatics₃) hinvariant (h'.lowers _ hstatics)
    · rename_i hinvariant
      refine Yields.bind ((allocate_yields _ s₃).mono ?_)
      rintro bound _ ⟨rfl, rfl⟩
      refine Yields.bind ((ihBody _).mono ?_)
      rintro code s' ⟨bounds, h'⟩
      have hbound := advances_allocate ctx s₃ s!"{ident}_end"
      refine .pure ⟨(id, (s₃.pool.allocate s!"{ident}_end").1) :: bounds,
        (hfront.trans hbound).trans h'.advances, fun statics hstatics => ?_,
        (hgives.trans (.allocate s₃ _)).trans h'.gives⟩
      have hstatics₃ := (hbound.trans h'.advances).statics.trans hstatics
      exact .hoisted hdeclares (h₂.lowers _ (h₃.advances.statics.trans hstatics₃))
        (h₃.lowers _ hstatics₃) hinvariant ⟨_, rfl⟩ (h'.lowers _ hstatics)
  | «while» hcondition _ ihBody =>
    intro s
    refine Yields.bind ((expr_yields hctx hcondition s).mono fun c s₁ h₁ => ?_)
    refine Yields.bind ((ihBody s₁).mono ?_)
    rintro code s' ⟨bounds, h'⟩
    exact .pure ⟨bounds, h₁.advances.trans h'.advances, fun statics hstatics =>
      .while (h₁.lowers _ (h'.advances.statics.trans hstatics)) (h'.lowers _ hstatics),
      h₁.gives.trans h'.gives⟩
  | loop _ ihBody =>
    refine fun s => Yields.bind ((ihBody s).mono ?_)
    rintro code s' ⟨bounds, h'⟩
    exact .pure ⟨bounds, h'.advances, fun statics hstatics => .loop (h'.lowers _ hstatics), h'.gives⟩
  | jump => exact fun s => .pure ⟨[], .refl s, fun _ _ => .jump, .refl s⟩
  | eval he =>
    exact fun s => Yields.bind ((expr_yields hctx he s).mono fun c s' h' => .pure
      ⟨[], h'.advances, fun statics hstatics => .eval (h'.lowers _ hstatics), h'.gives⟩)
  | nested _ ihBody =>
    refine fun s => Yields.bind ((ihBody s).mono ?_)
    rintro code s' ⟨bounds, h'⟩
    exact .pure ⟨bounds, h'.advances, fun statics hstatics => .nested (h'.lowers _ hstatics),
      h'.gives⟩
  | nil => exact fun s => .pure ⟨[], .refl s, fun _ _ => .nil, .refl s⟩
  | cons _ _ ihFirst ihRest =>
    intro s
    refine Yields.bind ((ihFirst s).mono ?_)
    rintro code s₁ ⟨bounds, h₁⟩
    refine Yields.bind ((ihRest s₁).mono ?_)
    rintro code' s' ⟨bounds', h'⟩
    refine .pure ⟨bounds ++ bounds', h₁.advances.trans h'.advances, fun statics hstatics =>
      .cons (h₁.lowers _ (h'.advances.statics.trans hstatics)) (h'.lowers _ hstatics), ?_⟩
    rw [List.map_append]
    exact h₁.gives.trans h'.gives
  | block _ ih =>
    refine fun s => (ih s).mono ?_
    rintro code s' ⟨bounds, h'⟩
    exact ⟨bounds, h'.advances, fun statics hstatics => .block (h'.lowers _ hstatics), h'.gives⟩

end Lower

end ComputeKernel.Shader
