import ComputeKernel.Proofs.Typing.Outline

/-!
Closures that differ in assignments. Two closures are alike but for some assignments; where each of
these is accepted, in whatever state it is checked, if its counterpart is, and leaves the same locals
behind, one closure is accepted if the other is.
-/

namespace ComputeKernel

/-- Two parts the other way round. -/
def Pair.swap : Pair → Pair
  | .expr e e' => .expr e' e
  | .exprs es es' => .exprs es' es
  | .initial value value' => .initial value' value
  | .stmt s s' => .stmt s' s
  | .stmts body body' => .stmts body' body
  | .block b b' => .block b' b
  | .optional b b' => .optional b' b

mutual

theorem Expr.alike_refl : ∀ e : Expr, e.Alike e
  | .literal .. => .literal trivial
  | .name .. => .name trivial
  | .path .. => .path trivial
  | .unary _ _ e => .unary trivial e.alike_refl
  | .binary _ _ l r => .binary trivial l.alike_refl r.alike_refl
  | .cast _ e _ => .cast trivial e.alike_refl rfl
  | .field _ e _ => .field trivial e.alike_refl rfl
  | .method _ e _ args => .method trivial e.alike_refl rfl (allAlike_refl args)
  | .call _ _ _ args => .call trivial (allAlike_refl args)
  | .index _ base i => .index trivial base.alike_refl i.alike_refl
  | .tuple _ items => .tuple trivial (allAlike_refl items)
  | .paren _ e => .paren trivial e.alike_refl
  | .choice _ condition yes no =>
    .choice trivial condition.alike_refl yes.alike_refl no.alike_refl

theorem Expr.allAlike_refl : ∀ es : List Expr, Expr.AllAlike es es
  | [] => .noExprs
  | e :: es => .moreExprs e.alike_refl (allAlike_refl es)

end

theorem Alike.symm {p : Pair} (h : Alike Span.Any p) : Alike Span.Any p.swap := by
  induction h with
  | literal _ => exact .literal trivial
  | name _ => exact .name trivial
  | path _ => exact .path trivial
  | unary _ _ ih => exact .unary trivial ih
  | binary _ _ _ ihl ihr => exact .binary trivial ihl ihr
  | cast _ _ htype ih => exact .cast trivial ih htype.symm
  | field _ _ hmember ih => exact .field trivial ih hmember.symm
  | method _ _ hmember _ ih ihargs => exact .method trivial ih hmember.symm ihargs
  | call _ _ ih => exact .call trivial ih
  | index _ _ _ ihbase ih => exact .index trivial ihbase ih
  | tuple _ _ ih => exact .tuple trivial ih
  | paren _ _ ih => exact .paren trivial ih
  | choice _ _ _ _ ihc ihy ihn => exact .choice trivial ihc ihy ihn
  | noExprs => exact .noExprs
  | moreExprs _ _ ih ihs => exact .moreExprs ih ihs
  | noInitial => exact .noInitial
  | someInitial _ ih => exact .someInitial ih
  | «let» _ htext htype _ ih => exact .let trivial htext.symm htype.symm ih
  | assign _ _ ihplace ih => exact .assign ihplace ih
  | «if» _ _ _ ihc ihbody ih => exact .if ihc ihbody ih
  | «for» _ htext _ _ _ ihstart ihstop ih => exact .for trivial htext.symm ihstart ihstop ih
  | «while» _ _ ihc ih => exact .while ihc ih
  | loop _ ih => exact .loop ih
  | jump => exact .jump
  | eval _ ih => exact .eval ih
  | nested _ ih => exact .nested ih
  | noStmts => exact .noStmts
  | moreStmts _ _ ih ihs => exact .moreStmts ih ihs
  | block _ ih => exact .block ih
  | noBlock => exact .noBlock
  | someBlock _ ih => exact .someBlock ih

/-- Whether two parts differ in their ranges only, but for assignments, which are as in `L`. -/
inductive AlikeBut (L : Stmt → Stmt → Prop) : Pair → Prop where
  | assign {s s' op op' place place' value value'} :
      L (.assign s op place value) (.assign s' op' place' value') →
      AlikeBut L (.stmt (.assign s op place value) (.assign s' op' place' value'))
  | let {s s' mutable name name' type type' value value'} : name.text = name'.text →
      type.map TypeRef.type = type'.map TypeRef.type → Alike Span.Any (.initial value value') →
      AlikeBut L (.stmt (.let s mutable name type value) (.let s' mutable name' type' value'))
  | if {s s' condition condition' body body' otherwise otherwise'} :
      Expr.Alike condition condition' → AlikeBut L (.block body body') →
      AlikeBut L (.optional otherwise otherwise') →
      AlikeBut L (.stmt (.if s condition body otherwise) (.if s' condition' body' otherwise'))
  | for {s s' counter counter' start start' stop stop' inclusive body body'} :
      counter.text = counter'.text → Expr.Alike start start' → Expr.Alike stop stop' →
      AlikeBut L (.block body body') →
      AlikeBut L
        (.stmt (.for s counter start stop inclusive body)
          (.for s' counter' start' stop' inclusive body'))
  | while {s s' condition condition' body body'} : Expr.Alike condition condition' →
      AlikeBut L (.block body body') →
      AlikeBut L (.stmt (.while s condition body) (.while s' condition' body'))
  | loop {s s' body body'} : AlikeBut L (.block body body') →
      AlikeBut L (.stmt (.loop s body) (.loop s' body'))
  | jump {s s' kind} : AlikeBut L (.stmt (.jump s kind) (.jump s' kind))
  | eval {s s' value value'} : Expr.Alike value value' →
      AlikeBut L (.stmt (.eval s value) (.eval s' value'))
  | nested {s s' body body'} : AlikeBut L (.block body body') →
      AlikeBut L (.stmt (.nested s body) (.nested s' body'))
  | noStmts : AlikeBut L (.stmts [] [])
  | moreStmts {s s' stmts stmts'} : AlikeBut L (.stmt s s') → AlikeBut L (.stmts stmts stmts') →
      AlikeBut L (.stmts (s :: stmts) (s' :: stmts'))
  | block {s s' stmts stmts'} : AlikeBut L (.stmts stmts stmts') →
      AlikeBut L (.block ⟨s, stmts⟩ ⟨s', stmts'⟩)
  | noBlock : AlikeBut L (.optional none none)
  | someBlock {b b'} : AlikeBut L (.block b b') → AlikeBut L (.optional (some b) (some b'))

theorem AlikeBut.symm {L : Stmt → Stmt → Prop} {p : Pair} (h : AlikeBut L p) :
    AlikeBut (fun st st' => L st' st) p.swap := by
  induction h with
  | assign hL => exact .assign hL
  | «let» htext htype hvalue => exact .let htext.symm htype.symm hvalue.symm
  | «if» hcondition _ _ ihbody ih => exact .if hcondition.symm ihbody ih
  | «for» htext hstart hstop _ ih => exact .for htext.symm hstart.symm hstop.symm ih
  | «while» hcondition _ ih => exact .while hcondition.symm ih
  | loop _ ih => exact .loop ih
  | jump => exact .jump
  | eval hvalue => exact .eval hvalue.symm
  | nested _ ih => exact .nested ih
  | noStmts => exact .noStmts
  | moreStmts _ _ ih ihs => exact .moreStmts ih ihs
  | block _ ih => exact .block ih
  | noBlock => exact .noBlock
  | someBlock _ ih => exact .someBlock ih

namespace Check

/-! ### Where a statement is checked -/

/-- The states in which the statements of a part are checked, if it is checked from `s`. -/
inductive Visits (catalog : Catalog) : Checking → StmtJudgment → Checking → Stmt → Prop where
  | here {s st} : Visits catalog s (.stmt st) s st
  | first {s s₁ stmt stmts st} : Visits catalog s (.stmt stmt) s₁ st →
      Visits catalog s (.stmts (stmt :: stmts)) s₁ st
  | rest {s s₁ s₂ stmt stmts st} : ChecksStmt catalog s (.stmt stmt) s₁ →
      Visits catalog s₁ (.stmts stmts) s₂ st → Visits catalog s (.stmts (stmt :: stmts)) s₂ st
  | block {s s₁ span stmts st} : Visits catalog s.openScope (.stmts stmts) s₁ st →
      Visits catalog s (.block ⟨span, stmts⟩) s₁ st
  | body {s s₁ s₂ span condition c body otherwise st} : Checks catalog s (.expr condition c) s₁ →
      Visits catalog s₁ (.block body) s₂ st →
      Visits catalog s (.stmt (.if span condition body otherwise)) s₂ st
  | otherwise {s s₁ s₂ s₃ span condition c body otherwise st} :
      Checks catalog s (.expr condition c) s₁ → ChecksStmt catalog s₁ (.block body) s₂ →
      Visits catalog s₂ (.block otherwise) s₃ st →
      Visits catalog s (.stmt (.if span condition body (some otherwise))) s₃ st
  | for {s s₁ s₂ s₃ s₄ span counter start stop inclusive body lo hi t st} :
      Checks catalog s (.expr start lo) s₁ → Checks catalog s₁ (.expr stop hi) s₂ →
      Unifies lo hi s₂ t s₃ → t.isInteger →
      Visits catalog ((s₃.openScope.declare counter t.type false t.family).enterLoop)
        (.block body) s₄ st →
      Visits catalog s (.stmt (.for span counter start stop inclusive body)) s₄ st
  | while {s s₁ s₂ span condition c body st} : Checks catalog s (.expr condition c) s₁ →
      Visits catalog s₁.enterLoop (.block body) s₂ st →
      Visits catalog s (.stmt (.while span condition body)) s₂ st
  | loop {s s₁ span body st} : Visits catalog s.enterLoop (.block body) s₁ st →
      Visits catalog s (.stmt (.loop span body)) s₁ st
  | nested {s s₁ span body st} : Visits catalog s (.block body) s₁ st →
      Visits catalog s (.stmt (.nested span body)) s₁ st

variable {catalog : Catalog} {s s₁ s' u : Checking} {st : Stmt}

theorem Visits.sound {j : StmtJudgment} (h : Visits catalog s j s₁ st) (hs : s.Sound) :
    s₁.Sound := by
  induction h with
  | here => exact hs
  | first _ ih | nested _ ih => exact ih hs
  | rest hfirst _ ih => exact ih (hfirst.sound hs)
  | block _ ih => exact ih hs.openScope
  | body hcondition _ ih => exact ih (hcondition.sound hs).2
  | otherwise hcondition hbody _ ih => exact ih (hbody.sound (hcondition.sound hs).2)
  | «for» hstart hstop hunify hinteger _ ih =>
    exact ih (sound_counted hstart hstop hunify hinteger hs _).2
  | «while» hcondition _ ih => exact ih (hcondition.sound hs).2.enterLoop
  | loop _ ih => exact ih hs.enterLoop

/-- Whether the parts of what is checked are laid out one behind the other. -/
def StmtJudgment.Laid : StmtJudgment → Prop
  | .stmt st => st.Laid
  | .stmts sts => ∃ lo hi, Stmt.AllLaid lo hi sts
  | .block b => b.Laid

theorem Visits.laid {j : StmtJudgment} (h : Visits catalog s j s₁ st) (hj : j.Laid) : st.Laid := by
  induction h with
  | here => exact hj
  | first _ ih =>
    obtain ⟨_, _, hfirst, _⟩ := hj
    exact ih hfirst
  | rest _ _ ih =>
    obtain ⟨_, _, _, _, _, hrest⟩ := hj
    exact ih ⟨_, _, hrest⟩
  | block _ ih => exact ih ⟨_, _, hj.2⟩
  | @body _ _ _ _ _ _ _ otherwise _ _ _ ih =>
    cases otherwise with
    | none => exact ih hj.2.1
    | some otherwise => exact ih hj.2.1
  | otherwise _ _ _ ih => exact ih hj.2.2.1
  | «for» _ _ _ _ _ ih => exact ih hj.2.2.1
  | «while» _ _ ih => exact ih hj.2.1
  | loop _ ih | nested _ ih => exact ih hj.1

/-! ### Replacing assignments -/

/-- Two parts as what is checked of them. -/
def StmtJudgment.AlikeBut (L : Stmt → Stmt → Prop) : StmtJudgment → StmtJudgment → Prop
  | .stmt st, .stmt st' => ComputeKernel.AlikeBut L (.stmt st st')
  | .stmts sts, .stmts sts' => ComputeKernel.AlikeBut L (.stmts sts sts')
  | .block b, .block b' => ComputeKernel.AlikeBut L (.block b b')
  | _, _ => False

namespace StmtJudgment.AlikeBut

variable {L : Stmt → Stmt → Prop} {k : StmtJudgment}

theorem exists_stmt {st : Stmt} (h : (StmtJudgment.stmt st).AlikeBut L k) :
    ∃ st', k = .stmt st' ∧ ComputeKernel.AlikeBut L (.stmt st st') := by
  cases k with
  | stmt st' => exact ⟨st', rfl, h⟩
  | stmts | block => cases h

theorem exists_stmts {sts : List Stmt} (h : (StmtJudgment.stmts sts).AlikeBut L k) :
    ∃ sts', k = .stmts sts' ∧ ComputeKernel.AlikeBut L (.stmts sts sts') := by
  cases k with
  | stmts sts' => exact ⟨sts', rfl, h⟩
  | stmt | block => cases h

theorem exists_block {b : Block} (h : (StmtJudgment.block b).AlikeBut L k) :
    ∃ b', k = .block b' ∧ ComputeKernel.AlikeBut L (.block b b') := by
  cases k with
  | block b' => exact ⟨b', rfl, h⟩
  | stmt | stmts => cases h

end StmtJudgment.AlikeBut

/-- Whether assignments that are as in `L` go the same way wherever they are checked: what the first
one leaves behind of the locals, the second one does. -/
def Agree (catalog : Catalog) (L : Stmt → Stmt → Prop) (s u : Checking) (j k : StmtJudgment) :
    Prop :=
  ∀ s₁ u₁ st st', L st st' → Visits catalog s j s₁ st → Visits catalog u k u₁ st' →
    s₁.outline = u₁.outline → ∀ s₂, ChecksStmt catalog s₁ (.stmt st) s₂ →
    ∃ u₂, ChecksStmt catalog u₁ (.stmt st') u₂ ∧ s₂.outline = u₂.outline

theorem outline_openScope (h : s.outline = u.outline) : s.openScope.outline = u.openScope.outline :=
  congrArg (fun o : Outline => { o with scopes := [] :: o.scopes }) h

theorem outline_closeScope (h : s.outline = u.outline) :
    s.closeScope.outline = u.closeScope.outline :=
  congrArg (fun o : Outline => { o with scopes := o.scopes.drop 1 }) h

theorem outline_enterLoop (h : s.outline = u.outline) : s.enterLoop.outline = u.enterLoop.outline :=
  congrArg (fun o : Outline => { o with loops := o.loops + 1 }) h

theorem outline_leaveLoop (h : s.outline = u.outline) : s.leaveLoop.outline = u.leaveLoop.outline :=
  congrArg (fun o : Outline => { o with loops := o.loops - 1 }) h

theorem Declares.of_eq {type type' : TypeRef} {t : Ty} (h : Declares type t)
    (htype : type.type = type'.type) : Declares type' t := ⟨htype ▸ h.1, h.2⟩

theorem Checks.exists_alike {e e' : Expr} {t : Typed} (h : Checks catalog s (.expr e t) s')
    (he : Expr.Alike e e') (ho : s.outline = u.outline) :
    ∃ u', Checks catalog u (.expr e' t) u' ∧ s'.outline = u'.outline := by
  obtain ⟨u', h', ho', _⟩ := h.carried e' u he ho
  exact ⟨u', h', ho'⟩

theorem ChecksStmt.replaced {L : Stmt → Stmt → Prop} {j k : StmtJudgment}
    (h : ChecksStmt catalog s j s') (hk : j.AlikeBut L k) (ho : s.outline = u.outline)
    (hL : Agree catalog L s u j k) : ∃ u', ChecksStmt catalog u k u' ∧ s'.outline = u'.outline := by
  induction h generalizing k u with
  | declare hdeclares =>
    obtain ⟨_, rfl, hk⟩ := hk.exists_stmt
    cases hk with
    | «let» htext htype hvalue =>
      cases hvalue
      obtain ⟨type', rfl, ht⟩ := Option.map_eq_some_iff.mp htype.symm
      refine ⟨_, .declare (hdeclares.of_eq ht.symm), ?_⟩
      rw [Checking.outline_declare, Checking.outline_declare, htext, ho]
  | annotated hvalue hdeclares hfits =>
    obtain ⟨_, rfl, hk⟩ := hk.exists_stmt
    cases hk with
    | «let» htext htype he =>
      cases he with
      | someInitial he =>
        obtain ⟨type', rfl, ht⟩ := Option.map_eq_some_iff.mp htype.symm
        obtain ⟨u₁, hvalue', ho₁⟩ := hvalue.exists_alike he ho
        refine ⟨_, .annotated hvalue' (hdeclares.of_eq ht.symm) hfits, ?_⟩
        rw [Checking.outline_declare, Checking.outline_declare, htext,
          Checking.settle_outline ho₁]
  | inferred hvalue hlocal =>
    obtain ⟨_, rfl, hk⟩ := hk.exists_stmt
    cases hk with
    | «let» htext htype he =>
      cases he with
      | someInitial he =>
        obtain rfl := Option.map_eq_none_iff.mp htype.symm
        obtain ⟨u₁, hvalue', ho₁⟩ := hvalue.exists_alike he ho
        refine ⟨_, .inferred hvalue' hlocal, ?_⟩
        rw [Checking.outline_declare, Checking.outline_declare, htext, ho₁]
  | assign hplace hvalue hassignable hassigns =>
    obtain ⟨_, rfl, hk⟩ := hk.exists_stmt
    cases hk with
    | assign hLst =>
      exact hL _ _ _ _ hLst .here .here ho _ (.assign hplace hvalue hassignable hassigns)
  | ifOnly hcondition hbool _ ih =>
    obtain ⟨_, rfl, hk⟩ := hk.exists_stmt
    cases hk with
    | «if» hc hbody hnone =>
      cases hnone
      obtain ⟨u₁, hcondition', ho₁⟩ := hcondition.exists_alike hc ho
      obtain ⟨u', hbody', ho'⟩ := ih (k := .block _) hbody ho₁ fun _ _ _ _ hst hv hv' =>
        hL _ _ _ _ hst (.body hcondition hv) (.body hcondition' hv')
      exact ⟨u', .ifOnly hcondition' hbool hbody', ho'⟩
  | ifElse hcondition hbool hthen _ ihBody ih =>
    obtain ⟨_, rfl, hk⟩ := hk.exists_stmt
    cases hk with
    | «if» hc hbody hsome =>
      cases hsome with
      | someBlock helse =>
        obtain ⟨u₁, hcondition', ho₁⟩ := hcondition.exists_alike hc ho
        obtain ⟨u₂, hbody', ho₂⟩ := ihBody (k := .block _) hbody ho₁ fun _ _ _ _ hst hv hv' =>
          hL _ _ _ _ hst (.body hcondition hv) (.body hcondition' hv')
        obtain ⟨u', helse', ho'⟩ := ih (k := .block _) helse ho₂ fun _ _ _ _ hst hv hv' =>
          hL _ _ _ _ hst (.otherwise hcondition hthen hv) (.otherwise hcondition' hbody' hv')
        exact ⟨u', .ifElse hcondition' hbool hbody' helse', ho'⟩
  | «for» hstart hstop hunify hinteger _ ih =>
    obtain ⟨_, rfl, hk⟩ := hk.exists_stmt
    cases hk with
    | @«for» _ _ _ counter' _ _ _ _ _ _ _ htext hlo hhi hbody =>
      obtain ⟨u₁, hstart', ho₁⟩ := hstart.exists_alike hlo ho
      obtain ⟨u₂, hstop', ho₂⟩ := hstop.exists_alike hhi ho₁
      obtain ⟨u₃, hunify', ho₃⟩ := hunify.carry ho₂
      obtain ⟨u', hbody', ho'⟩ := ih (k := .block _) hbody (outline_enterLoop (by
        rw [Checking.outline_declare, Checking.outline_declare, htext, outline_openScope ho₃]))
        fun _ _ _ _ hst hv hv' => hL _ _ _ _ hst (.for hstart hstop hunify hinteger hv)
          (.for hstart' hstop' hunify' hinteger hv')
      exact ⟨_, .for hstart' hstop' hunify' hinteger hbody',
        outline_closeScope (outline_leaveLoop ho')⟩
  | «while» hcondition hbool _ ih =>
    obtain ⟨_, rfl, hk⟩ := hk.exists_stmt
    cases hk with
    | «while» hc hbody =>
      obtain ⟨u₁, hcondition', ho₁⟩ := hcondition.exists_alike hc ho
      obtain ⟨u', hbody', ho'⟩ := ih (k := .block _) hbody (outline_enterLoop ho₁)
        fun _ _ _ _ hst hv hv' =>
          hL _ _ _ _ hst (.while hcondition hv) (.while hcondition' hv')
      exact ⟨_, .while hcondition' hbool hbody', outline_leaveLoop ho'⟩
  | loop _ ih =>
    obtain ⟨_, rfl, hk⟩ := hk.exists_stmt
    cases hk with
    | loop hbody =>
      obtain ⟨u', hbody', ho'⟩ := ih (k := .block _) hbody (outline_enterLoop ho)
        fun _ _ _ _ hst hv hv' => hL _ _ _ _ hst (.loop hv) (.loop hv')
      exact ⟨_, .loop hbody', outline_leaveLoop ho'⟩
  | @jump s _ _ hjump =>
    obtain ⟨_, rfl, hk⟩ := hk.exists_stmt
    cases hk with
    | jump =>
      have hloops : s.loops = u.loops := congrArg Outline.loops ho
      exact ⟨u, .jump (hloops ▸ hjump), ho⟩
  | eval hvalue =>
    obtain ⟨_, rfl, hk⟩ := hk.exists_stmt
    cases hk with
    | eval he =>
      obtain ⟨u', hvalue', ho'⟩ := hvalue.exists_alike he ho
      exact ⟨u', .eval hvalue', ho'⟩
  | nested _ ih =>
    obtain ⟨_, rfl, hk⟩ := hk.exists_stmt
    cases hk with
    | nested hbody =>
      obtain ⟨u', hbody', ho'⟩ := ih (k := .block _) hbody ho fun _ _ _ _ hst hv hv' =>
        hL _ _ _ _ hst (.nested hv) (.nested hv')
      exact ⟨u', .nested hbody', ho'⟩
  | nil =>
    obtain ⟨_, rfl, hk⟩ := hk.exists_stmts
    cases hk
    exact ⟨u, .nil, ho⟩
  | cons hfirst _ ih ihs =>
    obtain ⟨_, rfl, hk⟩ := hk.exists_stmts
    cases hk with
    | moreStmts hst hsts =>
      obtain ⟨u₁, hfirst', ho₁⟩ := ih (k := .stmt _) hst ho fun _ _ _ _ hst hv hv' =>
        hL _ _ _ _ hst (.first hv) (.first hv')
      obtain ⟨u', hrest', ho'⟩ := ihs (k := .stmts _) hsts ho₁ fun _ _ _ _ hst hv hv' =>
        hL _ _ _ _ hst (.rest hfirst hv) (.rest hfirst' hv')
      exact ⟨u', .cons hfirst' hrest', ho'⟩
  | block _ ih =>
    obtain ⟨_, rfl, hk⟩ := hk.exists_block
    cases hk with
    | block hsts =>
      obtain ⟨u', hbody', ho'⟩ := ih (k := .stmts _) hsts (outline_openScope ho)
        fun _ _ _ _ hst hv hv' => hL _ _ _ _ hst (.block hv) (.block hv')
      exact ⟨_, .block hbody', outline_closeScope ho'⟩

end Check

end ComputeKernel
