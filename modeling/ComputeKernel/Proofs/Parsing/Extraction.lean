import ComputeKernel.Proofs.Parsing.Grammar

/-!
Quiet readings follow the grammar. Each reading function is taken apart from its first step to its
last; the recursion is on the reading steps that are left, and a reading that runs out of them is not
quiet.
-/

namespace ComputeKernel

namespace Parse

variable {α : Type}

/-! ### Types -/

theorem pathTail_quiet (fuel : Nat) :
    Quiet (pathTail fuel) fun c segments c' => ReadsType c (.tail segments) c' := by
  induction fuel with
  | zero => exact outOfSteps_quiet.abort fun _ => Quiet.pure fun _ => trivial
  | succ fuel ih =>
    refine (eatSymbol_quiet .colonColon).bind fun found => ?_
    cases found with
    | true =>
      refine identifier_quiet.bind fun segment => ih.bind fun rest => Quiet.pure ?_
      intro c' c₂ hrest c₁ ⟨hsegment, _, hc₂⟩ c ⟨hcolons, hc₁⟩
      subst hc₁ hc₂
      exact .tailMore hcolons hsegment hrest
    | false =>
      refine Quiet.pure fun c' c ⟨hcolons, hc⟩ => ?_
      subst hc
      exact .tailEnd hcolons

theorem closeAngle_quiet : Quiet closeAngle fun c _ c' => Closes c c' := by
  refine lexeme_quiet.bind fun l => ?_
  split
  · refine splitShift_quiet.mono fun c₁ _ c' hsplit c ⟨hl, hc⟩ => ?_
    subst hc
    exact Or.inl ⟨hl.symm, hsplit⟩
  · refine Quiet.discard ((expectSymbol_quiet .gt).mono fun c₁ _ c' ⟨hgt, _, hc'⟩ c ⟨_, hc⟩ => ?_)
    subst hc
    exact Or.inr ⟨hgt, hc'⟩

theorem types_quiet (fuel : Nat) :
    (Quiet (typeRef fuel) fun c t c' => ReadsType c (.type t) c') ∧
      Quiet (typeArgs fuel) fun c types c' => ReadsType c (.args types) c' := by
  induction fuel with
  | zero =>
    refine ⟨outOfSteps_quiet.abort fun _ => ?_, outOfSteps_quiet.abort fun _ => ?_⟩
    · exact here_quiet.bind fun _ => Quiet.pure fun _ _ _ => trivial
    · exact Quiet.pure fun _ => trivial
  | succ fuel ih =>
    obtain ⟨ihType, ihArgs⟩ := ih
    constructor
    · refine here_quiet.bind fun start => identifier_quiet.bind fun first =>
        (pathTail_quiet fuel).bind fun rest => ?_
      refine Quiet.bind (R := fun c args c' => (c.lexeme ≠ .symbol .lt ∧ args = [] ∧ c' = c) ∨
        (c.lexeme = .symbol .lt ∧ ∃ c₁, ReadsType c.advance (.args args) c₁ ∧ Closes c₁ c'))
        ?_ fun args => behind_quiet.bind fun stop => Quiet.pure ?_
      · refine (eatSymbol_quiet .lt).bind fun found => ?_
        cases found with
        | true =>
          refine ihArgs.bind fun args => closeAngle_quiet.bind fun _ => Quiet.pure ?_
          intro c' c₂ hclose c₁ hargs c ⟨hlt, hc₁⟩
          subst hc₁
          exact Or.inr ⟨hlt, c₂, hargs, hclose⟩
        | false => exact Quiet.pure fun c' c ⟨hlt, hc⟩ => Or.inl ⟨hlt, rfl, hc⟩
      · intro c' c₄ ⟨hstop, hc'⟩ c₃ hargs c₂ hrest c₁ ⟨hfirst, _, hc₁⟩ c ⟨hstart, hc⟩
        subst hc hc₁ hc' hstart hstop
        rcases hargs with ⟨hlt, rfl, rfl⟩ | ⟨hlt, c₅, hargs, hclose⟩
        · exact .plain hfirst hrest hlt
        · exact .generic hfirst hrest hlt hargs hclose
    · refine ihType.bind fun t => (eatSymbol_quiet .comma).bind fun found => ?_
      cases found with
      | true =>
        refine ihArgs.bind fun rest => Quiet.pure fun c' c₂ hrest c₁ ⟨hcomma, hc₂⟩ c ht => ?_
        subst hc₂
        exact .moreArgs ht hcomma hrest
      | false =>
        refine Quiet.pure fun c' c₁ ⟨hcomma, hc'⟩ c ht => ?_
        subst hc'
        exact .lastArg ht hcomma

theorem typeRef_quiet (fuel : Nat) :
    Quiet (typeRef fuel) fun c t c' => ReadsType c (.type t) c' := (types_quiet fuel).1

/-! ### Expressions -/

/-- What a quiet reading of expressions with `fuel` steps reads. -/
structure ExpressionsQuiet (fuel : Nat) : Prop where
  expression (floor : Nat) :
    Quiet (expression fuel floor) fun c e c' => Reads c (.expression floor e) c'
  operators (floor : Nat) (left : Expr) :
    Quiet (operators fuel floor left) fun c whole c' => Reads c (.operators floor left whole) c'
  operand : Quiet (operand fuel) fun c e c' => Reads c (.operand e) c'
  members (receiver : Expr) :
    Quiet (members fuel receiver) fun c whole c' => Reads c (.members receiver whole) c'
  primary : Quiet (primary fuel) fun c e c' => Reads c (.primary e) c'
  parenthesized : Quiet (parenthesized fuel) fun c e c' =>
    c.lexeme = .symbol .lparen ∧ Reads c (.primary e) c'
  tupleItems : Quiet (tupleItems fuel) fun c items c' => Reads c (.tupleItems items) c'
  conditional : Quiet (conditional fuel) fun c e c' =>
    c.lexeme = .keyword .if_ ∧ Reads c (.primary e) c'
  branch : Quiet (branch fuel) fun c e c' => Reads c (.branch e) c'
  arguments : Quiet (arguments fuel) fun c args c' => Reads c (.arguments args) c'
  argumentItems : Quiet (argumentItems fuel) fun c args c' => Reads c (.argumentItems args) c'

theorem outOfSteps_abort {f : Unit → Parse α} {T : Cursor → α → Cursor → Prop}
    (hf : Quiet (f ()) fun _ _ _ => True) : Quiet (outOfSteps >>= f) T :=
  outOfSteps_quiet.abort fun _ => hf

theorem missingExpr_quiet : Quiet (do return missingExpr (← here) : Parse Expr) fun _ _ _ => True :=
  here_quiet.bind fun _ => Quiet.pure fun _ _ _ => trivial

theorem ExpressionsQuiet.zero : ExpressionsQuiet 0 where
  expression _ := outOfSteps_abort missingExpr_quiet
  operators _ _ := outOfSteps_abort (Quiet.pure fun _ => trivial)
  operand := outOfSteps_abort missingExpr_quiet
  members _ := outOfSteps_abort (Quiet.pure fun _ => trivial)
  primary := outOfSteps_abort missingExpr_quiet
  parenthesized := outOfSteps_abort missingExpr_quiet
  tupleItems := outOfSteps_abort (Quiet.pure fun _ => trivial)
  conditional := outOfSteps_abort missingExpr_quiet
  branch := outOfSteps_abort missingExpr_quiet
  arguments := outOfSteps_abort (Quiet.pure fun _ => trivial)
  argumentItems := outOfSteps_abort (Quiet.pure fun _ => trivial)

theorem memberName_quiet : Quiet memberName fun c name c' =>
    c.lexeme = .ident name.text ∧ name.span = c.here ∧ c' = c.advance := by
  refine lexeme_quiet.bind fun l => ?_
  split
  · exact (faultWithHelp_quiet _ _).abort fun _ => here_quiet.bind fun _ =>
      advance_quiet.bind fun _ => Quiet.pure fun _ _ _ _ _ => trivial
  · refine identifier_quiet.mono fun c₁ name c' hname c ⟨_, hc⟩ => ?_
    subst hc
    exact hname

namespace ExpressionsQuiet

variable {fuel : Nat} (ih : ExpressionsQuiet fuel)

include ih

theorem expression_succ (floor : Nat) :
    Quiet (Parse.expression (fuel + 1) floor) fun c e c' => Reads c (.expression floor e) c' := by
  refine enter_quiet.bind fun opened => ?_
  cases opened with
  | true =>
    refine ih.operand.bind fun first => (ih.operators floor first).bind fun whole =>
      leave_quiet.bind fun _ => Quiet.pure ?_
    intro c' c₃ hc' c₂ hwhole c₁ hfirst c ⟨_, hdepth, hc₁⟩
    subst hc' hc₁
    exact .expression hdepth hfirst hwhole
  | false =>
    refine here_quiet.bind fun _ => (skipUntil_quiet _).bind fun _ => Quiet.pure ?_
    intro _ _ _ _ _ _ ⟨hopened, _⟩
    cases hopened

theorem operators_succ (floor : Nat) (left : Expr) :
    Quiet (Parse.operators (fuel + 1) floor left) fun c whole c' =>
      Reads c (.operators floor left whole) c' := by
  refine lexeme_quiet.bind fun l => ?_
  split
  · refine advance_quiet.bind fun _ => (typeRef_quiet fuel).bind fun type =>
      (ih.operators floor _).mono ?_
    intro c₂ whole c' hwhole c₁ htype c₀ hc₀ c ⟨hl, hc⟩
    subst hc hc₀
    exact .cast hl.symm htype hwhole
  · rename_i s
    split
    · rename_i hop
      refine Quiet.pure fun c' c ⟨hl, hc⟩ => ?_
      subst hc
      refine .noOperator ⟨by rw [← hl]; nofun, fun s' op hs hop' => ?_⟩
      rw [← hl, Lexeme.symbol.injEq] at hs
      rw [← hs, hop] at hop'
      cases hop'
    · rename_i op hop
      split
      · rename_i hrank
        refine Quiet.pure fun c' c ⟨hl, hc⟩ => ?_
        subst hc
        refine .noOperator ⟨by rw [← hl]; nofun, fun s' op' hs hop' => ?_⟩
        rw [← hl, Lexeme.symbol.injEq] at hs
        rw [← hs, hop, Option.some.injEq] at hop'
        exact hop' ▸ hrank
      · rename_i hrank
        refine advance_quiet.bind fun _ => (ih.expression _).bind fun right =>
          (ih.operators floor _).mono ?_
        intro c₂ whole c' hwhole c₁ hright c₀ hc₀ c ⟨hl, hc⟩
        subst hc hc₀
        exact .binary hl.symm hop (Nat.le_of_not_lt hrank) hright hwhole
  · rename_i hne_as hne_symbol
    refine Quiet.pure fun c' c ⟨hl, hc⟩ => ?_
    subst hc
    exact .noOperator ⟨fun h => hne_as (hl.trans h), fun s _ hs => (hne_symbol s (hl.trans hs)).elim⟩

theorem operand_succ :
    Quiet (Parse.operand (fuel + 1)) fun c e c' => Reads c (.operand e) c' := by
  refine here_quiet.bind fun start => lexeme_quiet.bind fun l => ?_
  split
  · refine advance_quiet.bind fun _ => ih.operand.bind fun inner => Quiet.pure ?_
    intro c' c₂ hinner c₁ hc₁ c₀ ⟨hl, hc₀⟩ c ⟨hstart, hc⟩
    subst hstart hc hc₀ hc₁
    exact .neg hl.symm hinner
  · refine advance_quiet.bind fun _ => ih.operand.bind fun inner => Quiet.pure ?_
    intro c' c₂ hinner c₁ hc₁ c₀ ⟨hl, hc₀⟩ c ⟨hstart, hc⟩
    subst hstart hc hc₀ hc₁
    exact .not hl.symm hinner
  · rename_i hminus hbang
    refine ih.primary.bind fun first => (ih.members first).mono ?_
    intro c₁ whole c' hwhole c₀ hfirst c ⟨hl, hc⟩ _ ⟨_, hstart⟩
    subst hc hstart
    exact .plain (fun h => hminus (hl.trans h)) (fun h => hbang (hl.trans h)) hfirst hwhole

theorem members_succ (receiver : Expr) :
    Quiet (Parse.members (fuel + 1) receiver) fun c whole c' =>
      Reads c (.members receiver whole) c' := by
  refine lexeme_quiet.bind fun l => ?_
  split
  · refine advance_quiet.bind fun _ => memberName_quiet.bind fun member =>
      (atSymbol_quiet _).bind fun found => ?_
    cases found with
    | true =>
      refine ih.arguments.bind fun args => behind_quiet.bind fun stop =>
        (ih.members _).mono ?_
      intro c₅ whole c' hwhole c₄ ⟨hstop, hc₅⟩ c₃ hargs c₂ ⟨_, hc₃⟩ c₁ ⟨hmember, hspan, hc₂⟩ c₀ hc₁
        c ⟨hl, hc₀⟩
      subst hc₀ hc₁ hc₂ hc₃ hc₅ hstop
      exact .method hl.symm hmember hspan hargs hwhole
    | false =>
      refine (ih.members _).mono ?_
      intro c₃ whole c' hwhole c₂ ⟨hparen, hc₃⟩ c₁ ⟨hmember, hspan, hc₂⟩ c₀ hc₁ c ⟨hl, hc₀⟩
      subst hc₀ hc₁ hc₂ hc₃
      exact .field hl.symm hmember hspan (ne_of_beq_false hparen.symm) hwhole
  · refine advance_quiet.bind fun _ => (ih.expression 0).bind fun index =>
      (passSymbol_quiet .rbracket).bind fun _ => behind_quiet.bind fun stop =>
        (ih.members _).mono ?_
    intro c₄ whole c' hwhole c₃ ⟨hstop, hc₄⟩ c₂ ⟨hbracket, hc₃⟩ c₁ hindex c₀ hc₁ c ⟨hl, hc₀⟩
    subst hc₀ hc₁ hc₃ hc₄ hstop
    exact .index hl.symm hindex hbracket hwhole
  · exact (faultWithHelp_quiet _ _).abort fun _ =>
      (Quiet.discard (S := fun _ _ _ => True) (ih.arguments.mono fun _ _ _ _ => trivial)).bind
        fun _ => (ih.members _).mono fun _ _ _ _ _ _ => trivial
  · rename_i hdot hbracket hparen
    refine Quiet.pure fun c' c ⟨hl, hc⟩ => ?_
    subst hc
    exact .noMember (fun h => hdot (hl.trans h)) (fun h => hbracket (hl.trans h))
      (fun h => hparen (hl.trans h))

theorem primary_succ :
    Quiet (Parse.primary (fuel + 1)) fun c e c' => Reads c (.primary e) c' := by
  refine here_quiet.bind fun start => lexeme_quiet.bind fun l => ?_
  split
  · refine advance_quiet.bind fun _ => Quiet.pure fun c' c₁ hc' c₀ ⟨hl, hc₁⟩ c ⟨hstart, hc₀⟩ => ?_
    subst hstart hc₀ hc₁ hc'
    exact .integer hl.symm
  · refine advance_quiet.bind fun _ => Quiet.pure fun c' c₁ hc' c₀ ⟨hl, hc₁⟩ c ⟨hstart, hc₀⟩ => ?_
    subst hstart hc₀ hc₁ hc'
    exact .float hl.symm
  · refine advance_quiet.bind fun _ => Quiet.pure fun c' c₁ hc' c₀ ⟨hl, hc₁⟩ c ⟨hstart, hc₀⟩ => ?_
    subst hstart hc₀ hc₁ hc'
    exact .true hl.symm
  · refine advance_quiet.bind fun _ => Quiet.pure fun c' c₁ hc' c₀ ⟨hl, hc₁⟩ c ⟨hstart, hc₀⟩ => ?_
    subst hstart hc₀ hc₁ hc'
    exact .false hl.symm
  · refine advance_quiet.bind fun _ => (pathTail_quiet fuel).bind fun rest =>
      behind_quiet.bind fun pathStop => (atSymbol_quiet _).bind fun found => ?_
    cases found with
    | true =>
      refine ih.arguments.bind fun args => behind_quiet.bind fun stop => Quiet.pure ?_
      intro c' c₅ ⟨hstop, hc'⟩ c₄ hargs c₃ ⟨_, hc₄⟩ c₂ ⟨hpath, hc₃⟩ c₁ hrest c₀ hc₁ c ⟨hl, hc⟩
        _ ⟨hstart, hcc⟩
      subst hcc hstart hc hc₁ hpath hc₃ hc₄ hc' hstop
      exact .call hl.symm hrest hargs
    | false =>
      rw [if_neg Bool.false_ne_true]
      split
      · rename_i hempty
        refine Quiet.pure ?_
        intro c' c₃ ⟨hparen, hc'⟩ c₂ ⟨hpath, hc₃⟩ c₁ hrest c₀ hc₁ c ⟨hl, hc⟩ _ ⟨hstart, hcc⟩
        subst hcc hstart hc hc₁ hpath hc₃ hc'
        rw [List.isEmpty_iff] at hempty
        subst hempty
        cases hrest with
        | tailEnd hcolons => exact .name hl.symm hcolons (ne_of_beq_false hparen.symm)
      · rename_i hempty
        refine Quiet.pure ?_
        intro c' c₃ ⟨hparen, hc'⟩ c₂ ⟨hpath, hc₃⟩ c₁ hrest c₀ hc₁ c ⟨hl, hc⟩ _ ⟨hstart, hcc⟩
        subst hcc hstart hc hc₁ hpath hc₃ hc'
        rw [List.isEmpty_iff] at hempty
        exact .path hl.symm hrest (ne_of_beq_false hparen.symm) hempty
  · refine ih.parenthesized.mono fun c₁ e c' ⟨_, he⟩ c₀ ⟨_, hc₁⟩ c ⟨_, hc₀⟩ => ?_
    subst hc₀ hc₁
    exact he
  · refine ih.conditional.mono fun c₁ e c' ⟨_, he⟩ c₀ ⟨_, hc₁⟩ c ⟨_, hc₀⟩ => ?_
    subst hc₀ hc₁
    exact he
  · refine (fault_quiet _).abort fun _ => ?_
    split
    · exact advance_quiet.bind fun _ => Quiet.pure fun _ _ _ => trivial
    · exact Quiet.pure fun _ => trivial

theorem parenthesized_succ :
    Quiet (Parse.parenthesized (fuel + 1)) fun c e c' =>
      c.lexeme = .symbol .lparen ∧ Reads c (.primary e) c' := by
  refine (expectSymbol_quiet .lparen).bind fun start => (atSymbol_quiet _).bind fun atOnce => ?_
  cases atOnce with
  | true =>
    exact (fault_quiet _).abort fun _ => (expectSymbol_quiet .rparen).bind fun _ =>
      Quiet.pure fun _ _ _ => trivial
  | false =>
    refine (ih.expression 0).bind fun first => (atSymbol_quiet _).bind fun alone => ?_
    cases alone with
    | true =>
      refine (expectSymbol_quiet .rparen).bind fun stop => Quiet.pure ?_
      intro c' c₄ ⟨hclose, hstop, hc'⟩ c₃ ⟨_, hc₄⟩ c₂ hfirst c₁ ⟨_, hc₂⟩ c ⟨hopen, hstart, hc₁⟩
      subst hc₁ hc₂ hc₄ hc' hstart hstop
      exact ⟨hopen, .paren hopen hfirst hclose⟩
    | false =>
      refine ih.tupleItems.bind fun rest => (expectSymbol_quiet .rparen).bind fun stop =>
        Quiet.pure ?_
      intro c' c₅ ⟨hclose, hstop, hc'⟩ c₄ hrest c₃ ⟨hmore, hc₄⟩ c₂ hfirst c₁ ⟨_, hc₂⟩ c
        ⟨hopen, hstart, hc₁⟩
      subst hc₁ hc₂ hc₄ hc' hstart hstop
      exact ⟨hopen, .tuple hopen hfirst (ne_of_beq_false hmore.symm) hrest hclose⟩

theorem tupleItems_succ :
    Quiet (Parse.tupleItems (fuel + 1)) fun c items c' => Reads c (.tupleItems items) c' := by
  refine (eatSymbol_quiet .comma).bind fun found => ?_
  cases found with
  | true =>
    refine (atSymbol_quiet _).bind fun atEnd => ?_
    cases atEnd with
    | true =>
      refine Quiet.pure fun c' c₁ ⟨hclose, hc'⟩ c ⟨hcomma, hc₁⟩ => ?_
      subst hc₁ hc'
      exact .lastComma hcomma (eq_of_beq hclose.symm)
    | false =>
      refine (ih.expression 0).bind fun item => ih.tupleItems.bind fun rest => Quiet.pure ?_
      intro c' c₃ hrest c₂ hitem c₁ ⟨hclose, hc₂⟩ c ⟨hcomma, hc₁⟩
      subst hc₁ hc₂
      exact .moreItems hcomma (ne_of_beq_false hclose.symm) hitem hrest
  | false =>
    refine Quiet.pure fun c' c ⟨hcomma, hc'⟩ => ?_
    subst hc'
    exact .noItem hcomma

theorem conditional_succ :
    Quiet (Parse.conditional (fuel + 1)) fun c e c' =>
      c.lexeme = .keyword .if_ ∧ Reads c (.primary e) c' := by
  refine here_quiet.bind fun start => (passKeyword_quiet .if_).bind fun _ =>
    (ih.expression 0).bind fun condition => ih.branch.bind fun yes =>
      (eat_quiet _).bind fun found => ?_
  cases found with
  | true =>
    refine Quiet.bind (R := fun c no c' => Reads c (.branch no) c' ∨
      (c.lexeme = .keyword .if_ ∧ Reads c (.primary no) c')) ?_ fun no => Quiet.pure ?_
    · refine (at?_quiet _).bind fun chained => ?_
      cases chained with
      | true =>
        refine ih.conditional.mono fun c₁ no c' hno c ⟨_, hc₁⟩ => ?_
        subst hc₁
        exact Or.inr hno
      | false =>
        refine ih.branch.mono fun c₁ no c' hno c ⟨_, hc₁⟩ => ?_
        subst hc₁
        exact Or.inl hno
    · intro c' c₅ hno c₄ ⟨helse, hc₅⟩ c₃ hyes c₂ hcondition c₁ ⟨hif, hc₂⟩ c ⟨hstart, hc₁⟩
      subst hc₁ hstart hc₂ hc₅
      rcases hno with hno | ⟨hchain, hno⟩
      · exact ⟨hif, .choice hif hcondition hyes helse hno⟩
      · exact ⟨hif, .choiceChain hif hcondition hyes helse hchain hno⟩
  | false =>
    exact (faultWithHelp_quiet _ _).abort fun _ => here_quiet.bind fun _ =>
      Quiet.pure fun _ _ _ => trivial

theorem branch_succ :
    Quiet (Parse.branch (fuel + 1)) fun c e c' => Reads c (.branch e) c' := by
  refine (passSymbol_quiet .lbrace).bind fun _ => (ih.expression 0).bind fun value =>
    (atSymbol_quiet _).bind fun closed => ?_
  cases closed with
  | true =>
    refine (passSymbol_quiet .rbrace).bind fun _ => Quiet.pure ?_
    intro c' c₃ ⟨hclose, hc'⟩ c₂ ⟨_, hc₃⟩ c₁ hvalue c ⟨hopen, hc₁⟩
    subst hc₁ hc₃ hc'
    exact .branch hopen hvalue hclose
  | false =>
    exact (faultWithHelp_quiet _ _).abort fun _ => (skipUntil_quiet _).bind fun _ =>
      (passSymbol_quiet _).bind fun _ => Quiet.pure fun _ _ _ _ _ => trivial

theorem arguments_succ :
    Quiet (Parse.arguments (fuel + 1)) fun c args c' => Reads c (.arguments args) c' := by
  refine (passSymbol_quiet .lparen).bind fun _ => ih.argumentItems.bind fun args =>
    (passSymbol_quiet .rparen).bind fun _ => Quiet.pure ?_
  intro c' c₂ ⟨hclose, hc'⟩ c₁ hargs c ⟨hopen, hc₁⟩
  subst hc₁ hc'
  exact .arguments hopen hargs hclose

theorem argumentItems_succ :
    Quiet (Parse.argumentItems (fuel + 1)) fun c args c' => Reads c (.argumentItems args) c' := by
  refine lexeme_quiet.bind fun l => ?_
  split
  · rename_i hend
    refine Quiet.pure fun c' c ⟨hl, hc'⟩ => ?_
    subst hc'
    exact .noArgument (hl ▸ hend)
  · rename_i hend
    refine (ih.expression 0).bind fun arg => (eatSymbol_quiet .comma).bind fun found => ?_
    cases found with
    | true =>
      refine ih.argumentItems.bind fun rest => Quiet.pure ?_
      intro c' c₃ hrest c₂ ⟨hcomma, hc₃⟩ c₁ harg c ⟨hl, hc₁⟩
      subst hc₁ hc₃
      exact .moreArguments (fun h => hend (Or.inl (hl.trans h))) harg hcomma hrest
    | false =>
      refine Quiet.pure fun c' c₂ ⟨hcomma, hc'⟩ c₁ harg c ⟨hl, hc₁⟩ => ?_
      subst hc₁ hc'
      exact .lastArgument (fun h => hend (Or.inl (hl.trans h))) harg hcomma

theorem succ : ExpressionsQuiet (fuel + 1) where
  expression := ih.expression_succ
  operators := ih.operators_succ
  operand := ih.operand_succ
  members := ih.members_succ
  primary := ih.primary_succ
  parenthesized := ih.parenthesized_succ
  tupleItems := ih.tupleItems_succ
  conditional := ih.conditional_succ
  branch := ih.branch_succ
  arguments := ih.arguments_succ
  argumentItems := ih.argumentItems_succ

end ExpressionsQuiet

theorem expressionsQuiet (fuel : Nat) : ExpressionsQuiet fuel := by
  induction fuel with
  | zero => exact .zero
  | succ fuel ih => exact ih.succ

theorem expression_quiet (fuel floor : Nat) :
    Quiet (expression fuel floor) fun c e c' => Reads c (.expression floor e) c' :=
  (expressionsQuiet fuel).expression floor

/-! ### Statements -/

/-- The end of a statement in front of the rest of its reading. -/
theorem endStatement_quiet {needed : Bool} {f : Unit → Parse α} {T : Cursor → α → Cursor → Prop}
    (hf : Quiet (f ()) fun c a c' => ∀ c₀, Ends (! needed) c₀ c → T c₀ a c') :
    Quiet (if needed = true then discard (expectSymbol .semicolon) >>= f else f ()) T := by
  cases needed with
  | true => exact (passSymbol_quiet .semicolon).bind fun _ => hf
  | false => exact hf.mono fun c a c' h => h c rfl

theorem annotation_quiet (fuel : Nat) :
    Quiet (do if ← eatSymbol .colon then return some (← typeRef fuel) else return none :
      Parse (Option TypeRef)) fun c type c' => ReadsAnnotation c type c' := by
  refine (eatSymbol_quiet .colon).bind fun found => ?_
  cases found with
  | true =>
    refine (typeRef_quiet fuel).bind fun t => Quiet.pure fun c' c₁ ht c ⟨hcolon, hc₁⟩ => ?_
    subst hc₁
    exact ⟨hcolon, ht⟩
  | false => exact Quiet.pure fun c' c h => h

theorem initial_quiet (fuel : Nat) :
    Quiet (do if ← eatSymbol .eq then return some (← expression fuel 0) else return none :
      Parse (Option Expr)) fun c value c' => ReadsInitial c value c' := by
  refine (eatSymbol_quiet .eq).bind fun found => ?_
  cases found with
  | true =>
    refine (expression_quiet fuel 0).bind fun e => Quiet.pure fun c' c₁ he c ⟨heq, hc₁⟩ => ?_
    subst hc₁
    exact ⟨heq, he⟩
  | false => exact Quiet.pure fun c' c h => h

theorem letStmt_quiet (fuel : Nat) :
    Quiet (letStmt fuel) fun c s c' => ReadsStmt c (.statement s) c' := by
  refine here_quiet.bind fun start => (passKeyword_quiet .let_).bind fun _ =>
    (eat_quiet _).bind fun mutable => identifier_quiet.bind fun name =>
      (annotation_quiet fuel).bind fun type => (initial_quiet fuel).bind fun value =>
        (atSymbol_quiet _).bind fun last => ?_
  refine endStatement_quiet (behind_quiet.bind fun stop => Quiet.pure ?_)
  intro c' c₇ ⟨hstop, hc'⟩ c₆ hend c₅ ⟨hlast, hc₆⟩ c₄ hvalue c₃ htype c₂ ⟨hname, hspan, hc₃⟩ c₁ hmut c₀
    ⟨hlet, hc₁⟩ c ⟨hstart, hc₀⟩
  subst hstart hc₀ hc₁ hc₃ hc₆ hc' hstop hlast
  rw [Bool.not_not] at hend
  exact .let hlet hmut hname hspan htype hvalue hend

theorem eatSymbol_ends {f : Unit → Parse α} {T : Cursor → α → Cursor → Prop}
    (hf : Quiet (f ()) fun c a c' => ∀ c₀,
      c₀.lexeme = .symbol .semicolon ∨ c₀.lexeme = .symbol .rbrace →
      Ends (c₀.lexeme == .symbol .rbrace) c₀ c → T c₀ a c') :
    Quiet (discard (eatSymbol .semicolon) >>= f) fun c a c' =>
      c.lexeme = .symbol .semicolon ∨ c.lexeme = .symbol .rbrace → T c a c' := by
  refine (Quiet.discard (S := fun c _ c' => c.lexeme = .symbol .semicolon ∨
    c.lexeme = .symbol .rbrace → Ends (c.lexeme == .symbol .rbrace) c c') ?_).bind
      fun _ => hf.mono fun c a c' h c₀ hends hl => h c₀ hl (hends hl)
  refine (eatSymbol_quiet .semicolon).mono fun c there c' h hl => ?_
  cases there with
  | true =>
    rw [show (c.lexeme == .symbol .rbrace) = false by rw [h.1]; rfl]
    exact h
  | false =>
    rcases hl with hl | hl
    · exact (h.1 hl).elim
    · rw [hl]
      exact h.2

theorem jumpStmt_quiet (kind : Jump) :
    Quiet (jumpStmt kind) fun c s c' =>
      c.lexeme = .keyword (jumpKeyword kind) → ReadsStmt c (.statement s) c' := by
  refine here_quiet.bind fun start => advance_quiet.bind fun _ => lexeme_quiet.bind fun l => ?_
  have hrest : Quiet (do
      discard (eatSymbol .semicolon)
      return .jump start kind : Parse Stmt) fun c s c' =>
        c.lexeme = .symbol .semicolon ∨ c.lexeme = .symbol .rbrace →
          s = .jump start kind ∧ Ends (c.lexeme == .symbol .rbrace) c c' :=
    eatSymbol_ends (Quiet.pure fun c c₀ _ hends => ⟨rfl, hends⟩)
  by_cases hl : l ≠ .symbol .semicolon ∧ l ≠ .symbol .rbrace
  · rw [if_pos hl]
    exact (fault_quiet _).abort fun _ => (skipUntil_quiet _).bind fun _ =>
      hrest.mono fun _ _ _ _ _ _ => trivial
  · rw [if_neg hl]
    refine hrest.mono fun c₂ s c' hs c₁ ⟨hlex, hc₂⟩ c₀ hc₁ c ⟨hstart, hc₀⟩ hkind => ?_
    subst hstart hc₀ hc₁ hc₂
    have hend : c₀.advance.lexeme = .symbol .semicolon ∨ c₀.advance.lexeme = .symbol .rbrace := by
      rw [← hlex]
      by_cases h : l = .symbol .semicolon
      · exact Or.inl h
      · exact Or.inr (Classical.byContradiction fun h' => hl ⟨h, h'⟩)
    obtain ⟨rfl, hends⟩ := hs hend
    exact .jump hkind hends

/-- Behind the expression that a statement begins with. -/
theorem assignment_quiet (fuel : Nat) (l : Lexeme) (first : Expr) :
    Quiet (do
      match (match l with | .symbol s => s.assignOp? | _ => none : Option (Option BinaryOp)) with
      | some op =>
        advance
        let value ← expression fuel 0
        return .assign (first.span.merge value.span) op first value
      | none => return .eval first.span first : Parse Stmt) fun c stmt c' =>
        (stmt = .eval first.span first ∧ (∀ s, l = .symbol s → s.assignOp? = none) ∧ c' = c) ∨
        ∃ s op value, stmt = .assign (first.span.merge value.span) op first value ∧
          l = .symbol s ∧ s.assignOp? = some op ∧ Reads c.advance (.expression 0 value) c' := by
  split
  · rename_i op hop
    split at hop
    · rename_i s
      refine advance_quiet.bind fun _ => (expression_quiet fuel 0).bind fun value => Quiet.pure ?_
      intro c' c₁ hvalue c hc₁
      subst hc₁
      exact Or.inr ⟨s, op, value, rfl, rfl, hop, hvalue⟩
    · cases hop
  · rename_i hnone
    refine Quiet.pure fun c => Or.inl ⟨rfl, fun s hs => ?_, rfl⟩
    rw [hs] at hnone
    exact hnone

theorem simpleStmt_quiet (fuel : Nat) (isBody : Bool) :
    Quiet (simpleStmt fuel isBody) fun c s c' => ReadsSimple isBody c s c' := by
  refine (expression_quiet fuel 0).bind fun first => lexeme_quiet.bind fun l =>
    (assignment_quiet fuel l first).bind fun stmt => (atSymbol_quiet _).bind fun atBrace =>
      (at?_quiet _).bind fun atEnd => endStatement_quiet (Quiet.pure ?_)
  intro c' c₄ hends c₃ ⟨hatEnd, hc₄⟩ c₂ ⟨hatBrace, hc₃⟩ c₁ hstmt c₀ ⟨hl, hc₁⟩ c hfirst
  subst hc₁ hc₃ hc₄ hatEnd hatBrace
  rw [Bool.not_and, Bool.not_not, Bool.not_not] at hends
  rcases hstmt with ⟨rfl, hnone, rfl⟩ | ⟨s, op, value, rfl, hs, hop, hvalue⟩
  · refine .eval hfirst (fun s hs => hnone s (hl.trans hs)) ?_
    cases first <;> exact hends
  · refine .assign hfirst (hl.symm.trans hs) hop hvalue ?_
    rw [Bool.or_false] at hends
    exact hends

/-- What a quiet reading of statements with `fuel` steps reads. -/
structure StatementsQuiet (fuel : Nat) : Prop where
  block : Quiet (block fuel) fun c b c' => ReadsStmt c (.block b) c'
  statements : Quiet (statements fuel) fun c stmts c' => ReadsStmt c (.statements stmts) c'
  statement : Quiet (statement fuel) fun c s c' => ReadsStmt c (.statement s) c'
  ifStmt : Quiet (ifStmt fuel) fun c s c' =>
    c.lexeme = .keyword .if_ ∧ ReadsStmt c (.statement s) c'
  forStmt : Quiet (forStmt fuel) fun c s c' => ReadsStmt c (.statement s) c'

theorem missingStmt_quiet :
    Quiet (do return .eval (← here) (missingExpr (← here)) : Parse Stmt) fun _ _ _ => True :=
  here_quiet.bind fun _ => here_quiet.bind fun _ => Quiet.pure fun _ _ _ _ _ => trivial

theorem StatementsQuiet.zero : StatementsQuiet 0 where
  block := outOfSteps_abort (here_quiet.bind fun _ => Quiet.pure fun _ _ _ => trivial)
  statements := outOfSteps_abort (Quiet.pure fun _ => trivial)
  statement := outOfSteps_abort missingStmt_quiet
  ifStmt := outOfSteps_abort missingStmt_quiet
  forStmt := outOfSteps_abort missingStmt_quiet

namespace StatementsQuiet

variable {fuel : Nat} (ih : StatementsQuiet fuel)

include ih

theorem block_succ : Quiet (Parse.block (fuel + 1)) fun c b c' => ReadsStmt c (.block b) c' := by
  refine enter_quiet.bind fun opened => ?_
  cases opened with
  | true =>
    refine (expectSymbol_quiet .lbrace).bind fun start => ih.statements.bind fun stmts =>
      (expectSymbol_quiet .rbrace).bind fun stop => leave_quiet.bind fun _ => Quiet.pure ?_
    intro c' c₄ hc' c₃ ⟨hclose, hstop, hc₄⟩ c₂ hstmts c₁ ⟨hopen, hstart, hc₂⟩ c ⟨_, hdepth, hc₁⟩
    subst hc₁ hc₂ hc₄ hc' hstart hstop
    exact .block hdepth hopen hstmts hclose
  | false =>
    refine here_quiet.bind fun _ => (skipUntil_quiet _).bind fun _ => Quiet.pure ?_
    intro _ _ _ _ _ _ ⟨hopened, _⟩
    cases hopened

theorem statements_succ :
    Quiet (Parse.statements (fuel + 1)) fun c stmts c' => ReadsStmt c (.statements stmts) c' := by
  refine lexeme_quiet.bind fun l => ?_
  split
  · rename_i hend
    refine Quiet.pure fun c' c ⟨hl, hc⟩ => ?_
    subst hc hl
    exact .noStatement hend
  · rename_i hend
    refine (eatSymbol_quiet .semicolon).bind fun found => ?_
    cases found with
    | true =>
      refine ih.statements.mono fun c₂ stmts c' hstmts c₁ ⟨hsemicolon, hc₂⟩ c ⟨_, hc₁⟩ => ?_
      subst hc₁ hc₂
      exact .emptyStatement hsemicolon hstmts
    | false =>
      refine ih.statement.bind fun s => ih.statements.bind fun stmts => Quiet.pure ?_
      intro c' c₃ hstmts c₂ hs c₁ ⟨hsemicolon, hc₂⟩ c ⟨hl, hc₁⟩
      subst hc₁ hc₂ hl
      exact .moreStatements hend hsemicolon hs hstmts

theorem statement_succ :
    Quiet (Parse.statement (fuel + 1)) fun c s c' => ReadsStmt c (.statement s) c' := by
  refine here_quiet.bind fun start => lexeme_quiet.bind fun l => ?_
  split
  · refine (letStmt_quiet fuel).mono fun c₁ s c' hs c₀ ⟨_, hc₁⟩ c ⟨_, hc₀⟩ => ?_
    subst hc₀ hc₁
    exact hs
  · refine ih.ifStmt.mono fun c₁ s c' hs c₀ ⟨_, hc₁⟩ c ⟨_, hc₀⟩ => ?_
    subst hc₀ hc₁
    exact hs.2
  · refine ih.forStmt.mono fun c₁ s c' hs c₀ ⟨_, hc₁⟩ c ⟨_, hc₀⟩ => ?_
    subst hc₀ hc₁
    exact hs
  · refine advance_quiet.bind fun _ => (expression_quiet fuel 0).bind fun condition =>
      ih.block.bind fun body => Quiet.pure ?_
    intro c' c₃ hbody c₂ hcondition c₁ hc₂ c₀ ⟨hl, hc₁⟩ c ⟨hstart, hc₀⟩
    subst hstart hc₀ hc₁ hc₂
    exact .while hl.symm hcondition hbody
  · refine advance_quiet.bind fun _ => ih.block.bind fun body => Quiet.pure ?_
    intro c' c₂ hbody c₁ hc₂ c₀ ⟨hl, hc₁⟩ c ⟨hstart, hc₀⟩
    subst hstart hc₀ hc₁ hc₂
    exact .loop hl.symm hbody
  · refine (jumpStmt_quiet .break).mono fun c₁ s c' hs c₀ ⟨hl, hc₁⟩ c ⟨_, hc₀⟩ => ?_
    subst hc₀ hc₁
    exact hs hl.symm
  · refine (jumpStmt_quiet .continue).mono fun c₁ s c' hs c₀ ⟨hl, hc₁⟩ c ⟨_, hc₀⟩ => ?_
    subst hc₀ hc₁
    exact hs hl.symm
  · refine (jumpStmt_quiet .return).mono fun c₁ s c' hs c₀ ⟨hl, hc₁⟩ c ⟨_, hc₀⟩ => ?_
    subst hc₀ hc₁
    exact hs hl.symm
  · refine ih.block.bind fun body => Quiet.pure fun c' c₁ hbody c₀ ⟨hl, hc₁⟩ c ⟨_, hc₀⟩ => ?_
    subst hc₀ hc₁
    exact .nested hl.symm hbody
  · rename_i hif _ _ _ _ _ _ _
    refine (simpleStmt_quiet fuel false).mono fun c₁ s c' hs c₀ ⟨hl, hc₁⟩ c ⟨_, hc₀⟩ => ?_
    subst hc₀ hc₁
    exact .simple (fun h => hif (hl.trans h)) hs

/-- What stands behind the body of a conditional. -/
theorem otherwise_quiet :
    Quiet (do
      if ← eat (.keyword .else_) then
        if ← atKeyword .if_ then
          let chained ← Parse.ifStmt fuel
          return some ⟨chained.span, [chained]⟩
        else
          return some (← Parse.block fuel)
      else
        return none : Parse (Option Block)) fun c otherwise c' =>
        (otherwise = none ∧ c.lexeme ≠ .keyword .else_ ∧ c' = c) ∨
        (∃ b, otherwise = some b ∧ c.lexeme = .keyword .else_ ∧ c.advance.lexeme ≠ .keyword .if_ ∧
          ReadsStmt c.advance (.block b) c') ∨
        ∃ chained, otherwise = some ⟨chained.span, [chained]⟩ ∧ c.lexeme = .keyword .else_ ∧
          c.advance.lexeme = .keyword .if_ ∧ ReadsStmt c.advance (.statement chained) c' := by
  refine (eat_quiet _).bind fun found => ?_
  cases found with
  | true =>
    refine (atKeyword_quiet .if_).bind fun atIf => ?_
    cases atIf with
    | true =>
      refine ih.ifStmt.bind fun chained => Quiet.pure fun c' c₂ hs c₁ ⟨_, hc₂⟩ c ⟨helse, hc₁⟩ => ?_
      subst hc₁ hc₂
      exact Or.inr (Or.inr ⟨chained, rfl, helse, hs⟩)
    | false =>
      refine ih.block.bind fun b => Quiet.pure fun c' c₂ hb c₁ ⟨hif, hc₂⟩ c ⟨helse, hc₁⟩ => ?_
      subst hc₁ hc₂
      exact Or.inr (Or.inl ⟨b, rfl, helse, ne_of_beq_false hif.symm, hb⟩)
  | false => exact Quiet.pure fun c' c h => Or.inl ⟨rfl, h⟩

theorem ifStmt_succ :
    Quiet (Parse.ifStmt (fuel + 1)) fun c s c' =>
      c.lexeme = .keyword .if_ ∧ ReadsStmt c (.statement s) c' := by
  refine here_quiet.bind fun start => (passKeyword_quiet .if_).bind fun _ =>
    (expression_quiet fuel 0).bind fun condition => ih.block.bind fun body =>
      ih.otherwise_quiet.bind fun otherwise => behind_quiet.bind fun stop => Quiet.pure ?_
  intro c' c₅ ⟨hstop, hc'⟩ c₄ hotherwise c₃ hbody c₂ hcondition c₁ ⟨hif, hc₂⟩ c ⟨hstart, hc₁⟩
  subst hstart hc₁ hc₂ hc' hstop
  refine ⟨hif, ?_⟩
  rcases hotherwise with ⟨rfl, helse, rfl⟩ | ⟨b, rfl, helse, hne, hb⟩ | ⟨chained, rfl, helse, heq, hs⟩
  · exact .ifOnly hif hcondition hbody helse
  · exact .ifElse hif hcondition hbody helse hne hb
  · exact .ifChain hif hcondition hbody helse heq hs

theorem forStmt_succ :
    Quiet (Parse.forStmt (fuel + 1)) fun c s c' => ReadsStmt c (.statement s) c' := by
  refine here_quiet.bind fun start => (passKeyword_quiet .for_).bind fun _ =>
    identifier_quiet.bind fun counter => (passKeyword_quiet .in_).bind fun _ =>
      (expression_quiet fuel 0).bind fun first => lexeme_quiet.bind fun range => ?_
  have hrest : Quiet (do
      advance
      let stop ← Parse.expression fuel 0
      let body ← Parse.block fuel
      return .for (start.merge body.span) counter first stop (range == .symbol .dotDotEq) body :
        Parse Stmt) fun c s c' => ∃ stop body c₁,
          s = .for (start.merge body.span) counter first stop (range == .symbol .dotDotEq) body ∧
          Reads c.advance (.expression 0 stop) c₁ ∧ ReadsStmt c₁ (.block body) c' := by
    refine advance_quiet.bind fun _ => (expression_quiet fuel 0).bind fun stop =>
      ih.block.bind fun body => Quiet.pure ?_
    intro c' c₂ hbody c₁ hstop c hc₁
    subst hc₁
    exact ⟨stop, body, c₂, rfl, hstop, hbody⟩
  by_cases hrange : range ≠ .symbol .dotDot ∧ range ≠ .symbol .dotDotEq
  · rw [if_pos hrange]
    exact (faultWithHelp_quiet _ _).abort fun _ => hrest.mono fun _ _ _ _ => trivial
  · rw [if_neg hrange]
    refine hrest.mono fun c₅ s c' hs c₄ ⟨hl, hc₅⟩ c₃ hfirst c₂ ⟨hin, hc₃⟩ c₁ ⟨hname, hspan, hc₂⟩ c₀
      ⟨hfor, hc₁⟩ c ⟨hstart, hc₀⟩ => ?_
    subst hc₀ hc₁ hc₂ hc₃ hc₅ hstart
    obtain ⟨stop, body, c₆, rfl, hstop, hbody⟩ := hs
    refine .for hfor hname hspan hin hfirst ?_ hstop hbody
    rw [← hl]
    by_cases hinclusive : range = .symbol .dotDotEq
    · rw [hinclusive]
      rfl
    · rw [if_neg (by rw [beq_iff_eq]; exact hinclusive)]
      exact Classical.byContradiction fun h => hrange ⟨h, hinclusive⟩

theorem succ : StatementsQuiet (fuel + 1) where
  block := ih.block_succ
  statements := ih.statements_succ
  statement := ih.statement_succ
  ifStmt := ih.ifStmt_succ
  forStmt := ih.forStmt_succ

end StatementsQuiet

theorem statementsQuiet (fuel : Nat) : StatementsQuiet fuel := by
  induction fuel with
  | zero => exact .zero
  | succ fuel ih => exact ih.succ

/-! ### Closures -/

theorem closureBody_quiet (fuel : Nat) :
    Quiet (closureBody fuel) fun c b c' => ReadsBody c b c' := by
  refine (atSymbol_quiet .lbrace).bind fun braced => ?_
  cases braced with
  | true =>
    refine (statementsQuiet fuel).block.mono fun c₁ b c' hb c ⟨hopen, hc₁⟩ => ?_
    subst hc₁
    exact .block (eq_of_beq hopen.symm) hb
  | false =>
    refine (simpleStmt_quiet fuel true).bind fun s => Quiet.pure fun c' c₁ hs c ⟨hopen, hc₁⟩ => ?_
    subst hc₁
    exact .simple (ne_of_beq_false hopen.symm) hs

/-- The closing bar of the parameter, and the body. -/
theorem closureRest_quiet (fuel : Nat) (param : Name) (paramType : Option TypeRef) :
    Quiet (do
      skipUntil fun l => l = .symbol .pipe || isEnd l
      discard (expectSymbol .pipe)
      let body ← closureBody fuel
      let l ← lexeme
      if ! isEnd l then
        fault s!"unexpected {l.description} after kernel body"
      return { param, paramType, body } : Parse Closure) fun c closure c' =>
        ∃ body, closure = { param, paramType, body } ∧
          (c.skipUntil endsParameters).lexeme = .symbol .pipe ∧
          ReadsBody (c.skipUntil endsParameters).advance body c' ∧ isEnd c'.lexeme := by
  refine (skipUntil_quiet _).bind fun _ => (passSymbol_quiet .pipe).bind fun _ =>
    (closureBody_quiet fuel).bind fun body => lexeme_quiet.bind fun l => ?_
  cases hend : isEnd l with
  | true =>
    refine Quiet.pure fun c' c₃ ⟨hl, hc'⟩ c₂ hbody c₁ ⟨hpipe, hc₂⟩ c hc₁ => ?_
    subst hc₁ hc₂ hc' hl
    exact ⟨body, rfl, hpipe, hbody, hend⟩
  | false => exact (fault_quiet _).abort fun _ => Quiet.pure fun _ => trivial

theorem closureFromParam_quiet (fuel : Nat) :
    Quiet (closureFromParam fuel) fun c closure c' => ∀ c₀ c₁ hasMove,
      Takes (.keyword .move) c₀ hasMove c₁ → c₁.lexeme = .symbol .pipe → c = c₁.advance →
      ReadsClosure c₀ closure c' := by
  refine identifier_quiet.bind fun param => (annotation_quiet fuel).bind fun paramType =>
    (atSymbol_quiet .comma).bind fun several => ?_
  cases several with
  | true =>
    exact (faultWithHelp_quiet _ _).abort fun _ =>
      (closureRest_quiet fuel param paramType).mono fun _ _ _ _ => trivial
  | false =>
    refine (closureRest_quiet fuel param paramType).mono ?_
    intro c₃ closure c' ⟨body, hclosure, hpipe, hbody, hend⟩ c₂ ⟨hcomma, hc₃⟩ c₁ htype c ⟨hparam, hspan, hc₁⟩
      c₀ c' hasMove hmove hbar hc
    subst hc hc₁ hc₃ hclosure
    exact .mk hmove hbar hparam hspan htype (ne_of_beq_false hcomma.symm) hpipe hbody hend

theorem closure_quiet (fuel : Nat) :
    Quiet (closure fuel) fun c result c' => ∃ closure, result = some closure ∧
      ReadsClosure c closure c' := by
  refine Quiet.bind (R := fun c _ c' => ∃ hasMove, Takes (.keyword .move) c hasMove c')
    (Quiet.discard ((eat_quiet _).mono fun _ hasMove _ h => ⟨hasMove, h⟩)) fun _ =>
      lexeme_quiet.bind fun l => ?_
  split
  · exact (faultWithHelp_quiet _ _).abort fun _ => Quiet.pure fun _ => trivial
  · refine advance_quiet.bind fun _ => (closureFromParam_quiet fuel).bind fun closure => Quiet.pure ?_
    intro c' c₃ hclosure c₂ hc₃ c₁ ⟨hl, hc₂⟩ c ⟨hasMove, hmove⟩
    subst hc₂
    exact ⟨closure, rfl, hclosure _ _ hasMove hmove hl.symm hc₃⟩
  · exact (faultWithHelp_quiet _ _).abort fun _ => Quiet.pure fun _ => trivial

end Parse

/-- An accepted list of tokens is a closure of the grammar. -/
theorem Closure.reads_of_ofTokens {tokens : List Token} {c : Closure}
    (h : Closure.ofTokens tokens = .ok c) : ∃ c', Parse.ReadsClosure { tokens } c c' := by
  unfold Closure.ofTokens at h
  split at h
  rename_i result cursor hrun
  split at h
  · rename_i closure hdiagnostics
    obtain rfl := Except.ok.inj h
    obtain ⟨_, closure', hsome, hreads⟩ := (Parse.closure_quiet _).of_run hrun hdiagnostics
    obtain rfl := Option.some.inj hsome
    exact ⟨cursor, hreads⟩
  · cases h

/-- A source that is accepted is a closure of the grammar, and nothing is wrong with its
characters. -/
theorem Closure.reads_of_parse {source : String} {c : Closure} (h : Closure.parse source = .ok c) :
    (∃ c', Parse.ReadsClosure { tokens := (tokenize source).1 } c c') ∧
      (tokenize source).2 = [] := by
  unfold Closure.parse at h
  split at h
  rename_i tokens lexical htokens
  rw [htokens]
  split at h
  · rename_i closure htree
    split at h
    · rename_i hempty
      obtain rfl := Except.ok.inj h
      exact ⟨Closure.reads_of_ofTokens htree, List.isEmpty_iff.mp hempty⟩
    · cases h
  · cases h

end ComputeKernel
