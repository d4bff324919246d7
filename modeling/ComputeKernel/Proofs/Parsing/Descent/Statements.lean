import ComputeKernel.Proofs.Parsing.Descent.Expressions

/-!
Readings of statements and closures that can be derived, as far as their levels fit in the bound on
the blocks and expressions that may be open.
-/

namespace ComputeKernel


namespace Parse

open Cursor (Step)

variable {α : Type} {ls ls₁ ls₂ ls₃ ls' : List Lexeme} {k m n fuel : Nat} {name : String}

/-! ### Lengths -/

theorem DerivesAnnotation.length_le (h : DerivesAnnotation ls ls') : ls'.length ≤ ls.length := by
  cases h with
  | none _ => exact Nat.le_refl _
  | some htype => exact Nat.le_succ_of_le (Nat.le_of_succ_le htype.length_le)

theorem DerivesInitial.length_le (h : DerivesInitial n ls ls') : ls'.length ≤ ls.length := by
  cases h with
  | none _ => exact Nat.le_refl _
  | some hvalue => exact Nat.le_succ_of_le (Nat.le_of_succ_le hvalue.length_le)

theorem DerivesEnd.length_le {free : Bool} (h : DerivesEnd free ls ls') :
    ls'.length ≤ ls.length := by
  cases h with
  | free => exact Nat.le_refl _
  | semicolon => exact Nat.le_succ _

theorem DerivesSimple.length_lt {isBody : Bool} (h : DerivesSimple isBody n ls ls') :
    ls'.length < ls.length := by
  cases h with
  | eval hvalue _ hend => exact Nat.lt_of_le_of_lt hend.length_le hvalue.length_le
  | assign hplace _ hvalue hend =>
    have h₁ := hplace.length_le
    have h₂ := hvalue.length_le
    have h₃ := hend.length_le
    simp only [Part.least, List.length_cons] at h₁ h₂
    omega

theorem Drops.length_le {l : Lexeme} (h : Drops l ls ls') : ls'.length ≤ ls.length := by
  rcases h with rfl | ⟨_, rfl⟩
  · exact Nat.le_succ _
  · exact Nat.le_refl _

/-- The least number of lexemes of a phrase of statements. -/
def StmtPart.least : StmtPart → Nat
  | statements | otherwise => 0
  | block | statement | conditional => 1

theorem DerivesStmt.length_le {p : StmtPart} (h : DerivesStmt n p ls ls') :
    ls'.length + p.least ≤ ls.length := by
  induction h with
  | «let» hmut htype hvalue hend =>
    have h₁ := hmut.length_le
    have h₂ := htype.length_le
    have h₃ := hvalue.length_le
    have h₄ := hend.length_le
    simp only [StmtPart.least, List.length_cons] at *
    omega
  | conditional hcondition _ _ ihBody ihElse =>
    have := hcondition.length_le
    simp only [StmtPart.least, Part.least, List.length_cons] at *
    omega
  | «for» hfirst hstop _ ihBody =>
    have h₁ := hfirst.length_le
    have h₂ := hstop.length_le
    simp only [StmtPart.least, Part.least, List.length_cons] at *
    omega
  | «while» hcondition _ ihBody =>
    have := hcondition.length_le
    simp only [StmtPart.least, Part.least, List.length_cons] at *
    omega
  | jump hend => exact Nat.succ_le_succ hend.length_le
  | simple _ hsimple => exact hsimple.length_lt
  | _ =>
    simp only [StmtPart.least, List.length_cons] at *
    omega

/-! ### Parts of statements -/

theorem eat_drops {l : Lexeme} (hne : l ≠ .endOfInput) (h : Drops l ls ls') :
    Follows 0 (eat l) (fun _ => True) ls ls' := by
  rcases h with rfl | ⟨hfirst, rfl⟩
  · exact (eat_follows hne).mono fun _ _ => trivial
  · exact (eat_stays hfirst).mono fun _ _ => trivial

theorem annotation_follows (h : DerivesAnnotation ls ls') (hfuel : 16 * ls.length ≤ fuel) :
    Follows 0 (do if ← eatSymbol .colon then return some (← typeRef fuel) else return none :
      Parse (Option TypeRef)) (fun _ => True) ls ls' := by
  cases h with
  | none hcolon =>
    refine (eat_stays hcolon).behind_eq ?_
    exact .pure trivial
  | some htype =>
    simp only [List.length_cons] at hfuel
    refine (eatSymbol_follows .colon).behind_eq ?_
    exact (typeRef_follows htype (by omega)).behind fun _ _ => .pure trivial

theorem initial_follows (h : DerivesInitial n ls ls') (hfuel : 16 * ls.length ≤ fuel) :
    Follows n (do if ← eatSymbol .eq then return some (← expression fuel 0) else return none :
      Parse (Option Expr)) (fun _ => True) ls ls' := by
  cases h with
  | none heq =>
    refine (eat_stays heq).behind_eq ?_
    exact .pure trivial
  | some hvalue =>
    simp only [List.length_cons] at hfuel
    refine (eatSymbol_follows .eq).behind_eq ?_
    exact (hvalue.expression_follows (by omega)).before fun _ _ => .pure trivial

/-- The end of a statement in front of the rest of its reading. -/
theorem endStatement_follows {needed : Bool} {f : Unit → Parse α} {V : α → Prop}
    (hend : DerivesEnd (! needed) ls ls₁) (hf : Follows n (f ()) V ls₁ ls') :
    Follows n (if needed = true then discard (expectSymbol .semicolon) >>= f else f ()) V ls
      ls' := by
  cases needed with
  | true =>
    obtain ⟨⟩ := hend
    exact (passSymbol_follows .semicolon).behind fun _ _ => hf
  | false =>
    obtain ⟨⟩ := hend
    exact hf

/-- No assignment stands behind the expression that a statement begins with. -/
theorem noAssignment_follows {assign? : Option (Option BinaryOp)} {e : Expr}
    (hnone : assign? = none) :
    Follows 0 (do
      match assign? with
      | some op =>
        advance
        let value ← expression fuel 0
        return .assign (e.span.merge value.span) op e value
      | none => return .eval e.span e : Parse Stmt) (· = .eval e.span e) ls ls := by
  subst hnone
  exact .pure rfl

theorem assignment_follows {assign? : Option (Option BinaryOp)} {op : Option BinaryOp} {s : Symbol}
    {e : Expr} {V : Expr → Prop} (hop : assign? = some op)
    (hvalue : Follows n (expression fuel 0) V ls ls') :
    Follows n (do
      match assign? with
      | some op =>
        advance
        let value ← expression fuel 0
        return .assign (e.span.merge value.span) op e value
      | none => return .eval e.span e : Parse Stmt)
      (fun stmt => ∃ span value, stmt = .assign span op e value) (.symbol s :: ls) ls' := by
  subst hop
  exact (advanceSymbol_follows s).behind fun _ _ => hvalue.before fun _ _ =>
    .pure ⟨_, _, rfl⟩

theorem simpleStmt_follows {isBody : Bool} (h : DerivesSimple isBody n ls ls')
    (hfuel : 16 * ls.length + 3 ≤ fuel) :
    Follows n (simpleStmt fuel isBody) (fun _ => True) ls ls' := by
  cases h with
  | @eval _ _ _ ls₁ _ hvalue hnone hend =>
    refine Nat.max_zero n ▸ (hvalue.expression_follows hfuel).seq_of
      (fun e => .seq inferInstance fun _ => .seq (assignment_walks fuel _ e) inferInstance)
      fun e he => ?_
    refine lexeme_follows.behind_eq ?_
    refine (noAssignment_follows ?_).behind ?_
    · split
      · rename_i s hs
        exact hnone s hs
      · rfl
    rintro _ rfl
    refine (atSymbol_follows .rbrace).behind_eq ?_
    refine (at?_follows .endOfInput).behind_eq ?_
    refine endStatement_follows ?_ (.pure trivial)
    rw [Bool.not_and, Bool.not_not, Bool.not_not]
    subst he
    cases e <;> exact hend
  | @assign m n _ _ s _ _ ls₁ ls₂ _ hplace hop hvalue hend =>
    have hlength := hplace.length_le
    simp only [Part.least, List.length_cons] at hlength
    refine (hplace.expression_follows hfuel).seq_of
      (fun e => .seq inferInstance fun _ => .seq (assignment_walks fuel _ e) inferInstance)
      fun e he => ?_
    refine lexeme_follows.behind_eq ?_
    refine (assignment_follows hop (hvalue.expression_follows (by omega))).before ?_
    rintro _ ⟨_, _, rfl⟩
    refine (atSymbol_follows .rbrace).behind_eq ?_
    refine (at?_follows .endOfInput).behind_eq ?_
    refine endStatement_follows ?_ (.pure trivial)
    rw [Bool.not_and, Bool.not_not, Bool.not_not, Bool.or_false]
    exact hend

theorem letStmt_follows (hmut : Drops (.keyword .mut_) ls (.ident name :: ls₁))
    (htype : DerivesAnnotation ls₁ ls₂) (hvalue : DerivesInitial n ls₂ ls₃)
    (hend : DerivesEnd (first ls₃ == .symbol .rbrace) ls₃ ls') (hfuel : 16 * ls.length ≤ fuel) :
    Follows n (letStmt fuel) (fun _ => True) (.keyword .let_ :: ls) ls' := by
  have h₁ := hmut.length_le
  have h₂ := htype.length_le
  simp only [List.length_cons] at h₁
  refine here_follows.behind fun _ _ => (passKeyword_follows .let_).behind fun _ _ =>
    (eat_drops (l := .keyword .mut_) nofun hmut).behind fun _ _ =>
      identifier_follows.behind fun _ _ => (annotation_follows htype (by omega)).behind fun _ _ =>
        (initial_follows hvalue (by omega)).before fun _ _ =>
          (atSymbol_follows .rbrace).behind_eq ?_
  refine endStatement_follows ?_ (behind_follows.behind fun _ _ => .pure trivial)
  rw [Bool.not_not]
  exact hend

theorem jumpStmt_follows (kind : Jump) (hend : DerivesEnd (first ls == .symbol .rbrace) ls ls') :
    Follows 0 (jumpStmt kind) (fun _ => True) (.keyword (jumpKeyword kind) :: ls) ls' := by
  obtain ⟨hfirst, hdrops⟩ : (first ls = .symbol .semicolon ∨ first ls = .symbol .rbrace) ∧
      Drops (.symbol .semicolon) ls ls' := by
    generalize hfree : (first ls == Lexeme.symbol .rbrace) = free at hend
    cases hend with
    | free =>
      have hbrace := eq_of_beq hfree
      exact ⟨.inr hbrace, .inr ⟨by rw [hbrace]; nofun, rfl⟩⟩
    | semicolon => exact ⟨.inl rfl, .inl rfl⟩
  refine here_follows.behind fun _ _ =>
    (advanceKeyword_follows (jumpKeyword kind)).behind fun _ _ =>
      lexeme_follows.behind_eq ?_
  rw [if_neg fun h => hfirst.elim h.1 h.2]
  exact (eat_drops (l := .symbol .semicolon) nofun hdrops).discard.behind fun _ _ => .pure trivial

/-! ### Statements -/

/-- What stands behind the body of a conditional. -/
def otherwise (fuel : Nat) : Parse (Option Block) := do
  if ← eat (.keyword .else_) then
    if ← atKeyword .if_ then
      let chained ← ifStmt fuel
      return some ⟨chained.span, [chained]⟩
    else
      return some (← block fuel)
  else
    return none

/-- What is read of a phrase of statements with `fuel` steps. -/
def StmtPart.Follows (n fuel : Nat) (ls ls' : List Lexeme) : StmtPart → Prop
  | .block => Parse.Follows n (Parse.block fuel) (fun _ => True) ls ls'
  | .statements => Parse.Follows n (Parse.statements fuel) (fun _ => True) ls ls'
  | .statement => Parse.Follows n (Parse.statement fuel) (fun _ => True) ls ls'
  | .conditional => Parse.Follows n (ifStmt fuel) (fun _ => True) ls ls'
  | .otherwise => Parse.Follows n (Parse.otherwise fuel) (fun _ => True) ls ls'

/-- How many reading steps a phrase of statements may take at the lexeme that it begins with. -/
def StmtPart.steps : StmtPart → Nat
  | .block | .conditional | .otherwise => 0
  | .statement => 4
  | .statements => 5

theorem block_follows
    (hstmts : Follows n (statements fuel) (fun _ => True) ls (.symbol .rbrace :: ls')) :
    Follows (n + 1) (block (fuel + 1)) (fun _ => True) (.symbol .lbrace :: ls) ls' := by
  have henclosed : block (fuel + 1) =
      enclosed (do
        let start ← expectSymbol .lbrace
        let stmts ← statements fuel
        let stop ← expectSymbol .rbrace
        return ⟨start.merge stop, stmts⟩) (do
        let span ← here
        skipUntil isEnd
        return ⟨span, []⟩) := by
    rw [block]
    rfl
  rw [henclosed]
  exact .enclosed <| (expectSymbol_follows .lbrace).behind fun _ _ => hstmts.before fun _ _ =>
    (expectSymbol_follows .rbrace).behind fun _ _ => .pure trivial

theorem statements_none (hend : isBlockEnd (first ls)) :
    Follows 0 (statements (fuel + 1)) (fun _ => True) ls ls := by
  rw [statements]
  refine lexeme_follows.behind_eq ?_
  rw [if_pos hend]
  exact .pure trivial

theorem statements_empty (hrest : Follows n (statements fuel) (fun _ => True) ls ls') :
    Follows n (statements (fuel + 1)) (fun _ => True) (.symbol .semicolon :: ls) ls' := by
  rw [statements]
  refine lexeme_follows.behind_eq ?_
  refine (eatSymbol_follows .semicolon).behind_eq ?_
  exact hrest

theorem statements_more (hend : ¬ isBlockEnd (first ls))
    (hsemicolon : first ls ≠ .symbol .semicolon)
    (hstmt : Follows m (statement fuel) (fun _ => True) ls ls₁)
    (hrest : Follows n (statements fuel) (fun _ => True) ls₁ ls') :
    Follows (max m n) (statements (fuel + 1)) (fun _ => True) ls ls' := by
  rw [statements]
  refine lexeme_follows.behind_eq ?_
  rw [if_neg hend]
  refine (eat_stays hsemicolon).behind_eq ?_
  exact hstmt.seq fun _ _ => hrest.before fun _ _ => .pure trivial

theorem ifStmt_follows {V : Expr → Prop} (hcondition : Follows k (expression fuel 0) V ls ls₁)
    (hbody : Follows m (block fuel) (fun _ => True) ls₁ ls₂)
    (helse : Follows n (otherwise fuel) (fun _ => True) ls₂ ls') :
    Follows (max k (max m n)) (ifStmt (fuel + 1)) (fun _ => True) (.keyword .if_ :: ls) ls' := by
  rw [ifStmt]
  exact here_follows.behind fun _ _ => (passKeyword_follows .if_).behind fun _ _ =>
    hcondition.seq fun _ _ => hbody.seq fun _ _ => Follows.before helse fun _ _ =>
      behind_follows.behind fun _ _ => .pure trivial

theorem otherwise_none (helse : first ls ≠ .keyword .else_) :
    Follows 0 (otherwise fuel) (fun _ => True) ls ls := by
  refine (eat_stays helse).behind_eq ?_
  exact .pure trivial

theorem otherwise_block (hfirst : first ls ≠ .keyword .if_)
    (hbody : Follows n (block fuel) (fun _ => True) ls ls') :
    Follows n (otherwise fuel) (fun _ => True) (.keyword .else_ :: ls) ls' := by
  refine (eatKeyword_follows .else_).behind_eq ?_
  refine (atKeyword_follows .if_).behind_eq ?_
  rw [beq_false_of_ne hfirst]
  exact hbody.before fun _ _ => .pure trivial

theorem otherwise_chain (hfirst : first ls = .keyword .if_)
    (hchained : Follows n (ifStmt fuel) (fun _ => True) ls ls') :
    Follows n (otherwise fuel) (fun _ => True) (.keyword .else_ :: ls) ls' := by
  refine (eatKeyword_follows .else_).behind_eq ?_
  refine (atKeyword_follows .if_).behind_eq ?_
  rw [hfirst]
  exact hchained.before fun _ _ => .pure trivial

theorem forStmt_follows {inclusive : Bool} {V W : Expr → Prop}
    (hfirst : Follows k (expression fuel 0) V ls
      (.symbol (if inclusive then .dotDotEq else .dotDot) :: ls₁))
    (hstop : Follows m (expression fuel 0) W ls₁ ls₂)
    (hbody : Follows n (block fuel) (fun _ => True) ls₂ ls') :
    Follows (max k (max m n)) (forStmt (fuel + 1)) (fun _ => True)
      (.keyword .for_ :: .ident name :: .keyword .in_ :: ls) ls' := by
  rw [forStmt]
  refine here_follows.behind fun _ _ => (passKeyword_follows .for_).behind fun _ _ =>
    identifier_follows.behind fun _ _ => (passKeyword_follows .in_).behind fun _ _ =>
      hfirst.seq fun _ _ => lexeme_follows.behind_eq ?_
  have hrange (l : Lexeme) (hl : l = .symbol (if inclusive then .dotDotEq else .dotDot)) :
      ¬ (l ≠ .symbol .dotDot ∧ l ≠ .symbol .dotDotEq) := by
    rintro ⟨hexclusive, hinclusive⟩
    cases inclusive with
    | true => exact hinclusive hl
    | false => exact hexclusive hl
  rw [if_neg (hrange (first _) rfl)]
  exact (advanceSymbol_follows _).behind fun _ _ => hstop.seq fun _ _ =>
    hbody.before fun _ _ => .pure trivial

theorem statement_let (h : Follows n (letStmt fuel) (fun _ => True) (.keyword .let_ :: ls) ls') :
    Follows n (statement (fuel + 1)) (fun _ => True) (.keyword .let_ :: ls) ls' := by
  rw [statement]
  refine here_follows.behind fun _ _ => lexeme_follows.behind_eq ?_
  exact h

theorem statement_if (h : Follows n (ifStmt fuel) (fun _ => True) (.keyword .if_ :: ls) ls') :
    Follows n (statement (fuel + 1)) (fun _ => True) (.keyword .if_ :: ls) ls' := by
  rw [statement]
  refine here_follows.behind fun _ _ => lexeme_follows.behind_eq ?_
  exact h

theorem statement_for (h : Follows n (forStmt fuel) (fun _ => True) (.keyword .for_ :: ls) ls') :
    Follows n (statement (fuel + 1)) (fun _ => True) (.keyword .for_ :: ls) ls' := by
  rw [statement]
  refine here_follows.behind fun _ _ => lexeme_follows.behind_eq ?_
  exact h

theorem statement_while {V : Expr → Prop} (hcondition : Follows m (expression fuel 0) V ls ls₁)
    (hbody : Follows n (block fuel) (fun _ => True) ls₁ ls') :
    Follows (max m n) (statement (fuel + 1)) (fun _ => True) (.keyword .while_ :: ls) ls' := by
  rw [statement]
  refine here_follows.behind fun _ _ => lexeme_follows.behind_eq ?_
  exact (advanceKeyword_follows .while_).behind fun _ _ => hcondition.seq fun _ _ =>
    hbody.before fun _ _ => .pure trivial

theorem statement_loop (hbody : Follows n (block fuel) (fun _ => True) ls ls') :
    Follows n (statement (fuel + 1)) (fun _ => True) (.keyword .loop :: ls) ls' := by
  rw [statement]
  refine here_follows.behind fun _ _ => lexeme_follows.behind_eq ?_
  exact (advanceKeyword_follows .loop).behind fun _ _ => hbody.before fun _ _ =>
    .pure trivial

theorem statement_jump {kind : Jump}
    (h : Follows n (jumpStmt kind) (fun _ => True) (.keyword (jumpKeyword kind) :: ls) ls') :
    Follows n (statement (fuel + 1)) (fun _ => True) (.keyword (jumpKeyword kind) :: ls) ls' := by
  rw [statement]
  refine here_follows.behind fun _ _ => lexeme_follows.behind_eq ?_
  cases kind <;> exact h

theorem statement_nested
    (h : Follows n (block fuel) (fun _ => True) (.symbol .lbrace :: ls) ls') :
    Follows n (statement (fuel + 1)) (fun _ => True) (.symbol .lbrace :: ls) ls' := by
  rw [statement]
  refine here_follows.behind fun _ _ => lexeme_follows.behind_eq ?_
  exact h.before fun _ _ => .pure trivial

/-- A statement begins with an expression, but not with a conditional. -/
theorem statement_simple (hstart : startsExpression (first ls)) (hif : first ls ≠ .keyword .if_)
    (h : Follows n (simpleStmt fuel false) (fun _ => True) ls ls') :
    Follows n (statement (fuel + 1)) (fun _ => True) ls ls' := by
  rw [statement]
  refine here_follows.behind fun _ _ => lexeme_follows.behind_eq ?_
  split
  case h_2 hl => exact absurd hl hif
  case h_10 => exact h
  all_goals
    rename_i hl
    rw [hl] at hstart
    cases hstart

theorem DerivesSimple.starts {isBody : Bool} (h : DerivesSimple isBody n ls ls') :
    startsExpression (first ls) := by
  cases h with
  | eval hvalue _ _ => exact hvalue.starts rfl
  | assign hplace _ _ _ => exact hplace.starts rfl

theorem DerivesStmt.first_block (h : DerivesStmt n .block ls ls') : first ls = .symbol .lbrace := by
  cases h
  rfl

theorem DerivesStmt.first_conditional (h : DerivesStmt n .conditional ls ls') :
    first ls = .keyword .if_ := by
  cases h
  rfl

/-- A phrase of statements is read up to its end, if its levels fit in the bound. -/
theorem DerivesStmt.follows {p : StmtPart} (h : DerivesStmt n p ls ls')
    (hfuel : 16 * ls.length + p.steps ≤ fuel) : p.Follows n fuel ls ls' := by
  induction h generalizing fuel with
  | block _ ih =>
    simp only [StmtPart.steps, List.length_cons] at *
    obtain ⟨fuel, rfl⟩ : ∃ f, fuel = f + 1 := ⟨fuel - 1, by omega⟩
    exact block_follows (ih (by omega))
  | noStatement hend =>
    simp only [StmtPart.steps] at *
    obtain ⟨fuel, rfl⟩ : ∃ f, fuel = f + 1 := ⟨fuel - 1, by omega⟩
    exact statements_none hend
  | emptyStatement _ ih =>
    simp only [StmtPart.steps, List.length_cons] at *
    obtain ⟨fuel, rfl⟩ : ∃ f, fuel = f + 1 := ⟨fuel - 1, by omega⟩
    exact statements_empty (ih (by omega))
  | moreStatements hend hsemicolon hstmt _ ihStmt ihRest =>
    have hlength := hstmt.length_le
    simp only [StmtPart.steps, StmtPart.least] at *
    obtain ⟨fuel, rfl⟩ : ∃ f, fuel = f + 1 := ⟨fuel - 1, by omega⟩
    exact statements_more hend hsemicolon (ihStmt (by omega)) (ihRest (by omega))
  | «let» hmut htype hvalue hend =>
    simp only [StmtPart.steps, List.length_cons] at *
    obtain ⟨fuel, rfl⟩ : ∃ f, fuel = f + 1 := ⟨fuel - 1, by omega⟩
    exact statement_let (letStmt_follows hmut htype hvalue hend (by omega))
  | «if» _ ih =>
    simp only [StmtPart.steps, List.length_cons] at *
    obtain ⟨fuel, rfl⟩ : ∃ f, fuel = f + 1 := ⟨fuel - 1, by omega⟩
    exact statement_if (ih (by omega))
  | conditional hcondition hbody _ ihBody ihElse =>
    have hlength := hcondition.length_le
    have hlength' := hbody.length_le
    simp only [StmtPart.steps, StmtPart.least, Part.least, List.length_cons] at *
    obtain ⟨fuel, rfl⟩ : ∃ f, fuel = f + 1 := ⟨fuel - 1, by omega⟩
    exact ifStmt_follows (hcondition.expression_follows (by omega)) (ihBody (by omega))
      (ihElse (by omega))
  | noElse helse => exact otherwise_none helse
  | elseBlock hbody ih =>
    simp only [StmtPart.steps, List.length_cons] at *
    refine otherwise_block ?_ (ih (by omega))
    rw [hbody.first_block]
    intro h
    cases h
  | elseIf hchained ih =>
    simp only [StmtPart.steps, List.length_cons] at *
    exact otherwise_chain hchained.first_conditional (ih (by omega))
  | «for» hfirst hstop _ ihBody =>
    have hlength := hfirst.length_le
    have hlength' := hstop.length_le
    simp only [StmtPart.steps, Part.least, List.length_cons] at *
    obtain ⟨fuel, rfl⟩ : ∃ f, fuel = f + 2 := ⟨fuel - 2, by omega⟩
    exact statement_for <| forStmt_follows (hfirst.expression_follows (by omega))
      (hstop.expression_follows (by omega)) (ihBody (by omega))
  | «while» hcondition _ ihBody =>
    have hlength := hcondition.length_le
    simp only [StmtPart.steps, Part.least, List.length_cons] at *
    obtain ⟨fuel, rfl⟩ : ∃ f, fuel = f + 1 := ⟨fuel - 1, by omega⟩
    exact statement_while (hcondition.expression_follows (by omega)) (ihBody (by omega))
  | loop _ ih =>
    simp only [StmtPart.steps, List.length_cons] at *
    obtain ⟨fuel, rfl⟩ : ∃ f, fuel = f + 1 := ⟨fuel - 1, by omega⟩
    exact statement_loop (ih (by omega))
  | jump hend =>
    simp only [StmtPart.steps, List.length_cons] at *
    obtain ⟨fuel, rfl⟩ : ∃ f, fuel = f + 1 := ⟨fuel - 1, by omega⟩
    exact statement_jump (jumpStmt_follows _ hend)
  | nested _ ih =>
    simp only [StmtPart.steps, List.length_cons] at *
    obtain ⟨fuel, rfl⟩ : ∃ f, fuel = f + 1 := ⟨fuel - 1, by omega⟩
    exact statement_nested (ih (by omega))
  | simple hif hsimple =>
    simp only [StmtPart.steps] at *
    obtain ⟨fuel, rfl⟩ : ∃ f, fuel = f + 1 := ⟨fuel - 1, by omega⟩
    exact statement_simple hsimple.starts hif (simpleStmt_follows hsimple (by omega))

/-! ### Closures -/

theorem closureBody_follows (h : DerivesBody n ls ls') (hfuel : 16 * ls.length + 3 ≤ fuel) :
    Follows n (closureBody fuel) (fun _ => True) ls ls' := by
  cases h with
  | block hblock =>
    refine (atSymbol_follows .lbrace).behind_eq ?_
    exact hblock.follows (Nat.le_of_add_right_le hfuel)
  | simple hfirst hsimple =>
    refine (atSymbol_follows .lbrace).behind_eq ?_
    rw [beq_false_of_ne hfirst]
    exact (simpleStmt_follows hsimple hfuel).before fun _ _ => .pure trivial

/-- What is passed over reaches up to where it has to stop. -/
theorem lexemes_skipTokens_eq {stop : Lexeme → Bool} {skipped : List Lexeme} {l : Lexeme}
    (hskipped : ∀ l ∈ skipped, ¬ stop l) (hstop : stop l) {tokens : List Token}
    {passed : Option Span} (h : tokens.map Token.lexeme = skipped ++ l :: ls) :
    (Cursor.skipTokens stop tokens passed).1.map Token.lexeme = l :: ls := by
  induction skipped generalizing tokens passed with
  | nil =>
    fun_cases Cursor.skipTokens stop tokens passed with
    | case1 => exact h
    | case2 t u rest passed hgoes =>
      obtain rfl : t.lexeme = l := (List.cons.inj h).1
      exact absurd hstop hgoes
    | case3 => exact h
  | cons l' skipped ih =>
    obtain ⟨hl', hskipped⟩ := List.forall_mem_cons.mp hskipped
    fun_cases Cursor.skipTokens stop tokens passed with
    | case1 t u rest passed hstops =>
      obtain rfl : t.lexeme = l' := (List.cons.inj h).1
      exact absurd hstops hl'
    | case2 t u rest passed hgoes => exact ih hskipped (List.cons.inj h).2
    | case3 tokens passed hshort =>
      obtain ⟨t, ts, rfl, -, hrest⟩ := List.map_eq_cons_iff.mp h
      obtain ⟨u, us, rfl, -⟩ := List.exists_cons_of_ne_nil (l := ts) fun hnil => by
        rw [hnil] at hrest
        exact absurd hrest.symm (List.append_ne_nil_of_right_ne_nil _ (List.cons_ne_nil _ _))
      exact absurd rfl (hshort t u us)

theorem skipUntil_follows {stop : Lexeme → Bool} {skipped : List Lexeme} {l : Lexeme}
    (hskipped : ∀ l ∈ skipped, ¬ stop l) (hstop : stop l) :
    Follows 0 (skipUntil stop) (fun _ => True) (skipped ++ l :: ls) (l :: ls) := by
  refine .of_reaches fun c hc => ⟨trivial, ⟨?_, ?_⟩, rfl, rfl⟩
  · exact lexemes_skipTokens_eq hskipped hstop hc.lexemes
  · obtain ⟨_, _, _, htape⟩ := c.lexemes_skipUntil stop (hc.lexemes ▸ hc.tape)
    have hlexemes : (c.skipUntil stop).lexemes = l :: ls :=
      lexemes_skipTokens_eq hskipped hstop hc.lexemes
    exact hlexemes ▸ htape

theorem closureFromParam_follows {skipped : List Lexeme}
    (htype : DerivesAnnotation ls (skipped ++ .symbol .pipe :: ls₁))
    (hcomma : first (skipped ++ .symbol .pipe :: ls₁) ≠ .symbol .comma)
    (hskipped : ∀ l ∈ skipped, ¬ endsParameters l) (hbody : DerivesBody n ls₁ [.endOfInput])
    (hfuel : 16 * ls.length ≤ fuel) :
    Follows n (closureFromParam fuel) (fun _ => True) (.ident name :: ls) [.endOfInput] := by
  have hlength := htype.length_le
  simp only [List.length_append, List.length_cons] at hlength
  refine identifier_follows.behind fun _ _ => (annotation_follows htype hfuel).behind fun _ _ =>
    (atSymbol_follows .comma).behind_eq ?_
  rw [beq_false_of_ne hcomma]
  refine (skipUntil_follows hskipped rfl).behind fun _ _ =>
    (passSymbol_follows .pipe).behind fun _ _ =>
      (closureBody_follows hbody (by omega)).before fun _ _ => lexeme_follows.behind_eq ?_
  exact .pure trivial

theorem closure_follows (h : DerivesClosure n ls) (hfuel : 16 * ls.length ≤ fuel) :
    Follows n (closure fuel) (fun result => result.isSome) ls [.endOfInput] := by
  obtain ⟨hmove, htype, hcomma, hskipped, hbody⟩ := h
  have hlength := hmove.length_le
  simp only [List.length_cons] at hlength
  refine (eat_drops (l := .keyword .move) nofun hmove).discard.behind fun _ _ =>
    lexeme_follows.behind_eq ?_
  exact (advanceSymbol_follows .pipe).behind fun _ _ =>
    (closureFromParam_follows htype hcomma hskipped hbody (by omega)).before fun _ _ => .pure rfl

end Parse

end ComputeKernel
