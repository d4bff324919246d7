import ComputeKernel.Proofs.Parsing.Descent.Rules

/-!
Readings of types and expressions that can be derived, as far as their levels fit in the bound on the
blocks and expressions that may be open. No reading takes more than 16 steps for a lexeme.
-/

namespace ComputeKernel.Parse

open Cursor (Step)

variable {ls ls₁ ls' : List Lexeme} {l : Lexeme} {m n : Nat}

/-! ### Types -/

theorem pathTail_follows {fuel : Nat} (h : DerivesType .tail ls ls')
    (hfuel : 16 * ls.length + 1 ≤ fuel) : Follows 0 (pathTail fuel) (fun _ => True) ls ls' := by
  generalize hp : TypePart.tail = p at h
  induction h generalizing fuel with
  | tailEnd hcolons =>
    obtain ⟨fuel, rfl⟩ : ∃ f, fuel = f + 1 := ⟨fuel - 1, by omega⟩
    rw [pathTail]
    refine (eat_stays hcolons).behind_eq ?_
    exact .pure trivial
  | tailMore _ ih =>
    simp only [List.length_cons] at hfuel
    obtain ⟨fuel, rfl⟩ : ∃ f, fuel = f + 1 := ⟨fuel - 1, by omega⟩
    rw [pathTail]
    refine (eatSymbol_follows .colonColon).behind_eq ?_
    exact identifier_follows.behind fun _ _ => (ih (by omega) rfl).behind fun _ _ => .pure trivial
  | _ => cases hp

theorem closeAngle_follows (h : DerivesAngle ls ls') :
    Follows 0 closeAngle (fun _ => True) ls ls' := by
  cases h with
  | whole =>
    refine lexeme_follows.behind_eq ?_
    exact passSymbol_follows .gt
  | half =>
    refine lexeme_follows.behind_eq ?_
    refine .of_reaches fun c hc => ⟨trivial, ?_⟩
    obtain ⟨rest, hlexemes, hsplit, htape⟩ := c.lexemes_splitShift (hc.lexemes ▸ hc.tape) hc.lexeme
    obtain rfl : rest = _ := (List.cons.inj (hlexemes.symm.trans hc.lexemes)).2
    exact ⟨⟨hsplit, hsplit ▸ htape⟩, c.splitShift_depth, c.splitShift_diagnostics⟩

/-- What is read of a phrase of types with `fuel` steps. -/
def TypePart.Follows (fuel : Nat) (ls ls' : List Lexeme) : TypePart → Prop
  | .tail => True
  | .type => Parse.Follows 0 (typeRef fuel) (fun _ => True) ls ls'
  | .args => Parse.Follows 0 (typeArgs fuel) (fun _ => True) ls ls'

/-- How many reading steps a phrase of types may take at the lexeme that it begins with. -/
def TypePart.steps : TypePart → Nat
  | .tail | .type => 1
  | .args => 2

/-- A phrase of types opens nothing. -/
theorem DerivesType.follows {p : TypePart} {fuel : Nat} (h : DerivesType p ls ls')
    (hfuel : 16 * ls.length + p.steps ≤ fuel) : p.Follows fuel ls ls' := by
  induction h generalizing fuel with
  | tailEnd _ | tailMore _ _ => trivial
  | plain htail hlt _ =>
    simp only [TypePart.steps, List.length_cons] at hfuel
    obtain ⟨fuel, rfl⟩ : ∃ f, fuel = f + 1 := ⟨fuel - 1, by omega⟩
    rw [TypePart.Follows, typeRef]
    refine here_follows.behind fun _ _ => identifier_follows.behind fun _ _ =>
      (pathTail_follows htail (by omega)).behind fun _ _ =>
        .behind (V := fun _ => True) ?_ fun _ _ => behind_follows.behind fun _ _ => .pure trivial
    refine (eat_stays hlt).behind_eq ?_
    exact .pure trivial
  | @generic _ _ ls₁ ls₂ _ htail hargs hclose _ ihArgs =>
    have hlength := htail.length_le
    simp only [TypePart.steps, TypePart.least, List.length_cons] at hfuel hlength ihArgs
    obtain ⟨fuel, rfl⟩ : ∃ f, fuel = f + 1 := ⟨fuel - 1, by omega⟩
    have hargs : Parse.Follows 0 (typeArgs fuel) (fun _ => True) ls₁ ls₂ := ihArgs (by omega)
    rw [TypePart.Follows, typeRef]
    refine here_follows.behind fun _ _ => identifier_follows.behind fun _ _ =>
      (pathTail_follows htail (by omega)).behind fun _ _ =>
        .behind (V := fun _ => True) ?_ fun _ _ => behind_follows.behind fun _ _ => .pure trivial
    refine (eatSymbol_follows .lt).behind_eq ?_
    exact hargs.behind fun _ _ => (closeAngle_follows hclose).behind fun _ _ => .pure trivial
  | @lastArg ls ls' _ hcomma ih =>
    simp only [TypePart.steps] at hfuel ih
    obtain ⟨fuel, rfl⟩ : ∃ f, fuel = f + 1 := ⟨fuel - 1, by omega⟩
    have htype : Parse.Follows 0 (typeRef fuel) (fun _ => True) ls ls' := ih (by omega)
    rw [TypePart.Follows, typeArgs]
    refine htype.behind fun _ _ => (eat_stays hcomma).behind_eq ?_
    exact .pure trivial
  | @moreArgs ls ls₁ ls' htype _ ihType ihRest =>
    have hlength := htype.length_le
    simp only [TypePart.steps, TypePart.least, List.length_cons] at hfuel hlength ihType ihRest
    obtain ⟨fuel, rfl⟩ : ∃ f, fuel = f + 1 := ⟨fuel - 1, by omega⟩
    have htype : Parse.Follows 0 (typeRef fuel) (fun _ => True) ls (.symbol .comma :: ls₁) :=
      ihType (by omega)
    have hrest : Parse.Follows 0 (typeArgs fuel) (fun _ => True) ls₁ ls' := ihRest (by omega)
    rw [TypePart.Follows, typeArgs]
    refine htype.behind fun _ _ => (eatSymbol_follows .comma).behind_eq ?_
    exact hrest.behind fun _ _ => .pure trivial

theorem typeRef_follows {fuel : Nat} (h : DerivesType .type ls ls')
    (hfuel : 16 * ls.length + 1 ≤ fuel) : Follows 0 (typeRef fuel) (fun _ => True) ls ls' :=
  h.follows hfuel

/-! ### Expressions -/

/-- What is read of a phrase of expressions with `fuel` steps. -/
def Part.Follows (n fuel : Nat) (ls ls' : List Lexeme) : Part → Prop
  | .expression floor b =>
    Parse.Follows n (Parse.expression fuel floor) (endsWithBrace · = b) ls ls'
  | .operators floor b b' => ∀ left, endsWithBrace left = b →
    Parse.Follows n (Parse.operators fuel floor left) (endsWithBrace · = b') ls ls'
  | .operand b => Parse.Follows n (Parse.operand fuel) (endsWithBrace · = b) ls ls'
  | .members b b' => ∀ receiver, endsWithBrace receiver = b →
    Parse.Follows n (Parse.members fuel receiver) (endsWithBrace · = b') ls ls'
  | .primary b => Parse.Follows n (Parse.primary fuel) (endsWithBrace · = b) ls ls'
  | .conditional => Parse.Follows n (Parse.conditional fuel) (endsWithBrace · = true) ls ls'
  | .tupleItems => Parse.Follows n (Parse.tupleItems fuel) (fun _ => True) ls ls'
  | .branch => Parse.Follows n (Parse.branch fuel) (fun _ => True) ls ls'
  | .arguments => Parse.Follows n (Parse.arguments fuel) (fun _ => True) ls ls'
  | .argumentItems => Parse.Follows n (Parse.argumentItems fuel) (fun _ => True) ls ls'

/-- How many reading steps a phrase of expressions may take at the lexeme that it begins with. -/
def Part.steps : Part → Nat
  | .conditional | .branch | .arguments => 0
  | .operators .. | .members .. | .primary .. | .tupleItems => 1
  | .operand .. => 2
  | .expression .. => 3
  | .argumentItems => 4

theorem expression_follows {fuel floor : Nat} {b b' : Bool}
    (hfirst : Follows m (operand fuel) (endsWithBrace · = b) ls ls₁)
    (hrest : ∀ left, endsWithBrace left = b →
      Follows n (operators fuel floor left) (endsWithBrace · = b') ls₁ ls') :
    Follows (max m n + 1) (expression (fuel + 1) floor) (endsWithBrace · = b') ls ls' := by
  have henclosed : expression (fuel + 1) floor =
      enclosed (do
        let first ← operand fuel
        operators fuel floor first) (do
        let span ← here
        skipUntil isEnd
        return missingExpr span) := by
    rw [expression]
    rfl
  rw [henclosed]
  exact (hfirst.seq hrest).enclosed

section Productions

variable {fuel floor : Nat} {b b' : Bool} {ls₂ : List Lexeme}

theorem operators_stop {left : Expr} (hstops : StopsAt floor (first ls))
    (hleft : endsWithBrace left = b) :
    Follows 0 (operators (fuel + 1) floor left) (endsWithBrace · = b) ls ls := by
  rw [operators]
  refine lexeme_follows.behind_eq ?_
  split
  · rename_i hl
    exact absurd hl hstops.1
  · rename_i s hl
    split
    · exact .pure hleft
    · rename_i op hop
      rw [if_pos (hstops.2 s op hl hop)]
      exact .pure hleft
  · exact .pure hleft

theorem operators_cast {left : Expr} (htype : Follows 0 (typeRef fuel) (fun _ => True) ls ls₁)
    (hrest : ∀ left, endsWithBrace left = false →
      Follows n (operators fuel floor left) (endsWithBrace · = b') ls₁ ls') :
    Follows n (operators (fuel + 1) floor left) (endsWithBrace · = b') (.keyword .as :: ls)
      ls' := by
  rw [operators]
  refine lexeme_follows.behind_eq ?_
  exact (advanceKeyword_follows .as).behind fun _ _ => htype.behind fun _ _ =>
    hrest _ rfl

theorem operators_binary {left : Expr} {s : Symbol} {op : BinaryOp} {r : Bool}
    (hop : s.binaryOp? = some op) (hrank : floor ≤ op.rank)
    (hright : Follows m (expression fuel (op.rank + 1)) (endsWithBrace · = r) ls ls₁)
    (hrest : ∀ left, endsWithBrace left = false →
      Follows n (operators fuel floor left) (endsWithBrace · = b') ls₁ ls') :
    Follows (max m n) (operators (fuel + 1) floor left) (endsWithBrace · = b') (.symbol s :: ls)
      ls' := by
  rw [operators]
  refine lexeme_follows.behind_eq ?_
  simp only [first_cons, hop]
  rw [if_neg (Nat.not_lt.mpr hrank)]
  exact (advanceSymbol_follows s).behind fun _ _ => hright.seq fun _ _ => hrest _ rfl

theorem operand_neg (hinner : Follows n (operand fuel) (endsWithBrace · = b) ls ls') :
    Follows n (operand (fuel + 1)) (endsWithBrace · = false) (.symbol .minus :: ls) ls' := by
  rw [operand]
  refine here_follows.behind fun _ _ => lexeme_follows.behind_eq ?_
  exact (advanceSymbol_follows .minus).behind fun _ _ =>
    hinner.before fun _ _ => .pure rfl

theorem operand_not (hinner : Follows n (operand fuel) (endsWithBrace · = b) ls ls') :
    Follows n (operand (fuel + 1)) (endsWithBrace · = false) (.symbol .bang :: ls) ls' := by
  rw [operand]
  refine here_follows.behind fun _ _ => lexeme_follows.behind_eq ?_
  exact (advanceSymbol_follows .bang).behind fun _ _ =>
    hinner.before fun _ _ => .pure rfl

theorem operand_plain (hminus : first ls ≠ .symbol .minus) (hbang : first ls ≠ .symbol .bang)
    (hfirst : Follows m (primary fuel) (endsWithBrace · = b) ls ls₁)
    (hrest : ∀ receiver, endsWithBrace receiver = b →
      Follows n (members fuel receiver) (endsWithBrace · = b') ls₁ ls') :
    Follows (max m n) (operand (fuel + 1)) (endsWithBrace · = b') ls ls' := by
  rw [operand]
  refine here_follows.behind fun _ _ => lexeme_follows.behind_eq ?_
  split
  · rename_i hl
    exact absurd hl hminus
  · rename_i hl
    exact absurd hl hbang
  · exact hfirst.seq hrest

theorem members_stop {receiver : Expr} (hdot : first ls ≠ .symbol .dot)
    (hbracket : first ls ≠ .symbol .lbracket) (hparen : first ls ≠ .symbol .lparen)
    (hreceiver : endsWithBrace receiver = b) :
    Follows 0 (members (fuel + 1) receiver) (endsWithBrace · = b) ls ls := by
  rw [members]
  refine lexeme_follows.behind_eq ?_
  split
  · rename_i hl
    exact absurd hl hdot
  · rename_i hl
    exact absurd hl hbracket
  · rename_i hl
    exact absurd hl hparen
  · exact .pure hreceiver

theorem memberName_follows {name : String} :
    Follows 0 memberName (·.text = name) (.ident name :: ls) ls := by
  refine lexeme_follows.behind_eq ?_
  exact identifier_follows

theorem members_method {receiver : Expr} {name : String}
    (hargs : Follows m (arguments fuel) (fun _ => True) (.symbol .lparen :: ls) ls₁)
    (hrest : ∀ receiver, endsWithBrace receiver = false →
      Follows n (members fuel receiver) (endsWithBrace · = b') ls₁ ls') :
    Follows (max m n) (members (fuel + 1) receiver) (endsWithBrace · = b')
      (.symbol .dot :: .ident name :: .symbol .lparen :: ls) ls' := by
  rw [members]
  refine lexeme_follows.behind_eq ?_
  refine (advanceSymbol_follows .dot).behind fun _ _ =>
    memberName_follows.behind fun _ _ => (atSymbol_follows .lparen).behind_eq ?_
  exact hargs.seq fun _ _ => behind_follows.behind fun _ _ => hrest _ rfl

theorem members_field {receiver : Expr} {name : String} (hparen : first ls ≠ .symbol .lparen)
    (hrest : ∀ receiver, endsWithBrace receiver = false →
      Follows n (members fuel receiver) (endsWithBrace · = b') ls ls') :
    Follows n (members (fuel + 1) receiver) (endsWithBrace · = b')
      (.symbol .dot :: .ident name :: ls) ls' := by
  rw [members]
  refine lexeme_follows.behind_eq ?_
  refine (advanceSymbol_follows .dot).behind fun _ _ =>
    memberName_follows.behind fun _ _ => (atSymbol_follows .lparen).behind_eq ?_
  rw [beq_false_of_ne hparen]
  exact hrest _ rfl

theorem members_index {receiver : Expr} {i : Bool}
    (hindex : Follows m (expression fuel 0) (endsWithBrace · = i) ls (.symbol .rbracket :: ls₁))
    (hrest : ∀ receiver, endsWithBrace receiver = false →
      Follows n (members fuel receiver) (endsWithBrace · = b') ls₁ ls') :
    Follows (max m n) (members (fuel + 1) receiver) (endsWithBrace · = b') (.symbol .lbracket :: ls)
      ls' := by
  rw [members]
  refine lexeme_follows.behind_eq ?_
  exact (advanceSymbol_follows .lbracket).behind fun _ _ => hindex.seq fun _ _ =>
    (passSymbol_follows .rbracket).behind fun _ _ => behind_follows.behind fun _ _ => hrest _ rfl

theorem primary_literal (hl : isLiteral l) :
    Follows 0 (primary (fuel + 1)) (endsWithBrace · = false) (l :: ls) ls := by
  have hne : l ≠ .endOfInput := by
    rintro rfl
    cases hl
  rw [primary]
  refine here_follows.behind fun _ _ => lexeme_follows.behind_eq ?_
  unfold isLiteral at hl
  split at hl
  case h_5 => cases hl
  all_goals exact (advance_follows hne).behind fun _ _ => .pure rfl

theorem primary_path {name : String} (htail : Follows 0 (pathTail fuel) (fun _ => True) ls ls')
    (hparen : first ls' ≠ .symbol .lparen) :
    Follows 0 (primary (fuel + 1)) (endsWithBrace · = false) (.ident name :: ls) ls' := by
  rw [primary]
  refine here_follows.behind fun _ _ => lexeme_follows.behind_eq ?_
  refine (advanceIdent_follows name).behind fun _ _ => htail.behind fun rest _ =>
    behind_follows.behind fun _ _ => (atSymbol_follows .lparen).behind_eq ?_
  rw [beq_false_of_ne hparen, if_neg Bool.false_ne_true]
  split <;> exact .pure rfl

theorem primary_call {name : String}
    (htail : Follows 0 (pathTail fuel) (fun _ => True) ls (.symbol .lparen :: ls₁))
    (hargs : Follows n (arguments fuel) (fun _ => True) (.symbol .lparen :: ls₁) ls') :
    Follows n (primary (fuel + 1)) (endsWithBrace · = false) (.ident name :: ls) ls' := by
  rw [primary]
  refine here_follows.behind fun _ _ => lexeme_follows.behind_eq ?_
  refine (advanceIdent_follows name).behind fun _ _ => htail.behind fun rest _ =>
    behind_follows.behind fun _ _ => (atSymbol_follows .lparen).behind_eq ?_
  exact hargs.before fun _ _ => behind_follows.behind fun _ _ => .pure rfl

theorem ne_of_startsExpression {l' : Lexeme} (h : startsExpression l) (h' : ¬ startsExpression l') :
    l ≠ l' := by
  rintro rfl
  exact h' h

theorem primary_paren (hstart : startsExpression (first ls))
    (hinner : Follows n (expression fuel 0) (endsWithBrace · = b) ls (.symbol .rparen :: ls')) :
    Follows n (primary (fuel + 2)) (endsWithBrace · = false) (.symbol .lparen :: ls) ls' := by
  have hne : first ls ≠ .symbol .rparen := ne_of_startsExpression hstart Bool.false_ne_true
  rw [primary]
  refine here_follows.behind fun _ _ => lexeme_follows.behind_eq ?_
  simp only [first_cons, parenthesized]
  refine (expectSymbol_follows .lparen).behind fun _ _ => (atSymbol_follows .rparen).behind_eq ?_
  rw [beq_false_of_ne hne, if_neg Bool.false_ne_true]
  refine hinner.before fun _ _ => (atSymbol_follows .rparen).behind_eq ?_
  exact (expectSymbol_follows .rparen).behind fun _ _ => .pure rfl

theorem primary_tuple (hstart : startsExpression (first ls))
    (hfirst : Follows m (expression fuel 0) (endsWithBrace · = b) ls ls₁)
    (hmore : first ls₁ ≠ .symbol .rparen)
    (hrest : Follows n (tupleItems fuel) (fun _ => True) ls₁ (.symbol .rparen :: ls')) :
    Follows (max m n) (primary (fuel + 2)) (endsWithBrace · = false) (.symbol .lparen :: ls)
      ls' := by
  have hne : first ls ≠ .symbol .rparen := ne_of_startsExpression hstart Bool.false_ne_true
  rw [primary]
  refine here_follows.behind fun _ _ => lexeme_follows.behind_eq ?_
  simp only [first_cons, parenthesized]
  refine (expectSymbol_follows .lparen).behind fun _ _ => (atSymbol_follows .rparen).behind_eq ?_
  rw [beq_false_of_ne hne, if_neg Bool.false_ne_true]
  refine hfirst.seq fun _ _ => (atSymbol_follows .rparen).behind_eq ?_
  rw [beq_false_of_ne hmore, if_neg Bool.false_ne_true]
  exact hrest.before fun _ _ => (expectSymbol_follows .rparen).behind fun _ _ => .pure rfl

theorem primary_choice
    (h : Follows n (conditional fuel) (endsWithBrace · = true) (.keyword .if_ :: ls) ls') :
    Follows n (primary (fuel + 1)) (endsWithBrace · = true) (.keyword .if_ :: ls) ls' := by
  rw [primary]
  refine here_follows.behind fun _ _ => lexeme_follows.behind_eq ?_
  exact h

theorem conditional_follows {k : Nat}
    (hcondition : Follows k (expression fuel 0) (endsWithBrace · = b) ls ls₁)
    (hyes : Follows m (branch fuel) (fun _ => True) ls₁ (.keyword .else_ :: ls₂))
    (hno : Follows n (do if ← atKeyword .if_ then conditional fuel else branch fuel)
      (fun _ => True) ls₂ ls') :
    Follows (max k (max m n)) (conditional (fuel + 1)) (endsWithBrace · = true)
      (.keyword .if_ :: ls) ls' := by
  rw [conditional]
  refine here_follows.behind fun _ _ => (passKeyword_follows .if_).behind fun _ _ =>
    hcondition.seq fun _ _ => hyes.seq fun _ _ =>
      (eatKeyword_follows .else_).behind_eq ?_
  exact hno.before fun _ _ => .pure rfl

theorem tupleItems_none (hcomma : first ls ≠ .symbol .comma) :
    Follows 0 (tupleItems (fuel + 1)) (fun _ => True) ls ls := by
  rw [tupleItems]
  refine (eat_stays hcomma).behind_eq ?_
  exact .pure trivial

theorem tupleItems_last : Follows 0 (tupleItems (fuel + 1)) (fun _ => True)
    (.symbol .comma :: .symbol .rparen :: ls) (.symbol .rparen :: ls) := by
  rw [tupleItems]
  refine (eatSymbol_follows .comma).behind_eq ?_
  refine (atSymbol_follows .rparen).behind_eq ?_
  exact .pure trivial

theorem tupleItems_more (hmore : first ls ≠ .symbol .rparen)
    (hitem : Follows m (expression fuel 0) (endsWithBrace · = b) ls ls₁)
    (hrest : Follows n (tupleItems fuel) (fun _ => True) ls₁ ls') :
    Follows (max m n) (tupleItems (fuel + 1)) (fun _ => True) (.symbol .comma :: ls) ls' := by
  rw [tupleItems]
  refine (eatSymbol_follows .comma).behind_eq ?_
  refine (atSymbol_follows .rparen).behind_eq ?_
  rw [beq_false_of_ne hmore]
  exact hitem.seq fun _ _ => hrest.before fun _ _ => .pure trivial

theorem branch_follows
    (hvalue : Follows n (expression fuel 0) (endsWithBrace · = b) ls (.symbol .rbrace :: ls')) :
    Follows n (branch (fuel + 1)) (fun _ => True) (.symbol .lbrace :: ls) ls' := by
  rw [branch]
  refine (passSymbol_follows .lbrace).behind fun _ _ => hvalue.before fun _ _ =>
    (atSymbol_follows .rbrace).behind_eq ?_
  exact (passSymbol_follows .rbrace).behind fun _ _ => .pure trivial

theorem arguments_follows
    (hitems : Follows n (argumentItems fuel) (fun _ => True) ls (.symbol .rparen :: ls')) :
    Follows n (arguments (fuel + 1)) (fun _ => True) (.symbol .lparen :: ls) ls' := by
  rw [arguments]
  exact (passSymbol_follows .lparen).behind fun _ _ => hitems.before fun _ _ =>
    (passSymbol_follows .rparen).behind fun _ _ => .pure trivial

theorem argumentItems_none (hend : first ls = .symbol .rparen ∨ first ls = .endOfInput) :
    Follows 0 (argumentItems (fuel + 1)) (fun _ => True) ls ls := by
  rw [argumentItems]
  refine lexeme_follows.behind_eq ?_
  rw [if_pos hend]
  exact .pure trivial

/-- Where an argument stands, the list of arguments is not at its end. -/
theorem not_end_of_startsExpression (h : startsExpression l) :
    ¬ (l = .symbol .rparen ∨ l = .endOfInput) := by
  rintro (rfl | rfl) <;> cases h

theorem argumentItems_last (hstart : startsExpression (first ls))
    (harg : Follows n (expression fuel 0) (endsWithBrace · = b) ls ls')
    (hcomma : first ls' ≠ .symbol .comma) :
    Follows n (argumentItems (fuel + 1)) (fun _ => True) ls ls' := by
  rw [argumentItems]
  refine lexeme_follows.behind_eq ?_
  rw [if_neg (not_end_of_startsExpression hstart)]
  refine harg.before fun _ _ => (eat_stays hcomma).behind_eq ?_
  exact .pure trivial

theorem argumentItems_more (hstart : startsExpression (first ls))
    (harg : Follows m (expression fuel 0) (endsWithBrace · = b) ls (.symbol .comma :: ls₁))
    (hrest : Follows n (argumentItems fuel) (fun _ => True) ls₁ ls') :
    Follows (max m n) (argumentItems (fuel + 1)) (fun _ => True) ls ls' := by
  rw [argumentItems]
  refine lexeme_follows.behind_eq ?_
  rw [if_neg (not_end_of_startsExpression hstart)]
  refine harg.seq fun _ _ => (eatSymbol_follows .comma).behind_eq ?_
  exact hrest.before fun _ _ => .pure trivial

end Productions

/-- A primary expression does not begin with a unary operator. -/
theorem Derives.not_unary {b : Bool} (h : Derives n (.primary b) ls ls') :
    first ls ≠ .symbol .minus ∧ first ls ≠ .symbol .bang := by
  cases h with
  | literal hl =>
    rw [first_cons]
    constructor <;> rintro rfl <;> cases hl
  | path | call | paren | tuple | choice => exact ⟨nofun, nofun⟩

/-- A conditional in value position begins with `if`. -/
theorem Derives.first_conditional (h : Derives n .conditional ls ls') :
    first ls = .keyword .if_ := by
  cases h <;> rfl

/-- A branch of a conditional begins with a brace. -/
theorem Derives.first_branch (h : Derives n .branch ls ls') : first ls = .symbol .lbrace := by
  cases h
  rfl

/-- A phrase of expressions is read up to its end, if its levels fit in the bound. -/
theorem Derives.follows {p : Part} {fuel : Nat} (h : Derives n p ls ls')
    (hfuel : 16 * ls.length + p.steps ≤ fuel) : p.Follows n fuel ls ls' := by
  induction h generalizing fuel with
  | expression hfirst _ ihFirst ihRest =>
    have hlength := hfirst.length_le
    simp only [Part.steps, Part.least] at *
    obtain ⟨fuel, rfl⟩ : ∃ f, fuel = f + 1 := ⟨fuel - 1, by omega⟩
    exact expression_follows (ihFirst (by omega)) (ihRest (by omega))
  | noOperator hstops =>
    simp only [Part.steps] at *
    obtain ⟨fuel, rfl⟩ : ∃ f, fuel = f + 1 := ⟨fuel - 1, by omega⟩
    exact fun _ hleft => operators_stop hstops hleft
  | cast htype _ ihRest =>
    have hlength := htype.length_le
    simp only [Part.steps, TypePart.least, List.length_cons] at *
    obtain ⟨fuel, rfl⟩ : ∃ f, fuel = f + 1 := ⟨fuel - 1, by omega⟩
    exact fun _ _ => operators_cast (typeRef_follows htype (by omega)) (ihRest (by omega))
  | binary hop hrank hright _ ihRight ihRest =>
    have hlength := hright.length_le
    simp only [Part.steps, Part.least, List.length_cons] at *
    obtain ⟨fuel, rfl⟩ : ∃ f, fuel = f + 1 := ⟨fuel - 1, by omega⟩
    exact fun _ _ => operators_binary hop hrank (ihRight (by omega)) (ihRest (by omega))
  | neg _ ih =>
    simp only [Part.steps, List.length_cons] at *
    obtain ⟨fuel, rfl⟩ : ∃ f, fuel = f + 1 := ⟨fuel - 1, by omega⟩
    exact operand_neg (ih (by omega))
  | not _ ih =>
    simp only [Part.steps, List.length_cons] at *
    obtain ⟨fuel, rfl⟩ : ∃ f, fuel = f + 1 := ⟨fuel - 1, by omega⟩
    exact operand_not (ih (by omega))
  | plain hfirst _ ihFirst ihRest =>
    have hlength := hfirst.length_le
    obtain ⟨hminus, hbang⟩ := hfirst.not_unary
    simp only [Part.steps, Part.least] at *
    obtain ⟨fuel, rfl⟩ : ∃ f, fuel = f + 1 := ⟨fuel - 1, by omega⟩
    exact operand_plain hminus hbang (ihFirst (by omega)) (ihRest (by omega))
  | noMember hdot hbracket hparen =>
    simp only [Part.steps] at *
    obtain ⟨fuel, rfl⟩ : ∃ f, fuel = f + 1 := ⟨fuel - 1, by omega⟩
    exact fun _ hreceiver => members_stop hdot hbracket hparen hreceiver
  | method hargs _ ihArgs ihRest =>
    have hlength := hargs.length_le
    simp only [Part.steps, Part.least, List.length_cons] at *
    obtain ⟨fuel, rfl⟩ : ∃ f, fuel = f + 1 := ⟨fuel - 1, by omega⟩
    exact fun _ _ => members_method (ihArgs (by omega)) (ihRest (by omega))
  | field hparen _ ihRest =>
    simp only [Part.steps, List.length_cons] at *
    obtain ⟨fuel, rfl⟩ : ∃ f, fuel = f + 1 := ⟨fuel - 1, by omega⟩
    exact fun _ _ => members_field hparen (ihRest (by omega))
  | index hindex _ ihIndex ihRest =>
    have hlength := hindex.length_le
    simp only [Part.steps, Part.least, List.length_cons] at *
    obtain ⟨fuel, rfl⟩ : ∃ f, fuel = f + 1 := ⟨fuel - 1, by omega⟩
    exact fun _ _ => members_index (ihIndex (by omega)) (ihRest (by omega))
  | literal hl =>
    simp only [Part.steps, List.length_cons] at *
    obtain ⟨fuel, rfl⟩ : ∃ f, fuel = f + 1 := ⟨fuel - 1, by omega⟩
    exact primary_literal hl
  | path htail hparen =>
    simp only [Part.steps, List.length_cons] at *
    obtain ⟨fuel, rfl⟩ : ∃ f, fuel = f + 1 := ⟨fuel - 1, by omega⟩
    exact primary_path (pathTail_follows htail (by omega)) hparen
  | call htail _ ihArgs =>
    have hlength := htail.length_le
    simp only [Part.steps, TypePart.least, List.length_cons] at *
    obtain ⟨fuel, rfl⟩ : ∃ f, fuel = f + 1 := ⟨fuel - 1, by omega⟩
    exact primary_call (pathTail_follows htail (by omega)) (ihArgs (by omega))
  | paren hinner ih =>
    simp only [Part.steps, List.length_cons] at *
    obtain ⟨fuel, rfl⟩ : ∃ f, fuel = f + 2 := ⟨fuel - 2, by omega⟩
    exact primary_paren (hinner.starts rfl) (ih (by omega))
  | tuple hfirst hmore _ ihFirst ihRest =>
    have hlength := hfirst.length_le
    simp only [Part.steps, Part.least, List.length_cons] at *
    obtain ⟨fuel, rfl⟩ : ∃ f, fuel = f + 2 := ⟨fuel - 2, by omega⟩
    exact primary_tuple (hfirst.starts rfl) (ihFirst (by omega)) hmore (ihRest (by omega))
  | choice _ ih =>
    simp only [Part.steps, List.length_cons] at *
    obtain ⟨fuel, rfl⟩ : ∃ f, fuel = f + 1 := ⟨fuel - 1, by omega⟩
    exact primary_choice (ih (by omega))
  | ifElse hcondition hyes hno ihCondition ihYes ihNo =>
    have hlength := hcondition.length_le
    have hlength' := hyes.length_le
    simp only [Part.steps, Part.least, List.length_cons] at *
    obtain ⟨fuel, rfl⟩ : ∃ f, fuel = f + 1 := ⟨fuel - 1, by omega⟩
    refine conditional_follows (ihCondition (by omega)) (ihYes (by omega)) ?_
    refine (atKeyword_follows .if_).behind_eq ?_
    rw [hno.first_branch]
    exact ihNo (by omega)
  | ifChain hcondition hyes hno ihCondition ihYes ihNo =>
    have hlength := hcondition.length_le
    have hlength' := hyes.length_le
    simp only [Part.steps, Part.least, List.length_cons] at *
    obtain ⟨fuel, rfl⟩ : ∃ f, fuel = f + 1 := ⟨fuel - 1, by omega⟩
    refine conditional_follows (ihCondition (by omega)) (ihYes (by omega)) ?_
    refine (atKeyword_follows .if_).behind_eq ?_
    rw [hno.first_conditional]
    exact Follows.mono (p := conditional fuel) (V := (endsWithBrace · = true)) (ihNo (by omega))
      fun _ _ => trivial
  | noItem hcomma =>
    simp only [Part.steps] at *
    obtain ⟨fuel, rfl⟩ : ∃ f, fuel = f + 1 := ⟨fuel - 1, by omega⟩
    exact tupleItems_none hcomma
  | lastComma =>
    simp only [Part.steps, List.length_cons] at *
    obtain ⟨fuel, rfl⟩ : ∃ f, fuel = f + 1 := ⟨fuel - 1, by omega⟩
    exact tupleItems_last
  | moreItems hmore hitem _ ihItem ihRest =>
    have hlength := hitem.length_le
    simp only [Part.steps, Part.least, List.length_cons] at *
    obtain ⟨fuel, rfl⟩ : ∃ f, fuel = f + 1 := ⟨fuel - 1, by omega⟩
    exact tupleItems_more hmore (ihItem (by omega)) (ihRest (by omega))
  | branch _ ih =>
    simp only [Part.steps, List.length_cons] at *
    obtain ⟨fuel, rfl⟩ : ∃ f, fuel = f + 1 := ⟨fuel - 1, by omega⟩
    exact branch_follows (ih (by omega))
  | arguments _ ih =>
    simp only [Part.steps, List.length_cons] at *
    obtain ⟨fuel, rfl⟩ : ∃ f, fuel = f + 1 := ⟨fuel - 1, by omega⟩
    exact arguments_follows (ih (by omega))
  | noArgument hend =>
    simp only [Part.steps] at *
    obtain ⟨fuel, rfl⟩ : ∃ f, fuel = f + 1 := ⟨fuel - 1, by omega⟩
    exact argumentItems_none hend
  | lastArgument harg hcomma ih =>
    simp only [Part.steps] at *
    obtain ⟨fuel, rfl⟩ : ∃ f, fuel = f + 1 := ⟨fuel - 1, by omega⟩
    exact argumentItems_last (harg.starts rfl) (ih (by omega)) hcomma
  | moreArguments harg _ ihArg ihRest =>
    have hlength := harg.length_le
    simp only [Part.steps, Part.least, List.length_cons] at *
    obtain ⟨fuel, rfl⟩ : ∃ f, fuel = f + 1 := ⟨fuel - 1, by omega⟩
    exact argumentItems_more (harg.starts rfl) (ihArg (by omega)) (ihRest (by omega))

theorem Derives.expression_follows {floor fuel : Nat} {b : Bool}
    (h : Derives n (.expression floor b) ls ls') (hfuel : 16 * ls.length + 3 ≤ fuel) :
    Follows n (Parse.expression fuel floor) (endsWithBrace · = b) ls ls' := h.follows hfuel

end ComputeKernel.Parse
