import ComputeKernel.Proofs.Parsing.Depth
import ComputeKernel.Proofs.Parsing.Extraction
import ComputeKernel.Proofs.Lexing.Respacing

/-!
The bound on the nesting. A source that can be derived is accepted if its levels fit in the bound,
and rejected for its nesting if they do not; no other source is accepted. Prefix operators are read
without a level of their own, so no bound holds of a depth in which they count.
-/

namespace ComputeKernel

open Parse

/-- The lexemes of a source can be derived with `n` levels. -/
def NestsTo (n : Nat) (source : String) : Prop :=
  DerivesClosure n ((tokenize source).1.map Token.lexeme)

theorem ready_of_tokenize (source : String) : Ready { tokens := (tokenize source).1 } :=
  ⟨tape_of_tokenize source, Nat.zero_le _⟩

namespace Closure

theorem ofTokens_of_derives {tokens : List Token} {n : Nat}
    (h : DerivesClosure n (tokens.map Token.lexeme)) (htape : Tape (tokens.map Token.lexeme)) :
    (n ≤ maxDepth → ∃ c, ofTokens tokens = .ok c) ∧
    (maxDepth < n → ∃ ds, ofTokens tokens = .error ds ∧ ∃ d ∈ ds, d.message = depthExceeded) := by
  have hfuel : 16 * (tokens.map Token.lexeme).length ≤ stepBound tokens.length := by
    rw [List.length_map, stepBound]
    omega
  have hrun := closure_follows h hfuel { tokens } ⟨rfl, htape⟩ (Nat.zero_le _)
  rw [Nat.zero_add] at hrun
  unfold ofTokens
  generalize (closure (stepBound tokens.length)).run { tokens } = result at hrun
  obtain ⟨read, cursor⟩ := result
  refine ⟨fun hn => ?_, fun hn => ?_⟩
  · obtain ⟨hread, hreaches⟩ := hrun.1 hn
    obtain ⟨c, rfl⟩ := Option.isSome_iff_exists.mp hread
    have hquiet : cursor.diagnostics = [] := hreaches.diagnostics
    exact ⟨c, by simp only [hquiet]⟩
  · obtain ⟨d, hd, hmessage⟩ := hrun.2 hn
    refine ⟨cursor.diagnostics, ?_, d, hd, hmessage⟩
    simp only
    split
    · rename_i hquiet
      rw [hquiet] at hd
      cases hd
    · rfl

theorem parse_of_ofTokens_ok {source : String} {c : Closure}
    (h : ofTokens (tokenize source).1 = .ok c) (hlexical : (tokenize source).2 = []) :
    Closure.parse source = .ok c := by
  unfold Closure.parse
  simp only [h, hlexical, List.isEmpty_nil, if_true]

theorem parse_of_ofTokens_error {source : String} {ds : List Diagnostic}
    (h : ofTokens (tokenize source).1 = .error ds) :
    Closure.parse source = .error ((tokenize source).2 ++ ds) := by
  unfold Closure.parse
  simp only [h]

/-- A source whose levels are within the bound is accepted. -/
theorem accepted_of_nestsTo {source : String} {n : Nat} (h : NestsTo n source) (hn : n ≤ maxDepth)
    (hlexical : (tokenize source).2 = []) : ∃ c, Closure.parse source = .ok c := by
  obtain ⟨c, hc⟩ := (ofTokens_of_derives h (tape_of_tokenize source)).1 hn
  exact ⟨c, parse_of_ofTokens_ok hc hlexical⟩

/-- A source whose levels are not within the bound is rejected for them. -/
theorem rejected_of_nestsTo {source : String} {n : Nat} (h : NestsTo n source) (hn : maxDepth < n) :
    ∃ ds, Closure.parse source = .error ds ∧ ∃ d ∈ ds, d.message = depthExceeded := by
  obtain ⟨ds, hds, d, hd, hmessage⟩ := (ofTokens_of_derives h (tape_of_tokenize source)).2 hn
  exact ⟨_, parse_of_ofTokens_error hds, d, List.mem_append_right _ hd, hmessage⟩

/-- Every path of the tree of an accepted source goes through at most as many blocks, parentheses,
brackets, arguments and branches, counted together, as the source has levels, which are within the
bound. A source whose levels are within the bound is accepted if its characters are lexemes, and one
whose levels are not is rejected with a diagnostic that says so. -/
theorem nesting_of_parse (source : String) :
    (∀ c, Closure.parse source = .ok c →
      ∃ n, NestsTo n source ∧ c.depth Construct.counted ≤ n ∧ n ≤ maxDepth) ∧
    ∀ n, NestsTo n source →
      (n ≤ maxDepth → (tokenize source).2 = [] → ∃ c, Closure.parse source = .ok c) ∧
      (maxDepth < n →
        ∃ ds, Closure.parse source = .error ds ∧ ∃ d ∈ ds, d.message = depthExceeded) := by
  refine ⟨fun c hc => ?_, fun n hn => ⟨accepted_of_nestsTo hn, rejected_of_nestsTo hn⟩⟩
  obtain ⟨⟨_, hreads⟩, _⟩ := reads_of_parse hc
  obtain ⟨n, hderives, hfits, hwithin⟩ := hreads.fits (ready_of_tokenize source)
  exact ⟨n, hderives, hwithin, Nat.zero_add n ▸ hfits⟩

end Closure

/-! ### Parentheses -/

/-- A parameter in front of a body. -/
def ids : List Char := ['|', 'i', 'd', 's', '|', ' ']

theorem lexes_ids {cs : List Char} {ls : List Lexeme} (h : Lexes cs ls) :
    Lexes (ids ++ cs) (.symbol .pipe :: .ident "ids" :: .symbol .pipe :: ls) := by
  have hblank : Lexes ([' '] ++ cs) ls :=
    (lexes_append_iff (List.forall_mem_singleton.mpr rfl)).mpr h
  have hbar : Lexes ('|' :: ' ' :: cs) (.symbol .pipe :: ls) :=
    .lexeme (p := (Piece.symbol .pipe ('|' :: ' ' :: cs)).1) rfl rfl rfl hblank
  have hname : Lexes ('i' :: 'd' :: 's' :: '|' :: ' ' :: cs)
      (.ident "ids" :: .symbol .pipe :: ls) :=
    .lexeme (p := (Piece.word ('i' :: 'd' :: 's' :: '|' :: ' ' :: cs)).1) rfl rfl rfl hbar
  exact .lexeme (p := (Piece.symbol .pipe (ids ++ cs)).1) rfl rfl rfl hname

/-- The levels of a kernel whose body is an expression are those of the expression. -/
theorem nestsTo_of_lexes {source : String} {n : Nat} {b : Bool} {body : List Lexeme}
    (hsource : Lexes source.toList (.symbol .pipe :: .ident "ids" :: .symbol .pipe :: body))
    (h : Derives n (.expression 0 b) (body ++ [.endOfInput]) [.endOfInput]) : NestsTo n source := by
  rw [NestsTo, (tokenize_of_lexes hsource).2]
  refine @DerivesClosure.mk _ _ _ _ [] _ (.inr ⟨nofun, rfl⟩) (.none nofun) nofun
    (List.forall_mem_nil _) ?_
  exact .simple (ne_of_startsExpression (h.starts rfl) nofun) (.eval h nofun .free)

/-- Whether an expression ends in front of a lexeme. -/
def endsExpression (l : Lexeme) : Bool := l == .symbol .rparen || l == .endOfInput

/-- Behind what is primary, an expression may end. -/
theorem derives_of_primary {n : Nat} {ls ls' : List Lexeme} (h : Derives n (.primary false) ls ls')
    (hend : endsExpression (first ls')) :
    Derives n (.operand false) ls ls' ∧ Derives 0 (.operators 0 false false) ls' ls' := by
  obtain hend | hend := Bool.or_eq_true_iff.mp hend <;> replace hend := eq_of_beq hend
  all_goals
    refine ⟨Nat.max_zero n ▸ .plain h (.noMember ?_ ?_ ?_), .noOperator ⟨?_, ?_⟩⟩
    all_goals rw [hend]
    all_goals nofun

theorem derives_expression {n : Nat} {ls ls' : List Lexeme} (h : Derives n (.operand false) ls ls')
    (hrest : Derives 0 (.operators 0 false false) ls' ls') :
    Derives (n + 1) (.expression 0 false) ls ls' := by
  have hexpression := Derives.expression h hrest
  rwa [Nat.max_zero] at hexpression

/-- The lexemes of a number in parentheses. -/
def inParens (parens : Nat) : List Lexeme :=
  List.replicate parens (.symbol .lparen) ++
    .integer "1" none :: List.replicate parens (.symbol .rparen)

theorem inParens_succ (parens : Nat) : inParens (parens + 1) =
    .symbol .lparen :: (inParens parens ++ [.symbol .rparen]) := by
  rw [inParens, inParens, List.replicate_succ, List.replicate_succ', List.append_assoc]
  rfl

theorem derives_inParens (parens : Nat) (ls : List Lexeme) (hend : endsExpression (first ls)) :
    Derives (parens + 1) (.expression 0 false) (inParens parens ++ ls) ls := by
  induction parens generalizing ls with
  | zero =>
    obtain ⟨hoperand, hrest⟩ := derives_of_primary (.literal (l := .integer "1" none) rfl) hend
    exact derives_expression hoperand hrest
  | succ parens ih =>
    have hinner := ih (.symbol .rparen :: ls) rfl
    rw [inParens_succ, List.cons_append, List.append_assoc]
    obtain ⟨hoperand, hrest⟩ := derives_of_primary (.paren hinner) hend
    exact derives_expression hoperand hrest

/-- A kernel that is a number in parentheses. -/
def wrapped (parens : Nat) : String :=
  String.ofList (ids ++ (List.replicate parens '(' ++ '1' :: List.replicate parens ')'))

theorem lexes_rparens (parens : Nat) :
    Lexes (List.replicate parens ')') (List.replicate parens (.symbol .rparen)) := by
  induction parens with
  | zero => exact .nil
  | succ parens ih =>
    exact .lexeme (p := (Piece.symbol .rparen (')' :: List.replicate parens ')')).1) rfl rfl rfl ih

theorem lexes_lparens {cs : List Char} {ls : List Lexeme} (h : Lexes cs ls) (parens : Nat) :
    Lexes (List.replicate parens '(' ++ cs) (List.replicate parens (.symbol .lparen) ++ ls) := by
  induction parens with
  | zero => exact h
  | succ parens ih =>
    exact .lexeme (p := (Piece.symbol .lparen ('(' :: (List.replicate parens '(' ++ cs))).1) rfl rfl
      rfl ih

theorem lexes_wrapped (parens : Nat) : Lexes (wrapped parens).toList
    (.symbol .pipe :: .ident "ids" :: .symbol .pipe :: inParens parens) := by
  rw [wrapped, String.toList_ofList]
  refine lexes_ids (lexes_lparens ?_ parens)
  -- the number ends in front of a parenthesis or at the end of the text
  cases parens with
  | zero => exact .lexeme (p := (Piece.number ['1']).1) rfl rfl rfl .nil
  | succ parens =>
    exact .lexeme (p := (Piece.number ('1' :: ')' :: List.replicate parens ')')).1) rfl rfl rfl
      (lexes_rparens (parens + 1))

theorem nestsTo_wrapped (parens : Nat) : NestsTo (parens + 1) (wrapped parens) :=
  nestsTo_of_lexes (lexes_wrapped parens) (derives_inParens parens _ rfl)

theorem Closure.nesting_of_parse_wrapped :
    (∃ c, Closure.parse (wrapped 255) = .ok c ∧ c.depth Construct.counted ≤ maxDepth) ∧
    ∃ ds, Closure.parse (wrapped 256) = .error ds ∧ ∃ d ∈ ds, d.message = depthExceeded := by
  obtain ⟨hbound, haccepts⟩ := Closure.nesting_of_parse (wrapped 255)
  refine ⟨?_, ((Closure.nesting_of_parse (wrapped 256)).2 257 (nestsTo_wrapped 256)).2 (by decide)⟩
  have hclean := (tokenize_of_lexes (lexes_wrapped 255)).1
  obtain ⟨c, hc⟩ := (haccepts 256 (nestsTo_wrapped 255)).1 (Nat.le_refl 256) hclean
  obtain ⟨n, _, hdepth, hn⟩ := hbound c hc
  exact ⟨c, hc, hdepth.trans hn⟩

/-! ### Prefix operators -/

/-- The kernel of a name behind prefix operators. -/
def flipped (flips : Nat) : String :=
  String.ofList (ids ++ (List.replicate flips '!' ++ ['x']))

theorem lexes_flips (flips : Nat) : Lexes (List.replicate flips '!' ++ ['x'])
    (List.replicate flips (.symbol .bang) ++ [.ident "x"]) := by
  induction flips with
  | zero => exact .lexeme (p := (Piece.word ['x']).1) rfl rfl rfl .nil
  | succ flips ih =>
    cases flips with
    | zero => exact .lexeme (p := (Piece.symbol .bang ['!', 'x']).1) rfl rfl rfl ih
    | succ flips =>
      exact .lexeme
        (p := (Piece.symbol .bang ('!' :: '!' :: (List.replicate flips '!' ++ ['x']))).1)
        rfl rfl rfl ih

theorem derives_flips (flips : Nat) : Derives 0 (.operand false)
    (List.replicate flips (.symbol .bang) ++ [.ident "x", .endOfInput]) [.endOfInput] := by
  induction flips with
  | zero =>
    exact (derives_of_primary (.path (@DerivesType.tailEnd [.endOfInput] nofun) nofun) rfl).1
  | succ flips ih => exact .not ih

theorem lexes_flipped (flips : Nat) : Lexes (flipped flips).toList
    (.symbol .pipe :: .ident "ids" :: .symbol .pipe ::
      (List.replicate flips (.symbol .bang) ++ [.ident "x"])) := by
  rw [flipped, String.toList_ofList]
  exact lexes_ids (lexes_flips flips)

/-- However many prefix operators there are, one level is enough. -/
theorem nestsTo_flipped (flips : Nat) : NestsTo 1 (flipped flips) := by
  refine nestsTo_of_lexes (b := false) (lexes_flipped flips) ?_
  rw [List.append_assoc]
  exact derives_expression (derives_flips flips) (.noOperator ⟨nofun, nofun⟩)

namespace Parse

variable {c c' : Cursor} {flips : Nat} {ls : List Lexeme}

/-- Whether the whole of a phrase is at least as deep as the part that stands in front of it. -/
def Phrase.Grows (w : Construct → Nat) : Phrase → Prop
  | .operators _ left whole | .members left whole => left.depth w ≤ whole.depth w
  | _ => True

theorem Reads.grows {p : Phrase} (w : Construct → Nat) (h : Reads c p c') : p.Grows w := by
  induction h with
  | noOperator _ | noMember _ _ _ => exact Nat.le_refl _
  | cast _ _ _ ih =>
    simp only [Phrase.Grows, Expr.depth] at ih ⊢
    omega
  | binary _ _ _ _ _ _ ih | method _ _ _ _ _ _ ih | field _ _ _ _ _ ih | index _ _ _ _ _ ih =>
    simp only [Phrase.Grows, Expr.depth] at ih ⊢
    omega
  | _ => trivial

/-- Each prefix operator is a node of the tree. -/
theorem le_depth_of_operand {e : Expr} (h : Reads c (.operand e) c') (hc : Ready c)
    (hls : c.lexemes = List.replicate flips (.symbol .bang) ++ ls) :
    flips ≤ e.depth fun _ => 1 := by
  induction flips generalizing c e with
  | zero => exact Nat.zero_le _
  | succ flips ih =>
    have hl : c.lexeme = .symbol .bang := by
      rw [← first_lexemes, hls]
      rfl
    have h₀ := hc.symbol hl
    cases h with
    | neg hminus => cases hminus.symm.trans hl
    | not _ hinner =>
      have hrest := ih hinner h₀.ready (List.cons.inj (h₀.between.symm.trans hls)).2
      rw [Expr.depth]
      omega
    | plain _ hne => exact absurd hl hne

theorem le_depth_of_expression {floor : Nat} {e : Expr} (h : Reads c (.expression floor e) c')
    (hc : Ready c) (hls : c.lexemes = List.replicate flips (.symbol .bang) ++ ls) :
    flips ≤ e.depth fun _ => 1 := by
  cases h with
  | expression hopen hfirst hrest =>
    exact (le_depth_of_operand hfirst ⟨hc.tape, hopen⟩ hls).trans (hrest.grows _)

theorem le_innerDepth_of_body {b : Block} (h : ReadsBody c b c') (hc : Ready c)
    (hls : c.lexemes = List.replicate flips (.symbol .bang) ++ ls)
    (hfirst : first c.lexemes ≠ .symbol .lbrace) :
    flips ≤ b.innerDepth fun _ => 1 := by
  cases h with
  | block hbrace => exact absurd ((first_lexemes c).trans hbrace) hfirst
  | simple _ hsimple =>
    rw [Block.innerDepth, Stmt.allDepth, Stmt.allDepth, Nat.max_zero]
    cases hsimple with
    | eval hvalue => exact le_depth_of_expression hvalue hc hls
    | assign hplace =>
      exact (le_depth_of_expression hplace hc hls).trans (Nat.le_max_left _ _)

/-- The body of a closure whose parameter has no type stands behind the second bar. -/
theorem ReadsClosure.exists_body {closure : Closure} {name : String} (h : ReadsClosure c closure c')
    (hc : Ready c)
    (hls : c.lexemes = .symbol .pipe :: .ident name :: .symbol .pipe :: ls) :
    ∃ c₁, ReadsBody c₁ closure.body c' ∧ c₁.lexemes = ls ∧ Ready c₁ := by
  cases h with
  | @mk c₀ c₁ _ hasMove _ paramType _ hmove hbar hparam _ htype _ hpipe hbody _ =>
    have hbars : c.lexeme = .symbol .pipe := by
      rw [← first_lexemes, hls]
      rfl
    obtain rfl : c₀ = c := by
      cases hasMove with
      | true => cases hmove.1.symm.trans hbars
      | false => exact hmove.2
    have h₁ := hc.symbol hbar
    have h₂ := h₁.ready.ident hparam
    have hrest : c₀.advance.advance.lexemes = .symbol .pipe :: ls := by
      rw [h₁.between, h₂.between] at hls
      exact (List.cons.inj (List.cons.inj hls).2).2
    obtain rfl : c₁ = c₀.advance.advance := by
      cases paramType with
      | none => exact htype.2
      | some t =>
        have hcolon : first c₀.advance.advance.lexemes = .symbol .colon :=
          (first_lexemes _).trans htype.1
        rw [hrest] at hcolon
        cases hcolon
    have hskip : (c₀.advance.advance.skipUntil endsParameters).lexemes = .symbol .pipe :: ls :=
      lexemes_skipTokens_eq (List.forall_mem_nil _) rfl hrest
    have hskipped : Ready (c₀.advance.advance.skipUntil endsParameters) :=
      ⟨hskip ▸ hrest ▸ h₂.tape, h₂.ready.room⟩
    have h₃ := hskipped.symbol hpipe
    exact ⟨_, hbody, (List.cons.inj (h₃.between.symm.trans hskip)).2, h₃.ready⟩

end Parse

/-- Prefix operators are read to any depth. -/
theorem Closure.depth_flipped (flips : Nat) :
    ∃ c, Closure.parse (flipped flips) = .ok c ∧ flips ≤ c.depth fun _ => 1 := by
  obtain ⟨hclean, hlexemes⟩ := tokenize_of_lexes (lexes_flipped flips)
  obtain ⟨c, hc⟩ := Closure.accepted_of_nestsTo (nestsTo_flipped flips) (by decide) hclean
  refine ⟨c, hc, ?_⟩
  obtain ⟨⟨c', hreads⟩, _⟩ := Closure.reads_of_parse hc
  obtain ⟨c₁, hbody, hls, hready⟩ := hreads.exists_body (ready_of_tokenize (flipped flips)) hlexemes
  replace hls := hls.trans (List.append_assoc _ _ _)
  have hfirst : first c₁.lexemes ≠ .symbol .lbrace := by
    rw [hls]
    cases flips <;> nofun
  refine (le_innerDepth_of_body hbody hready hls hfirst).trans ?_
  rw [Closure.depth]
  omega

/-- A kernel of 300 prefix operators is accepted, though its tree is deeper than the bound. -/
theorem Closure.exceeds_flipped : ∃ c, Closure.parse (flipped 300) = .ok c ∧
    maxDepth < c.depth fun _ => 1 :=
  (Closure.depth_flipped 300).imp fun _ h => ⟨h.1, Nat.lt_of_lt_of_le (by decide) h.2⟩

end ComputeKernel
