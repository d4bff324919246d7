import ComputeKernel.Proofs.Reading.Grammar
import ComputeKernel.Shader.Text

/-!
The text of shader code and its one reading. Where the operands of a node bind tightly enough, names
are words and a minus is kept apart from the next, the tokens of the text are those of the tree and
the grammar reads the tree back from them.
-/

namespace ComputeKernel.Reading

open Shader (isTypeName rank unaryRank memberRank primaryRank)

/-- A word that is not the name of a type. -/
def IsName (text : String) : Prop := IsWord text.toList ∧ ¬ isTypeName text

/-- The name of a built-in type. -/
def IsTypeWord (text : String) : Prop := IsWord text.toList ∧ isTypeName text

mutual

/-- Whether the nodes of shader code stand in parentheses where they have to. -/
def Clean : Shader.Expr → Prop
  | .literal text => IsNumber text.toList ∨ IsName text
  | .var name => IsName name
  | .paren inner => Clean inner
  | .unary op operand =>
    Clean operand ∧ unaryRank ≤ operand.rank ∧ (op = .minus → operand.startsWithMinus = false)
  | .binary op left right =>
    Clean left ∧ Clean right ∧ rank op ≤ left.rank ∧ rank op < right.rank
  | .cast type operand => IsTypeWord type ∧ Clean operand
  | .member receiver name =>
    Clean receiver ∧ memberRank ≤ receiver.rank ∧ (∀ text, receiver ≠ .literal text) ∧
      IsWord name.toList
  | .index base i =>
    Clean base ∧ memberRank ≤ base.rank ∧ (∀ text, base ≠ .literal text) ∧ Clean i
  | .call function args => IsWord function.toList ∧ AllClean args
  | .choice condition yes no => Clean condition ∧ Clean yes ∧ Clean no

def AllClean : List Shader.Expr → Prop
  | [] => True
  | e :: es => Clean e ∧ AllClean es

end

/-- The token of a literal. -/
def literalToken (text : String) : Token :=
  if (text.toList.head?.any Text.isDigit) then .number text else .word text

mutual

/-- The tokens of shader code. -/
def tokens : Shader.Expr → List Token
  | .literal text => [literalToken text]
  | .var name => [.word name]
  | .paren inner => .mark .lparen :: (tokens inner ++ [.mark .rparen])
  | .unary op operand => .mark (unaryMark op) :: tokens operand
  | .binary op left right => tokens left ++ .mark (.operator op) :: tokens right
  | .cast type operand =>
    .mark .lparen :: .word type :: .mark .rparen :: .mark .lparen ::
      (tokens operand ++ [.mark .rparen])
  | .member receiver name => tokens receiver ++ [.mark .dot, .word name]
  | .index base i => tokens base ++ .mark .lbracket :: (tokens i ++ [.mark .rbracket])
  | .call function args => .word function :: .mark .lparen :: argTokens args
  | .choice condition yes no =>
    .mark .lparen ::
      (tokens condition ++ .mark .question :: (tokens yes ++ .mark .colon :: tokens no) ++
        [.mark .rparen])

def argTokens : List Shader.Expr → List Token
  | [] => [.mark .rparen]
  | e :: es => tokens e ++ moreArgTokens es

def moreArgTokens : List Shader.Expr → List Token
  | [] => [.mark .rparen]
  | e :: es => .mark .comma :: (tokens e ++ moreArgTokens es)

end

mutual

/-- The tree that the text of shader code is read as. -/
def tree : Shader.Expr → Tree
  | .literal text => .atom text
  | .var name => .atom name
  | .paren inner => .paren (tree inner)
  | .unary op operand => .unary op (tree operand)
  | .binary op left right => .binary op (tree left) (tree right)
  | .cast type operand => .cast type (.paren (tree operand))
  | .member receiver name => .member (tree receiver) name
  | .index base i => .index (tree base) (tree i)
  | .call function args => .call (.atom function) (trees args)
  | .choice condition yes no => .paren (.choice (tree condition) (tree yes) (tree no))

def trees : List Shader.Expr → List Tree
  | [] => []
  | e :: es => tree e :: trees es

end

/-! ### Parsing -/

theorem one_lt_rank (c : Shader.Expr) : choiceRank < c.rank := by
  cases c with
  | binary op l r => exact two_le_rank op
  | _ => exact of_decide_eq_true rfl

theorem parses_literal {text : String} (h : IsNumber text.toList ∨ IsName text) :
    Parses [literalToken text] (.expr primaryRank (.atom text)) := by
  unfold literalToken
  split
  · exact .number
  · rename_i hdigit
    rcases h with ⟨c, cs, heq, hc, _⟩ | ⟨_, htype⟩
    · rw [heq] at hdigit
      exact absurd hc hdigit
    · exact .word htype

mutual

/-- The grammar reads the tokens of shader code as its tree. -/
theorem parses_tokens : ∀ {c : Shader.Expr}, Clean c → Parses (tokens c) (.expr c.rank (tree c))
  | .literal _, h => parses_literal h
  | .var _, h => .word h.2
  | .paren inner, h =>
    .paren ((parses_tokens (c := inner) h).loosen (Nat.le_of_lt (one_lt_rank inner)))
  | .unary _ _, ⟨h, hrank, _⟩ => .unary ((parses_tokens h).loosen hrank)
  | .binary _ _ _, ⟨hl, hr, hleft, hright⟩ =>
    .binary ((parses_tokens hl).loosen hleft) ((parses_tokens hr).loosen hright)
  | .cast _ operand, ⟨htype, h⟩ => by
    have hinner := (parses_tokens h).loosen (Nat.le_of_lt (one_lt_rank operand))
    exact .cast htype.2 ((Parses.paren hinner).loosen (by decide))
  | .member _ _, ⟨h, hrank, _, _⟩ => .member ((parses_tokens h).loosen hrank)
  | .index _ i, ⟨hb, hrank, _, hi⟩ =>
    .index ((parses_tokens hb).loosen hrank)
      ((parses_tokens hi).loosen (Nat.le_of_lt (one_lt_rank i)))
  | .call function args, ⟨_, h⟩ => by
    by_cases htype : isTypeName function
    · exact .construct htype (parses_argTokens h)
    · have hfunction : Parses [.word function] (.expr memberRank (.atom function)) :=
        (Parses.word htype).loosen (by decide)
      exact .call hfunction (parses_argTokens h)
  | .choice condition yes no, ⟨hc, hy, hn⟩ =>
    .paren (.choice ((parses_tokens hc).loosen (one_lt_rank condition))
      ((parses_tokens hy).loosen (Nat.le_of_lt (one_lt_rank yes)))
      ((parses_tokens hn).loosen (Nat.le_of_lt (one_lt_rank no))))

theorem parses_argTokens : ∀ {es : List Shader.Expr}, AllClean es →
    Parses (argTokens es) (.args (trees es))
  | [], _ => .noArgs
  | e :: _, ⟨h, hs⟩ =>
    .args ((parses_tokens h).loosen (Nat.le_of_lt (one_lt_rank e))) (parses_moreArgTokens hs)

theorem parses_moreArgTokens : ∀ {es : List Shader.Expr}, AllClean es →
    Parses (moreArgTokens es) (.moreArgs (trees es))
  | [], _ => .lastArg
  | e :: _, ⟨h, hs⟩ =>
    .nextArg ((parses_tokens h).loosen (Nat.le_of_lt (one_lt_rank e))) (parses_moreArgTokens hs)

end

/-! ### Cutting into tokens -/

/-- Whether a text is cut into tokens in front of `rest`. -/
def LexesTo (cs : List Char) (ts : List Token) (rest : List Char) : Prop :=
  lex (cs ++ rest) = (lex rest).map (ts ++ ·)

namespace LexesTo

variable {as bs rest : List Char} {ts us : List Token}

theorem append (h : LexesTo as ts (bs ++ rest)) (h' : LexesTo bs us rest) :
    LexesTo (as ++ bs) (ts ++ us) rest := by
  unfold LexesTo at *
  rw [List.append_assoc, h, h', Option.map_map]
  congr 1
  funext vs
  simp

theorem blank (h : LexesTo bs us rest) : LexesTo (' ' :: bs) us rest := by
  unfold LexesTo at *
  rw [List.cons_append, lex_blank, h]

theorem word {w : String} (hw : IsWord w.toList) (hrest : ApartFromWord rest) :
    LexesTo w.toList [.word w] rest := by
  unfold LexesTo
  rw [lex_word hw hrest, String.ofList_toList]
  rfl

theorem number {n : String} (hn : IsNumber n.toList) (hrest : ApartFromNumber rest) :
    LexesTo n.toList [.number n] rest := by
  unfold LexesTo
  rw [lex_number hn hrest, String.ofList_toList]
  rfl

theorem mark {c : Char} {cs : List Char} {m : Mark}
    (hmark : longestMark? (c :: cs ++ rest) = some (c :: cs, m))
    (hpoint : startsWithPoint c (cs ++ rest) = false) : LexesTo (c :: cs) [.mark m] rest := by
  unfold LexesTo
  rw [lex_mark hmark hpoint]
  rfl

end LexesTo

theorem lexesTo_lparen (rest : List Char) : LexesTo ['('] [.mark .lparen] rest := .mark rfl rfl

theorem lexesTo_rparen (rest : List Char) : LexesTo [')'] [.mark .rparen] rest := .mark rfl rfl

theorem lexesTo_lbracket (rest : List Char) : LexesTo ['['] [.mark .lbracket] rest := .mark rfl rfl

theorem lexesTo_rbracket (rest : List Char) : LexesTo [']'] [.mark .rbracket] rest := .mark rfl rfl

theorem lexesTo_comma (rest : List Char) : LexesTo [','] [.mark .comma] rest := .mark rfl rfl

theorem lexesTo_question (rest : List Char) : LexesTo ['?'] [.mark .question] rest := .mark rfl rfl

theorem lexesTo_colon (rest : List Char) : LexesTo [':'] [.mark .colon] rest := .mark rfl rfl

/-- A point in front of a word is a mark of its own. -/
theorem lexesTo_dot {c : Char} (hc : isIdentStart c) (rest : List Char) :
    LexesTo ['.'] [.mark .dot] (c :: rest) := by
  have hdigit : Text.isDigit c = false := by
    rw [← Bool.not_eq_true]
    intro hdigit
    exact absurd hc (by simp [isIdentStart_eq_false_of_isDigit hdigit])
  have hne : c ≠ '.' := by
    rintro rfl
    revert hc
    decide
  refine .mark ?_ ?_
  · simp [longestMark?, marks, hne.symm]
  · simp [startsWithPoint, hdigit]

/-- The mark of a binary operator between blanks. -/
theorem lexesTo_operator (op : BinaryOp) (rest : List Char) :
    LexesTo op.symbol.toList [.mark (.operator op)] (' ' :: rest) := by
  cases op <;> exact .mark rfl rfl

/-- What code can begin with. -/
def IsStart (c : Char) : Prop := isIdentContinue c ∨ c ∈ ['(', '-', '!', '~']

/-- The mark of a unary operator in front of an operand that does not fuse with it. -/
theorem lexesTo_unary {op : Shader.UnaryOp} {c : Char} (hc : IsStart c)
    (hminus : op = .minus → c ≠ '-') (rest : List Char) :
    LexesTo op.symbol.toList [.mark (unaryMark op)] (c :: rest) := by
  have hother : c ≠ '>' ∧ c ≠ '=' := by
    constructor <;>
    · rintro rfl
      revert hc
      unfold IsStart
      decide
  cases op with
  | minus =>
    show LexesTo ['-'] [.mark (.operator .sub)] (c :: rest)
    refine .mark ?_ rfl
    simp [longestMark?, marks, hother.1.symm, hother.2.symm, (hminus rfl).symm]
  | not =>
    show LexesTo ['!'] [.mark .bang] (c :: rest)
    refine .mark ?_ rfl
    simp [longestMark?, marks, hother.2.symm]
  | complement =>
    show LexesTo ['~'] [.mark .tilde] (c :: rest)
    refine .mark ?_ rfl
    simp [longestMark?, marks]

theorem start_of_word {w : List Char} (h : IsWord w) : ∃ c cs, w = c :: cs ∧ IsStart c := by
  obtain ⟨c, cs, rfl, hc, _⟩ := h
  exact ⟨c, cs, rfl, Or.inl (isIdentContinue_of_isIdentStart hc)⟩

/-- How the text of shader code begins. -/
theorem start_of_clean : ∀ {c : Shader.Expr}, Clean c → ∃ x xs, c.text.toList = x :: xs ∧ IsStart x
  | .literal text, h => by
    rcases h with ⟨c, cs, heq, hc, _⟩ | ⟨hword, _⟩
    · exact ⟨c, cs, heq, Or.inl (isIdentContinue_of_isDigit hc)⟩
    · exact start_of_word hword
  | .var name, h => start_of_word h.1
  | .paren inner, _ => ⟨'(', _, by simp [Shader.Expr.text]; rfl, Or.inr (by decide)⟩
  | .unary op operand, _ => by
    cases op
    · exact ⟨'-', _, by simp [Shader.Expr.text, Shader.UnaryOp.symbol]; rfl, Or.inr (by decide)⟩
    · exact ⟨'!', _, by simp [Shader.Expr.text, Shader.UnaryOp.symbol]; rfl, Or.inr (by decide)⟩
    · exact ⟨'~', _, by simp [Shader.Expr.text, Shader.UnaryOp.symbol]; rfl, Or.inr (by decide)⟩
  | .binary op left right, ⟨h, _⟩ => by
    obtain ⟨x, xs, heq, hx⟩ := start_of_clean h
    exact ⟨x, _, by simp [Shader.Expr.text, heq]; rfl, hx⟩
  | .cast _ _, _ => ⟨'(', _, by simp [Shader.Expr.text]; rfl, Or.inr (by decide)⟩
  | .member receiver name, ⟨h, _⟩ => by
    obtain ⟨x, xs, heq, hx⟩ := start_of_clean h
    exact ⟨x, _, by simp [Shader.Expr.text, heq]; rfl, hx⟩
  | .index base i, ⟨h, _⟩ => by
    obtain ⟨x, xs, heq, hx⟩ := start_of_clean h
    exact ⟨x, _, by simp [Shader.Expr.text, heq]; rfl, hx⟩
  | .call function args, ⟨h, _⟩ => by
    obtain ⟨x, xs, heq, hx⟩ := start_of_word h
    exact ⟨x, _, by simp [Shader.Expr.text, heq]; rfl, hx⟩
  | .choice _ _ _, _ => ⟨'(', _, by simp [Shader.Expr.text]; rfl, Or.inr (by decide)⟩

/-- What may stand directly behind code. Only a number has to be set apart from a point. -/
def Apart (c : Shader.Expr) (rest : List Char) : Prop :=
  ApartFromNumber rest ∨
    (ApartFromWord rest ∧ memberRank ≤ c.rank ∧ ∀ text, c ≠ .literal text)

theorem ApartFromNumber.word {rest : List Char} (h : ApartFromNumber rest) : ApartFromWord rest :=
  fun c hc => (h c hc).1

theorem Apart.word {c : Shader.Expr} {rest : List Char} (h : Apart c rest) : ApartFromWord rest := by
  rcases h with h | h
  · exact h.word
  · exact h.1

theorem apartFromNumber_of_mem {c : Char} (hc : c ∈ [' ', '(', ')', '[', ']', ',', ';'])
    (rest : List Char) : ApartFromNumber (c :: rest) := by
  have hall : [' ', '(', ')', '[', ']', ',', ';'].all fun d =>
      ! isIdentContinue d && d ≠ '.' && d ≠ '+' && d ≠ '-' := by decide
  rintro d ⟨⟩
  simpa [and_assoc] using List.all_eq_true.mp hall c hc

theorem lexesTo_literal {text : String} (h : IsNumber text.toList ∨ IsName text) {rest : List Char}
    (hrest : ApartFromNumber rest) : LexesTo text.toList [literalToken text] rest := by
  unfold literalToken
  rcases h with hnumber | ⟨hword, _⟩
  · rw [if_pos]
    · exact .number hnumber hrest
    · obtain ⟨c, cs, heq, hc, _⟩ := hnumber
      simp [heq, hc]
  · rw [if_neg]
    · exact .word hword hrest.word
    · obtain ⟨c, cs, heq, hc, _⟩ := hword
      intro hdigit
      simp only [heq, List.head?_cons, Option.any_some] at hdigit
      exact absurd hc (by simp [isIdentStart_eq_false_of_isDigit hdigit])

theorem rank_lt_memberRank_binary (op : BinaryOp) : rank op < memberRank :=
  Nat.lt_succ_of_lt (Shader.Expr.rank_binary_lt op)

/-- Code that binds looser than a member is only read up to what sets numbers apart. -/
theorem Apart.number {c : Shader.Expr} {rest : List Char} (h : Apart c rest)
    (hc : c.rank < memberRank) : ApartFromNumber rest := by
  rcases h with h | ⟨_, hrank, _⟩
  · exact h
  · exact absurd hrank (Nat.not_le_of_lt hc)

/-- What the brackets around shader code set it apart from. -/
theorem apart_closing {e : Shader.Expr} {c : Char} (hc : c ∈ [')', ']']) (rest : List Char) :
    Apart e ([c] ++ rest) := by
  refine Or.inl (apartFromNumber_of_mem ?_ rest)
  simp only [List.mem_cons, List.not_mem_nil, or_false] at hc ⊢
  rcases hc with rfl | rfl <;> simp

mutual

/-- The text of shader code is cut into the tokens of the code. -/
theorem lexesTo_text : ∀ {c : Shader.Expr}, Clean c → ∀ {rest : List Char}, Apart c rest →
    LexesTo c.text.toList (tokens c) rest
  | .literal text, h, rest, hrest => by
    refine lexesTo_literal h ?_
    rcases hrest with hrest | ⟨_, _, hne⟩
    · exact hrest
    · exact absurd rfl (hne text)
  | .var name, h, rest, hrest => .word h.1 hrest.word
  | .paren inner, h, rest, _ => by
    have hinner := lexesTo_text (c := inner) h (apart_closing (c := ')') (by decide) rest)
    rw [Shader.Expr.text, String.toList_append, String.toList_append]
    exact ((lexesTo_lparen _).append hinner).append (lexesTo_rparen rest)
  | .unary op operand, ⟨h, _, hminus⟩, rest, hrest => by
    have hoperand := lexesTo_text h (Or.inl (hrest.number (of_decide_eq_true rfl)))
    obtain ⟨x, xs, heq, hx⟩ := start_of_clean h
    have hop : LexesTo op.symbol.toList [.mark (unaryMark op)] (operand.text.toList ++ rest) := by
      rw [heq]
      refine lexesTo_unary hx (fun hop hdash => ?_) _
      have hstarts := operand.startsWithMinus_iff
      rw [hminus hop, heq, hdash] at hstarts
      simp at hstarts
    rw [Shader.Expr.text, String.toList_append]
    exact hop.append hoperand
  | .binary op left right, ⟨hl, hr, _, _⟩, rest, hrest => by
    have hright := lexesTo_text hr (Or.inl (hrest.number (rank_lt_memberRank_binary op)))
    have hoperator := (lexesTo_operator op (right.text.toList ++ rest)).append hright.blank
    have hleft := lexesTo_text hl
      (Or.inl (apartFromNumber_of_mem (c := ' ') (by decide)
        ((op.symbol.toList ++ ' ' :: right.text.toList) ++ rest)))
    have htext : (Shader.Expr.binary op left right).text.toList =
        left.text.toList ++ ' ' :: (op.symbol.toList ++ ' ' :: right.text.toList) := by
      simp [Shader.Expr.text]
    rw [htext]
    exact hleft.append hoperator.blank
  | .cast type operand, ⟨htype, h⟩, rest, _ => by
    have hoperand := ((lexesTo_lparen _).append
      (lexesTo_text h (apart_closing (c := ')') (by decide) rest))).append (lexesTo_rparen rest)
    have htext : (Shader.Expr.cast type operand).text.toList =
        ['('] ++ (type.toList ++ ([')'] ++ (['('] ++ operand.text.toList ++ [')']))) := by
      simp [Shader.Expr.text]
    rw [htext]
    exact (lexesTo_lparen _).append ((LexesTo.word htype.1
      (apartFromNumber_of_mem (c := ')') (by decide) _).word).append
        ((lexesTo_rparen _).append hoperand))
  | .member receiver name, ⟨h, hrank, hne, hname⟩, rest, hrest => by
    obtain ⟨c, cs, heq, hc, _⟩ := id hname
    have hdot : LexesTo ['.'] [.mark .dot] (name.toList ++ rest) := by
      rw [heq]
      exact lexesTo_dot hc _
    have hpoint : ApartFromWord ((['.'] ++ name.toList) ++ rest) := by
      rintro d ⟨⟩
      decide
    have hreceiver := lexesTo_text h (Or.inr ⟨hpoint, hrank, hne⟩)
    rw [Shader.Expr.text, String.toList_append, String.toList_append, List.append_assoc]
    exact hreceiver.append (hdot.append (.word hname hrest.word))
  | .index base i, ⟨hb, hrank, hne, hi⟩, rest, _ => by
    have hindex := ((lexesTo_lbracket _).append
      (lexesTo_text hi (apart_closing (c := ']') (by decide) rest))).append
        (lexesTo_rbracket rest)
    have hbase := lexesTo_text hb (Or.inl (apartFromNumber_of_mem (c := '[') (by decide)
      (i.text.toList ++ [']'] ++ rest)))
    have htext : (Shader.Expr.index base i).text.toList =
        base.text.toList ++ (['['] ++ i.text.toList ++ [']']) := by
      simp [Shader.Expr.text]
    rw [htext]
    exact hbase.append hindex
  | .call function args, ⟨hword, h⟩, rest, _ => by
    have hargs := lexesTo_argTexts h rest
    have hopen := (LexesTo.word hword (apartFromNumber_of_mem (c := '(') (by decide) _).word).append
      ((lexesTo_lparen _).append hargs)
    have htext : (Shader.Expr.call function args).text.toList =
        function.toList ++ (['('] ++ ((", ".intercalate (Shader.Expr.texts args)).toList ++ [')'])) := by
      simp [Shader.Expr.text]
    rw [htext]
    exact hopen
  | .choice condition yes no, ⟨hc, hy, hn⟩, rest, _ => by
    have hno := ((lexesTo_colon _).append
      (lexesTo_text hn (apart_closing (c := ')') (by decide) rest)).blank).blank
    have hyes := ((lexesTo_question _).append ((lexesTo_text hy
      (Or.inl (apartFromNumber_of_mem (c := ' ') (by decide) _))).append hno).blank).blank
    have hcondition := (lexesTo_text hc
      (Or.inl (apartFromNumber_of_mem (c := ' ') (by decide) _))).append hyes
    have htext : (Shader.Expr.choice condition yes no).text.toList =
        ['('] ++ ((condition.text.toList ++ ' ' :: (['?'] ++ ' ' :: (yes.text.toList ++
          ' ' :: ([':'] ++ ' ' :: no.text.toList)))) ++ [')']) := by
      simp [Shader.Expr.text]
    rw [htext]
    exact (lexesTo_lparen _).append (hcondition.append (lexesTo_rparen rest))

theorem lexesTo_argTexts : ∀ {es : List Shader.Expr}, AllClean es → ∀ (rest : List Char),
    LexesTo ((", ".intercalate (Shader.Expr.texts es)).toList ++ [')']) (argTokens es) rest
  | [], _, rest => lexesTo_rparen rest
  | [e], ⟨h, _⟩, rest => by
    have hlast := (lexesTo_text h (apart_closing (c := ')') (by decide) rest)).append
      (lexesTo_rparen rest)
    have htext : ", ".intercalate (Shader.Expr.texts [e]) = e.text := String.intercalate_singleton
    rw [htext]
    exact hlast
  | e :: e' :: es, ⟨h, hs⟩, rest => by
    have hmore := (lexesTo_comma _).append (lexesTo_argTexts hs rest).blank
    have hfirst := lexesTo_text h (Or.inl (apartFromNumber_of_mem (c := ',') (by decide)
      (' ' :: ((", ".intercalate (Shader.Expr.texts (e' :: es))).toList ++ [')']) ++ rest)))
    have htext : (", ".intercalate (Shader.Expr.texts (e :: e' :: es))).toList =
        e.text.toList ++ ([','] ++
          ' ' :: (", ".intercalate (Shader.Expr.texts (e' :: es))).toList) := by
      simp [Shader.Expr.texts, String.intercalate_cons_cons]
    rw [htext, List.append_assoc]
    exact hfirst.append hmore

end

/-- The text of shader code has one reading, which is the tree of the code. -/
theorem reads_text_iff {c : Shader.Expr} (h : Clean c) (t : Tree) : Reads c.text t ↔ t = tree c := by
  have hlex : lex c.text.toList = some (tokens c) := by
    have happart : Apart c [] := Or.inl nofun
    simpa [LexesTo, lex_nil] using lexesTo_text h happart
  have hreads : Reads c.text (tree c) :=
    ⟨tokens c, hlex, (parses_tokens h).loosen (Nat.le_of_lt (one_lt_rank c))⟩
  constructor
  · exact fun ht => ht.unique hreads
  · rintro rfl
    exact hreads

end ComputeKernel.Reading
