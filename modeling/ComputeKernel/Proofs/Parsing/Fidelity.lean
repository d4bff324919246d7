import ComputeKernel.Proofs.Parsing.Printing
import ComputeKernel.Proofs.Parsing.Spelling
import ComputeKernel.Proofs.Spacing.Cursor

/-!
What is read of a source is what stands there. Each phrase of the grammar passes the lexemes of the
printed form of what it reads, so the source of an accepted closure is the printed form of the closure,
up to the places where the form is free and to what stands between the parameter and the closing bar.
-/

namespace ComputeKernel

open Slot

/-! ### Cursors -/

/-- Lexemes of which the last, and no other, is the mark of the end of input. The names are words. -/
inductive Tape : List Lexeme → Prop where
  | last : Tape [.endOfInput]
  | cons {l ls} : l ≠ .endOfInput → (∀ name, l = .ident name → IsWord name.toList) → Tape ls →
      Tape (l :: ls)

theorem Tape.ne_nil {ls : List Lexeme} (h : Tape ls) : ls ≠ [] := by
  cases h <;> exact List.cons_ne_nil _ _

theorem Tape.uncons {l : Lexeme} {ls : List Lexeme} (h : Tape (l :: ls)) (hne : l ≠ .endOfInput) :
    (∀ name, l = .ident name → IsWord name.toList) ∧ Tape ls := by
  cases h with
  | last => exact absurd rfl hne
  | cons _ hword hrest => exact ⟨hword, hrest⟩

theorem Tape.ne_endOfInput {l l' : Lexeme} {ls : List Lexeme} (h : Tape (l :: l' :: ls)) :
    l ≠ .endOfInput := by
  cases h with
  | cons hne _ _ => exact hne

theorem Tape.eq_of_endOfInput {ls : List Lexeme} (h : Tape (.endOfInput :: ls)) : ls = [] := by
  cases h with
  | last => rfl
  | cons hne _ _ => exact absurd rfl hne

/-- The tokens of a source are such lexemes. -/
theorem tape_of_ordered {lo : Nat} {tokens : List Token} (h : Token.Ordered lo tokens)
    (hspelled : ∀ t ∈ tokens, t.lexeme.Spelled) : Tape (tokens.map Token.lexeme) := by
  induction h with
  | last _ _ hend =>
    rw [List.map_singleton, hend]
    exact .last
  | @cons lo t u ts _ _ hne _ _ ih =>
    refine .cons hne (fun name hname => ?_) (ih fun t' ht' => hspelled t' (List.mem_cons_of_mem t ht'))
    rcases hname ▸ hspelled t List.mem_cons_self with hend | ⟨_, rfl, hword, _⟩
    · cases hend
    · exact hword

theorem tape_of_tokenize (source : String) : Tape ((tokenize source).1.map Token.lexeme) := by
  refine tape_of_ordered (tokenize_ordered source) fun t ht => ?_
  by_cases hend : t.lexeme = .endOfInput
  · exact .inl hend
  · exact .inr (tokenize_spelled ht hend)

namespace Cursor

def lexemes (c : Cursor) : List Lexeme := c.tokens.map Token.lexeme

variable {c : Cursor} {l : Lexeme}

/-- A token that is not the last one can be passed. -/
theorem lexemes_advance (h : Tape c.lexemes) (hl : c.lexeme = l) (hne : l ≠ .endOfInput) :
    c.lexemes = l :: c.advance.lexemes ∧ (∀ name, l = .ident name → IsWord name.toList) ∧
      Tape c.advance.lexemes := by
  obtain ⟨tokens, passed, depth, diagnostics⟩ := c
  rcases tokens with _ | ⟨t, _ | ⟨u, rest⟩⟩
  · exact absurd rfl h.ne_nil
  · obtain rfl : t.lexeme = l := hl
    exact absurd rfl (h.uncons hne).2.ne_nil
  · obtain rfl : t.lexeme = l := hl
    exact ⟨rfl, h.uncons hne⟩

theorem lexemes_splitShift (h : Tape c.lexemes) (hl : c.lexeme = .symbol .shr) :
    ∃ rest, c.lexemes = .symbol .shr :: rest ∧ c.splitShift.lexemes = .symbol .gt :: rest ∧
      Tape c.splitShift.lexemes := by
  obtain ⟨tokens, passed, depth, diagnostics⟩ := c
  rcases tokens with _ | ⟨t, rest⟩
  · exact absurd rfl h.ne_nil
  · have hl : t.lexeme = .symbol .shr := hl
    have hrest := (h.uncons (by rw [hl]; nofun)).2
    exact ⟨rest.map Token.lexeme, congrArg (· :: _) hl, rfl, .cons nofun nofun hrest⟩

/-- What is skipped stands in front of what is left. -/
theorem lexemes_skipTokens (stop : Lexeme → Bool) (tokens : List Token) (passed : Option Span)
    (h : Tape (tokens.map Token.lexeme)) :
    ∃ skipped, tokens.map Token.lexeme =
      skipped ++ (skipTokens stop tokens passed).1.map Token.lexeme ∧ (∀ l ∈ skipped, ¬ stop l) ∧
      Tape ((skipTokens stop tokens passed).1.map Token.lexeme) := by
  fun_induction skipTokens stop tokens passed with
  | case1 t u rest passed hstop => exact ⟨[], rfl, List.forall_mem_nil _, h⟩
  | case2 t u rest passed hstop ih =>
    obtain ⟨skipped, heq, hskipped, hrest⟩ := ih (h.uncons h.ne_endOfInput).2
    exact ⟨t.lexeme :: skipped, congrArg (t.lexeme :: ·) heq,
      List.forall_mem_cons.mpr ⟨hstop, hskipped⟩, hrest⟩
  | case3 tokens passed hshort => exact ⟨[], rfl, List.forall_mem_nil _, h⟩

theorem lexemes_skipUntil (stop : Lexeme → Bool) (h : Tape c.lexemes) :
    ∃ skipped, c.lexemes = skipped ++ (c.skipUntil stop).lexemes ∧ (∀ l ∈ skipped, ¬ stop l) ∧
      Tape (c.skipUntil stop).lexemes := lexemes_skipTokens stop c.tokens c.passed h

end Cursor

namespace Parse

theorem lexemes_eq_of_isEnd {c : Cursor} (h : Tape c.lexemes) (hend : isEnd c.lexeme) :
    c.lexemes = [.endOfInput] := by
  obtain ⟨tokens, passed, depth, diagnostics⟩ := c
  rcases tokens with _ | ⟨t, rest⟩
  · exact absurd rfl h.ne_nil
  · have hl : t.lexeme = .endOfInput := of_decide_eq_true hend
    have hrest := (hl ▸ h : Tape (.endOfInput :: rest.map Token.lexeme)).eq_of_endOfInput
    exact congr (congrArg List.cons hl) hrest

/-- Whether a reading that leads from `c` to `c'` passes the lexemes of a form. -/
structure Passes (c : Cursor) (ps : List Slot) (c' : Cursor) : Prop where
  fills : Fills ps c.lexemes c'.lexemes
  tape : Tape c'.lexemes

variable {c c₁ c' : Cursor} {ps qs : List Slot}

theorem Passes.refl (h : Tape c.lexemes) : Passes c [] c := ⟨rfl, h⟩

theorem Passes.append (h : Passes c ps c₁) (h' : Passes c₁ qs c') : Passes c (ps ++ qs) c' :=
  ⟨fills_append.mpr ⟨_, h.fills, h'.fills⟩, h'.tape⟩

theorem passes_token {l : Lexeme} (h : Tape c.lexemes) (hl : c.lexeme = l) (hne : l ≠ .endOfInput) :
    Passes c [token l] c.advance := by
  obtain ⟨hlexemes, _, htape⟩ := c.lexemes_advance h hl hne
  exact ⟨⟨_, hlexemes, rfl⟩, htape⟩

theorem passes_symbol {s : Symbol} (h : Tape c.lexemes) (hl : c.lexeme = .symbol s) :
    Passes c [symbol s] c.advance := passes_token h hl nofun

theorem passes_keyword {k : Keyword} (h : Tape c.lexemes) (hl : c.lexeme = .keyword k) :
    Passes c [keyword k] c.advance := passes_token h hl nofun

theorem passes_ident {name : String} (h : Tape c.lexemes) (hl : c.lexeme = .ident name) :
    Passes c [ident name] c.advance := passes_token h hl nofun

theorem isWord_of_lexeme {name : String} (h : Tape c.lexemes) (hl : c.lexeme = .ident name) :
    IsWord name.toList := (c.lexemes_advance h hl nofun).2.1 name rfl

/-! ### Types -/

theorem Closes.passes (h : Closes c c') (hc : Tape c.lexemes) : Passes c [close] c' := by
  rcases h with ⟨hl, rfl⟩ | ⟨hl, rfl⟩
  · obtain ⟨rest, hlexemes, hsplit, htape⟩ := c.lexemes_splitShift hc hl
    exact ⟨⟨_, .inr ⟨rest, hlexemes, hsplit⟩, rfl⟩, htape⟩
  · obtain ⟨hlexemes, _, htape⟩ := c.lexemes_advance hc hl nofun
    exact ⟨⟨_, .inl hlexemes, rfl⟩, htape⟩

theorem splitPath_words {first : String} {rest : List String} (hfirst : IsWord first.toList)
    (hrest : ∀ segment ∈ rest, IsWord segment.toList) :
    Text.splitPath (Text.joinPath (first :: rest)) = first :: rest := by
  refine Text.splitPath_joinPath (List.cons_ne_nil _ _) fun segment hsegment hcolon => ?_
  have hword : IsWord segment.toList := by
    rcases List.mem_cons.mp hsegment with rfl | hsegment
    · exact hfirst
    · exact hrest segment hsegment
  exact absurd (hword.continues ':' hcolon) (by decide)

/-- What a phrase of types passes. -/
def TypePhrase.Passed (c : Cursor) : TypePhrase → Cursor → Prop
  | .tail segments, c' =>
    Passes c (segments.flatMap fun segment => [symbol .colonColon, ident segment]) c' ∧
      ∀ segment ∈ segments, IsWord segment.toList
  | .type t, c' => Passes c t.type.form c'
  | .args types, c' => types ≠ [] ∧ Passes c (commas (HostType.forms types)) c'

theorem ReadsType.passes {p : TypePhrase} (h : ReadsType c p c') (hc : Tape c.lexemes) :
    p.Passed c c' := by
  induction h with
  | tailEnd => exact ⟨.refl hc, nofun⟩
  | tailMore hcolons hsegment _ ih =>
    have h₁ := passes_symbol hc hcolons
    have h₂ := passes_ident h₁.tape hsegment
    obtain ⟨hrest, hwords⟩ := ih h₂.tape
    exact ⟨(h₁.append h₂).append hrest,
      List.forall_mem_cons.mpr ⟨isWord_of_lexeme h₁.tape hsegment, hwords⟩⟩
  | plain hfirst _ _ ih =>
    have h₁ := passes_ident hc hfirst
    obtain ⟨hrest, hwords⟩ := ih h₁.tape
    simp only [TypePhrase.Passed, HostType.form, HostType.forms,
      splitPath_words (isWord_of_lexeme hc hfirst) hwords]
    exact (h₁.append hrest).append (.refl hrest.tape)
  | generic hfirst _ hlt _ hclose ihRest ihArgs =>
    have h₁ := passes_ident hc hfirst
    obtain ⟨hrest, hwords⟩ := ihRest h₁.tape
    have h₂ := passes_symbol hrest.tape hlt
    obtain ⟨hne, hargs⟩ := ihArgs h₂.tape
    have hform : ∀ {ts : List HostType}, ts ≠ [] → typeArgumentForm (HostType.forms ts) =
        symbol .lt :: (commas (HostType.forms ts) ++ [close])
      | [], h => absurd rfl h
      | _ :: _, _ => rfl
    simp only [TypePhrase.Passed, HostType.form, hform hne,
      splitPath_words (isWord_of_lexeme hc hfirst) hwords]
    exact (h₁.append hrest).append (h₂.append (hargs.append (hclose.passes hargs.tape)))
  | lastArg _ _ ih =>
    refine ⟨List.cons_ne_nil _ _, ?_⟩
    exact (ih hc).append (.refl (Passes.tape (ih hc)))
  | moreArgs _ hcomma _ ihType ihRest =>
    have h₁ := ihType hc
    have h₂ := passes_symbol (Passes.tape h₁) hcomma
    obtain ⟨hne, hrest⟩ := ihRest h₂.tape
    refine ⟨List.cons_ne_nil _ _, ?_⟩
    obtain ⟨t', rest, rfl⟩ := List.exists_cons_of_ne_nil hne
    rw [HostType.forms, HostType.forms, commas_cons_cons]
    exact Passes.append h₁ (h₂.append hrest)

/-! ### Expressions -/

theorem spelled_of_binaryOp? {s : Symbol} {op : BinaryOp} (h : s.binaryOp? = some op) :
    spelled op.symbol = symbol s := by
  revert h
  cases s <;> rintro ⟨⟩ <;> rfl

/-- An expression that begins with `if` is a conditional. -/
theorem exists_choice_of_reads {e : Expr} (h : Reads c (.primary e) c')
    (hl : c.lexeme = .keyword .if_) :
    ∃ span condition yes no, e = .choice span condition yes no := by
  cases h with
  | choice | choiceChain => exact ⟨_, _, _, _, rfl⟩
  | integer h | float h | true h | false h | call h | name h | path h | paren h | tuple h =>
    cases h.symm.trans hl

theorem Passes.either_long {long short : List Slot} (h : Passes c long c') :
    Passes c [either long short] c' := ⟨⟨_, .inl h.fills, rfl⟩, h.tape⟩

theorem Passes.either_short {long short : List Slot} (h : Passes c short c') :
    Passes c [either long short] c' := ⟨⟨_, .inr h.fills, rfl⟩, h.tape⟩

/-- The braces of a conditional behind an `else` may be left out. -/
theorem Passes.elseForm_choice {e : Expr} (h : Passes c e.form c')
    (he : ∃ span condition yes no, e = .choice span condition yes no) :
    Passes c (e.elseForm e.form) c' := by
  obtain ⟨_, _, _, _, rfl⟩ := he
  exact h.either_short

theorem Passes.elseForm {e : Expr} {form : List Slot} (h : Passes c (braced form) c') :
    Passes c (e.elseForm form) c' := by
  unfold Expr.elseForm
  split
  · exact h.either_long
  · exact h

/-- What a phrase of expressions passes. -/
def Phrase.Passed (c : Cursor) : Phrase → Cursor → Prop
  | .expression _ e, c' | .operand e, c' | .primary e, c' => Passes c e.form c'
  | .branch e, c' => Passes c (braced e.form) c'
  | .operators _ left whole, c' | .members left whole, c' =>
    ∀ c₀, Passes c₀ left.form c → Passes c₀ whole.form c'
  | .tupleItems items, c' =>
    Passes c ((Expr.forms items).flatMap (symbol .comma :: ·) ++ [maybe .comma]) c' ∧
      (items = [] → c' = c ∨ Passes c [symbol .comma] c')
  | .arguments args, c' => Passes c (argumentForm (Expr.forms args)) c'
  | .argumentItems args, c' =>
    Passes c (commas (Expr.forms args) ++
      if (Expr.forms args).isEmpty then [] else [maybe .comma]) c'

theorem Reads.passes {p : Phrase} (h : Reads c p c') (hc : Tape c.lexemes) : p.Passed c c' := by
  induction h with
  | expression _ _ _ ihFirst ihWhole =>
    have h₁ := ihFirst hc
    have h₂ := ihWhole (Passes.tape h₁) _ h₁
    exact ⟨h₂.fills, h₂.tape⟩
  | noOperator | noMember => exact fun _ h => h
  | cast hl htype _ ihWhole =>
    have h₁ := passes_keyword hc hl
    have h₂ : Passes _ _ _ := htype.passes h₁.tape
    exact fun c₀ hleft => ihWhole h₂.tape c₀ (hleft.append (h₁.append h₂))
  | binary hl hop _ _ _ ihRight ihWhole =>
    have h₁ := passes_symbol hc hl
    have h₂ : Passes _ _ _ := ihRight h₁.tape
    refine fun c₀ hleft => ihWhole h₂.tape c₀ ?_
    rw [Expr.form, spelled_of_binaryOp? hop]
    exact hleft.append (h₁.append h₂)
  | neg hl _ ih | not hl _ ih =>
    have h₁ := passes_symbol hc hl
    exact h₁.append (ih h₁.tape)
  | plain _ _ _ _ ihFirst ihWhole =>
    have h₁ : Passes _ _ _ := ihFirst hc
    exact ihWhole h₁.tape _ h₁
  | method hdot hmember _ _ _ ihArgs ihWhole =>
    have h₁ := passes_symbol hc hdot
    have h₂ := passes_ident h₁.tape hmember
    have h₃ : Passes _ _ _ := ihArgs h₂.tape
    exact fun c₀ hleft => ihWhole h₃.tape c₀ (hleft.append (h₁.append (h₂.append h₃)))
  | field hdot hmember _ _ _ ihWhole =>
    have h₁ := passes_symbol hc hdot
    have h₂ := passes_ident h₁.tape hmember
    exact fun c₀ hleft => ihWhole h₂.tape c₀ (hleft.append (h₁.append h₂))
  | index hopen _ hclose _ ihIndex ihWhole =>
    have h₁ := passes_symbol hc hopen
    have h₂ : Passes _ _ _ := ihIndex h₁.tape
    have h₃ := passes_symbol h₂.tape hclose
    exact fun c₀ hleft => ihWhole h₃.tape c₀ (hleft.append (h₁.append (h₂.append h₃)))
  | integer hl | float hl => exact passes_token hc hl nofun
  | true hl | false hl => exact passes_keyword hc hl
  | call hfirst hrest _ ihArgs =>
    have h₁ := passes_ident hc hfirst
    have h₂ := (hrest.passes h₁.tape).1
    exact (h₁.append h₂).append (ihArgs h₂.tape)
  | name hl => exact passes_ident hc hl
  | path hfirst hrest _ _ =>
    have h₁ := passes_ident hc hfirst
    exact h₁.append (hrest.passes h₁.tape).1
  | paren hopen _ hclose ih =>
    have h₁ := passes_symbol hc hopen
    have h₂ : Passes _ _ _ := ih h₁.tape
    exact h₁.append (h₂.append (passes_symbol h₂.tape hclose))
  | @tuple _ _ _ _ rest hopen _ hmore _ hclose ihFirst ihRest =>
    have h₁ := passes_symbol hc hopen
    have h₂ : Passes _ _ _ := ihFirst h₁.tape
    obtain ⟨h₃, hsingle⟩ := ihRest h₂.tape
    have h₄ := passes_symbol h₃.tape hclose
    cases rest with
    | nil =>
      rcases hsingle rfl with rfl | hcomma
      · exact absurd hclose hmore
      · exact h₁.append (((h₂.append (.refl h₂.tape)).append hcomma).append h₄)
    | cons next rest =>
      have h₅ := (h₂.append h₃).append h₄
      rw [← List.append_assoc] at h₅
      exact h₁.append h₅
  | choice hif _ _ helse _ ihCondition ihYes ihNo =>
    have h₁ := passes_keyword hc hif
    have h₂ : Passes _ _ _ := ihCondition h₁.tape
    have h₃ : Passes _ _ _ := ihYes h₂.tape
    have h₄ := passes_keyword h₃.tape helse
    have h₅ : Passes _ _ _ := ihNo h₄.tape
    exact h₁.append ((h₂.append h₃).append (h₄.append h₅.elseForm))
  | choiceChain hif _ _ helse hchain hno ihCondition ihYes ihNo =>
    have h₁ := passes_keyword hc hif
    have h₂ : Passes _ _ _ := ihCondition h₁.tape
    have h₃ : Passes _ _ _ := ihYes h₂.tape
    have h₄ := passes_keyword h₃.tape helse
    have h₅ : Passes _ _ _ := ihNo h₄.tape
    have h₆ := h₅.elseForm_choice (exists_choice_of_reads hno hchain)
    exact h₁.append ((h₂.append h₃).append (h₄.append h₆))
  | noItem _ => exact ⟨(Passes.refl hc).either_short, fun _ => .inl rfl⟩
  | lastComma hcomma _ =>
    have h₁ := passes_symbol hc hcomma
    exact ⟨h₁.either_long, fun _ => .inr h₁⟩
  | moreItems hcomma _ _ _ ihItem ihRest =>
    have h₁ := passes_symbol hc hcomma
    have h₂ : Passes _ _ _ := ihItem h₁.tape
    refine ⟨?_, nofun⟩
    rw [Expr.forms, List.flatMap_cons, List.append_assoc]
    exact (h₁.append h₂).append (ihRest h₂.tape).1
  | branch hopen _ hclose ih =>
    have h₁ := passes_symbol hc hopen
    have h₂ : Passes _ _ _ := ih h₁.tape
    exact h₁.append (h₂.append (passes_symbol h₂.tape hclose))
  | arguments hopen _ hclose ih =>
    have h₁ := passes_symbol hc hopen
    have h₂ : Passes _ _ _ := ih h₁.tape
    exact h₁.append (h₂.append (passes_symbol h₂.tape hclose))
  | noArgument => exact .refl hc
  | lastArgument _ _ _ ih =>
    have h₁ : Passes _ _ _ := ih hc
    exact (h₁.append (.refl h₁.tape)).append (Passes.refl h₁.tape).either_short
  | @moreArguments _ _ _ _ rest _ _ hcomma _ ihArg ihRest =>
    have h₁ : Passes _ _ _ := ihArg hc
    have h₂ := passes_symbol h₁.tape hcomma
    have h₃ : Passes _ _ _ := ihRest h₂.tape
    cases rest with
    | nil => exact (h₁.append (.refl h₁.tape)).append (h₂.append h₃).either_long
    | cons next rest =>
      simp only [Phrase.Passed, Expr.forms, commas_cons_cons, List.append_assoc]
      exact h₁.append (h₂.append h₃)

/-! ### Statements -/

theorem spelled_of_assignOp? {s : Symbol} {op : Option BinaryOp} (h : s.assignOp? = some op) :
    spelled (assignSpelling op) = symbol s := by
  revert h
  cases s <;> rintro ⟨⟩ <;> rfl

theorem Takes.passes {l : Lexeme} {there : Bool} (h : Takes l c there c') (hc : Tape c.lexemes)
    (hne : l ≠ .endOfInput) : Passes c (if there then [token l] else []) c' := by
  cases there with
  | true => exact h.2 ▸ passes_token hc h.1 hne
  | false =>
    obtain ⟨_, rfl⟩ := h
    exact .refl hc

theorem ReadsAnnotation.passes {type : Option TypeRef} (h : ReadsAnnotation c type c')
    (hc : Tape c.lexemes) : Passes c (annotationForm type) c' := by
  cases type with
  | none =>
    obtain ⟨_, rfl⟩ := h
    exact .refl hc
  | some t =>
    have h₁ := passes_symbol hc h.1
    exact h₁.append (h.2.passes h₁.tape)

theorem ReadsInitial.passes {value : Option Expr} (h : ReadsInitial c value c')
    (hc : Tape c.lexemes) : Passes c (initialForm value) c' := by
  cases value with
  | none =>
    obtain ⟨_, rfl⟩ := h
    exact .refl hc
  | some e =>
    have h₁ := passes_symbol hc h.1
    exact h₁.append (h.2.passes h₁.tape)

/-- Whether a reading passes a statement with its semicolon, or without it where `last` allows. -/
def PassesEnded (last : Cursor → Bool) (c : Cursor) (s : Stmt) (c' : Cursor) : Prop :=
  Passes c (s.ended s.form false) c' ∨ last c' ∧ Passes c (s.ended s.form true) c'

theorem Passes.ended {s : Stmt} {last : Cursor → Bool} (h : Passes c s.form c₁)
    (hends : Ends (last c₁ || ! s.isOpen) c₁ c') : PassesEnded last c s c' := by
  unfold PassesEnded Stmt.ended
  cases hopen : s.isOpen with
  | false =>
    rw [hopen, Bool.not_false, Bool.or_true] at hends
    obtain rfl : c' = c₁ := hends
    exact .inl (h.append (.refl h.tape))
  | true =>
    rw [hopen, Bool.not_true, Bool.or_false] at hends
    cases hlast : last c₁ with
    | true =>
      rw [hlast] at hends
      obtain rfl : c' = c₁ := hends
      exact .inr ⟨hlast, h.append (Passes.refl h.tape).either_short⟩
    | false =>
      rw [hlast] at hends
      exact .inl (h.append (hends.2 ▸ passes_symbol h.tape hends.1))

/-- A statement that needs no semicolon. -/
theorem Passes.closed {s : Stmt} {last : Cursor → Bool} (h : Passes c s.form c')
    (hclosed : s.isOpen = false) : PassesEnded last c s c' := by
  refine h.ended ?_
  rw [hclosed, Bool.not_false, Bool.or_true]
  rfl

/-- A semicolon may stand where it may be left out. -/
theorem PassesEnded.last {s : Stmt} {last : Cursor → Bool} (h : PassesEnded last c s c') :
    Passes c (s.ended s.form true) c' := by
  rcases h with h | ⟨_, h⟩
  · refine ⟨?_, h.tape⟩
    have hfills := h.fills
    unfold Stmt.ended at hfills ⊢
    split
    · rename_i hopen
      rw [if_pos hopen] at hfills
      obtain ⟨mid, hform, hsemicolon⟩ := fills_append.mp hfills
      exact fills_append.mpr ⟨mid, hform, _, .inl hsemicolon, rfl⟩
    · rename_i hopen
      rwa [if_neg hopen] at hfills
  · exact h

theorem ReadsSimple.passes {isBody : Bool} {s : Stmt} (h : ReadsSimple isBody c s c')
    (hc : Tape c.lexemes) : PassesEnded (atLast isBody) c s c' := by
  cases h with
  | @eval _ _ e he _ hends =>
    have h₁ : Passes _ _ _ := he.passes hc
    refine Passes.ended (s := .eval e.span e) h₁ ?_
    rwa [Stmt.isOpen, Bool.not_not]
  | assign hplace hsymbol hop hvalue hends =>
    have h₁ : Passes _ _ _ := hplace.passes hc
    have h₂ := passes_symbol h₁.tape hsymbol
    have h₃ : Passes _ _ _ := hvalue.passes h₂.tape
    refine Passes.ended ?_ (by rwa [Stmt.isOpen, Bool.not_true, Bool.or_false])
    rw [Stmt.form, spelled_of_assignOp? hop]
    exact h₁.append (h₂.append h₃)

/-- A statement that begins with `if` is a conditional. -/
theorem exists_if_of_reads {s : Stmt} (h : ReadsStmt c (.statement s) c')
    (hl : c.lexeme = .keyword .if_) :
    ∃ span condition body otherwise, s = .if span condition body otherwise := by
  cases h with
  | ifOnly | ifElse | ifChain => exact ⟨_, _, _, _, rfl⟩
  | simple hne => exact absurd hl hne
  | jump h =>
    rename_i kind _
    cases kind <;> cases h.symm.trans hl
  | «let» h | «for» h | «while» h | loop h | nested h => cases h.symm.trans hl

/-- No statement stands in front of a closing brace. -/
theorem eq_nil_of_reads {ss : List Stmt} (h : ReadsStmt c (.statements ss) c')
    (hl : c.lexeme = .symbol .rbrace) : ss = [] := by
  cases h with
  | noStatement => rfl
  | emptyStatement hsemicolon => cases hsemicolon.symm.trans hl
  | moreStatements hend => exact absurd (by rw [hl]; rfl) hend

theorem Passes.semicolons (h : Passes c ps c') : Passes c (semicolons :: ps) c' :=
  ⟨⟨_, ⟨0, rfl⟩, h.fills⟩, h.tape⟩

theorem Passes.semicolon (hc : Tape c.lexemes) (hl : c.lexeme = .symbol .semicolon)
    (h : Passes c.advance (Slot.semicolons :: ps) c') : Passes c (Slot.semicolons :: ps) c' := by
  obtain ⟨mid, ⟨n, hn⟩, hrest⟩ := h.fills
  refine ⟨⟨mid, ⟨n + 1, ?_⟩, hrest⟩, h.tape⟩
  rw [(c.lexemes_advance hc hl nofun).1, hn]
  rfl

theorem Passes.elseBlock {b : Block} (h : Passes c b.form c') :
    Passes c (b.elseForm b.form b.inner) c' := by
  unfold Block.elseForm
  split
  · exact h.either_long
  · exact h

/-- What a phrase of statements passes. -/
def StmtPhrase.Passed (c : Cursor) : StmtPhrase → Cursor → Prop
  | .block b, c' => Passes c b.form c'
  | .statements ss, c' => Passes c (Slot.semicolons :: Stmt.sequenceForm ss) c'
  | .statement s, c' => PassesEnded (atLast false) c s c'

theorem ReadsStmt.passes {p : StmtPhrase} (h : ReadsStmt c p c') (hc : Tape c.lexemes) :
    p.Passed c c' := by
  induction h with
  | @block c _ _ _ hopen _ hclose ih =>
    have h₁ : Passes c.deeper _ _ := passes_symbol hc hopen
    have h₂ : Passes _ _ _ := ih h₁.tape
    have h₃ := h₁.append (h₂.append (passes_symbol h₂.tape hclose))
    exact ⟨h₃.fills, h₃.tape⟩
  | noStatement => exact (Passes.refl hc).semicolons
  | emptyStatement hsemicolon _ ih =>
    exact Passes.semicolon hc hsemicolon (ih (passes_symbol hc hsemicolon).tape)
  | @moreStatements c c₁ c' s ss _ _ _ hrest ihFirst ihRest =>
    have h₁ : PassesEnded _ _ _ _ := ihFirst hc
    have h₂ : Passes _ _ _ := ihRest h₁.last.tape
    refine Passes.semicolons ?_
    cases ss with
    | nil => exact h₁.last.append h₂
    | cons s' ss =>
      rcases h₁ with h₁ | ⟨hlast, _⟩
      · exact h₁.append h₂
      · have hbrace : c₁.lexeme = .symbol .rbrace := by simpa [atLast] using hlast
        cases eq_nil_of_reads hrest hbrace
  | «let» hl hmut hname _ htype hvalue hends =>
    have h₁ := passes_keyword hc hl
    have h₂ := hmut.passes h₁.tape nofun
    have h₃ := passes_ident h₂.tape hname
    have h₄ := htype.passes h₃.tape
    have h₅ := hvalue.passes h₄.tape
    refine Passes.ended (h₁.append (h₂.append (h₃.append (h₄.append h₅)))) ?_
    simpa [atLast, Stmt.isOpen] using hends
  | ifOnly hif hcondition _ _ ihBody =>
    have h₁ := passes_keyword hc hif
    have h₂ : Passes _ _ _ := hcondition.passes h₁.tape
    have h₃ : Passes _ _ _ := ihBody h₂.tape
    exact Passes.closed (h₁.append ((h₂.append h₃).append (.refl h₃.tape))) rfl
  | ifElse hif hcondition _ helse _ _ ihBody ihOtherwise =>
    have h₁ := passes_keyword hc hif
    have h₂ : Passes _ _ _ := hcondition.passes h₁.tape
    have h₃ : Passes _ _ _ := ihBody h₂.tape
    have h₄ := passes_keyword h₃.tape helse
    have h₅ : Passes _ _ _ := ihOtherwise h₄.tape
    exact Passes.closed (h₁.append ((h₂.append h₃).append (h₄.append h₅.elseBlock))) rfl
  | ifChain hif hcondition _ helse hchain hchained ihBody ihChained =>
    have h₁ := passes_keyword hc hif
    have h₂ : Passes _ _ _ := hcondition.passes h₁.tape
    have h₃ : Passes _ _ _ := ihBody h₂.tape
    have h₄ := passes_keyword h₃.tape helse
    have h₅ : PassesEnded _ _ _ _ := ihChained h₄.tape
    obtain ⟨_, _, _, _, rfl⟩ := exists_if_of_reads hchained hchain
    have h₆ := h₅.last.append (Passes.refl h₅.last.tape).semicolons
    exact Passes.closed (h₁.append ((h₂.append h₃).append (h₄.append h₆.either_short))) rfl
  | «for» hl hname _ hin hfirst hrange hstop _ ihBody =>
    have h₁ := passes_keyword hc hl
    have h₂ := passes_ident h₁.tape hname
    have h₃ := passes_keyword h₂.tape hin
    have h₄ : Passes _ _ _ := hfirst.passes h₃.tape
    have h₅ := passes_symbol h₄.tape hrange
    have h₆ : Passes _ _ _ := hstop.passes h₅.tape
    have h₇ : Passes _ _ _ := ihBody h₆.tape
    exact Passes.closed
      (h₁.append (h₂.append (h₃.append (h₄.append (h₅.append (h₆.append h₇)))))) rfl
  | «while» hl hcondition _ ihBody =>
    have h₁ := passes_keyword hc hl
    have h₂ : Passes _ _ _ := hcondition.passes h₁.tape
    have h₃ : Passes _ _ _ := ihBody h₂.tape
    exact Passes.closed (h₁.append (h₂.append h₃)) rfl
  | loop hl _ ihBody =>
    have h₁ := passes_keyword hc hl
    have h₂ : Passes _ _ _ := ihBody h₁.tape
    exact Passes.closed (h₁.append h₂) rfl
  | jump hl hends =>
    refine Passes.ended (passes_keyword hc hl) ?_
    simpa [atLast, Stmt.isOpen] using hends
  | nested _ _ ihBody =>
    have h₁ : Passes _ _ _ := ihBody hc
    exact h₁.closed rfl
  | simple _ hs => exact hs.passes hc

/-! ### Closures -/

theorem isSimple_of_reads {isBody : Bool} {s : Stmt} (h : ReadsSimple isBody c s c') :
    s.isSimple = true := by cases h <;> rfl

theorem ReadsBody.passes {b : Block} (h : ReadsBody c b c') (hc : Tape c.lexemes) :
    Passes c b.bodyForm c' := by
  cases h with
  | block _ hb =>
    have h₁ : Passes _ _ _ := hb.passes hc
    unfold Block.bodyForm
    split
    · split
      · exact h₁.either_long
      · exact h₁
    · exact h₁
  | simple _ hs =>
    rw [Block.bodyForm, Block.stmts]
    simp only [isSimple_of_reads hs, if_true]
    exact (hs.passes hc).last.either_short

/-- Whether lexemes are such as are passed over in front of the closing bar of the parameter: they end
in front of the first bar, and begin with no comma. -/
structure PassedOver (extra : List Lexeme) : Prop where
  bar : ∀ l ∈ extra, l ≠ .symbol .pipe ∧ l ≠ .endOfInput
  comma : extra.head? ≠ some (.symbol .comma)

theorem ReadsClosure.passes {closure : Closure} (h : ReadsClosure c closure c')
    (hc : Tape c.lexemes) :
    ∃ extra, PassedOver extra ∧ Fills (closure.form extra) c.lexemes [.endOfInput] := by
  cases h with
  | @mk c₀ c₁ _ hasMove _ _ _ hmove hbar hname _ htype hcomma hclose hbody hend =>
    have h₁ : Passes c [either [keyword .move] []] c₀ := by
      have hpasses := hmove.passes hc nofun
      cases hasMove with
      | true => exact hpasses.either_long
      | false => exact hpasses.either_short
    have h₂ := passes_symbol h₁.tape hbar
    have h₃ := passes_ident h₂.tape hname
    have h₄ := htype.passes h₃.tape
    obtain ⟨extra, hextra, hstop, htape⟩ := c₁.lexemes_skipUntil endsParameters h₄.tape
    have h₅ : Passes c₁ (extra.map token) (c₁.skipUntil endsParameters) :=
      ⟨hextra ▸ fills_tokens extra _, htape⟩
    have h₆ := passes_symbol htape hclose
    have h₇ := hbody.passes h₆.tape
    refine ⟨extra, ⟨fun l hl => ?_, fun hhead => hcomma ?_⟩, ?_⟩
    · simpa [endsParameters, isEnd] using hstop l hl
    · rw [Cursor.lexeme_eq_headD, ← Cursor.lexemes, hextra, List.headD_eq_head?_getD, List.head?_append,
        hhead]
      rfl
    · rw [← lexemes_eq_of_isEnd h₇.tape hend]
      exact (h₁.append (h₂.append (h₃.append ((h₄.append h₅).append (h₆.append h₇))))).fills

end Parse

/-- Each token of an accepted source is one of the printed form of the closure, in the same order, but
for those that stand between the parameter with its type and the next bar. -/
theorem Closure.form_of_parse {source : String} {c : Closure} (h : Closure.parse source = .ok c) :
    ∃ extra, Parse.PassedOver extra ∧
      Fills (c.form extra) ((tokenize source).1.map Token.lexeme) [.endOfInput] := by
  obtain ⟨⟨c', hreads⟩, _⟩ := Closure.reads_of_parse h
  exact hreads.passes (tape_of_tokenize source)

/-- A kernel that uses what the printed form leaves free. -/
def sparse : String :=
  "move |ids: ThreadIds| \x7b ; let m = f(a, (b,),); if m > 1 \x7b return \x7d "
    ++ "else if -a as T<U<f32>> >> 2 < m.x \x7b; o[ids.x] += 1.0;; n = 1 \x7d \x7d"

theorem Closure.form_of_parse_sparse : ∃ c extra, Closure.parse sparse = .ok c ∧
    Parse.PassedOver extra ∧
      Fills (c.form extra) ((tokenize sparse).1.map Token.lexeme) [.endOfInput] := by
  have hrun : (Closure.parse sparse).isOk = true := by decide +kernel
  obtain ⟨c, hc⟩ := exists_of_isOk hrun
  obtain ⟨extra, hextra, hfills⟩ := Closure.form_of_parse hc
  exact ⟨c, extra, hc, hextra, hfills⟩

/-- A closure whose parameter is a function. Of its type, only the first word is read. -/
def callback : Closure :=
  ⟨⟨"ids", ⟨1, 4⟩⟩, some ⟨.named "fn", ⟨6, 8⟩⟩, ⟨⟨22, 25⟩, []⟩⟩

/-- What stands behind that word is in no form of the closure. -/
theorem Closure.drops_callback :
    Closure.parse "|ids: fn(u32) -> u32| \x7b \x7d" = .ok callback ∧
      ¬ Fills (callback.form [])
        ((tokenize "|ids: fn(u32) -> u32| \x7b \x7d").1.map Token.lexeme) [.endOfInput] := by
  have hlexemes : (tokenize "|ids: fn(u32) -> u32| \x7b \x7d").1.map Token.lexeme =
      [.symbol .pipe, .ident "ids", .symbol .colon, .ident "fn", .symbol .lparen, .ident "u32",
        .symbol .rparen, .symbol .minus, .symbol .gt, .ident "u32", .symbol .pipe, .symbol .lbrace,
        .symbol .rbrace, .endOfInput] := by decide +kernel
  have hpath : Text.splitPath "fn" = ["fn"] := by decide +kernel
  refine ⟨rfl, ?_⟩
  rw [hlexemes]
  simp [Closure.form, callback, annotationForm, HostType.named, HostType.form, HostType.forms, hpath,
    pathForm, typeArgumentForm, Fills, Slot.FilledBy, symbol, keyword, ident]

end ComputeKernel
