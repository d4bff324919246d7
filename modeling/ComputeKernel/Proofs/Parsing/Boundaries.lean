import ComputeKernel.Proofs.Lexing.Boundaries
import ComputeKernel.Proofs.Parsing.Extraction
import ComputeKernel.Proofs.Parsing.Steps

/-!
Ranges of readings. The ranges of a closure's tree are put together from ranges of tokens, and faults
are reported of tokens, so all of them are ranges of the text.
-/

namespace ComputeKernel

variable {source : String}

/-! ### Trees -/

mutual

/-- Whether all ranges in an expression are ranges of the text. -/
def Expr.InText (source : String) : Expr → Prop
  | .literal s _ | .name s _ | .path s _ => s.InText source
  | .unary s _ e | .paren s e => s.InText source ∧ e.InText source
  | .binary s _ l r | .index s l r => s.InText source ∧ l.InText source ∧ r.InText source
  | .cast s e type => s.InText source ∧ e.InText source ∧ type.span.InText source
  | .field s e member => s.InText source ∧ e.InText source ∧ member.span.InText source
  | .method s e member args =>
    s.InText source ∧ e.InText source ∧ member.span.InText source ∧ Expr.AllInText source args
  | .call s _ calleeSpan args =>
    s.InText source ∧ calleeSpan.InText source ∧ Expr.AllInText source args
  | .tuple s items => s.InText source ∧ Expr.AllInText source items
  | .choice s condition yes no =>
    s.InText source ∧ condition.InText source ∧ yes.InText source ∧ no.InText source

def Expr.AllInText (source : String) : List Expr → Prop
  | [] => True
  | e :: es => e.InText source ∧ Expr.AllInText source es

end

theorem Expr.InText.span {e : Expr} (h : e.InText source) : e.span.InText source := by
  cases e <;> simp only [Expr.InText] at h <;> first | exact h | exact h.1

mutual

/-- Whether all ranges in a statement are ranges of the text. -/
def Stmt.InText (source : String) : Stmt → Prop
  | .let s _ name type value =>
    s.InText source ∧ name.span.InText source ∧ (∀ t ∈ type, t.span.InText source) ∧
      ∀ e ∈ value, e.InText source
  | .assign s _ place value => s.InText source ∧ place.InText source ∧ value.InText source
  | .if s condition body none => s.InText source ∧ condition.InText source ∧ body.InText source
  | .if s condition body (some otherwise) =>
    s.InText source ∧ condition.InText source ∧ body.InText source ∧ otherwise.InText source
  | .for s counter start stop _ body =>
    s.InText source ∧ counter.span.InText source ∧ start.InText source ∧ stop.InText source ∧
      body.InText source
  | .while s condition body => s.InText source ∧ condition.InText source ∧ body.InText source
  | .loop s body | .nested s body => s.InText source ∧ body.InText source
  | .jump s _ => s.InText source
  | .eval s value => s.InText source ∧ value.InText source

def Block.InText (source : String) : Block → Prop
  | ⟨s, stmts⟩ => s.InText source ∧ Stmt.AllInText source stmts

def Stmt.AllInText (source : String) : List Stmt → Prop
  | [] => True
  | s :: ss => s.InText source ∧ Stmt.AllInText source ss

end

theorem Stmt.InText.span {s : Stmt} (h : s.InText source) : s.span.InText source := by
  unfold Stmt.InText at h
  split at h <;> first | exact h | exact h.1

theorem Block.InText.span {b : Block} (h : b.InText source) : b.span.InText source := by
  obtain ⟨s, stmts⟩ := b
  exact h.1

/-- Whether all ranges in a closure are ranges of the text. -/
structure Closure.InText (source : String) (c : Closure) : Prop where
  param : c.param.span.InText source
  paramType : ∀ t ∈ c.paramType, t.span.InText source
  body : c.body.InText source

/-! ### Cursors -/

/-- Whether all ranges that a cursor leads to are ranges of the text, the halves of `>>` included. -/
structure Cursor.InText (source : String) (c : Cursor) : Prop where
  ne_nil : c.tokens ≠ []
  tokens : ∀ t ∈ c.tokens, t.span.InText source
  halves : ∀ t ∈ c.tokens, t.lexeme = .symbol .shr →
    (⟨t.span.start + 1, t.span.stop⟩ : Span).InText source
  passed : ∀ s ∈ c.passed, s.InText source

namespace Cursor.InText

variable {c : Cursor}

theorem here (h : c.InText source) : c.here.InText source := by
  obtain ⟨_ | ⟨t, ts⟩, passed, depth, diagnostics⟩ := c
  · exact (h.ne_nil rfl).elim
  · exact h.tokens t List.mem_cons_self

theorem behind (h : c.InText source) : c.behind.InText source := by
  unfold Cursor.behind
  cases hpassed : c.passed with
  | none => exact h.here
  | some s => exact h.passed s hpassed

theorem advance (h : c.InText source) : c.advance.InText source := by
  obtain ⟨_ | ⟨t, _ | ⟨u, ts⟩⟩, passed, depth, diagnostics⟩ := c
  · exact h
  · exact h
  · refine ⟨nofun, fun t' ht => h.tokens t' (List.mem_cons_of_mem _ ht),
      fun t' ht => h.halves t' (List.mem_cons_of_mem _ ht), ?_⟩
    rintro _ ⟨⟩
    exact h.tokens t List.mem_cons_self

theorem skipUntil (stop : Lexeme → Bool) (h : c.InText source) :
    (c.skipUntil stop).InText source :=
  skipUntil_of_advance (P := fun c => c.InText source) (fun _ => advance) stop h

theorem splitShift (h : c.InText source) (hl : c.lexeme = .symbol .shr) :
    c.splitShift.InText source := by
  obtain ⟨_ | ⟨t, ts⟩, passed, depth, diagnostics⟩ := c
  · exact (h.ne_nil rfl).elim
  · have hhalf := h.halves t List.mem_cons_self hl
    refine ⟨nofun, fun t' ht => ?_, fun t' ht hshift => ?_, h.passed⟩
    · rcases List.mem_cons.mp ht with rfl | ht
      · exact hhalf
      · exact h.tokens t' (List.mem_cons_of_mem _ ht)
    · rcases List.mem_cons.mp ht with rfl | ht
      · cases hshift
      · exact h.halves t' (List.mem_cons_of_mem _ ht) hshift

theorem deeper (h : c.InText source) : c.deeper.InText source :=
  ⟨h.ne_nil, h.tokens, h.halves, h.passed⟩

theorem shallower (h : c.InText source) : c.shallower.InText source :=
  ⟨h.ne_nil, h.tokens, h.halves, h.passed⟩

/-- The cursor in front of a source. -/
theorem of_tokenize (source : String) : ({ tokens := (tokenize source).1 } : Cursor).InText source :=
  ⟨by simp [tokenize], fun _ ht => (tokenize_inText ht).1, fun _ ht => (tokenize_inText ht).2, nofun⟩

end Cursor.InText

namespace Parse

variable {c c' : Cursor}

/-- A step reports in the text. -/
theorem step_inText (h : Cursor.Step c c') :
    c.InText source ∧ (∀ d ∈ c.diagnostics, d.span.InText source) →
      c'.InText source ∧ ∀ d ∈ c'.diagnostics, d.span.InText source := by
  rintro ⟨hc, hd⟩
  cases h with
  | advance =>
    rw [Cursor.advance_diagnostics]
    exact ⟨hc.advance, hd⟩
  | skipUntil stop => exact ⟨hc.skipUntil stop, hd⟩
  | splitShift hl =>
    rw [Cursor.splitShift_diagnostics]
    exact ⟨hc.splitShift hl, hd⟩
  | deeper => exact ⟨hc.deeper, hd⟩
  | shallower => exact ⟨hc.shallower, hd⟩
  | report d hspan =>
    refine ⟨⟨hc.ne_nil, hc.tokens, hc.halves, hc.passed⟩, fun d' hd' => ?_⟩
    rcases List.mem_append.mp hd' with hd' | hd'
    · exact hd d' hd'
    · rw [List.mem_singleton.mp hd', hspan]
      exact hc.here

/-! ### What is read -/

theorem Closes.inText (h : Closes c c') (hc : c.InText source) : c'.InText source := by
  rcases h with ⟨hl, rfl⟩ | ⟨_, rfl⟩
  · exact hc.splitShift hl
  · exact hc.advance

/-- Whether the ranges of a phrase of types are ranges of the text. -/
def TypePhrase.InText (source : String) : TypePhrase → Prop
  | .type t => t.span.InText source
  | .tail _ | .args _ => True

theorem ReadsType.inText {p : TypePhrase} (h : ReadsType c p c') (hc : c.InText source) :
    c'.InText source ∧ p.InText source := by
  induction h with
  | tailEnd _ => exact ⟨hc, trivial⟩
  | tailMore _ _ _ ih => exact ⟨(ih hc.advance.advance).1, trivial⟩
  | plain _ _ _ ih =>
    have h₁ := (ih hc.advance).1
    exact ⟨h₁, hc.here.merge h₁.behind⟩
  | generic _ _ _ _ hclose ihRest ihArgs =>
    have h₁ := hclose.inText (ihArgs (ihRest hc.advance).1.advance).1
    exact ⟨h₁, hc.here.merge h₁.behind⟩
  | lastArg _ _ ih => exact ⟨(ih hc).1, trivial⟩
  | moreArgs _ _ _ ihType ihRest => exact ⟨(ihRest (ihType hc).1.advance).1, trivial⟩

/-- Whether the ranges of a phrase of expressions are ranges of the text, those of what stands in
front of it given. -/
def Phrase.InText (source : String) : Phrase → Prop
  | .expression _ e | .operand e | .primary e | .branch e => e.InText source
  | .operators _ left whole | .members left whole => left.InText source → whole.InText source
  | .tupleItems es | .arguments es | .argumentItems es => Expr.AllInText source es

theorem Reads.inText {p : Phrase} (h : Reads c p c') (hc : c.InText source) :
    c'.InText source ∧ p.InText source := by
  induction h with
  | expression _ _ _ ihFirst ihWhole =>
    obtain ⟨h₁, hfirst⟩ := ihFirst hc.deeper
    obtain ⟨h₂, hwhole⟩ := ihWhole h₁
    exact ⟨h₂.shallower, hwhole hfirst⟩
  | noOperator _ | noMember _ _ _ => exact ⟨hc, id⟩
  | cast _ htype _ ihWhole =>
    obtain ⟨h₁, htype⟩ := htype.inText hc.advance
    obtain ⟨h₂, hwhole⟩ := ihWhole h₁
    exact ⟨h₂, fun hleft => hwhole ⟨hleft.span.merge htype, hleft, htype⟩⟩
  | binary _ _ _ _ _ ihRight ihWhole =>
    obtain ⟨h₁, hright⟩ := ihRight hc.advance
    obtain ⟨h₂, hwhole⟩ := ihWhole h₁
    exact ⟨h₂, fun hleft => hwhole ⟨hleft.span.merge (Expr.InText.span hright), hleft, hright⟩⟩
  | neg _ _ ih | not _ _ ih =>
    obtain ⟨h₁, hinner⟩ := ih hc.advance
    exact ⟨h₁, hc.here.merge (Expr.InText.span hinner), hinner⟩
  | plain _ _ _ _ ihFirst ihWhole =>
    obtain ⟨h₁, hfirst⟩ := ihFirst hc
    obtain ⟨h₂, hwhole⟩ := ihWhole h₁
    exact ⟨h₂, hwhole hfirst⟩
  | method _ _ hspan _ _ ihArgs ihWhole =>
    obtain ⟨h₁, hargs⟩ := ihArgs hc.advance.advance
    obtain ⟨h₂, hwhole⟩ := ihWhole h₁
    exact ⟨h₂, fun hleft => hwhole
      ⟨hleft.span.merge h₁.behind, hleft, hspan ▸ hc.advance.here, hargs⟩⟩
  | field _ _ hspan _ _ ihWhole =>
    obtain ⟨h₂, hwhole⟩ := ihWhole hc.advance.advance
    have hmember := hspan ▸ hc.advance.here
    exact ⟨h₂, fun hleft => hwhole ⟨hleft.span.merge hmember, hleft, hmember⟩⟩
  | index _ _ _ _ ihIndex ihWhole =>
    obtain ⟨h₁, hindex⟩ := ihIndex hc.advance
    obtain ⟨h₂, hwhole⟩ := ihWhole h₁.advance
    exact ⟨h₂, fun hleft => hwhole ⟨hleft.span.merge h₁.advance.behind, hleft, hindex⟩⟩
  | integer _ | float _ | true _ | false _ => exact ⟨hc.advance, hc.here⟩
  | call _ htail _ ihArgs =>
    obtain ⟨h₁, _⟩ := htail.inText hc.advance
    obtain ⟨h₂, hargs⟩ := ihArgs h₁
    exact ⟨h₂, hc.here.merge h₂.behind, hc.here.merge h₁.behind, hargs⟩
  | name _ _ _ => exact ⟨hc.advance, hc.here.merge hc.advance.behind⟩
  | path _ htail _ _ =>
    obtain ⟨h₁, _⟩ := htail.inText hc.advance
    exact ⟨h₁, hc.here.merge h₁.behind⟩
  | paren _ _ _ ih =>
    obtain ⟨h₁, hinner⟩ := ih hc.advance
    exact ⟨h₁.advance, hc.here.merge h₁.here, hinner⟩
  | tuple _ _ _ _ _ ihFirst ihRest =>
    obtain ⟨h₁, hfirst⟩ := ihFirst hc.advance
    obtain ⟨h₂, hrest⟩ := ihRest h₁
    exact ⟨h₂.advance, hc.here.merge h₂.here, hfirst, hrest⟩
  | choice _ _ _ _ _ ihCondition ihYes ihNo | choiceChain _ _ _ _ _ _ ihCondition ihYes ihNo =>
    obtain ⟨h₁, hcondition⟩ := ihCondition hc.advance
    obtain ⟨h₂, hyes⟩ := ihYes h₁
    obtain ⟨h₃, hno⟩ := ihNo h₂.advance
    exact ⟨h₃, hc.here.merge (Expr.InText.span hno), hcondition, hyes, hno⟩
  | noItem _ | noArgument _ => exact ⟨hc, trivial⟩
  | lastComma _ _ => exact ⟨hc.advance, trivial⟩
  | moreItems _ _ _ _ ihItem ihRest =>
    obtain ⟨h₁, hitem⟩ := ihItem hc.advance
    obtain ⟨h₂, hrest⟩ := ihRest h₁
    exact ⟨h₂, hitem, hrest⟩
  | branch _ _ _ ih | arguments _ _ _ ih =>
    obtain ⟨h₁, hinner⟩ := ih hc.advance
    exact ⟨h₁.advance, hinner⟩
  | lastArgument _ _ _ ih =>
    obtain ⟨h₁, harg⟩ := ih hc
    exact ⟨h₁, harg, trivial⟩
  | moreArguments _ _ _ _ ihArg ihRest =>
    obtain ⟨h₁, harg⟩ := ihArg hc
    obtain ⟨h₂, hrest⟩ := ihRest h₁.advance
    exact ⟨h₂, harg, hrest⟩

theorem Takes.inText {l : Lexeme} {there : Bool} (h : Takes l c there c') (hc : c.InText source) :
    c'.InText source := by
  cases there with
  | true => exact h.2 ▸ hc.advance
  | false => exact h.2 ▸ hc

theorem Ends.inText {free : Bool} (h : Ends free c c') (hc : c.InText source) :
    c'.InText source := by
  cases free with
  | true => exact (show c' = c from h) ▸ hc
  | false => exact h.2 ▸ hc.advance

theorem ReadsAnnotation.inText {type : Option TypeRef} (h : ReadsAnnotation c type c')
    (hc : c.InText source) : c'.InText source ∧ ∀ t ∈ type, t.span.InText source := by
  cases type with
  | none => exact ⟨h.2 ▸ hc, nofun⟩
  | some t =>
    obtain ⟨h₁, ht⟩ := h.2.inText hc.advance
    refine ⟨h₁, ?_⟩
    rintro _ ⟨⟩
    exact ht

theorem ReadsInitial.inText {value : Option Expr} (h : ReadsInitial c value c')
    (hc : c.InText source) : c'.InText source ∧ ∀ e ∈ value, e.InText source := by
  cases value with
  | none => exact ⟨h.2 ▸ hc, nofun⟩
  | some e =>
    obtain ⟨h₁, he⟩ := h.2.inText hc.advance
    refine ⟨h₁, ?_⟩
    rintro _ ⟨⟩
    exact he

theorem ReadsSimple.inText {isBody : Bool} {s : Stmt} (h : ReadsSimple isBody c s c')
    (hc : c.InText source) : c'.InText source ∧ s.InText source := by
  cases h with
  | eval he _ hends =>
    obtain ⟨h₁, he⟩ := he.inText hc
    exact ⟨hends.inText h₁, Expr.InText.span he, he⟩
  | assign hplace _ _ hvalue hends =>
    obtain ⟨h₁, hplace⟩ := hplace.inText hc
    obtain ⟨h₂, hvalue⟩ := hvalue.inText h₁.advance
    exact ⟨hends.inText h₂, (Expr.InText.span hplace).merge (Expr.InText.span hvalue), hplace, hvalue⟩

/-- Whether the ranges of a phrase of statements are ranges of the text. -/
def StmtPhrase.InText (source : String) : StmtPhrase → Prop
  | .block b => b.InText source
  | .statements ss => Stmt.AllInText source ss
  | .statement s => s.InText source

theorem ReadsStmt.inText {p : StmtPhrase} (h : ReadsStmt c p c') (hc : c.InText source) :
    c'.InText source ∧ p.InText source := by
  induction h with
  | block _ _ _ _ ih =>
    obtain ⟨h₁, hstmts⟩ := ih hc.deeper.advance
    exact ⟨h₁.advance.shallower, hc.here.merge h₁.here, hstmts⟩
  | noStatement _ => exact ⟨hc, trivial⟩
  | emptyStatement _ _ ih => exact ih hc.advance
  | moreStatements _ _ _ _ ihFirst ihRest =>
    obtain ⟨h₁, hs⟩ := ihFirst hc
    obtain ⟨h₂, hrest⟩ := ihRest h₁
    exact ⟨h₂, hs, hrest⟩
  | «let» _ hmut _ hspan htype hvalue hends =>
    have h₁ := hmut.inText hc.advance
    obtain ⟨h₂, htype⟩ := htype.inText h₁.advance
    obtain ⟨h₃, hvalue⟩ := hvalue.inText h₂
    have h₄ := hends.inText h₃
    exact ⟨h₄, hc.here.merge h₄.behind, hspan ▸ h₁.here, htype, hvalue⟩
  | ifOnly _ hcondition _ _ ihBody =>
    obtain ⟨h₁, hcondition⟩ := hcondition.inText hc.advance
    obtain ⟨h₂, hbody⟩ := ihBody h₁
    exact ⟨h₂, hc.here.merge h₂.behind, hcondition, hbody⟩
  | ifElse _ hcondition _ _ _ _ ihBody ihOtherwise =>
    obtain ⟨h₁, hcondition⟩ := hcondition.inText hc.advance
    obtain ⟨h₂, hbody⟩ := ihBody h₁
    obtain ⟨h₃, hotherwise⟩ := ihOtherwise h₂.advance
    exact ⟨h₃, hc.here.merge h₃.behind, hcondition, hbody, hotherwise⟩
  | ifChain _ hcondition _ _ _ _ ihBody ihChained =>
    obtain ⟨h₁, hcondition⟩ := hcondition.inText hc.advance
    obtain ⟨h₂, hbody⟩ := ihBody h₁
    obtain ⟨h₃, hchained⟩ := ihChained h₂.advance
    exact ⟨h₃, hc.here.merge h₃.behind, hcondition, hbody, Stmt.InText.span hchained, hchained,
      trivial⟩
  | «for» _ _ hspan _ hfirst _ hstop _ ihBody =>
    obtain ⟨h₁, hfirst⟩ := hfirst.inText hc.advance.advance.advance
    obtain ⟨h₂, hstop⟩ := hstop.inText h₁.advance
    obtain ⟨h₃, hbody⟩ := ihBody h₂
    exact ⟨h₃, hc.here.merge (Block.InText.span hbody), hspan ▸ hc.advance.here, hfirst, hstop, hbody⟩
  | «while» _ hcondition _ ihBody =>
    obtain ⟨h₁, hcondition⟩ := hcondition.inText hc.advance
    obtain ⟨h₂, hbody⟩ := ihBody h₁
    exact ⟨h₂, hc.here.merge (Block.InText.span hbody), hcondition, hbody⟩
  | loop _ _ ih =>
    obtain ⟨h₁, hbody⟩ := ih hc.advance
    exact ⟨h₁, hc.here.merge (Block.InText.span hbody), hbody⟩
  | jump _ hends => exact ⟨hends.inText hc.advance, hc.here⟩
  | nested _ _ ih =>
    obtain ⟨h₁, hbody⟩ := ih hc
    exact ⟨h₁, Block.InText.span hbody, hbody⟩
  | simple _ hs => exact hs.inText hc

theorem ReadsBody.inText {b : Block} (h : ReadsBody c b c') (hc : c.InText source) :
    b.InText source := by
  cases h with
  | block _ hb => exact (hb.inText hc).2
  | simple _ hs =>
    have hs := (hs.inText hc).2
    exact ⟨Stmt.InText.span hs, hs, trivial⟩

end Parse

/-- All ranges in the tree of an accepted closure are ranges of its source. -/
theorem Closure.inText_of_parse {c : Closure} (h : Closure.parse source = .ok c) :
    c.InText source := by
  obtain ⟨⟨c', hreads⟩, _⟩ := Closure.reads_of_parse h
  have hc := Cursor.InText.of_tokenize source
  cases hreads with
  | mk hmove _ _ hspan htype _ _ hbody _ =>
    have h₁ := (hmove.inText hc).advance
    obtain ⟨h₂, htype⟩ := htype.inText h₁.advance
    exact ⟨hspan ▸ h₁.here, htype, hbody.inText (h₂.skipUntil _).advance⟩

/-- Tokens that are not accepted are rejected with what their reading reports, which is something: a
reading that reports nothing gives a closure. -/
theorem Closure.ofTokens_eq_error {tokens : List Token} {diagnostics : List Diagnostic}
    (h : Closure.ofTokens tokens = .error diagnostics) : diagnostics ≠ [] ∧ diagnostics =
      ((Parse.closure (Parse.stepBound tokens.length)).run { tokens }).2.diagnostics := by
  unfold Closure.ofTokens at h
  split at h
  rename_i result cursor hrun
  rw [hrun]
  split at h
  · cases h
  · rename_i hnot
    obtain rfl := Except.error.inj h
    refine ⟨fun hnil => ?_, rfl⟩
    obtain ⟨_, closure, rfl, _⟩ := (Parse.closure_quiet _).of_run hrun hnil
    exact hnot closure rfl hnil

/-- A source that is not accepted is rejected with diagnostics, all of them about ranges of the
source. -/
theorem Closure.reports_of_parse {diagnostics : List Diagnostic}
    (h : Closure.parse source = .error diagnostics) : ReportsIn source diagnostics := by
  have hlexical : ∀ d ∈ (tokenize source).2, d.span.InText source :=
    fun d hd => tokenize_faults_inText hd
  unfold Closure.parse at h
  split at h
  rename_i tokens lexical htokens
  rw [htokens] at hlexical
  split at h
  · split at h
    · cases h
    · rename_i hne
      obtain rfl := Except.error.inj h
      exact ⟨fun hnil => hne (by rw [hnil]; rfl), hlexical⟩
  · rename_i syntactic hsyntactic
    obtain rfl := Except.error.inj h
    obtain ⟨hne, hrun⟩ := Closure.ofTokens_eq_error hsyntactic
    refine ⟨fun hnil => hne (List.append_eq_nil_iff.mp hnil).2, fun d hd => ?_⟩
    rcases List.mem_append.mp hd with hd | hd
    · exact hlexical d hd
    · obtain rfl : tokens = (tokenize source).1 := by rw [htokens]
      have hreported := (Parse.closure_walks (Parse.stepBound (tokenize source).1.length)).preserves
        (fun _ _ => Parse.step_inText) ⟨Cursor.InText.of_tokenize source, nofun⟩
      exact hreported.2 d (hrun ▸ hd)

end ComputeKernel
