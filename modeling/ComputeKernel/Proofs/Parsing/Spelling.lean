import ComputeKernel.Proofs.Lexing.Order
import ComputeKernel.Proofs.Parsing.Extraction

/-!
How the names and the literals of a closure are spelled. Names are taken from identifiers and digits
from numbers, so a closure that was read from a source has words for names and numbers for literals.
-/

namespace ComputeKernel

/-! ### Trees -/

/-- Whether the segments of a path are words. -/
def Path.Spelled (path : Path) : Prop := path ≠ [] ∧ ∀ segment ∈ path, IsWord segment.toList

def Name.Spelled (name : Name) : Prop := IsWord name.text.toList

/-- Whether the digits of a literal are those of a number. -/
def Literal.Spelled : Literal → Prop
  | .bool _ => True
  | .integer digits _ | .float digits _ => IsNumber digits.toList

namespace Expr

mutual

/-- Whether the names in an expression are words and its literals numbers. -/
def Spelled : Expr → Prop
  | .literal _ v => v.Spelled
  | .name _ text => IsWord text.toList
  | .path _ p => p.Spelled
  | .unary _ _ e | .cast _ e _ | .paren _ e => e.Spelled
  | .binary _ _ l r | .index _ l r => l.Spelled ∧ r.Spelled
  | .field _ e member => e.Spelled ∧ member.Spelled
  | .method _ e member args => e.Spelled ∧ member.Spelled ∧ AllSpelled args
  | .call _ callee _ args => callee.Spelled ∧ AllSpelled args
  | .tuple _ items => AllSpelled items
  | .choice _ condition yes no => condition.Spelled ∧ yes.Spelled ∧ no.Spelled

def AllSpelled : List Expr → Prop
  | [] => True
  | e :: es => e.Spelled ∧ AllSpelled es

end

end Expr

mutual

def Stmt.Spelled : Stmt → Prop
  | .let _ _ name _ value => name.Spelled ∧ ∀ e ∈ value, e.Spelled
  | .assign _ _ place value => place.Spelled ∧ value.Spelled
  | .if _ condition body otherwise =>
    condition.Spelled ∧ body.Spelled ∧
      match otherwise with
      | none => True
      | some b => b.Spelled
  | .for _ counter start stop _ body =>
    counter.Spelled ∧ start.Spelled ∧ stop.Spelled ∧ body.Spelled
  | .while _ condition body => condition.Spelled ∧ body.Spelled
  | .loop _ body | .nested _ body => body.Spelled
  | .jump .. => True
  | .eval _ value => value.Spelled

def Block.Spelled : Block → Prop
  | ⟨_, stmts⟩ => Stmt.AllSpelled stmts

def Stmt.AllSpelled : List Stmt → Prop
  | [] => True
  | s :: ss => s.Spelled ∧ Stmt.AllSpelled ss

end

structure Closure.Spelled (c : Closure) : Prop where
  param : c.param.Spelled
  body : c.body.Spelled

/-! ### Cursors -/

/-- Whether a lexeme has a spelling or is the mark of the end of input. -/
def Lexeme.Spelled (l : Lexeme) : Prop := l = .endOfInput ∨ ∃ text, l.SpelledBy text

namespace Cursor

def Spelled (c : Cursor) : Prop := ∀ t ∈ c.tokens, t.lexeme.Spelled

variable {c : Cursor}

theorem Spelled.lexeme (h : c.Spelled) : c.lexeme.Spelled := by
  unfold Cursor.lexeme
  split
  · exact Or.inl rfl
  · rename_i t ts htokens
    exact h t (by rw [htokens]; exact List.mem_cons_self)

theorem Spelled.word (h : c.Spelled) {text : String} (hl : c.lexeme = .ident text) :
    IsWord text.toList := by
  rcases hl ▸ h.lexeme with hend | ⟨_, rfl, hword, _⟩
  · cases hend
  · exact hword

theorem Spelled.integer (h : c.Spelled) {digits : String} {suffix : Option String}
    (hl : c.lexeme = .integer digits suffix) : IsNumber digits.toList := by
  rcases hl ▸ h.lexeme with hend | ⟨_, hnumber, _⟩
  · cases hend
  · exact hnumber

theorem Spelled.float (h : c.Spelled) {digits : String} {suffix : Option String}
    (hl : c.lexeme = .float digits suffix) : IsNumber digits.toList := by
  rcases hl ▸ h.lexeme with hend | ⟨_, hnumber, _⟩
  · cases hend
  · exact hnumber

theorem Spelled.advance (h : c.Spelled) : c.advance.Spelled := by
  unfold Cursor.advance
  split
  · rename_i t u rest htokens
    exact fun t' ht' => h t' (by rw [htokens]; exact List.mem_cons_of_mem t ht')
  · exact h

theorem Spelled.splitShift (h : c.Spelled) : c.splitShift.Spelled := by
  unfold Cursor.splitShift
  split
  · rename_i t rest htokens
    intro t' ht'
    rcases List.mem_cons.mp ht' with rfl | ht'
    · exact Or.inr ⟨Symbol.gt.chars, rfl⟩
    · exact h t' (by rw [htokens]; exact List.mem_cons_of_mem t ht')
  · exact h

theorem Spelled.skipUntil (h : c.Spelled) (stop : Lexeme → Bool) : (c.skipUntil stop).Spelled :=
  skipUntil_of_advance (P := Spelled) (fun _ => Spelled.advance) stop h

end Cursor

namespace Parse

variable {c c' : Cursor}

/-! ### Phrases -/

def TypePhrase.Spelled : TypePhrase → Prop
  | .tail segments => ∀ segment ∈ segments, IsWord segment.toList
  | .type _ | .args _ => True

theorem ReadsType.spelled {p : TypePhrase} (h : ReadsType c p c') (hc : c.Spelled) :
    c'.Spelled ∧ p.Spelled := by
  induction h with
  | tailEnd _ => exact ⟨hc, nofun⟩
  | tailMore _ hsegment _ ih =>
    obtain ⟨hc', hrest⟩ := ih hc.advance.advance
    exact ⟨hc', List.forall_mem_cons.mpr ⟨hc.advance.word hsegment, hrest⟩⟩
  | plain _ _ _ ih => exact ⟨(ih hc.advance).1, trivial⟩
  | generic _ _ _ _ hclose ihRest ihArgs =>
    have hargs := (ihArgs (ihRest hc.advance).1.advance).1
    rcases hclose with ⟨_, rfl⟩ | ⟨_, rfl⟩
    · exact ⟨hargs.splitShift, trivial⟩
    · exact ⟨hargs.advance, trivial⟩
  | lastArg _ _ ih => exact ⟨(ih hc).1, trivial⟩
  | moreArgs _ _ _ ihType ihRest => exact ⟨(ihRest (ihType hc).1.advance).1, trivial⟩

/-- What the spelling of the tokens says of a phrase of expressions. -/
def Phrase.Spelled : Phrase → Prop
  | .expression _ e | .operand e | .primary e | .branch e => e.Spelled
  | .operators _ left whole | .members left whole => left.Spelled → whole.Spelled
  | .tupleItems es | .arguments es | .argumentItems es => Expr.AllSpelled es

theorem Reads.spelled {p : Phrase} (h : Reads c p c') (hc : c.Spelled) : c'.Spelled ∧ p.Spelled := by
  induction h with
  | expression _ _ _ ihFirst ihWhole =>
    obtain ⟨h₁, hfirst⟩ := ihFirst hc
    obtain ⟨h₂, hwhole⟩ := ihWhole h₁
    exact ⟨h₂, hwhole hfirst⟩
  | noOperator | noMember => exact ⟨hc, id⟩
  | cast _ htype _ ihWhole =>
    obtain ⟨h₂, hwhole⟩ := ihWhole (htype.spelled hc.advance).1
    exact ⟨h₂, hwhole⟩
  | binary _ _ _ _ _ ihRight ihWhole =>
    obtain ⟨h₁, hright⟩ := ihRight hc.advance
    obtain ⟨h₂, hwhole⟩ := ihWhole h₁
    exact ⟨h₂, fun hleft => hwhole ⟨hleft, hright⟩⟩
  | neg _ _ ih | not _ _ ih => exact ih hc.advance
  | plain _ _ _ _ ihFirst ihWhole =>
    obtain ⟨h₁, hfirst⟩ := ihFirst hc
    obtain ⟨h₂, hwhole⟩ := ihWhole h₁
    exact ⟨h₂, hwhole hfirst⟩
  | method _ hmember _ _ _ ihArgs ihWhole =>
    obtain ⟨h₁, hargs⟩ := ihArgs hc.advance.advance
    obtain ⟨h₂, hwhole⟩ := ihWhole h₁
    exact ⟨h₂, fun hleft => hwhole ⟨hleft, hc.advance.word hmember, hargs⟩⟩
  | field _ hmember _ _ _ ihWhole =>
    obtain ⟨h₁, hwhole⟩ := ihWhole hc.advance.advance
    exact ⟨h₁, fun hleft => hwhole ⟨hleft, hc.advance.word hmember⟩⟩
  | index _ _ _ _ ihIndex ihWhole =>
    obtain ⟨h₁, hindex⟩ := ihIndex hc.advance
    obtain ⟨h₂, hwhole⟩ := ihWhole h₁.advance
    exact ⟨h₂, fun hleft => hwhole ⟨hleft, hindex⟩⟩
  | integer hl => exact ⟨hc.advance, hc.integer hl⟩
  | float hl => exact ⟨hc.advance, hc.float hl⟩
  | true | false => exact ⟨hc.advance, trivial⟩
  | call hfirst hrest _ ihArgs =>
    obtain ⟨h₁, hrest⟩ := hrest.spelled hc.advance
    obtain ⟨h₂, hargs⟩ := ihArgs h₁
    exact ⟨h₂, ⟨nofun, List.forall_mem_cons.mpr ⟨hc.word hfirst, hrest⟩⟩, hargs⟩
  | name hfirst => exact ⟨hc.advance, hc.word hfirst⟩
  | path hfirst hrest _ _ =>
    obtain ⟨h₁, hrest⟩ := hrest.spelled hc.advance
    exact ⟨h₁, nofun, List.forall_mem_cons.mpr ⟨hc.word hfirst, hrest⟩⟩
  | paren _ _ _ ih =>
    obtain ⟨h₁, hinner⟩ := ih hc.advance
    exact ⟨h₁.advance, hinner⟩
  | tuple _ _ _ _ _ ihFirst ihRest =>
    obtain ⟨h₁, hfirst⟩ := ihFirst hc.advance
    obtain ⟨h₂, hrest⟩ := ihRest h₁
    exact ⟨h₂.advance, hfirst, hrest⟩
  | choice _ _ _ _ _ ihCondition ihYes ihNo =>
    obtain ⟨h₁, hcondition⟩ := ihCondition hc.advance
    obtain ⟨h₂, hyes⟩ := ihYes h₁
    obtain ⟨h₃, hno⟩ := ihNo h₂.advance
    exact ⟨h₃, hcondition, hyes, hno⟩
  | choiceChain _ _ _ _ _ _ ihCondition ihYes ihNo =>
    obtain ⟨h₁, hcondition⟩ := ihCondition hc.advance
    obtain ⟨h₂, hyes⟩ := ihYes h₁
    obtain ⟨h₃, hno⟩ := ihNo h₂.advance
    exact ⟨h₃, hcondition, hyes, hno⟩
  | noItem | noArgument => exact ⟨hc, trivial⟩
  | lastComma => exact ⟨hc.advance, trivial⟩
  | moreItems _ _ _ _ ihItem ihRest =>
    obtain ⟨h₁, hitem⟩ := ihItem hc.advance
    obtain ⟨h₂, hrest⟩ := ihRest h₁
    exact ⟨h₂, hitem, hrest⟩
  | branch _ _ _ ih | arguments _ _ _ ih =>
    obtain ⟨h₁, hinner⟩ := ih hc.advance
    exact ⟨h₁.advance, hinner⟩
  | lastArgument _ _ _ ih =>
    obtain ⟨h₁, harg⟩ := ih hc
    exact ⟨h₁, harg, trivial⟩
  | moreArguments _ _ _ _ ihArg ihRest =>
    obtain ⟨h₁, harg⟩ := ihArg hc
    obtain ⟨h₂, hrest⟩ := ihRest h₁.advance
    exact ⟨h₂, harg, hrest⟩

/-! ### Statements -/

theorem ReadsAnnotation.spelled {type : Option TypeRef} (h : ReadsAnnotation c type c')
    (hc : c.Spelled) : c'.Spelled := by
  cases type with
  | none => exact h.2 ▸ hc
  | some t => exact (h.2.spelled hc.advance).1

theorem ReadsInitial.spelled {value : Option Expr} (h : ReadsInitial c value c') (hc : c.Spelled) :
    c'.Spelled ∧ ∀ e ∈ value, e.Spelled := by
  cases value with
  | none => exact ⟨h.2 ▸ hc, nofun⟩
  | some e =>
    obtain ⟨hc', he⟩ := h.2.spelled hc.advance
    refine ⟨hc', ?_⟩
    rintro _ ⟨⟩
    exact he

theorem Takes.spelled {l : Lexeme} {there : Bool} (h : Takes l c there c') (hc : c.Spelled) :
    c'.Spelled := by
  cases there with
  | true => exact h.2 ▸ hc.advance
  | false => exact h.2 ▸ hc

theorem Ends.spelled {free : Bool} (h : Ends free c c') (hc : c.Spelled) : c'.Spelled := by
  cases free with
  | true => exact Eq.subst (Eq.symm h) hc
  | false => exact h.2 ▸ hc.advance

theorem ReadsSimple.spelled {isBody : Bool} {s : Stmt} (h : ReadsSimple isBody c s c')
    (hc : c.Spelled) : c'.Spelled ∧ s.Spelled := by
  cases h with
  | eval he _ hends =>
    obtain ⟨h₁, he⟩ := he.spelled hc
    exact ⟨hends.spelled h₁, he⟩
  | assign hplace _ _ hvalue hends =>
    obtain ⟨h₁, hplace⟩ := hplace.spelled hc
    obtain ⟨h₂, hvalue⟩ := hvalue.spelled h₁.advance
    exact ⟨hends.spelled h₂, hplace, hvalue⟩

def StmtPhrase.Spelled : StmtPhrase → Prop
  | .block b => b.Spelled
  | .statements ss => Stmt.AllSpelled ss
  | .statement s => s.Spelled

theorem ReadsStmt.spelled {p : StmtPhrase} (h : ReadsStmt c p c') (hc : c.Spelled) :
    c'.Spelled ∧ p.Spelled := by
  induction h with
  | block _ _ _ _ ih =>
    obtain ⟨h₁, hstmts⟩ := ih (Cursor.Spelled.advance hc)
    exact ⟨h₁.advance, hstmts⟩
  | noStatement => exact ⟨hc, trivial⟩
  | emptyStatement _ _ ih => exact ih hc.advance
  | moreStatements _ _ _ _ ihFirst ihRest =>
    obtain ⟨h₁, hfirst⟩ := ihFirst hc
    obtain ⟨h₂, hrest⟩ := ihRest h₁
    exact ⟨h₂, hfirst, hrest⟩
  | «let» _ hmut hname _ htype hvalue hends =>
    have h₁ := hmut.spelled hc.advance
    obtain ⟨h₂, hvalue⟩ := hvalue.spelled (htype.spelled h₁.advance)
    exact ⟨hends.spelled h₂, h₁.word hname, hvalue⟩
  | ifOnly _ hcondition _ _ ihBody =>
    obtain ⟨h₁, hcondition⟩ := hcondition.spelled hc.advance
    obtain ⟨h₂, hbody⟩ := ihBody h₁
    exact ⟨h₂, hcondition, hbody, trivial⟩
  | ifElse _ hcondition _ _ _ _ ihBody ihOtherwise =>
    obtain ⟨h₁, hcondition⟩ := hcondition.spelled hc.advance
    obtain ⟨h₂, hbody⟩ := ihBody h₁
    obtain ⟨h₃, hotherwise⟩ := ihOtherwise h₂.advance
    exact ⟨h₃, hcondition, hbody, hotherwise⟩
  | ifChain _ hcondition _ _ _ _ ihBody ihChained =>
    obtain ⟨h₁, hcondition⟩ := hcondition.spelled hc.advance
    obtain ⟨h₂, hbody⟩ := ihBody h₁
    obtain ⟨h₃, hchained⟩ := ihChained h₂.advance
    exact ⟨h₃, hcondition, hbody, hchained, trivial⟩
  | «for» _ hname _ _ hfirst _ hlast _ ihBody =>
    obtain ⟨h₁, hfirst⟩ := hfirst.spelled hc.advance.advance.advance
    obtain ⟨h₂, hlast⟩ := hlast.spelled h₁.advance
    obtain ⟨h₃, hbody⟩ := ihBody h₂
    exact ⟨h₃, hc.advance.word hname, hfirst, hlast, hbody⟩
  | «while» _ hcondition _ ihBody =>
    obtain ⟨h₁, hcondition⟩ := hcondition.spelled hc.advance
    obtain ⟨h₂, hbody⟩ := ihBody h₁
    exact ⟨h₂, hcondition, hbody⟩
  | loop _ _ ihBody => exact ihBody hc.advance
  | jump _ hends => exact ⟨hends.spelled hc.advance, trivial⟩
  | nested _ _ ihBody => exact ihBody hc
  | simple _ hs => exact hs.spelled hc

/-! ### Closures -/

theorem ReadsClosure.spelled {closure : Closure} (h : ReadsClosure c closure c') (hc : c.Spelled) :
    closure.Spelled := by
  cases h with
  | mk hmove _ hname _ htype _ _ hbody _ =>
    have h₁ := (hmove.spelled hc).advance
    have h₂ := (htype.spelled h₁.advance).skipUntil endsParameters
    refine ⟨h₁.word hname, ?_⟩
    cases hbody with
    | block _ hb => exact (hb.spelled h₂.advance).2
    | simple _ hs => exact ⟨(hs.spelled h₂.advance).2, trivial⟩

end Parse

/-- The names of an accepted closure are words, and its literals are numbers. -/
theorem Closure.spelled_of_parse {source : String} {c : Closure}
    (h : Closure.parse source = .ok c) : c.Spelled := by
  obtain ⟨⟨c', hreads⟩, _⟩ := Closure.reads_of_parse h
  refine hreads.spelled fun t ht => ?_
  by_cases hend : t.lexeme = .endOfInput
  · exact Or.inl hend
  · exact Or.inr (tokenize_spelled ht hend)

end ComputeKernel
