import ComputeKernel.Proofs.Parsing.Descent.Statements

/-!
How deep closures are nested. Of the constructs that readings recurse on, blocks, parentheses,
brackets, arguments and branches are counted; prefix operators, links of a chain of `else if` and
arguments of types are not. The tree of an accepted closure is no deeper, in what is counted, than the
levels that its lexemes can be derived with, and those fit in the bound.
-/

namespace ComputeKernel

/-! ### Depth of trees -/

/-- The constructs that readings recurse on. -/
inductive Construct where
  | block | paren | bracket | argument | unary | elseLink | branch | typeArgument
  deriving DecidableEq, Repr

/-- The weight of the constructs of which only so many may be open at once. -/
def Construct.counted : Construct → Nat
  | block | paren | bracket | argument | branch => 1
  | unary | elseLink | typeArgument => 0

variable (w : Construct → Nat)

mutual

/-- The weight of the constructs on the heaviest path through a type. -/
def HostType.depth : HostType → Nat
  | ⟨_, args⟩ => HostType.argsDepth args

def HostType.argsDepth : List HostType → Nat
  | [] => 0
  | t :: ts => max (w .typeArgument + t.depth) (HostType.argsDepth ts)

end

mutual

/-- The weight of the constructs on the heaviest path through an expression. A conditional behind
`else` counts as a link of the chain; with braces of its own it has the same tree. -/
def Expr.depth : Expr → Nat
  | .literal .. | .name .. | .path .. => 0
  | .unary _ _ e => w .unary + e.depth
  | .binary _ _ left right => max left.depth right.depth
  | .cast _ e t => max e.depth (t.type.depth w)
  | .field _ receiver _ => receiver.depth
  | .method _ receiver _ args => max receiver.depth (Expr.itemsDepth .argument args)
  | .call _ _ _ args => Expr.itemsDepth .argument args
  | .index _ base i => max base.depth (w .bracket + i.depth)
  | .tuple _ items => Expr.itemsDepth .paren items
  | .paren _ e => w .paren + e.depth
  | .choice _ condition yes no => max condition.depth (max (w .branch + yes.depth)
    ((if Parse.endsWithBrace no then w .elseLink else w .branch) + no.depth))

/-- The same for expressions in a list that counts as `kind`. -/
def Expr.itemsDepth (kind : Construct) : List Expr → Nat
  | [] => 0
  | e :: es => max (w kind + e.depth) (Expr.itemsDepth kind es)

end

/-- Whether a block is its only statement, with no braces around it. -/
def Block.isBare : Block → Bool
  | ⟨span, [s]⟩ => span == s.span
  | _ => false

mutual

/-- The weight of the constructs on the heaviest path through a statement. A bare block behind
`else` is a link of the chain. -/
def Stmt.depth : Stmt → Nat
  | .let _ _ _ type value =>
    max ((type.map fun t => t.type.depth w).getD 0) ((value.map fun e => e.depth w).getD 0)
  | .assign _ _ place value => max (place.depth w) (value.depth w)
  | .if _ condition body none => max (condition.depth w) (w .block + body.innerDepth)
  | .if _ condition body (some otherwise) => max (condition.depth w) (max (w .block + body.innerDepth)
    ((if otherwise.isBare then w .elseLink else w .block) + otherwise.innerDepth))
  | .for _ _ start stop _ body =>
    max (start.depth w) (max (stop.depth w) (w .block + body.innerDepth))
  | .while _ condition body => max (condition.depth w) (w .block + body.innerDepth)
  | .loop _ body | .nested _ body => w .block + body.innerDepth
  | .eval _ e => e.depth w
  | .jump .. => 0

/-- The same for the statements of a block. -/
def Block.innerDepth : Block → Nat
  | ⟨_, stmts⟩ => Stmt.allDepth stmts

def Stmt.allDepth : List Stmt → Nat
  | [] => 0
  | s :: ss => max s.depth (Stmt.allDepth ss)

end

/-- The weight of the constructs on the heaviest path through a closure. -/
def Closure.depth (c : Closure) : Nat :=
  max ((c.paramType.map fun t => t.type.depth w).getD 0)
    ((if c.body.isBare then 0 else w .block) + c.body.innerDepth w)

mutual

theorem HostType.depth_counted : ∀ t : HostType, t.depth Construct.counted = 0
  | ⟨_, args⟩ => HostType.argsDepth_counted args

theorem HostType.argsDepth_counted : ∀ ts : List HostType, argsDepth Construct.counted ts = 0
  | [] => rfl
  | t :: ts => by
    rw [argsDepth, HostType.depth_counted t, HostType.argsDepth_counted ts]
    rfl

end

theorem depth_annotation_counted (type : Option TypeRef) :
    (type.map fun t => t.type.depth Construct.counted).getD 0 = 0 := by
  cases type with
  | none => rfl
  | some t => exact t.type.depth_counted

/-! ### Stretches -/

namespace Parse

open Construct (counted)
open Relation (Comp)

/-- Whether something can be read at a cursor. -/
structure Ready (c : Cursor) : Prop where
  tape : Tape c.lexemes
  room : c.depth ≤ maxDepth

/-- What stands between two cursors is as `R` says and has `n` levels, no more than may be open; what
was opened is closed. -/
structure Stretch (n : Nat) (R : List Lexeme → List Lexeme → Prop) (c c' : Cursor) : Prop where
  between : R c.lexemes c'.lexemes
  fits : c.depth + n ≤ maxDepth
  tape : Tape c'.lexemes
  depth : c'.depth = c.depth

variable {c c₁ c' : Cursor} {l : Lexeme} {m n : Nat} {ls ls₁ ls' : List Lexeme}
  {R S : List Lexeme → List Lexeme → Prop}

theorem first_lexemes (c : Cursor) : first c.lexemes = c.lexeme := c.lexeme_eq_headD.symm

namespace Stretch

theorem ready (h : Stretch n R c c') : Ready c' :=
  ⟨h.tape, h.depth ▸ Nat.le_of_add_right_le h.fits⟩

theorem as (h : Stretch n R c c') (hS : S c.lexemes c'.lexemes) : Stretch n S c c' :=
  ⟨hS, h.fits, h.tape, h.depth⟩

theorem map (h : Stretch n R c c') (hRS : ∀ ls ls', R ls ls' → S ls ls') : Stretch n S c c' :=
  h.as (hRS _ _ h.between)

/-- Another token than `l` stands behind a stretch. -/
theorem stops (h : Stretch n R c c') (hl : c'.lexeme ≠ l) :
    Stretch n (fun ls ls' => R ls ls' ∧ first ls' ≠ l) c c' :=
  h.as ⟨h.between, (first_lexemes c').symm ▸ hl⟩

/-- Two stretches side by side have as many levels as the one of the two that has more. -/
theorem seq (h : Stretch m R c c₁) (h' : Stretch n S c₁ c') :
    Stretch (max m n) (Comp R S) c c' := by
  have hm := h.fits
  have hn := h.depth ▸ h'.fits
  exact ⟨⟨_, h.between, h'.between⟩, by omega, h'.tape, h'.depth.trans h.depth⟩

theorem behind (h : Stretch 0 R c c₁) (h' : Stretch n S c₁ c') : Stretch n (Comp R S) c c' :=
  Nat.zero_max n ▸ h.seq h'

theorem before (h : Stretch n R c c₁) (h' : Stretch 0 S c₁ c') : Stretch n (Comp R S) c c' :=
  Nat.max_zero n ▸ h.seq h'

theorem enclosed (h : Stretch n R c.deeper c') : Stretch (n + 1) R c c'.shallower := by
  have hfits : c.depth + 1 + n ≤ maxDepth := h.fits
  exact ⟨h.between, by omega, h.tape, congrArg (· - 1) h.depth⟩

end Stretch

namespace Ready

theorem here (hc : Ready c) : Stretch 0 Eq c c := ⟨rfl, hc.room, hc.tape, rfl⟩

theorem token (hc : Ready c) (hl : c.lexeme = l) (hne : l ≠ .endOfInput) :
    Stretch 0 (fun ls ls' => ls = l :: ls') c c.advance := by
  obtain ⟨hlexemes, _, htape⟩ := c.lexemes_advance hc.tape hl hne
  exact ⟨hlexemes, hc.room, htape, c.advance_depth⟩

theorem symbol {s : Symbol} (hc : Ready c) (hl : c.lexeme = .symbol s) :
    Stretch 0 (fun ls ls' => ls = .symbol s :: ls') c c.advance := hc.token hl nofun

theorem keyword {k : Keyword} (hc : Ready c) (hl : c.lexeme = .keyword k) :
    Stretch 0 (fun ls ls' => ls = .keyword k :: ls') c c.advance := hc.token hl nofun

theorem ident {name : String} (hc : Ready c) (hl : c.lexeme = .ident name) :
    Stretch 0 (fun ls ls' => ls = .ident name :: ls') c c.advance := hc.token hl nofun

end Ready

/-! ### Types -/

theorem Closes.stretch (h : Closes c c') (hc : Ready c) : Stretch 0 DerivesAngle c c' := by
  rcases h with ⟨hl, rfl⟩ | ⟨hl, rfl⟩
  · obtain ⟨rest, hlexemes, hsplit, htape⟩ := c.lexemes_splitShift hc.tape hl
    exact ⟨by rw [hlexemes, hsplit]; exact .half, hc.room, htape, c.splitShift_depth⟩
  · refine (hc.symbol hl).map ?_
    rintro _ ls' rfl
    exact .whole

/-- The kind of a phrase of types. -/
def TypePhrase.part : TypePhrase → TypePart
  | .tail _ => .tail
  | .type _ => .type
  | .args _ => .args

theorem ReadsType.stretch {p : TypePhrase} (h : ReadsType c p c') (hc : Ready c) :
    Stretch 0 (DerivesType p.part) c c' := by
  induction h with
  | tailEnd hcolons =>
    rw [← first_lexemes] at hcolons
    exact hc.here.as (.tailEnd hcolons)
  | tailMore hcolons hname _ ih =>
    have h₀ := hc.symbol hcolons
    have h₁ := h₀.ready.ident hname
    refine (h₀.behind (h₁.behind (ih h₁.ready))).map ?_
    rintro _ ls' ⟨_, rfl, _, rfl, hrest⟩
    exact .tailMore hrest
  | plain hname _ hlt ih =>
    have h₀ := hc.ident hname
    refine (h₀.behind ((ih h₀.ready).stops hlt)).map ?_
    rintro _ ls' ⟨_, rfl, hrest, hlt⟩
    exact .plain hrest hlt
  | generic hname _ hlt _ hclose ihRest ihArgs =>
    have h₀ := hc.ident hname
    have h₁ := ihRest h₀.ready
    have h₂ := h₁.ready.symbol hlt
    have h₃ := ihArgs h₂.ready
    refine (h₀.behind (h₁.behind (h₂.behind (h₃.behind (hclose.stretch h₃.ready))))).map ?_
    rintro _ ls' ⟨_, rfl, _, hrest, _, rfl, _, hargs, hclose⟩
    exact .generic hrest hargs hclose
  | lastArg _ hcomma ih =>
    rw [← first_lexemes] at hcomma
    exact (ih hc).as (.lastArg (ih hc).between hcomma)
  | moreArgs _ hcomma _ ihType ihRest =>
    have h₀ := ihType hc
    have h₁ := h₀.ready.symbol hcomma
    refine (h₀.behind (h₁.behind (ihRest h₁.ready))).map ?_
    rintro ls ls' ⟨_, htype, _, rfl, hrest⟩
    exact .moreArgs htype hrest

/-! ### Expressions -/

/-- The kind of a phrase of expressions. -/
def Phrase.part : Phrase → Part
  | .expression floor e => .expression floor (endsWithBrace e)
  | .operators floor left whole => .operators floor (endsWithBrace left) (endsWithBrace whole)
  | .operand e => .operand (endsWithBrace e)
  | .members receiver whole => .members (endsWithBrace receiver) (endsWithBrace whole)
  | .primary e => .primary (endsWithBrace e)
  | .tupleItems _ => .tupleItems
  | .branch _ => .branch
  | .arguments _ => .arguments
  | .argumentItems _ => .argumentItems

/-- Whether the tree of a phrase is no deeper than `n` levels. -/
def Phrase.Within (n : Nat) : Phrase → Prop
  | .expression _ e | .branch e => e.depth counted < n
  | .operand e | .primary e => e.depth counted ≤ n
  | .operators _ left whole | .members left whole =>
    whole.depth counted ≤ max (left.depth counted) n
  | .tupleItems es => Expr.itemsDepth counted .paren es ≤ n
  | .arguments es | .argumentItems es => Expr.itemsDepth counted .argument es ≤ n

/-- Whether a phrase between two cursors can be derived with no more levels than may be open, and
its tree is no deeper than they are. -/
def Phrase.Fits (p : Phrase) (c c' : Cursor) : Prop :=
  ∃ n, Stretch n (Derives n p.part) c c' ∧ p.Within n

theorem Derives.conditional_of_primary {b : Bool} (h : Derives n (.primary b) ls ls')
    (hif : first ls = .keyword .if_) : Derives n .conditional ls ls' := by
  cases h with
  | choice h => exact h
  | literal h =>
    obtain rfl := hif
    cases h
  | path | call | paren | tuple => cases hif

/-- Arguments begin with their opening parenthesis. -/
theorem Derives.first_arguments (h : Derives n .arguments ls ls') :
    ∃ rest, ls = .symbol .lparen :: rest := by
  cases h
  exact ⟨_, rfl⟩

/-- What is read can be derived, with levels that fit and that its tree is no deeper than. -/
theorem Reads.fits {p : Phrase} (h : Reads c p c') (hc : Ready c) : p.Fits c c' := by
  induction h with
  | expression hopen _ _ ihFirst ihRest =>
    obtain ⟨m, hfirst, hfirstDepth⟩ := ihFirst ⟨hc.tape, hopen⟩
    obtain ⟨n, hrest, hrestDepth⟩ := ihRest hfirst.ready
    refine ⟨max m n + 1, ((hfirst.seq hrest).map ?_).enclosed, ?_⟩
    · rintro ls ls' ⟨_, hfirst, hrest⟩
      exact .expression hfirst hrest
    · simp only [Phrase.Within] at hfirstDepth hrestDepth ⊢
      omega
  | noOperator hstops =>
    refine ⟨0, hc.here.as (.noOperator ?_), Nat.le_max_left _ _⟩
    rw [first_lexemes]
    exact hstops
  | cast hl htype _ ihRest =>
    have h₀ := hc.keyword hl
    have h₁ := htype.stretch h₀.ready
    obtain ⟨n, hrest, hrestDepth⟩ := ihRest h₁.ready
    refine ⟨n, (h₀.behind (h₁.behind hrest)).map ?_, ?_⟩
    · rintro _ ls' ⟨_, rfl, _, htype, hrest⟩
      exact .cast htype hrest
    · simp only [Phrase.Within, Expr.depth, HostType.depth_counted] at hrestDepth ⊢
      omega
  | binary hl hop hrank _ _ ihRight ihRest =>
    have h₀ := hc.symbol hl
    obtain ⟨m, hright, hrightDepth⟩ := ihRight h₀.ready
    obtain ⟨n, hrest, hrestDepth⟩ := ihRest hright.ready
    refine ⟨max m n, (h₀.behind (hright.seq hrest)).map ?_, ?_⟩
    · rintro _ ls' ⟨_, rfl, _, hright, hrest⟩
      exact .binary hop hrank hright hrest
    · simp only [Phrase.Within, Expr.depth] at hrightDepth hrestDepth ⊢
      omega
  | neg hl _ ih =>
    have h₀ := hc.symbol hl
    obtain ⟨n, hinner, hinnerDepth⟩ := ih h₀.ready
    refine ⟨n, (h₀.behind hinner).map ?_, ?_⟩
    · rintro _ ls' ⟨_, rfl, hinner⟩
      exact .neg hinner
    · simp only [Phrase.Within, Expr.depth, Construct.counted] at hinnerDepth ⊢
      omega
  | not hl _ ih =>
    have h₀ := hc.symbol hl
    obtain ⟨n, hinner, hinnerDepth⟩ := ih h₀.ready
    refine ⟨n, (h₀.behind hinner).map ?_, ?_⟩
    · rintro _ ls' ⟨_, rfl, hinner⟩
      exact .not hinner
    · simp only [Phrase.Within, Expr.depth, Construct.counted] at hinnerDepth ⊢
      omega
  | plain _ _ _ _ ihFirst ihRest =>
    obtain ⟨m, hfirst, hfirstDepth⟩ := ihFirst hc
    obtain ⟨n, hrest, hrestDepth⟩ := ihRest hfirst.ready
    refine ⟨max m n, (hfirst.seq hrest).map ?_, ?_⟩
    · rintro ls ls' ⟨_, hfirst, hrest⟩
      exact .plain hfirst hrest
    · simp only [Phrase.Within] at hfirstDepth hrestDepth ⊢
      omega
  | noMember hdot hbracket hparen =>
    rw [← first_lexemes] at hdot hbracket hparen
    exact ⟨0, hc.here.as (.noMember hdot hbracket hparen), Nat.le_max_left _ _⟩
  | method hl hname _ _ _ ihArgs ihRest =>
    have h₀ := hc.symbol hl
    have h₁ := h₀.ready.ident hname
    obtain ⟨m, hargs, hargsDepth⟩ := ihArgs h₁.ready
    obtain ⟨n, hrest, hrestDepth⟩ := ihRest hargs.ready
    refine ⟨max m n, (h₀.behind (h₁.behind (hargs.seq hrest))).map ?_, ?_⟩
    · rintro _ ls' ⟨_, rfl, _, rfl, _, hargs, hrest⟩
      obtain ⟨_, rfl⟩ := hargs.first_arguments
      exact .method hargs hrest
    · simp only [Phrase.Within, Expr.depth] at hargsDepth hrestDepth ⊢
      omega
  | field hl hname _ hparen _ ihRest =>
    have h₀ := hc.symbol hl
    have h₁ := h₀.ready.ident hname
    obtain ⟨n, hrest, hrestDepth⟩ := ihRest h₁.ready
    refine ⟨n, (h₀.behind ((h₁.stops hparen).behind hrest)).map ?_, ?_⟩
    · rintro _ ls' ⟨_, rfl, _, ⟨rfl, hparen⟩, hrest⟩
      exact .field hparen hrest
    · simp only [Phrase.Within, Expr.depth] at hrestDepth ⊢
      exact hrestDepth
  | index hl _ hclose _ ihIndex ihRest =>
    have h₀ := hc.symbol hl
    obtain ⟨m, hindex, hindexDepth⟩ := ihIndex h₀.ready
    have h₂ := hindex.ready.symbol hclose
    obtain ⟨n, hrest, hrestDepth⟩ := ihRest h₂.ready
    refine ⟨max m n, (h₀.behind (hindex.seq (h₂.behind hrest))).map ?_, ?_⟩
    · rintro _ ls' ⟨_, rfl, _, hindex, _, rfl, hrest⟩
      exact .index hindex hrest
    · simp only [Phrase.Within, Expr.depth, Construct.counted] at hindexDepth hrestDepth ⊢
      omega
  | integer hl | float hl | true hl | false hl =>
    refine ⟨0, (hc.token hl nofun).map ?_, Nat.zero_le _⟩
    rintro _ ls' rfl
    exact .literal rfl
  | call hl htail _ ihArgs =>
    have h₀ := hc.ident hl
    have h₁ := htail.stretch h₀.ready
    obtain ⟨n, hargs, hargsDepth⟩ := ihArgs h₁.ready
    refine ⟨n, (h₀.behind (h₁.behind hargs)).map ?_, ?_⟩
    · rintro _ ls' ⟨_, rfl, _, htail, hargs⟩
      obtain ⟨_, rfl⟩ := hargs.first_arguments
      exact .call htail hargs
    · simp only [Phrase.Within, Expr.depth] at hargsDepth ⊢
      exact hargsDepth
  | name hl hcolons hparen =>
    refine ⟨0, (((hc.ident hl).stops hcolons).stops hparen).map ?_, Nat.zero_le _⟩
    rintro _ ls' ⟨⟨rfl, hcolons⟩, hparen⟩
    exact .path (.tailEnd hcolons) hparen
  | path hl htail hparen _ =>
    have h₀ := hc.ident hl
    have h₁ := htail.stretch h₀.ready
    refine ⟨0, (h₀.behind (h₁.stops hparen)).map ?_, Nat.zero_le _⟩
    rintro _ ls' ⟨_, rfl, htail, hparen⟩
    exact .path htail hparen
  | paren hl _ hclose ih =>
    have h₀ := hc.symbol hl
    obtain ⟨n, hinner, hinnerDepth⟩ := ih h₀.ready
    refine ⟨n, (h₀.behind (hinner.before (hinner.ready.symbol hclose))).map ?_, ?_⟩
    · rintro _ ls' ⟨_, rfl, _, hinner, rfl⟩
      exact .paren hinner
    · simp only [Phrase.Within, Expr.depth, Construct.counted] at hinnerDepth ⊢
      omega
  | tuple hl _ hmore _ hclose ihFirst ihRest =>
    have h₀ := hc.symbol hl
    obtain ⟨m, hfirst, hfirstDepth⟩ := ihFirst h₀.ready
    obtain ⟨n, hrest, hrestDepth⟩ := ihRest hfirst.ready
    have h₁ := hrest.before (hrest.ready.symbol hclose)
    refine ⟨max m n, (h₀.behind ((hfirst.stops hmore).seq h₁)).map ?_, ?_⟩
    · rintro _ ls' ⟨_, rfl, _, ⟨hfirst, hmore⟩, _, hrest, rfl⟩
      exact .tuple hfirst hmore hrest
    · simp only [Phrase.Within, Expr.depth, Expr.itemsDepth, Construct.counted]
        at hfirstDepth hrestDepth ⊢
      omega
  | choice hl _ _ helse _ ihCondition ihYes ihNo =>
    have h₀ := hc.keyword hl
    obtain ⟨k, hcondition, hconditionDepth⟩ := ihCondition h₀.ready
    obtain ⟨m, hyes, hyesDepth⟩ := ihYes hcondition.ready
    have h₁ := hyes.ready.keyword helse
    obtain ⟨n, hno, hnoDepth⟩ := ihNo h₁.ready
    refine ⟨max k (max m n),
      (h₀.behind (hcondition.seq (hyes.seq (h₁.behind hno)))).map ?_, ?_⟩
    · rintro _ ls' ⟨_, rfl, _, hcondition, _, hyes, _, rfl, hno⟩
      exact .choice (.ifElse hcondition hyes hno)
    · simp only [Phrase.Within, Expr.depth, Construct.counted]
        at hconditionDepth hyesDepth hnoDepth ⊢
      split <;> omega
  | choiceChain hl _ _ helse hif hno ihCondition ihYes ihNo =>
    have h₀ := hc.keyword hl
    obtain ⟨k, hcondition, hconditionDepth⟩ := ihCondition h₀.ready
    obtain ⟨m, hyes, hyesDepth⟩ := ihYes hcondition.ready
    have h₁ := hyes.ready.keyword helse
    obtain ⟨n, hchain, hchainDepth⟩ := ihNo h₁.ready
    have h₂ := hchain.as (hchain.between.conditional_of_primary ((first_lexemes _).trans hif))
    refine ⟨max k (max m n),
      (h₀.behind (hcondition.seq (hyes.seq (h₁.behind h₂)))).map ?_, ?_⟩
    · rintro _ ls' ⟨_, rfl, _, hcondition, _, hyes, _, rfl, hchain⟩
      exact .choice (.ifChain hcondition hyes hchain)
    · obtain ⟨_, _, _, _, rfl⟩ := exists_choice_of_reads hno hif
      simp only [Phrase.Within, Expr.depth, Construct.counted, endsWithBrace, if_true]
        at hconditionDepth hyesDepth hchainDepth ⊢
      omega
  | noItem hcomma =>
    rw [← first_lexemes] at hcomma
    exact ⟨0, hc.here.as (.noItem hcomma), Nat.zero_le _⟩
  | lastComma hcomma hclose =>
    have h₀ := hc.symbol hcomma
    refine ⟨0, h₀.as ?_, Nat.zero_le _⟩
    rw [h₀.between, (h₀.ready.symbol hclose).between]
    exact .lastComma
  | moreItems hcomma hmore _ _ ihItem ihRest =>
    have h₀ := hc.symbol hcomma
    obtain ⟨m, hitem, hitemDepth⟩ := ihItem h₀.ready
    obtain ⟨n, hrest, hrestDepth⟩ := ihRest hitem.ready
    refine ⟨max m n, ((h₀.stops hmore).behind (hitem.seq hrest)).map ?_, ?_⟩
    · rintro _ ls' ⟨_, ⟨rfl, hmore⟩, _, hitem, hrest⟩
      exact .moreItems hmore hitem hrest
    · simp only [Phrase.Within, Expr.itemsDepth, Construct.counted] at hitemDepth hrestDepth ⊢
      omega
  | branch hopen _ hclose ih =>
    have h₀ := hc.symbol hopen
    obtain ⟨n, hvalue, hvalueDepth⟩ := ih h₀.ready
    refine ⟨n, (h₀.behind (hvalue.before (hvalue.ready.symbol hclose))).map ?_, hvalueDepth⟩
    rintro _ ls' ⟨_, rfl, _, hvalue, rfl⟩
    exact .branch hvalue
  | arguments hopen _ hclose ih =>
    have h₀ := hc.symbol hopen
    obtain ⟨n, hitems, hitemsDepth⟩ := ih h₀.ready
    refine ⟨n, (h₀.behind (hitems.before (hitems.ready.symbol hclose))).map ?_, hitemsDepth⟩
    rintro _ ls' ⟨_, rfl, _, hitems, rfl⟩
    exact .arguments hitems
  | noArgument hend =>
    rw [← first_lexemes] at hend
    exact ⟨0, hc.here.as (.noArgument hend), Nat.zero_le _⟩
  | lastArgument _ _ hcomma ih =>
    rw [← first_lexemes] at hcomma
    obtain ⟨n, harg, hargDepth⟩ := ih hc
    refine ⟨n, harg.as (.lastArgument harg.between hcomma), ?_⟩
    simp only [Phrase.Within, Expr.itemsDepth, Construct.counted] at hargDepth ⊢
    omega
  | moreArguments _ _ hcomma _ ihArg ihRest =>
    obtain ⟨m, harg, hargDepth⟩ := ihArg hc
    have h₀ := harg.ready.symbol hcomma
    obtain ⟨n, hrest, hrestDepth⟩ := ihRest h₀.ready
    refine ⟨max m n, (harg.seq (h₀.behind hrest)).map ?_, ?_⟩
    · rintro ls ls' ⟨_, harg, _, rfl, hrest⟩
      exact .moreArguments harg hrest
    · simp only [Phrase.Within, Expr.itemsDepth, Construct.counted] at hargDepth hrestDepth ⊢
      omega

/-! ### Statements -/

theorem ReadsAnnotation.stretch {type : Option TypeRef} (h : ReadsAnnotation c type c')
    (hc : Ready c) : Stretch 0 DerivesAnnotation c c' := by
  cases type with
  | none =>
    obtain ⟨hcolon, rfl⟩ := h
    rw [← first_lexemes] at hcolon
    exact hc.here.as (.none hcolon)
  | some t =>
    have h₀ := hc.symbol h.1
    refine (h₀.behind (h.2.stretch h₀.ready)).map ?_
    rintro _ ls' ⟨_, rfl, htype⟩
    exact .some htype

theorem ReadsInitial.fits {value : Option Expr} (h : ReadsInitial c value c') (hc : Ready c) :
    ∃ n, Stretch n (DerivesInitial n) c c' ∧
      (value.map fun e => e.depth counted).getD 0 ≤ n := by
  cases value with
  | none =>
    obtain ⟨heq, rfl⟩ := h
    rw [← first_lexemes] at heq
    exact ⟨0, hc.here.as (.none heq), Nat.le_refl _⟩
  | some e =>
    have h₀ := hc.symbol h.1
    obtain ⟨n, hvalue, hvalueDepth⟩ := h.2.fits h₀.ready
    refine ⟨n, (h₀.behind hvalue).map ?_, Nat.le_of_lt hvalueDepth⟩
    rintro _ ls' ⟨_, rfl, hvalue⟩
    exact .some hvalue

theorem Ends.stretch {free : Bool} (h : Ends free c c') (hc : Ready c) :
    Stretch 0 (DerivesEnd free) c c' := by
  cases free with
  | true =>
    obtain rfl : c' = c := h
    exact hc.here.as .free
  | false =>
    obtain ⟨hl, rfl⟩ : c.lexeme = .symbol .semicolon ∧ c' = c.advance := h
    refine (hc.symbol hl).map ?_
    rintro _ ls' rfl
    exact .semicolon

theorem Takes.stretch {there : Bool} (h : Takes l c there c') (hc : Ready c)
    (hne : l ≠ .endOfInput) : Stretch 0 (Drops l) c c' := by
  cases there with
  | true =>
    obtain ⟨hl, rfl⟩ : c.lexeme = l ∧ c' = c.advance := h
    exact (hc.token hl hne).map fun _ _ => .inl
  | false =>
    obtain ⟨hl, rfl⟩ : c.lexeme ≠ l ∧ c' = c := h
    rw [← first_lexemes] at hl
    exact hc.here.as (.inr ⟨hl, rfl⟩)

theorem endsLast_first (isBody : Bool) (c : Cursor) :
    endsLast isBody (first c.lexemes) = atLast isBody c := by
  rw [first_lexemes]
  rfl

theorem ReadsSimple.fits {isBody : Bool} {s : Stmt} (h : ReadsSimple isBody c s c')
    (hc : Ready c) :
    ∃ n, Stretch n (DerivesSimple isBody n) c c' ∧ s.depth counted ≤ n := by
  cases h with
  | eval hvalue hnone hends =>
    obtain ⟨n, hvalue, hvalueDepth⟩ := hvalue.fits hc
    have h₁ := hends.stretch hvalue.ready
    rw [← endsLast_first] at h₁
    rw [← first_lexemes] at hnone
    have hderives := DerivesSimple.eval hvalue.between hnone h₁.between
    exact ⟨n, (hvalue.before h₁).as hderives, Nat.le_of_lt hvalueDepth⟩
  | assign hplace hl hop hvalue hends =>
    obtain ⟨m, hplace, hplaceDepth⟩ := hplace.fits hc
    have h₁ := hplace.ready.symbol hl
    obtain ⟨n, hvalue, hvalueDepth⟩ := hvalue.fits h₁.ready
    have h₂ := hends.stretch hvalue.ready
    rw [← endsLast_first] at h₂
    have hderives := DerivesSimple.assign (h₁.between ▸ hplace.between) hop hvalue.between h₂.between
    refine ⟨max m n, (hplace.seq (h₁.behind (hvalue.before h₂))).as hderives, ?_⟩
    simp only [Phrase.Within] at hplaceDepth hvalueDepth
    rw [Stmt.depth]
    omega

/-- The kind of a phrase of statements. -/
def StmtPhrase.part : StmtPhrase → StmtPart
  | .block _ => .block
  | .statements _ => .statements
  | .statement _ => .statement

/-- Whether the tree of a phrase of statements is no deeper than `n` levels. -/
def StmtPhrase.Within (n : Nat) : StmtPhrase → Prop
  | .block b => b.innerDepth counted < n
  | .statements ss => Stmt.allDepth counted ss ≤ n
  | .statement s => s.depth counted ≤ n

/-- Whether a phrase between two cursors can be derived with no more levels than may be open, and
its tree is no deeper than they are. -/
def StmtPhrase.Fits (p : StmtPhrase) (c c' : Cursor) : Prop :=
  ∃ n, Stretch n (DerivesStmt n p.part) c c' ∧ p.Within n

theorem DerivesStmt.conditional_of_statement (h : DerivesStmt n .statement ls ls')
    (hif : first ls = .keyword .if_) : DerivesStmt n .conditional ls ls' := by
  cases h with
  | «if» h => exact h
  | jump =>
    rename_i kind _ _
    cases kind <;> cases hif
  | simple hne => exact absurd hif hne
  | «let» | «for» | «while» | loop | nested => cases hif

theorem ReadsStmt.fits {p : StmtPhrase} (h : ReadsStmt c p c') (hc : Ready c) : p.Fits c c' := by
  induction h with
  | @block c _ _ hopen hbrace _ hclose ih =>
    have hdeeper : Ready c.deeper := ⟨hc.tape, hopen⟩
    have h₀ := hdeeper.symbol hbrace
    obtain ⟨n, hstmts, hstmtsDepth⟩ := ih h₀.ready
    have h₁ := h₀.behind (hstmts.before (hstmts.ready.symbol hclose))
    refine ⟨n + 1, (h₁.map ?_).enclosed, Nat.lt_succ_of_le hstmtsDepth⟩
    rintro _ ls' ⟨_, rfl, _, hstmts, rfl⟩
    exact .block hstmts
  | noStatement hend =>
    rw [← first_lexemes] at hend
    exact ⟨0, hc.here.as (.noStatement hend), Nat.le_refl _⟩
  | emptyStatement hl _ ih =>
    have h₀ := hc.symbol hl
    obtain ⟨n, hstmts, hstmtsDepth⟩ := ih h₀.ready
    refine ⟨n, (h₀.behind hstmts).map ?_, hstmtsDepth⟩
    rintro _ ls' ⟨_, rfl, hstmts⟩
    exact .emptyStatement hstmts
  | moreStatements hend hsemicolon _ _ ihStmt ihRest =>
    obtain ⟨m, hstmt, hstmtDepth⟩ := ihStmt hc
    obtain ⟨n, hrest, hrestDepth⟩ := ihRest hstmt.ready
    rw [← first_lexemes] at hend hsemicolon
    have hderives := DerivesStmt.moreStatements hend hsemicolon hstmt.between hrest.between
    refine ⟨max m n, (hstmt.seq hrest).as hderives, ?_⟩
    simp only [StmtPhrase.Within, Stmt.allDepth] at hstmtDepth hrestDepth ⊢
    omega
  | @«let» _ _ _ _ _ _ _ type _ hl hmut hname _ htype hvalue hends =>
    have h₀ := hc.keyword hl
    have h₁ := hmut.stretch h₀.ready nofun
    have h₂ := h₁.ready.ident hname
    have h₃ := htype.stretch h₂.ready
    obtain ⟨n, hvalue, hvalueDepth⟩ := hvalue.fits h₃.ready
    have h₄ := hends.stretch hvalue.ready
    rw [← first_lexemes] at h₄
    have hderives := DerivesStmt.let (h₂.between ▸ h₁.between) h₃.between hvalue.between h₄.between
    refine ⟨n, (h₀.behind (h₁.behind (h₂.behind (h₃.behind (hvalue.before h₄))))).as ?_, ?_⟩
    · rw [h₀.between]
      exact hderives
    · have htypeDepth := depth_annotation_counted type
      simp only [StmtPhrase.Within, Stmt.depth]
      omega
  | ifOnly hl hcondition _ helse ihBody =>
    rw [← first_lexemes] at helse
    have h₀ := hc.keyword hl
    obtain ⟨k, hcondition, hconditionDepth⟩ := hcondition.fits h₀.ready
    obtain ⟨m, hbody, hbodyDepth⟩ := ihBody hcondition.ready
    have h₁ := hbody.ready.here.as (DerivesStmt.noElse helse)
    refine ⟨max k (max m 0), (h₀.behind (hcondition.seq (hbody.seq h₁))).map ?_, ?_⟩
    · rintro _ ls' ⟨_, rfl, _, hcondition, _, hbody, helse⟩
      exact .if (.conditional hcondition hbody helse)
    · simp only [Phrase.Within, StmtPhrase.Within, Stmt.depth, Construct.counted]
        at hconditionDepth hbodyDepth ⊢
      omega
  | ifElse hl hcondition _ helse _ _ ihBody ihElse =>
    have h₀ := hc.keyword hl
    obtain ⟨k, hcondition, hconditionDepth⟩ := hcondition.fits h₀.ready
    obtain ⟨m, hbody, hbodyDepth⟩ := ihBody hcondition.ready
    have h₁ := hbody.ready.keyword helse
    obtain ⟨n, hno, hnoDepth⟩ := ihElse h₁.ready
    refine ⟨max k (max m n),
      (h₀.behind (hcondition.seq (hbody.seq (h₁.behind hno)))).map ?_, ?_⟩
    · rintro _ ls' ⟨_, rfl, _, hcondition, _, hbody, _, rfl, hno⟩
      exact .if (.conditional hcondition hbody (.elseBlock hno))
    · simp only [Phrase.Within, StmtPhrase.Within, Stmt.depth, Construct.counted]
        at hconditionDepth hbodyDepth hnoDepth ⊢
      split <;> omega
  | @ifChain _ _ _ _ _ _ chained hl hcondition _ helse hif _ ihBody ihElse =>
    have h₀ := hc.keyword hl
    obtain ⟨k, hcondition, hconditionDepth⟩ := hcondition.fits h₀.ready
    obtain ⟨m, hbody, hbodyDepth⟩ := ihBody hcondition.ready
    have h₁ := hbody.ready.keyword helse
    obtain ⟨n, hchain, hchainDepth⟩ := ihElse h₁.ready
    have h₂ := hchain.as (hchain.between.conditional_of_statement ((first_lexemes _).trans hif))
    refine ⟨max k (max m n),
      (h₀.behind (hcondition.seq (hbody.seq (h₁.behind h₂)))).map ?_, ?_⟩
    · rintro _ ls' ⟨_, rfl, _, hcondition, _, hbody, _, rfl, hchain⟩
      exact .if (.conditional hcondition hbody (.elseIf hchain))
    · have hbare : (⟨chained.span, [chained]⟩ : Block).isBare = true := beq_self_eq_true _
      simp only [Phrase.Within, StmtPhrase.Within, Stmt.depth, hbare, Block.innerDepth,
        Stmt.allDepth, Construct.counted, if_true] at hconditionDepth hbodyDepth hchainDepth ⊢
      omega
  | «for» hl hname _ hin hfirst hrange hstop _ ihBody =>
    have h₀ := hc.keyword hl
    have h₁ := h₀.ready.ident hname
    have h₂ := h₁.ready.keyword hin
    obtain ⟨k, hfirst, hfirstDepth⟩ := hfirst.fits h₂.ready
    have h₃ := hfirst.ready.symbol hrange
    obtain ⟨m, hstop, hstopDepth⟩ := hstop.fits h₃.ready
    obtain ⟨n, hbody, hbodyDepth⟩ := ihBody hstop.ready
    have hrest := hfirst.seq (h₃.behind (hstop.seq hbody))
    refine ⟨max k (max m n), (h₀.behind (h₁.behind (h₂.behind hrest))).map ?_, ?_⟩
    · rintro _ ls' ⟨_, rfl, _, rfl, _, rfl, _, hfirst, _, rfl, _, hstop, hbody⟩
      exact .for hfirst hstop hbody
    · simp only [Phrase.Within, StmtPhrase.Within, Stmt.depth, Construct.counted]
        at hfirstDepth hstopDepth hbodyDepth ⊢
      omega
  | «while» hl hcondition _ ihBody =>
    have h₀ := hc.keyword hl
    obtain ⟨m, hcondition, hconditionDepth⟩ := hcondition.fits h₀.ready
    obtain ⟨n, hbody, hbodyDepth⟩ := ihBody hcondition.ready
    refine ⟨max m n, (h₀.behind (hcondition.seq hbody)).map ?_, ?_⟩
    · rintro _ ls' ⟨_, rfl, _, hcondition, hbody⟩
      exact .while hcondition hbody
    · simp only [Phrase.Within, StmtPhrase.Within, Stmt.depth, Construct.counted]
        at hconditionDepth hbodyDepth ⊢
      omega
  | loop hl _ ihBody =>
    have h₀ := hc.keyword hl
    obtain ⟨n, hbody, hbodyDepth⟩ := ihBody h₀.ready
    refine ⟨n, (h₀.behind hbody).map ?_, ?_⟩
    · rintro _ ls' ⟨_, rfl, hbody⟩
      exact .loop hbody
    · simp only [StmtPhrase.Within, Stmt.depth, Construct.counted] at hbodyDepth ⊢
      omega
  | jump hl hends =>
    have h₀ := hc.keyword hl
    have h₁ := hends.stretch h₀.ready
    rw [← first_lexemes] at h₁
    refine ⟨0, (h₀.behind h₁).as ?_, Nat.le_refl _⟩
    rw [h₀.between]
    exact .jump h₁.between
  | nested hl _ ihBody =>
    obtain ⟨n, hbody, hbodyDepth⟩ := ihBody hc
    refine ⟨n, hbody.as ?_, ?_⟩
    · have hblock := hbody.between
      rw [(hc.symbol hl).between] at hblock ⊢
      exact .nested hblock
    · simp only [StmtPhrase.Within, Stmt.depth, Construct.counted] at hbodyDepth ⊢
      omega
  | simple hif hsimple =>
    obtain ⟨n, hsimple, hsimpleDepth⟩ := hsimple.fits hc
    rw [← first_lexemes] at hif
    exact ⟨n, hsimple.as (.simple hif hsimple.between), hsimpleDepth⟩

/-! ### Closures -/

theorem ReadsBody.fits {b : Block} (h : ReadsBody c b c') (hc : Ready c) :
    ∃ n, Stretch n (DerivesBody n) c c' ∧
      (if b.isBare then 0 else 1) + b.innerDepth counted ≤ n := by
  cases h with
  | block hl hblock =>
    obtain ⟨n, hblock, hblockDepth⟩ := hblock.fits hc
    refine ⟨n, hblock.as ?_, ?_⟩
    · have hbraced := hblock.between
      rw [(hc.symbol hl).between] at hbraced ⊢
      exact .block hbraced
    · simp only [StmtPhrase.Within] at hblockDepth
      split <;> omega
  | @simple _ s hl hsimple =>
    obtain ⟨n, hsimple, hsimpleDepth⟩ := hsimple.fits hc
    rw [← first_lexemes] at hl
    refine ⟨n, hsimple.as (.simple hl hsimple.between), ?_⟩
    have hbare : (⟨s.span, [s]⟩ : Block).isBare = true := beq_self_eq_true _
    rw [if_pos hbare, Block.innerDepth, Stmt.allDepth, Stmt.allDepth]
    omega

theorem ReadsClosure.fits {closure : Closure} (h : ReadsClosure c closure c') (hc : Ready c) :
    ∃ n, DerivesClosure n c.lexemes ∧ c.depth + n ≤ maxDepth ∧ closure.depth counted ≤ n := by
  cases h with
  | @mk _ c₁ _ _ _ paramType _ hmove hbar hparam _ htype hcomma hpipe hbody hend =>
    have h₀ := hmove.stretch hc nofun
    have h₁ := h₀.ready.symbol hbar
    have h₂ := h₁.ready.ident hparam
    have h₃ := htype.stretch h₂.ready
    obtain ⟨skipped, hskipped, hpassed, htape⟩ := c₁.lexemes_skipUntil endsParameters h₃.tape
    have h₄ : Ready (c₁.skipUntil endsParameters) := ⟨htape, h₃.ready.room⟩
    have h₅ := h₄.symbol hpipe
    obtain ⟨n, hbody, hbodyDepth⟩ := hbody.fits h₅.ready
    have hderives := hbody.between
    rw [lexemes_eq_of_isEnd hbody.tape hend] at hderives
    rw [h₅.between] at hskipped
    rw [← first_lexemes, hskipped] at hcomma
    refine ⟨n, .mk (h₂.between ▸ h₁.between ▸ h₀.between) (hskipped ▸ h₃.between) hcomma hpassed
      hderives, ?_, ?_⟩
    · have hdepth := (h₅.depth.trans h₃.depth).trans ((h₂.depth.trans h₁.depth).trans h₀.depth)
      exact hdepth ▸ hbody.fits
    · have htypeDepth := depth_annotation_counted paramType
      simp only [Closure.depth, htypeDepth, Construct.counted]
      omega

end Parse

end ComputeKernel
