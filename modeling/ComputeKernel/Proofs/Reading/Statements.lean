import ComputeKernel.Proofs.Reading.Grammar

/-!
The grammar of C's statements: declarations and assignments, conditionals, loops, jumps, expressions
and blocks. No identifier is a keyword, and an `else` goes with the nearest `if` that can have it.
What a list of tokens begins with tells the kind of statement, so the grammar is unambiguous.
-/

namespace ComputeKernel.Reading

open Shader (isTypeName)

inductive Statement where
  | declare (type name : String) (value : Option Tree)
  | assign (target : Tree) (op : Option BinaryOp) (value : Tree)
  | ifOnly (condition : Tree) (body : Statement)
  | ifElse (condition : Tree) (body otherwise : Statement)
  /-- A loop whose counter is declared with it and whose step increments a variable. -/
  | for (type counter : String) (start condition : Tree) (stepped : String) (body : Statement)
  | while (condition : Tree) (body : Statement)
  | jump (kind : Jump)
  | eval (value : Tree)
  | block (body : List Statement)

/-- The words that statements of the shading language consist of or begin with. -/
def keywords : List String :=
  ["break", "case", "continue", "default", "discard", "do", "else", "for", "if", "return", "switch",
    "while"]

namespace Mark

def semicolon : Mark := .other ";"

def lbrace : Mark := .other "\x7b"

def rbrace : Mark := .other "\x7d"

def increment : Mark := .other "++"

/-- The mark of an assignment, with the operator of a compound one. -/
def assignment : Option BinaryOp → Mark
  | none => .other "="
  | some op => .other (op.symbol ++ "=")

theorem assignment_injective {a b : Option BinaryOp} (h : assignment a = assignment b) : a = b := by
  cases a with
  | none => cases b with
    | none => rfl
    | some b => cases b <;> simp [assignment, BinaryOp.symbol] at h
  | some a => cases b with
    | none => cases a <;> simp [assignment, BinaryOp.symbol] at h
    | some b => cases a <;> cases b <;> first | rfl | simp [assignment, BinaryOp.symbol] at h

theorem assignment_ne_semicolon (op : Option BinaryOp) : assignment op ≠ semicolon := by
  cases op with
  | none => simp [assignment, semicolon]
  | some op => cases op <;> simp [assignment, semicolon, BinaryOp.symbol]

end Mark

def jumpWord : Jump → String
  | .break => "break"
  | .continue => "continue"
  | .return => "return"

/-! ### The grammar -/

def IsIdentifier (w : String) : Prop := ¬ isTypeName w ∧ w ∉ keywords

/-- Whether no token is a keyword. -/
def Plain (ts : List Token) : Prop := ∀ w ∈ keywords, .word w ∉ ts

section

variable {ts us : List Token}

@[simp] theorem plain_nil : Plain [] := fun _ _ => List.not_mem_nil

@[simp] theorem plain_append : Plain (ts ++ us) ↔ Plain ts ∧ Plain us := by
  simp [Plain, forall_and]

@[simp] theorem plain_cons_mark {m : Mark} : Plain (.mark m :: ts) ↔ Plain ts := by
  simp [Plain]

@[simp] theorem plain_cons_number {n : String} : Plain (.number n :: ts) ↔ Plain ts := by
  simp [Plain]

@[simp] theorem plain_cons_word {w : String} : Plain (.word w :: ts) ↔ w ∉ keywords ∧ Plain ts := by
  simp only [Plain, List.mem_cons, Token.word.injEq, not_or]
  refine ⟨fun h => ⟨fun hw => (h w hw).1 rfl, fun v hv => (h v hv).2⟩, fun ⟨hw, h⟩ v hv => ?_⟩
  refine ⟨?_, h v hv⟩
  rintro rfl
  exact hw hv

end

/-- Tokens of an expression, among which there is no keyword. -/
structure Expresses (ts : List Token) (k : Nat) (t : Tree) : Prop where
  parses : Parses ts (.expr k t)
  plain : Plain ts

/-- Whether an `else` behind a statement goes with none of the conditionals in it. -/
def Statement.closed : Statement → Bool
  | .ifOnly .. => false
  | .ifElse _ _ otherwise => otherwise.closed
  | .for _ _ _ _ _ body | .while _ body => body.closed
  | _ => true

/-- What tokens are parsed as: a statement, or the statements of a block. -/
inductive ParsedStatement where
  | stmt (s : Statement)
  | stmts (ss : List Statement)

inductive ParsesStmt : List Token → ParsedStatement → Prop where
  | declare {w x} : isTypeName w → IsIdentifier x →
      ParsesStmt [.word w, .word x, .mark .semicolon] (.stmt (.declare w x none))
  | set {w x ts t} : isTypeName w → IsIdentifier x → Expresses ts choiceRank t →
      ParsesStmt (.word w :: .word x :: .mark (.assignment none) :: (ts ++ [.mark .semicolon]))
        (.stmt (.declare w x (some t)))
  | assign {ts us l op r} : Expresses ts Shader.unaryRank l → Expresses us choiceRank r →
      ParsesStmt (ts ++ .mark (.assignment op) :: (us ++ [.mark .semicolon]))
        (.stmt (.assign l op r))
  | ifOnly {ts us c s} : Expresses ts choiceRank c → ParsesStmt us (.stmt s) →
      ParsesStmt (.word "if" :: .mark .lparen :: (ts ++ .mark .rparen :: us)) (.stmt (.ifOnly c s))
  | ifElse {ts us vs c s u} : Expresses ts choiceRank c → ParsesStmt us (.stmt s) → s.closed →
      ParsesStmt vs (.stmt u) →
      ParsesStmt
        (.word "if" :: .mark .lparen :: (ts ++ .mark .rparen :: (us ++ .word "else" :: vs)))
        (.stmt (.ifElse c s u))
  | for {w x y ts us vs a c s} : isTypeName w → IsIdentifier x → Expresses ts choiceRank a →
      Expresses us choiceRank c → IsIdentifier y → ParsesStmt vs (.stmt s) →
      ParsesStmt
        (.word "for" :: .mark .lparen :: .word w :: .word x :: .mark (.assignment none) ::
          (ts ++ .mark .semicolon ::
            (us ++ .mark .semicolon :: .word y :: .mark .increment :: .mark .rparen :: vs)))
        (.stmt (.for w x a c y s))
  | while {ts us c s} : Expresses ts choiceRank c → ParsesStmt us (.stmt s) →
      ParsesStmt (.word "while" :: .mark .lparen :: (ts ++ .mark .rparen :: us))
        (.stmt (.while c s))
  | jump {kind} : ParsesStmt [.word (jumpWord kind), .mark .semicolon] (.stmt (.jump kind))
  | eval {ts t} : Expresses ts choiceRank t →
      ParsesStmt (ts ++ [.mark .semicolon]) (.stmt (.eval t))
  | block {ts ss} : ParsesStmt ts (.stmts ss) →
      ParsesStmt (.mark .lbrace :: (ts ++ [.mark .rbrace])) (.stmt (.block ss))
  | nil : ParsesStmt [] (.stmts [])
  | cons {ts us s ss} : ParsesStmt ts (.stmt s) → ParsesStmt us (.stmts ss) →
      ParsesStmt (ts ++ us) (.stmts (s :: ss))

/-! ### What a statement begins with -/

inductive Opening where
  | block
  | keyword (text : String)
  | declaration
  | expression
  /-- The end of the statements of a block. -/
  | ending

def opening : List Token → Opening
  | .mark (.other "\x7b") :: _ => .block
  | .mark (.other "\x7d") :: _ => .ending
  | .word w :: ts =>
    if w ∈ keywords then .keyword w
    else if isTypeName w ∧ ts.head? ≠ some (.mark .lparen) then .declaration
    else .expression
  | _ => .expression

def Statement.opening : Statement → Opening
  | .declare .. => .declaration
  | .assign .. | .eval _ => .expression
  | .ifOnly .. | .ifElse .. => .keyword "if"
  | .for .. => .keyword "for"
  | .while .. => .keyword "while"
  | .jump kind => .keyword (jumpWord kind)
  | .block _ => .block

/-- Whether what stands behind an expression cannot go on with it. -/
structure Stops (rest : List Token) : Prop where
  member : opensMember rest = false
  operator : opensOperator choiceRank rest = false

theorem not_mem_keywords_of_isTypeName {w : String} (h : isTypeName w) : w ∉ keywords := by
  have hall : ∀ k ∈ keywords, ¬ isTypeName k := by decide
  exact fun hw => hall w hw h

theorem opening_of_isTypeName {w x : String} (h : isTypeName w) (rest : List Token) :
    opening (.word w :: .word x :: rest) = .declaration := by
  rw [opening, if_neg (not_mem_keywords_of_isTypeName h), if_pos ⟨h, nofun⟩]

theorem Scans.opening {ts rest : List Token} {whole : Found} (h : Scans ts .operand whole rest)
    (hplain : ∀ w ∈ keywords, ts.head? ≠ some (.word w)) : opening ts = .expression := by
  cases h with
  | @unary op _ _ _ _ hm => cases op <;> rw [hm] <;> rfl
  | cast | paren | number => rfl
  | @word w _ _ _ htype =>
    have hw : w ∉ keywords := fun hw => hplain w hw rfl
    rw [Reading.opening, if_neg hw, if_neg fun h => htype h.1]
  | @construct w =>
    have hw : w ∉ keywords := fun hw => hplain w hw rfl
    rw [Reading.opening, if_neg hw, if_neg fun h => h.2 rfl]

namespace Expresses

variable {ts us rest rest' : List Token} {k l : Nat} {t u : Tree}

theorem loosen (h : Expresses ts k t) (hk : choiceRank ≤ k) : Expresses ts choiceRank t :=
  ⟨h.parses.loosen hk, h.plain⟩

theorem scans (h : Expresses ts choiceRank t) (hrest : Stops rest) :
    Scans (ts ++ rest) (.expression choiceRank) (.tree t) rest :=
  h.parses.reachable.expression rest hrest.member hrest.operator

/-- Where two expressions end as they must, one list of tokens begins with both only if they are
one. -/
theorem split (h : Expresses ts choiceRank t) (h' : Expresses us choiceRank u) (hrest : Stops rest)
    (hrest' : Stops rest') (heq : ts ++ rest = us ++ rest') : t = u ∧ rest = rest' := by
  have hscans := h.scans hrest
  rw [heq] at hscans
  obtain ⟨htree, hrests⟩ := hscans.unique (h'.scans hrest')
  exact ⟨Found.tree.inj htree, hrests⟩

theorem opening (h : Expresses ts choiceRank t) (hrest : Stops rest) :
    opening (ts ++ rest) = .expression := by
  obtain ⟨a, us, rfl, _⟩ := h.parses.front rfl
  have hscans := h.scans hrest
  generalize hall : a :: us ++ rest = all at hscans ⊢
  cases hscans with
  | expression hoperand _ =>
    refine hoperand.opening fun w hw hhead => h.plain w hw ?_
    rw [← hall] at hhead
    rw [← Option.some.inj hhead]
    exact List.mem_cons_self

end Expresses

theorem stops_assignment (op : Option BinaryOp) (rest : List Token) :
    Stops (.mark (.assignment op) :: rest) := by
  cases op <;> exact ⟨rfl, rfl⟩

theorem stops_semicolon (rest : List Token) : Stops (.mark .semicolon :: rest) := ⟨rfl, rfl⟩

theorem stops_rparen (rest : List Token) : Stops (.mark .rparen :: rest) := ⟨rfl, rfl⟩

/-- The kind of a statement is told by what its tokens begin with. -/
theorem ParsesStmt.opening {ts : List Token} {s : Statement} (h : ParsesStmt ts (.stmt s))
    (rest : List Token) : opening (ts ++ rest) = s.opening := by
  cases h with
  | declare htype _ | set htype _ _ => exact opening_of_isTypeName htype _
  | @assign _ us _ op _ htarget _ =>
    rw [List.append_assoc]
    exact (htarget.loosen (by decide)).opening (stops_assignment op _)
  | eval hvalue =>
    rw [List.append_assoc]
    exact hvalue.opening (stops_semicolon rest)
  | @jump kind => cases kind <;> rfl
  | _ => rfl

/-! ### One reading -/

/-- Whether a list of tokens can stand behind what was parsed. -/
def ParsedStatement.Ends : ParsedStatement → List Token → Prop
  | .stmt s, rest => s.closed = false → rest.head? ≠ some (.word "else")
  | .stmts _, rest => ∃ more, rest = .mark .rbrace :: more

/-- Whether one list of tokens begins with what was parsed and with another of its sort only if they
are one. -/
def Determined (ts : List Token) : ParsedStatement → Prop
  | .stmt s => ∀ {us rest rest' u}, ParsesStmt us (.stmt u) → (ParsedStatement.stmt s).Ends rest →
      (ParsedStatement.stmt u).Ends rest' → ts ++ rest = us ++ rest' → s = u ∧ rest = rest'
  | .stmts ss => ∀ {us rest rest' tt}, ParsesStmt us (.stmts tt) →
      (ParsedStatement.stmts ss).Ends rest → (ParsedStatement.stmts tt).Ends rest' →
      ts ++ rest = us ++ rest' → ss = tt ∧ rest = rest'

theorem ParsesStmt.opening_eq {ts us rest rest' : List Token} {s u : Statement}
    (h : ParsesStmt ts (.stmt s)) (h' : ParsesStmt us (.stmt u)) (heq : ts ++ rest = us ++ rest') :
    s.opening = u.opening := by
  rw [← h.opening rest, heq, h'.opening rest']

theorem Statement.opening_ne_ending (s : Statement) : s.opening ≠ .ending := by
  cases s <;> exact nofun

/-- A jump begins with a keyword of its own. -/
theorem keyword_ne_opening_jump {kind : Jump} {text : String}
    (htext : text ∈ ["if", "else", "for", "while"]) :
    Opening.keyword text ≠ (Statement.jump kind).opening := by
  have hall : ∀ k, jumpWord k ∉ ["if", "else", "for", "while"] := by
    rintro (_ | _ | _) <;> decide
  intro h
  exact hall kind (Opening.keyword.inj h ▸ htext)

theorem jumpWord_injective {a b : Jump} (h : jumpWord a = jumpWord b) : a = b := by
  cases a <;> cases b <;> first | rfl | simp [jumpWord] at h

theorem Statement.opening_ne_else (s : Statement) : s.opening ≠ .keyword "else" := by
  cases s with
  | jump => exact (keyword_ne_opening_jump (by decide)).symm
  | _ => simp [Statement.opening]

/-- A statement is no end of a block. -/
theorem ParsesStmt.append_ne_ending {ts us rest : List Token} {s : Statement} {ss : List Statement}
    (h : ParsesStmt ts (.stmt s)) (hrest : (ParsedStatement.stmts ss).Ends rest) :
    ts ++ us ≠ rest := by
  obtain ⟨more, rfl⟩ := hrest
  intro heq
  have hopening := h.opening us
  rw [heq] at hopening
  exact s.opening_ne_ending hopening.symm

/-- No `else` stands in front of the statements of a block. -/
theorem ParsesStmt.head?_ne_else {ts rest : List Token} {ss : List Statement}
    (h : ParsesStmt ts (.stmts ss)) (hrest : (ParsedStatement.stmts ss).Ends rest) :
    (ts ++ rest).head? ≠ some (.word "else") := by
  cases h with
  | nil =>
    obtain ⟨more, rfl⟩ := hrest
    exact nofun
  | @cons ts us s _ hs _ =>
    intro hhead
    obtain ⟨more, hmore⟩ := List.head?_eq_some_iff.mp hhead
    have hopening := hs.opening (us ++ rest)
    rw [← List.append_assoc, hmore] at hopening
    exact s.opening_ne_else hopening.symm

theorem ends_of_closed {s : Statement} (h : s.closed) (rest : List Token) :
    (ParsedStatement.stmt s).Ends rest := fun hopen => absurd (h.symm.trans hopen) (by decide)

theorem ParsesStmt.determined {ts : List Token} {p : ParsedStatement} (h : ParsesStmt ts p) :
    Determined ts p := by
  induction h with
  | declare htype hx =>
    intro us rest rest' u h' hends hends' heq
    have hopening := (ParsesStmt.declare htype hx).opening_eq h' heq
    cases h' with
    | declare =>
      cases heq
      exact ⟨rfl, rfl⟩
    | set =>
      simp only [List.cons_append, List.cons.injEq] at heq
      exact (Mark.assignment_ne_semicolon _ (Token.mark.inj heq.2.2.1).symm).elim
    | _ => cases hopening
  | set htype hx hvalue =>
    intro us rest rest' u h' hends hends' heq
    have hopening := (ParsesStmt.set htype hx hvalue).opening_eq h' heq
    cases h' with
    | declare =>
      simp only [List.cons_append, List.cons.injEq] at heq
      exact (Mark.assignment_ne_semicolon _ (Token.mark.inj heq.2.2.1)).elim
    | set _ _ hvalue' =>
      simp only [List.cons_append, List.append_assoc, List.cons.injEq, Token.word.injEq] at heq
      obtain ⟨rfl, rfl, _, hrests⟩ := heq
      obtain ⟨rfl, hrest⟩ := hvalue.split hvalue' (stops_semicolon _) (stops_semicolon _) hrests
      exact ⟨rfl, (List.cons.inj hrest).2⟩
    | _ => cases hopening
  | assign htarget hvalue =>
    intro us rest rest' u h' hends hends' heq
    have hopening := (ParsesStmt.assign htarget hvalue).opening_eq h' heq
    have htarget := htarget.loosen (by decide)
    cases h' with
    | assign htarget' hvalue' =>
      simp only [List.cons_append, List.append_assoc] at heq
      obtain ⟨rfl, hrests⟩ := htarget.split (htarget'.loosen (by decide)) (stops_assignment _ _)
        (stops_assignment _ _) heq
      obtain ⟨hmark, hvalues⟩ := List.cons.inj hrests
      obtain rfl := Mark.assignment_injective (Token.mark.inj hmark)
      obtain ⟨rfl, hrest⟩ := hvalue.split hvalue' (stops_semicolon _) (stops_semicolon _) hvalues
      exact ⟨rfl, (List.cons.inj hrest).2⟩
    | eval hvalue' =>
      simp only [List.cons_append, List.append_assoc] at heq
      obtain ⟨_, hrests⟩ := htarget.split hvalue' (stops_assignment _ _) (stops_semicolon _) heq
      exact (Mark.assignment_ne_semicolon _ (Token.mark.inj (List.cons.inj hrests).1)).elim
    | _ => cases hopening
  | eval hvalue =>
    intro us rest rest' u h' hends hends' heq
    have hopening := (ParsesStmt.eval hvalue).opening_eq h' heq
    cases h' with
    | assign htarget' hvalue' =>
      simp only [List.cons_append, List.append_assoc] at heq
      obtain ⟨_, hrests⟩ := hvalue.split (htarget'.loosen (by decide)) (stops_semicolon _)
        (stops_assignment _ _) heq
      exact (Mark.assignment_ne_semicolon _ (Token.mark.inj (List.cons.inj hrests).1).symm).elim
    | eval hvalue' =>
      simp only [List.append_assoc] at heq
      obtain ⟨rfl, hrest⟩ := hvalue.split hvalue' (stops_semicolon _) (stops_semicolon _) heq
      exact ⟨rfl, (List.cons.inj hrest).2⟩
    | _ => cases hopening
  | ifOnly hc hs ih =>
    intro us rest rest' u h' hends hends' heq
    have hopening := (ParsesStmt.ifOnly hc hs).opening_eq h' heq
    cases h' with
    | ifOnly hc' hs' =>
      simp only [List.cons_append, List.append_assoc, List.cons.injEq, true_and] at heq
      obtain ⟨rfl, hrests⟩ := hc.split hc' (stops_rparen _) (stops_rparen _) heq
      obtain ⟨rfl, hrest⟩ := ih hs' (fun _ => hends rfl) (fun _ => hends' rfl)
        (List.cons.inj hrests).2
      exact ⟨rfl, hrest⟩
    | ifElse hc' hs' hclosed _ =>
      simp only [List.cons_append, List.append_assoc, List.cons.injEq, true_and] at heq
      obtain ⟨rfl, hrests⟩ := hc.split hc' (stops_rparen _) (stops_rparen _) heq
      obtain ⟨_, rfl⟩ := ih hs' (fun _ => hends rfl) (ends_of_closed hclosed _)
        (List.cons.inj hrests).2
      exact (hends rfl rfl).elim
    | jump => exact (keyword_ne_opening_jump (by decide) hopening).elim
    | _ => simp [Statement.opening] at hopening
  | ifElse hc hs hclosed hu ihs ihu =>
    intro us rest rest' u h' hends hends' heq
    have hopening := (ParsesStmt.ifElse hc hs hclosed hu).opening_eq h' heq
    cases h' with
    | ifOnly hc' hs' =>
      simp only [List.cons_append, List.append_assoc, List.cons.injEq, true_and] at heq
      obtain ⟨rfl, hrests⟩ := hc.split hc' (stops_rparen _) (stops_rparen _) heq
      obtain ⟨_, rfl⟩ := ihs hs' (ends_of_closed hclosed _) (fun _ => hends' rfl)
        (List.cons.inj hrests).2
      exact (hends' rfl rfl).elim
    | ifElse hc' hs' hclosed' hu' =>
      simp only [List.cons_append, List.append_assoc, List.cons.injEq, true_and] at heq
      obtain ⟨rfl, hrests⟩ := hc.split hc' (stops_rparen _) (stops_rparen _) heq
      obtain ⟨rfl, hrests⟩ := ihs hs' (ends_of_closed hclosed _) (ends_of_closed hclosed' _)
        (List.cons.inj hrests).2
      obtain ⟨rfl, hrest⟩ := ihu hu' hends hends' (List.cons.inj hrests).2
      exact ⟨rfl, hrest⟩
    | jump => exact (keyword_ne_opening_jump (by decide) hopening).elim
    | _ => simp [Statement.opening] at hopening
  | «for» htype hx ha hc hy hs ih =>
    intro us rest rest' u h' hends hends' heq
    have hopening := (ParsesStmt.for htype hx ha hc hy hs).opening_eq h' heq
    cases h' with
    | «for» _ _ ha' hc' _ hs' =>
      simp only [List.cons_append, List.append_assoc, List.cons.injEq, Token.word.injEq,
        true_and] at heq
      obtain ⟨rfl, rfl, hstarts⟩ := heq
      obtain ⟨rfl, htests⟩ := ha.split ha' (stops_semicolon _) (stops_semicolon _) hstarts
      obtain ⟨rfl, hsteps⟩ := hc.split hc' (stops_semicolon _) (stops_semicolon _)
        (List.cons.inj htests).2
      simp only [List.cons.injEq, Token.word.injEq, true_and] at hsteps
      obtain ⟨rfl, hbodies⟩ := hsteps
      obtain ⟨rfl, hrest⟩ := ih hs' hends hends' hbodies
      exact ⟨rfl, hrest⟩
    | jump => exact (keyword_ne_opening_jump (by decide) hopening).elim
    | _ => simp [Statement.opening] at hopening
  | «while» hc hs ih =>
    intro us rest rest' u h' hends hends' heq
    have hopening := (ParsesStmt.while hc hs).opening_eq h' heq
    cases h' with
    | «while» hc' hs' =>
      simp only [List.cons_append, List.append_assoc, List.cons.injEq, true_and] at heq
      obtain ⟨rfl, hrests⟩ := hc.split hc' (stops_rparen _) (stops_rparen _) heq
      obtain ⟨rfl, hrest⟩ := ih hs' hends hends' (List.cons.inj hrests).2
      exact ⟨rfl, hrest⟩
    | jump => exact (keyword_ne_opening_jump (by decide) hopening).elim
    | _ => simp [Statement.opening] at hopening
  | @jump kind =>
    intro us rest rest' u h' hends hends' heq
    have hopening := (ParsesStmt.jump).opening_eq h' heq
    cases h' with
    | jump =>
      obtain rfl := jumpWord_injective (Opening.keyword.inj hopening)
      cases heq
      exact ⟨rfl, rfl⟩
    | ifOnly | ifElse | «for» | «while» =>
      exact (keyword_ne_opening_jump (by decide) hopening.symm).elim
    | _ => cases hopening
  | block hss ih =>
    intro us rest rest' u h' hends hends' heq
    have hopening := (ParsesStmt.block hss).opening_eq h' heq
    cases h' with
    | block hss' =>
      simp only [List.cons_append, List.append_assoc, List.cons.injEq, true_and] at heq
      obtain ⟨rfl, hrests⟩ := ih hss' ⟨_, rfl⟩ ⟨_, rfl⟩ heq
      exact ⟨rfl, (List.cons.inj hrests).2⟩
    | _ => cases hopening
  | nil =>
    intro us rest rest' tt h' hends hends' heq
    cases h' with
    | nil => exact ⟨rfl, heq⟩
    | cons hs' _ =>
      rw [List.append_assoc] at heq
      exact (hs'.append_ne_ending hends heq.symm).elim
  | cons hs hss ihs ihss =>
    intro us rest rest' tt h' hends hends' heq
    cases h' with
    | nil =>
      rw [List.append_assoc] at heq
      exact (hs.append_ne_ending hends' heq).elim
    | cons hs' hss' =>
      simp only [List.append_assoc] at heq
      obtain ⟨rfl, hrests⟩ := ihs hs' (fun _ => hss.head?_ne_else hends)
        (fun _ => hss'.head?_ne_else hends') heq
      obtain ⟨rfl, hrest⟩ := ihss hss' hends hends' hrests
      exact ⟨rfl, hrest⟩

/-- A list of tokens is one statement at most. -/
theorem ParsesStmt.unique {ts : List Token} {s u : Statement} (h : ParsesStmt ts (.stmt s))
    (h' : ParsesStmt ts (.stmt u)) : s = u := by
  have hends : ∀ s, (ParsedStatement.stmt s).Ends [] := fun _ _ => by simp
  exact (h.determined h' (hends s) (hends u) rfl).1

end ComputeKernel.Reading
