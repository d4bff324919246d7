import ComputeKernel.Proofs.Reading.Names
import ComputeKernel.Proofs.Reading.Statements
import Mathlib.Data.List.TakeWhile

/-!
The text of a body and its one reading. Where the expressions of the statements are read as they should
be and no name is a keyword, the tokens of the lines are those of the statements, and the grammar reads
the statements back from them.
-/

namespace ComputeKernel.Reading

open Shader (isTypeName rank unaryRank relationalRank indent jumpLine)
open Shader.Stmt (lines elseLines blockLines listLines bodyText)

/-! ### Texts of several lines -/

/-- The end of a line sets tokens apart as a blank does. -/
def blank (c : Char) : Char := if c = '\n' then ' ' else c

/-- Whether the text of a body is read as a statement. -/
def ReadsBody (text : String) (s : Statement) : Prop :=
  ∃ ts, lex (text.toList.map blank) = some ts ∧ ParsesStmt ts (.stmt s)

theorem ReadsBody.unique {text : String} {s u : Statement} (h : ReadsBody text s)
    (h' : ReadsBody text u) : s = u := by
  obtain ⟨ts, hlex, hparses⟩ := h
  obtain ⟨us, hlex', hparses'⟩ := h'
  obtain rfl := Option.some.inj (hlex.symm.trans hlex')
  exact hparses.unique hparses'

/-- The characters of lines, each with a blank in front of it. -/
def spaced (ls : List String) : List Char := ls.flatMap fun line => ' ' :: line.toList

theorem numberTail_prefix (prev : Char) (cs : List Char) : numberTail prev cs <+: cs := by
  induction cs generalizing prev with
  | nil => exact List.prefix_refl _
  | cons c cs ih =>
    rw [numberTail]
    split
    · exact List.cons_prefix_cons.mpr ⟨rfl, ih c⟩
    · exact List.nil_prefix

theorem newline_not_mem_numberTail (prev : Char) (cs : List Char) : '\n' ∉ numberTail prev cs := by
  induction cs generalizing prev with
  | nil => exact List.not_mem_nil
  | cons c cs ih =>
    rw [numberTail]
    split
    · rename_i hc
      refine List.not_mem_cons_of_ne_of_not_mem ?_ (ih c)
      rintro rfl
      revert hc
      simp [continuesNumber, isIdentContinue, isIdentStart, Text.isDigit]
    · exact List.not_mem_nil

/-- A token takes up what a text begins with, and no end of a line. -/
theorem front?_eq_some {c : Char} {cs chars : List Char} {token : Token}
    (h : front? c cs = some (token, chars)) :
    ∃ more, chars = c :: more ∧ more <+: cs ∧ '\n' ∉ c :: more := by
  unfold front? at h
  split at h
  · rename_i hc
    obtain ⟨_, rfl⟩ := Prod.mk.inj (Option.some.inj h)
    have hword := List.takeWhile_cons_of_pos (l := cs) (isIdentContinue_of_isIdentStart hc)
    refine ⟨_, hword, List.takeWhile_prefix _, fun hmem => ?_⟩
    rw [← hword] at hmem
    exact absurd (List.mem_takeWhile_imp hmem) (by decide)
  · split at h
    · rename_i hdigit
      obtain ⟨_, rfl⟩ := Prod.mk.inj (Option.some.inj h)
      refine ⟨_, rfl, numberTail_prefix c cs, List.not_mem_cons_of_ne_of_not_mem ?_
        (newline_not_mem_numberTail c cs)⟩
      rintro rfl
      revert hdigit
      simp [startsWithPoint, Text.isDigit]
    · obtain ⟨⟨mark, m⟩, hfind, hmark⟩ := Option.map_eq_some_iff.mp h
      obtain ⟨_, rfl⟩ := Prod.mk.inj hmark
      have hall : ∀ p ∈ marks, p.1 ≠ [] ∧ '\n' ∉ p.1 := by decide
      obtain ⟨hne, hnewline⟩ := hall _ (List.mem_of_find?_eq_some hfind)
      unfold longestMark? at hfind
      have hfound := List.find?_some hfind
      have hfront := List.isPrefixOf_iff_prefix.mp hfound
      cases mark with
      | nil => exact (hne rfl).elim
      | cons d more =>
        obtain ⟨rfl, hmore⟩ := List.cons_prefix_cons.mp hfront
        exact ⟨more, rfl, hmore, hnewline⟩

/-- No line ends within what is cut into tokens. -/
theorem newline_not_mem_of_lex {cs : List Char} {ts : List Token} (h : lex cs = some ts) :
    '\n' ∉ cs := by
  fun_induction lex cs generalizing ts with
  | case1 => exact List.not_mem_nil
  | case2 cs ih => exact List.not_mem_cons_of_ne_of_not_mem (by decide) (ih h)
  | case3 c cs hc token chars hfront ih =>
    obtain ⟨us, hrest, _⟩ := Option.map_eq_some_iff.mp h
    obtain ⟨more, rfl, ⟨rest, rfl⟩, hnewline⟩ := front?_eq_some hfront
    simp only [List.length_cons, Nat.add_sub_cancel, List.drop_left] at hrest ih
    rw [← List.cons_append]
    exact List.not_mem_append hnewline (ih hrest)
  | case4 => cases h

theorem cons_map_blank_intercalate (l : String) (ls : List String) :
    ' ' :: ("\n".intercalate (l :: ls)).toList.map blank = (spaced (l :: ls)).map blank := by
  induction ls generalizing l with
  | nil => simp [spaced, blank]
  | cons l' ls ih =>
    have hrest := ih l'
    rw [String.intercalate_cons_cons, spaced, List.flatMap_cons, List.map_append, ← spaced, ← hrest]
    simp [blank]

theorem map_blank {cs : List Char} (h : '\n' ∉ cs) : cs.map blank = cs := by
  have hid : ∀ c ∈ cs, blank c = id c := by
    intro c hc
    refine if_neg ?_
    rintro rfl
    exact h hc
  rw [List.map_congr_left hid, List.map_id]

/-- The tokens of a text are those of its lines. -/
theorem lex_intercalate {l : String} {ls : List String} {ts : List Token}
    (h : lex (spaced (l :: ls)) = some ts) :
    lex (("\n".intercalate (l :: ls)).toList.map blank) = some ts := by
  rw [← lex_blank, cons_map_blank_intercalate, map_blank (newline_not_mem_of_lex h)]
  exact h

/-! ### Statements of code -/

/-- Whether the text of an expression is read as the expression, with no keyword in it. -/
structure Legible (c : Shader.Expr) : Prop where
  clean : Clean c
  plain : Plain (tokens c)

def IsVariable (name : String) : Prop := IsName name ∧ name ∉ keywords

/-- The operators of compound assignments. -/
def compoundOperators : List BinaryOp :=
  [.add, .sub, .mul, .div, .rem, .bitAnd, .bitOr, .bitXor, .shl, .shr]

/-- The test of a counting loop. -/
def countTest (counter : String) (inclusive : Bool) (bound : Shader.Expr) : Shader.Expr :=
  .binary (if inclusive then .le else .lt) (.var counter) bound

mutual

def StmtClean : Shader.Stmt → Prop
  | .declare type name value => IsTypeWord type ∧ IsVariable name ∧ ∀ c ∈ value, Legible c
  | .assign target op value =>
    Legible target ∧ unaryRank ≤ target.rank ∧ (∀ o ∈ op, o ∈ compoundOperators) ∧ Legible value
  | .branch condition body otherwise =>
    Legible condition ∧ AllStmtClean body ∧
      match otherwise with
      | none => True
      | some code => AllStmtClean code
  | .count type counter start inclusive bound body =>
    IsTypeWord type ∧ IsVariable counter ∧ Legible start ∧ Legible (countTest counter inclusive bound) ∧
      AllStmtClean body
  | .while condition body => Legible condition ∧ AllStmtClean body
  | .jump _ => True
  | .eval value => Legible value
  | .nested body => AllStmtClean body

def AllStmtClean : List Shader.Stmt → Prop
  | [] => True
  | s :: ss => StmtClean s ∧ AllStmtClean ss

end

mutual

/-- The statement that code is read as. -/
def statement : Shader.Stmt → Statement
  | .declare type name value => .declare type name (value.map tree)
  | .assign target op value => .assign (tree target) op (tree value)
  | .branch condition body otherwise =>
    match elseStatement otherwise with
    | none => .ifOnly (tree condition) (.block (statements body))
    | some s => .ifElse (tree condition) (.block (statements body)) s
  | .count type counter start inclusive bound body =>
    .for type counter (tree start) (tree (countTest counter inclusive bound)) counter
      (.block (statements body))
  | .while condition body => .while (tree condition) (.block (statements body))
  | .jump kind => .jump kind
  | .eval value => .eval (tree value)
  | .nested body => .block (statements body)

/-- The statement behind `else`, which is a conditional if there is nothing else. -/
def elseStatement : Option (List Shader.Stmt) → Option Statement
  | none => none
  | some [.branch condition body otherwise] => some (statement (.branch condition body otherwise))
  | some code => some (.block (statements code))

def statements : List Shader.Stmt → List Statement
  | [] => []
  | s :: ss => statement s :: statements ss

end

/-! ### Lines of code -/

/-- Text that may stand behind a line. -/
def Ended (rest : List Char) : Prop := ∀ c ∈ rest.head?, c = ' '

/-- Whether lines are cut into tokens. -/
def LinesLex (ls : List String) (ts : List Token) : Prop :=
  ∀ rest, Ended rest → LexesTo (spaced ls) ts rest

theorem ended_nil : Ended [] := by simp [Ended]

theorem ended_spaced (ls : List String) {rest : List Char} (hrest : Ended rest) :
    Ended (spaced ls ++ rest) := by
  cases ls with
  | nil => exact hrest
  | cons l ls =>
    rintro c ⟨⟩
    rfl

theorem LinesLex.append {ls ms : List String} {ts us : List Token} (h : LinesLex ls ts)
    (h' : LinesLex ms us) : LinesLex (ls ++ ms) (ts ++ us) := by
  intro rest hrest
  rw [spaced, List.flatMap_append]
  exact (h _ (ended_spaced ms hrest)).append (h' rest hrest)

theorem linesLex_nil : LinesLex [] [] := fun _ _ => by simp [LexesTo, spaced]

theorem lex_blanks (n : Nat) (cs : List Char) : lex (List.replicate n ' ' ++ cs) = lex cs := by
  induction n with
  | zero => rfl
  | succ n ih => rw [List.replicate_succ, List.cons_append, lex_blank, ih]

theorem lex_spaced_indent (depth : Nat) (line : String) (ls : List String) (rest : List Char) :
    lex (spaced (indent depth line :: ls) ++ rest) = lex (line.toList ++ (spaced ls ++ rest)) := by
  have hspaced : spaced (indent depth line :: ls) ++ rest =
      ' ' :: (List.replicate (4 * depth) ' ' ++ (line.toList ++ (spaced ls ++ rest))) := by
    simp [spaced, indent]
  rw [hspaced, lex_blank, lex_blanks]

/-- The blanks in front of a line are passed over. -/
theorem linesLex_indent {depth : Nat} {line : String} {ts : List Token}
    (h : ∀ rest, Ended rest → LexesTo line.toList ts rest) : LinesLex [indent depth line] ts := by
  intro rest hrest
  rw [LexesTo, lex_spaced_indent]
  exact h rest hrest

theorem lexesTo_word_blank {w : String} (hw : IsWord w.toList) (rest : List Char) :
    LexesTo w.toList [.word w] (' ' :: rest) :=
  .word hw (apartFromNumber_of_mem (by decide) rest).word

/-- A word in front of the first line is a token of its own. -/
theorem linesLex_lead {depth : Nat} {line : String} {ls : List String} {ts : List Token}
    (word : String) (hword : IsWord word.toList) (h : LinesLex (indent depth line :: ls) ts) :
    LinesLex (indent depth (word ++ " " ++ line) :: ls) (.word word :: ts) := by
  intro rest hrest
  have hline : (word ++ " " ++ line).toList ++ (spaced ls ++ rest) =
      word.toList ++ ' ' :: (line.toList ++ (spaced ls ++ rest)) := by simp
  have hfirst := lexesTo_word_blank hword (line.toList ++ (spaced ls ++ rest))
  have hlines := h rest hrest
  rw [LexesTo, lex_spaced_indent] at hlines
  rw [LexesTo, lex_spaced_indent, hline, hfirst, lex_blank, hlines]
  simp [Function.comp_def]

theorem Legible.lexes {c : Shader.Expr} (h : Legible c) {d : Char}
    (hd : d ∈ [' ', '(', ')', '[', ']', ',', ';']) (rest : List Char) :
    LexesTo c.text.toList (tokens c) (d :: rest) :=
  lexesTo_text h.clean (.inl (apartFromNumber_of_mem hd rest))

theorem Legible.expresses {c : Shader.Expr} (h : Legible c) : Expresses (tokens c) choiceRank (tree c) :=
  ⟨(parses_tokens h.clean).loosen (Nat.le_of_lt (one_lt_rank c)), h.plain⟩

theorem lexesTo_semicolon (rest : List Char) : LexesTo [';'] [.mark .semicolon] rest := .mark rfl rfl

theorem lexesTo_lbrace (rest : List Char) : LexesTo ['\x7b'] [.mark .lbrace] rest := .mark rfl rfl

theorem lexesTo_rbrace (rest : List Char) : LexesTo ['\x7d'] [.mark .rbrace] rest := .mark rfl rfl

theorem lexesTo_increment (rest : List Char) : LexesTo ['+', '+'] [.mark .increment] rest :=
  .mark rfl rfl

theorem lexesTo_equals (rest : List Char) :
    LexesTo ['='] [.mark (.assignment none)] (' ' :: rest) := .mark rfl rfl

def assignmentText (op : Option BinaryOp) : String :=
  (match op with
    | some op => op.symbol
    | none => "") ++ "="

theorem lexesTo_assignment (op : Option BinaryOp) (hop : ∀ o ∈ op, o ∈ compoundOperators)
    (rest : List Char) :
    LexesTo (assignmentText op).toList [.mark (.assignment op)] (' ' :: rest) := by
  cases op with
  | none => exact lexesTo_equals rest
  | some o =>
    have ho := hop o rfl
    cases o <;> first | exact .mark rfl rfl | exact absurd ho (by decide)

/-- A block is read from its lines if its statements are. -/
theorem linesLex_block {depth : Nat} {body : List Shader.Stmt} {ts : List Token}
    (h : LinesLex (listLines (depth + 1) body) ts) :
    LinesLex (blockLines depth body) (.mark .lbrace :: (ts ++ [.mark .rbrace])) := by
  rw [blockLines]
  have hopen : LinesLex [indent depth "\x7b"] [.mark .lbrace] :=
    linesLex_indent fun rest _ => lexesTo_lbrace rest
  have hclose : LinesLex [indent depth "\x7d"] [.mark .rbrace] :=
    linesLex_indent fun rest _ => lexesTo_rbrace rest
  exact hopen.append (h.append hclose)

/-- Whether lines, at whatever depth, are those of a statement. -/
def Writes (ls : Nat → List String) (s : Statement) : Prop :=
  ∃ ts, ParsesStmt ts (.stmt s) ∧ ∀ depth, LinesLex (ls depth) ts

/-- Whether the lines of statements are those that the statements stand for. -/
def WritesAll (code : List Shader.Stmt) : Prop :=
  ∃ ts, ParsesStmt ts (.stmts (statements code)) ∧ ∀ depth, LinesLex (listLines depth code) ts

theorem WritesAll.block {code : List Shader.Stmt} (h : WritesAll code) :
    Writes (blockLines · code) (.block (statements code)) := by
  obtain ⟨ts, hparses, hlines⟩ := h
  exact ⟨_, .block hparses, fun depth => linesLex_block (hlines (depth + 1))⟩

/-- One statement alone is written as it is among others. -/
theorem WritesAll.single {s : Shader.Stmt} (h : WritesAll [s]) : Writes (lines · "" s) (statement s) := by
  obtain ⟨ts, hparses, hlines⟩ := h
  simp only [statements, listLines, List.append_nil] at hparses hlines
  cases hparses with
  | cons hs hnil =>
    cases hnil
    rw [List.append_nil] at hlines
    exact ⟨_, hs, hlines⟩

theorem writes_declare {type name : String} (htype : IsTypeWord type) (hname : IsVariable name) :
    Writes (lines · "" (.declare type name none)) (.declare type name none) := by
  refine ⟨_, .declare htype.2 ⟨hname.1.2, hname.2⟩, fun depth => ?_⟩
  simp only [lines]
  refine linesLex_indent fun rest _ => ?_
  have hline : (type ++ " " ++ name ++ "" ++ ";").toList =
      type.toList ++ ' ' :: (name.toList ++ [';']) := by simp
  rw [hline]
  exact (lexesTo_word_blank htype.1 _).append ((LexesTo.word hname.1.1
    (apartFromNumber_of_mem (by decide) _).word).append (lexesTo_semicolon rest)).blank

theorem writes_set {type name : String} {c : Shader.Expr} (htype : IsTypeWord type)
    (hname : IsVariable name) (hc : Legible c) :
    Writes (lines · "" (.declare type name (some c))) (.declare type name (some (tree c))) := by
  refine ⟨_, .set htype.2 ⟨hname.1.2, hname.2⟩ hc.expresses, fun depth => ?_⟩
  simp only [lines]
  refine linesLex_indent fun rest _ => ?_
  have hline : (type ++ " " ++ name ++ (" = " ++ c.text) ++ ";").toList =
      type.toList ++ ' ' :: (name.toList ++ ' ' :: (['='] ++ ' ' :: (c.text.toList ++ [';']))) := by
    simp
  have hvalue := ((hc.lexes (by decide) _).append (lexesTo_semicolon rest)).blank
  have hmark := ((lexesTo_equals _).append hvalue).blank
  rw [hline]
  exact (lexesTo_word_blank htype.1 _).append ((lexesTo_word_blank hname.1.1 _).append hmark).blank

theorem writes_assign {target value : Shader.Expr} {op : Option BinaryOp} (htarget : Legible target)
    (hrank : unaryRank ≤ target.rank) (hop : ∀ o ∈ op, o ∈ compoundOperators) (hvalue : Legible value) :
    Writes (lines · "" (.assign target op value)) (.assign (tree target) op (tree value)) := by
  refine ⟨_, .assign ⟨(parses_tokens htarget.clean).loosen hrank, htarget.plain⟩ hvalue.expresses,
    fun depth => ?_⟩
  have hlines : lines depth "" (.assign target op value) =
      [indent depth (target.text ++ " " ++ assignmentText op ++ " " ++ value.text ++ ";")] := by
    cases op <;> simp [lines, assignmentText, String.append_assoc]
  simp only [hlines]
  refine linesLex_indent fun rest _ => ?_
  have hline : (target.text ++ " " ++ assignmentText op ++ " " ++ value.text ++ ";").toList =
      target.text.toList ++ ' ' :: ((assignmentText op).toList ++ ' ' ::
        (value.text.toList ++ [';'])) := by simp
  have hmark := (lexesTo_assignment op hop _).append
    ((hvalue.lexes (by decide) _).append (lexesTo_semicolon rest)).blank
  rw [hline]
  exact (htarget.lexes (by decide) _).append hmark.blank

theorem writes_eval {c : Shader.Expr} (hc : Legible c) :
    Writes (lines · "" (.eval c)) (.eval (tree c)) := by
  refine ⟨_, .eval hc.expresses, fun depth => ?_⟩
  simp only [lines]
  refine linesLex_indent fun rest _ => ?_
  rw [String.toList_append]
  exact (hc.lexes (by decide) _).append (lexesTo_semicolon rest)

theorem writes_jump (kind : Jump) : Writes (lines · "" (.jump kind)) (.jump kind) := by
  refine ⟨_, .jump, fun depth => ?_⟩
  simp only [lines]
  refine linesLex_indent fun rest _ => ?_
  have hline : (jumpLine kind).toList = (jumpWord kind).toList ++ [';'] := by cases kind <;> rfl
  have hword : IsWord (jumpWord kind).toList := by cases kind <;> decide
  rw [hline]
  exact (LexesTo.word hword (apartFromNumber_of_mem (by decide) _).word).append
    (lexesTo_semicolon rest)

/-- The line in front of the body of a conditional or a loop. -/
theorem linesLex_head (depth : Nat) (word : String) {c : Shader.Expr} (hword : IsWord word.toList)
    (hc : Legible c) : LinesLex [indent depth (word ++ " (" ++ c.text ++ ")")]
      (.word word :: .mark .lparen :: (tokens c ++ [.mark .rparen])) := by
  refine linesLex_indent fun rest _ => ?_
  have hline : (word ++ " (" ++ c.text ++ ")").toList =
      word.toList ++ ' ' :: (['('] ++ (c.text.toList ++ [')'])) := by simp
  rw [hline]
  exact (lexesTo_word_blank hword _).append ((lexesTo_lparen _).append
    ((hc.lexes (by decide) _).append (lexesTo_rparen rest))).blank

theorem writes_while {c : Shader.Expr} {body : List Shader.Stmt} {ss : List Statement} (hc : Legible c)
    (hbody : Writes (blockLines · body) (.block ss)) :
    Writes (lines · "" (.while c body)) (.while (tree c) (.block ss)) := by
  obtain ⟨ts, hparses, hlines⟩ := hbody
  refine ⟨_, .while hc.expresses hparses, fun depth => ?_⟩
  have hhead := linesLex_head depth "while" (by decide) hc
  simpa [lines, String.append_assoc] using hhead.append (hlines depth)

theorem writes_ifOnly {c : Shader.Expr} {body : List Shader.Stmt} {ss : List Statement} (hc : Legible c)
    (hbody : Writes (blockLines · body) (.block ss)) :
    Writes (lines · "" (.branch c body none)) (.ifOnly (tree c) (.block ss)) := by
  obtain ⟨ts, hparses, hlines⟩ := hbody
  refine ⟨_, .ifOnly hc.expresses hparses, fun depth => ?_⟩
  have hhead := linesLex_head depth "if" (by decide) hc
  simpa [lines, elseLines, String.append_assoc] using hhead.append (hlines depth)

/-- Whether lines are those of a statement with an `else` in front of it. -/
def WritesElse (ls : Nat → List String) (s : Statement) : Prop :=
  ∃ ts, ParsesStmt ts (.stmt s) ∧ ∀ depth, LinesLex (ls depth) (.word "else" :: ts)

theorem writes_ifElse {c : Shader.Expr} {body : List Shader.Stmt}
    {otherwise : Option (List Shader.Stmt)} {ss : List Statement} {u : Statement} (hc : Legible c)
    (hbody : Writes (blockLines · body) (.block ss)) (helse : WritesElse (elseLines · otherwise) u) :
    Writes (lines · "" (.branch c body otherwise)) (.ifElse (tree c) (.block ss) u) := by
  obtain ⟨ts, hparses, hlines⟩ := hbody
  obtain ⟨us, hparsesElse, hlinesElse⟩ := helse
  refine ⟨_, .ifElse hc.expresses hparses rfl hparsesElse, fun depth => ?_⟩
  have hhead := linesLex_head depth "if" (by decide) hc
  simpa [lines, String.append_assoc] using hhead.append ((hlines depth).append (hlinesElse depth))

theorem writesElse_branch {c : Shader.Expr} {body : List Shader.Stmt}
    {otherwise : Option (List Shader.Stmt)} {u : Statement}
    (h : Writes (lines · "" (.branch c body otherwise)) u) :
    WritesElse (elseLines · (some [.branch c body otherwise])) u := by
  obtain ⟨ts, hparses, hlines⟩ := h
  refine ⟨ts, hparses, fun depth => ?_⟩
  have hbranch : ∀ lead, lines depth lead (.branch c body otherwise) =
      indent depth (lead ++ ("if (" ++ c.text ++ ")")) ::
        (blockLines depth body ++ elseLines depth otherwise) := by
    simp [lines, String.append_assoc]
  have hlead := hlines depth
  simp only [hbranch, String.empty_append] at hlead
  have helse := linesLex_lead "else" (by decide) hlead
  simp only [elseLines, hbranch]
  rwa [String.append_assoc] at helse

theorem writesElse_block {code : List Shader.Stmt} {ss : List Statement}
    (h : Writes (blockLines · code) (.block ss)) (hcode : ∀ c b o, code ≠ [.branch c b o]) :
    WritesElse (elseLines · (some code)) (.block ss) := by
  obtain ⟨ts, hparses, hlines⟩ := h
  refine ⟨ts, hparses, fun depth => ?_⟩
  have hhead : LinesLex [indent depth "else"] [.word "else"] := linesLex_indent fun rest hrest =>
    LexesTo.word (by decide) fun d hd => by rw [hrest d hd]; decide
  have helse : elseLines depth (some code) = indent depth "else" :: blockLines depth code := by
    rw [elseLines]
    exact fun c b o => hcode c b o
  simp only [helse]
  exact hhead.append (hlines depth)

theorem writesElse_of_writesAll {code : List Shader.Stmt} (h : WritesAll code) :
    ∃ u, elseStatement (some code) = some u ∧ WritesElse (elseLines · (some code)) u := by
  by_cases hbranch : ∃ c b o, code = [.branch c b o]
  · obtain ⟨c, b, o, rfl⟩ := hbranch
    exact ⟨_, by rw [elseStatement], writesElse_branch h.single⟩
  · have hcode : ∀ c b o, code ≠ [.branch c b o] := fun c b o hcode => hbranch ⟨c, b, o, hcode⟩
    refine ⟨_, ?_, writesElse_block h.block hcode⟩
    rw [elseStatement]
    exact fun c b o => hcode c b o

theorem writes_count {type counter : String} {start bound : Shader.Expr} {inclusive : Bool}
    {body : List Shader.Stmt} {ss : List Statement} (htype : IsTypeWord type)
    (hcounter : IsVariable counter) (hstart : Legible start)
    (htest : Legible (countTest counter inclusive bound))
    (hbody : Writes (blockLines · body) (.block ss)) :
    Writes (lines · "" (.count type counter start inclusive bound body))
      (.for type counter (tree start) (tree (countTest counter inclusive bound)) counter
        (.block ss)) := by
  obtain ⟨ts, hparses, hlines⟩ := hbody
  have hname : IsIdentifier counter := ⟨hcounter.1.2, hcounter.2⟩
  refine ⟨_, .for htype.2 hname hstart.expresses htest.expresses hname hparses, fun depth => ?_⟩
  have hhead : LinesLex
      [indent depth ("for (" ++ type ++ " " ++ counter ++ " = " ++ start.text ++ "; " ++
        (countTest counter inclusive bound).text ++ "; " ++ counter ++ "++)")]
      (.word "for" :: .mark .lparen :: .word type :: .word counter :: .mark (.assignment none) ::
        (tokens start ++ .mark .semicolon :: (tokens (countTest counter inclusive bound) ++
          [.mark .semicolon, .word counter, .mark .increment, .mark .rparen]))) := by
    refine linesLex_indent fun rest _ => ?_
    have hline : ("for (" ++ type ++ " " ++ counter ++ " = " ++ start.text ++ "; " ++
          (countTest counter inclusive bound).text ++ "; " ++ counter ++ "++)").toList =
        "for".toList ++ ' ' :: (['('] ++ (type.toList ++ ' ' :: (counter.toList ++ ' ' ::
          (['='] ++ ' ' :: (start.text.toList ++ ([';'] ++ ' ' ::
            ((countTest counter inclusive bound).text.toList ++ ([';'] ++ ' ' ::
              (counter.toList ++ (['+', '+'] ++ [')'])))))))))) := by simp
    have hword : ApartFromWord ((['+', '+'] ++ [')']) ++ rest) := by
      rintro d ⟨⟩
      decide
    have hstep := ((lexesTo_semicolon _).append ((LexesTo.word hcounter.1.1 hword).append
      ((lexesTo_increment _).append (lexesTo_rparen rest))).blank)
    have htest := ((lexesTo_semicolon _).append ((htest.lexes (by decide) _).append hstep).blank)
    have hstart := ((lexesTo_equals _).append
      ((hstart.lexes (by decide) _).append htest).blank)
    have hdeclare := (lexesTo_word_blank htype.1 _).append
      ((lexesTo_word_blank hcounter.1.1 _).append hstart.blank).blank
    rw [hline]
    exact (lexesTo_word_blank (w := "for") (by decide) _).append ((lexesTo_lparen _).append hdeclare).blank
  have hcount : lines depth "" (.count type counter start inclusive bound body) =
      indent depth ("for (" ++ type ++ " " ++ counter ++ " = " ++ start.text ++ "; " ++
        (countTest counter inclusive bound).text ++ "; " ++ counter ++ "++)") ::
        blockLines depth body := by
    cases inclusive <;> simp [lines, countTest, Shader.Expr.text, BinaryOp.symbol, String.append_assoc]
  have happend := hhead.append (hlines depth)
  simp only [hcount]
  simpa using happend

mutual

/-- Clean code is written as the statement that it stands for. -/
theorem writes_statement : ∀ {s : Shader.Stmt}, StmtClean s → Writes (lines · "" s) (statement s)
  | .declare _ _ none, ⟨htype, hname, _⟩ => writes_declare htype hname
  | .declare _ _ (some _), ⟨htype, hname, hvalue⟩ => writes_set htype hname (hvalue _ rfl)
  | .assign .., ⟨htarget, hrank, hop, hvalue⟩ => writes_assign htarget hrank hop hvalue
  | .branch _ _ none, ⟨hc, hbody, _⟩ => writes_ifOnly hc (writesAll hbody).block
  | .branch _ _ (some _), ⟨hc, hbody, hcode⟩ => by
    obtain ⟨u, hu, helse⟩ := writesElse_of_writesAll (writesAll hcode)
    rw [statement, hu]
    exact writes_ifElse hc (writesAll hbody).block helse
  | .count .., ⟨htype, hcounter, hstart, htest, hbody⟩ =>
    writes_count htype hcounter hstart htest (writesAll hbody).block
  | .while .., ⟨hc, hbody⟩ => writes_while hc (writesAll hbody).block
  | .jump kind, _ => writes_jump kind
  | .eval _, hc => writes_eval hc
  | .nested _, hbody => by
    simpa only [lines, statement] using (writesAll hbody).block

theorem writesAll : ∀ {code : List Shader.Stmt}, AllStmtClean code → WritesAll code
  | [], _ => ⟨[], .nil, fun _ => by rw [listLines]; exact linesLex_nil⟩
  | _ :: _, ⟨hs, hcode⟩ => by
    obtain ⟨ts, hparses, hlines⟩ := writes_statement hs
    obtain ⟨us, hrest, hlinesRest⟩ := writesAll hcode
    refine ⟨ts ++ us, .cons hparses hrest, fun depth => ?_⟩
    rw [listLines]
    exact (hlines depth).append (hlinesRest depth)

end

/-- The text of clean code has one reading, which is the block of the statements of the code. -/
theorem readsBody_bodyText_iff {code : List Shader.Stmt} (h : AllStmtClean code) (s : Statement) :
    ReadsBody (bodyText code) s ↔ s = .block (statements code) := by
  obtain ⟨ts, hparses, hlines⟩ := (writesAll h).block
  have hlex : lex (spaced (blockLines 0 code)) = some ts := by
    simpa [LexesTo, lex_nil] using hlines 0 [] ended_nil
  have hreads : ReadsBody (bodyText code) (.block (statements code)) := by
    refine ⟨ts, ?_, hparses⟩
    rw [blockLines] at hlex
    rw [bodyText, blockLines]
    exact lex_intercalate hlex
  constructor
  · exact fun hs => hs.unique hreads
  · rintro rfl
    exact hreads

end ComputeKernel.Reading
