import ComputeKernel.Proofs.Lexing.Stability

/-!
White space between tokens is free. White space that is put in behind tokens of a source changes neither
what its lexemes are nor that it is clean. The one place where it is not free is behind the point of a
method on an integer: `1.max` has three lexemes, but in `1. max` the point belongs to the number.
-/

namespace ComputeKernel

/-! ### Lexemes of a text -/

/-- The lexemes of a text without faults. -/
inductive Lexes : List Char → List Lexeme → Prop where
  | nil : Lexes [] []
  | skip {cs rest : List Char} {p : Piece} {ls : List Lexeme} : Piece.next? cs = some (p, rest) →
      p.lexeme = none → p.faults = [] → Lexes rest ls → Lexes cs ls
  | lexeme {cs rest : List Char} {p : Piece} {l : Lexeme} {ls : List Lexeme} :
      Piece.next? cs = some (p, rest) → p.lexeme = some l → p.faults = [] → Lexes rest ls →
      Lexes cs (l :: ls)

namespace Piece

theorem diagnostics_eq_nil_iff {offset : Nat} {ps : List Piece} :
    diagnostics offset ps = [] ↔ ∀ p ∈ ps, p.faults = [] := by
  induction ps generalizing offset with
  | nil => simp [diagnostics]
  | cons p ps ih => rw [diagnostics, List.append_eq_nil_iff, List.map_eq_nil_iff, ih,
      List.forall_mem_cons]

theorem map_lexeme_tokens (offset : Nat) (ps : List Piece) :
    (tokens offset ps).map Token.lexeme = ps.filterMap (·.lexeme) := by
  induction ps generalizing offset with
  | nil => rfl
  | cons p ps ih =>
    rw [tokens]
    cases hl : p.lexeme with
    | none => rw [List.filterMap_cons_none hl, ih]
    | some l => rw [List.filterMap_cons_some hl, List.map_cons, ih]

/-- A text is cut as it is lexed. -/
theorem cut_of_lexes {limit : Nat} {cs : List Char} {ls : List Lexeme} (h : Lexes cs ls)
    (hlimit : cs.length ≤ limit) :
    (∀ p ∈ cut limit cs, p.faults = []) ∧ (cut limit cs).filterMap (·.lexeme) = ls := by
  induction h generalizing limit with
  | nil => cases limit <;> exact ⟨nofun, rfl⟩
  | skip hnext hl hfaults _ ih =>
    have hlt := length_lt_of_next? hnext
    obtain ⟨limit, rfl⟩ : ∃ n, limit = n + 1 := ⟨limit - 1, by omega⟩
    obtain ⟨hclean, hlexemes⟩ := ih (Nat.le_of_lt_succ (Nat.lt_of_lt_of_le hlt hlimit))
    rw [cut, hnext]
    exact ⟨List.forall_mem_cons.mpr ⟨hfaults, hclean⟩,
      (List.filterMap_cons_none hl).trans hlexemes⟩
  | lexeme hnext hl hfaults _ ih =>
    have hlt := length_lt_of_next? hnext
    obtain ⟨limit, rfl⟩ : ∃ n, limit = n + 1 := ⟨limit - 1, by omega⟩
    obtain ⟨hclean, hlexemes⟩ := ih (Nat.le_of_lt_succ (Nat.lt_of_lt_of_le hlt hlimit))
    rw [cut, hnext]
    exact ⟨List.forall_mem_cons.mpr ⟨hfaults, hclean⟩,
      (List.filterMap_cons_some hl).trans (congrArg _ hlexemes)⟩

end Piece

/-- The tokens of a source without faults. -/
theorem tokenize_of_lexes {source : String} {ls : List Lexeme} (h : Lexes source.toList ls) :
    (tokenize source).2 = [] ∧ (tokenize source).1.map Token.lexeme = ls ++ [.endOfInput] := by
  obtain ⟨hclean, hlexemes⟩ := Piece.cut_of_lexes h (Nat.le_refl _)
  refine ⟨Piece.diagnostics_eq_nil_iff.mpr hclean, ?_⟩
  simp only [tokenize, List.map_append, Piece.map_lexeme_tokens, List.map_cons, List.map_nil]
  rw [show (pieces source.toList).filterMap (·.lexeme) = ls from hlexemes]

/-! ### White space and comments -/

theorem lexes_dropWhile_iff {cs : List Char} {ls : List Lexeme} :
    Lexes (cs.dropWhile Text.isSpace) ls ↔ Lexes cs ls := by
  cases cs with
  | nil => rfl
  | cons c cs =>
    by_cases hc : Text.isSpace c
    · have hblank : Piece.next? (c :: cs) = some (Piece.blank (c :: cs)) := by
        rw [Piece.next?_of_cons rfl, if_pos hc]
      refine ⟨.skip hblank rfl rfl, fun h => ?_⟩
      cases h with
      | skip hnext _ _ hrest =>
        cases hblank.symm.trans hnext
        exact hrest
      | lexeme hnext hl _ _ =>
        cases hblank.symm.trans hnext
        cases hl
    · rw [List.dropWhile_cons_of_neg hc]

/-- White space in front of a text makes no difference. -/
theorem lexes_append_iff {blanks cs : List Char} {ls : List Lexeme}
    (h : ∀ c ∈ blanks, Text.isSpace c) : Lexes (blanks ++ cs) ls ↔ Lexes cs ls := by
  rw [← lexes_dropWhile_iff, List.dropWhile_append_of_pos h, lexes_dropWhile_iff]

/-- A line comment takes in what is put behind it on its line. -/
theorem lexes_line {text blanks rest : List Char} {ls : List Lexeme} (htext : '\n' ∉ text)
    (hblanks : ∀ c ∈ blanks, Text.isSpace c) (hrest : ∀ c ∈ rest.head?, c = '\n')
    (h : Lexes (blanks ++ rest) ls) : Lexes ('/' :: '/' :: text ++ (blanks ++ rest)) ls := by
  have hline : Piece.next? ('/' :: '/' :: text ++ (blanks ++ rest)) =
      some (Piece.lineComment ('/' :: '/' :: text ++ (blanks ++ rest))) := rfl
  have hdrop : ('/' :: '/' :: text ++ (blanks ++ rest)).dropWhile (· ≠ '\n') =
      blanks.dropWhile (· ≠ '\n') ++ rest := by
    rw [List.dropWhile_append_of_pos (by simpa using fun c hc => by rintro rfl; exact htext hc)]
    rw [List.dropWhile_append]
    split
    · rename_i hnone
      rw [List.isEmpty_iff.mp hnone]
      cases rest with
      | nil => rfl
      | cons c rest =>
        obtain rfl := hrest c rfl
        rfl
    · rfl
  refine .skip hline rfl rfl ?_
  change Lexes (('/' :: '/' :: text ++ (blanks ++ rest)).dropWhile (· ≠ '\n')) ls
  rw [hdrop]
  refine (lexes_append_iff fun c hc => hblanks c ((List.dropWhile_sublist _).subset hc)).mpr ?_
  exact (lexes_append_iff hblanks).mp h

theorem lexes_block {text rest : List Char} {ls : List Lexeme} (htext : Closes 1 text)
    (h : Lexes rest ls) : Lexes ('/' :: '*' :: text ++ rest) ls := by
  have hsplit : splitComment 0 ('/' :: '*' :: text ++ rest) = ('/' :: '*' :: text, some rest) := by
    simp [splitComment, splitComment_of_closes htext]
  have hblock : Piece.next? ('/' :: '*' :: text ++ rest) =
      some ({ text := '/' :: '*' :: text }, rest) := by
    have hnext : Piece.next? ('/' :: '*' :: text ++ rest) =
        some (Piece.blockComment ('/' :: '*' :: text ++ rest)) := rfl
    rw [hnext, Piece.blockComment, hsplit]
  exact .skip hblock rfl rfl h

/-- A comment that a clean text is cut into is closed. -/
theorem Piece.closed_of_clean {cs rest : List Char} {p : Piece} (h : next? cs = some (p, rest))
    (hfaults : p.faults = []) (hcomment : IsComment rest p.text) :
    (∃ text, p.text = '/' :: '/' :: text ∧ '\n' ∉ text ∧ ∀ c ∈ rest.head?, c = '\n') ∨
      ∃ text, p.text = '/' :: '*' :: text ∧ Closes 1 text := by
  have hparts := next?_append h
  generalize htext : p.text = ctext at hcomment hparts
  cases hcomment with
  | line hline hrest => exact .inl ⟨_, rfl, hline, hrest⟩
  | block hcloses => exact .inr ⟨_, rfl, hcloses⟩
  | @unterminated text hrest hopen =>
    rw [hrest, List.append_nil] at hparts
    have hnext : next? cs = some (blockComment cs) := by
      rw [← hparts]
      rfl
    have hp := Option.some.inj (hnext.symm.trans h)
    have hsplit : splitComment 0 cs = ('/' :: '*' :: (splitComment 1 text).1,
        (splitComment 1 text).2) := by
      rw [← hparts]
      simp [splitComment]
    rw [blockComment, hsplit] at hp
    rcases hrun : splitComment 1 text with ⟨front, _ | back⟩
    · rw [hrun] at hp
      rw [← (Prod.mk.inj hp).1] at hfaults
      cases hfaults
    · have hfront := splitComment_append 1 text
      rw [hrun] at hfront
      exact (hopen front ⟨back, hfront⟩ (closes_of_splitComment Nat.one_pos hrun)).elim

/-! ### Texts with white space put in -/

/-- A text with white space put in, `gap o` at the byte `o`. -/
def spread (gap : Nat → List Char) (offset : Nat) : List Char → List Char
  | [] => gap offset
  | c :: cs => gap offset ++ c :: spread gap (offset + c.utf8Size) cs

variable {gap : Nat → List Char}

theorem spread_eq (gap : Nat → List Char) (offset : Nat) (cs : List Char) :
    ∃ rest, spread gap offset cs = gap offset ++ rest ∧ (rest = [] ↔ cs = []) ∧
      rest.head? = cs.head? := by
  cases cs with
  | nil => exact ⟨[], (List.append_nil _).symm, by simp, rfl⟩
  | cons c cs => exact ⟨_, rfl, by simp, rfl⟩

/-- A part of a text within which nothing is put in. -/
theorem spread_append {text : List Char} (htext : text ≠ []) (offset : Nat) (cs : List Char)
    (h : ∀ o, offset < o → o < offset + byteLength text → gap o = []) :
    spread gap offset (text ++ cs) =
      gap offset ++ (text ++ spread gap (offset + byteLength text) cs) := by
  induction text generalizing offset with
  | nil => exact (htext rfl).elim
  | cons c text ih =>
    rw [List.cons_append, spread, byteLength_cons, ← Nat.add_assoc, List.cons_append]
    congr 2
    by_cases hne : text = []
    · simp [hne]
    · have hpos := byteLength_pos hne
      have hlength := byteLength_cons c text
      rw [ih hne _ fun o hlo hhi => h o (by omega) (by omega)]
      rw [h _ (Nat.lt_add_of_pos_right c.utf8Size_pos) (by omega), List.nil_append]

theorem near_spread (hspace : ∀ o, ∀ c ∈ gap o, Text.isSpace c) (offset : Nat) (cs : List Char) :
    Near cs (spread gap offset cs) := by
  intro c hc
  obtain ⟨rest, heq, -, hhead⟩ := spread_eq gap offset cs
  rw [heq] at hc
  cases hgap : gap offset with
  | nil =>
    rw [hgap, List.nil_append, hhead] at hc
    exact .inr hc
  | cons d gaps =>
    rw [hgap] at hc
    obtain rfl : d = c := by simpa using hc
    exact .inl (hspace offset d (by simp [hgap]))

/-! ### Respaced sources -/

/-- Whether a token is a point directly behind an integer. -/
def Token.IsPointOf (ts : List Token) (t : Token) : Prop :=
  t.lexeme = .symbol .dot ∧
    ∃ u ∈ ts, u.span.stop = t.span.start ∧ ∃ text suffix, u.lexeme = .integer text suffix

/-- Whether what is put into a source is white space, and stands at the ends of tokens other than points
directly behind integers. -/
structure Respaces (source : String) (gap : Nat → List Char) : Prop where
  spaces : ∀ o, ∀ c ∈ gap o, Text.isSpace c
  ends : ∀ o, gap o ≠ [] → ∃ t ∈ (tokenize source).1, t.span.stop = o ∧
    ¬ t.IsPointOf (tokenize source).1

namespace Piece

theorem le_of_mem_tokens {offset : Nat} {ps : List Piece} {t : Token} (h : t ∈ tokens offset ps) :
    offset ≤ t.span.start ∧ t.span.start ≤ t.span.stop := by
  obtain ⟨front, p, back, -, -, hspan⟩ := exists_piece_of_mem_tokens h
  rw [hspan]
  simp only [Span.behind, Span.shift]
  omega

/-- Whether what is put into pieces that begin at an offset, of a source with the tokens `ts`, stands at
the ends of tokens other than points directly behind integers, or at the end. -/
def Fits (gap : Nat → List Char) (ts : List Token) (offset : Nat) (ps : List Piece) : Prop :=
  ∀ o, offset < o → gap o ≠ [] → o = offset + byteLength (ps.flatMap text) ∨
    ∃ t ∈ tokens offset ps, t.span.stop = o ∧ ¬ t.IsPointOf ts

variable {ts : List Token} {offset : Nat} {p : Piece} {ps : List Piece}

theorem mem_tokens_cons {t : Token} : t ∈ tokens offset (p :: ps) ↔
    (∃ l, p.lexeme = some l ∧ t = ⟨l, offset, offset + byteLength p.text⟩) ∨
      t ∈ tokens (offset + byteLength p.text) ps := by
  rw [tokens]
  cases p.lexeme <;> simp

theorem Fits.rest (h : Fits gap ts offset (p :: ps)) :
    Fits gap ts (offset + byteLength p.text) ps := by
  intro o ho hgap
  rcases h o (by omega) hgap with hend | ⟨t, ht, hstop, hpoint⟩
  · left
    rw [hend, List.flatMap_cons, byteLength_append]
    omega
  · right
    rcases mem_tokens_cons.mp ht with ⟨l, -, rfl⟩ | ht
    · exact absurd hstop (by simp only; omega)
    · exact ⟨t, ht, hstop, hpoint⟩

/-- Nothing is put into a piece. -/
theorem Fits.inner (h : Fits gap ts offset (p :: ps)) {o : Nat} (hlo : offset < o)
    (hhi : o < offset + byteLength p.text) : gap o = [] := by
  by_contra hgap
  rcases h o hlo hgap with hend | ⟨t, ht, hstop, -⟩
  · rw [List.flatMap_cons, byteLength_append] at hend
    omega
  · rcases mem_tokens_cons.mp ht with ⟨l, -, rfl⟩ | ht
    · simp only at hstop
      omega
    · have hle := le_of_mem_tokens ht
      omega

theorem lt_of_mem_tokens {limit : Nat} {cs : List Char} {t : Token}
    (h : t ∈ tokens offset (cut limit cs)) : t.span.start < t.span.stop := by
  obtain ⟨front, p, back, hps, -, hspan⟩ := exists_piece_of_mem_tokens h
  obtain ⟨cs', rest, hnext⟩ := exists_next?_of_mem_cut (hps ▸ List.mem_append_right _ List.mem_cons_self)
  have hpos := byteLength_pos (text_ne_nil_of_next? hnext)
  rw [hspan]
  simp only [Span.behind, Span.shift]
  omega

/-- What begins with a point begins with a symbol. -/
theorem exists_symbol_of_point (cs : List Char) : ∃ s : Symbol, s.chars <+: '.' :: cs ∧
    next? ('.' :: cs) = some (symbol s ('.' :: cs)) := by
  cases hs : Symbol.longest? ('.' :: cs) with
  | none =>
    have hdot := List.find?_eq_none.mp hs .dot Symbol.dot.mem_all
    exact (hdot (List.isPrefixOf_iff_prefix.mpr ⟨cs, rfl⟩)).elim
  | some s =>
    refine ⟨s, (Symbol.longest?_eq_some_iff.mp hs).1, ?_⟩
    rw [next?_of_cons rfl, hs]
    rfl

theorem eq_dot_of_byteLength {s : Symbol} {cs : List Char} (h : s.chars <+: '.' :: cs)
    (hlength : byteLength s.chars = 1) : s = .dot := by
  obtain ⟨c, rest, hchars⟩ := List.exists_cons_of_ne_nil s.chars_ne_nil
  rw [hchars, List.cons_prefix_cons] at h
  obtain ⟨rfl, -⟩ := h
  have hsize : ('.' : Char).utf8Size = 1 := by decide
  rw [hchars, byteLength_cons, hsize] at hlength
  cases rest with
  | nil => exact Symbol.chars_injective hchars
  | cons d rest =>
    have := byteLength_pos (List.cons_ne_nil d rest)
    omega

/-- Nothing is put in behind a point that stands directly behind an integer. -/
theorem Fits.behind_point {limit : Nat} {tail : List Char} {text : String} {suffix : Option String}
    (h : Fits gap ts offset (p :: cut limit ('.' :: tail))) (hlimit : tail.length < limit)
    (hnone : Digits.fraction? ('.' :: tail) = none)
    (hts : ⟨.integer text suffix, offset, offset + byteLength p.text⟩ ∈ ts) :
    gap (offset + byteLength p.text + 1) = [] := by
  by_contra hgap
  obtain ⟨limit, rfl⟩ : ∃ n, limit = n + 1 := ⟨limit - 1, by omega⟩
  rcases h.rest _ (Nat.lt_succ_self _) hgap with hend | ⟨t, ht, hstop, hpoint⟩
  · rw [flatMap_cut hlimit, byteLength_cons] at hend
    have htail : byteLength tail = 0 := by
      have hsize : ('.' : Char).utf8Size = 1 := by decide
      omega
    cases tail with
    | nil => cases hnone
    | cons c tail =>
      have := byteLength_pos (List.cons_ne_nil c tail)
      omega
  · obtain ⟨s, hs, hnext⟩ := exists_symbol_of_point tail
    have hlt := lt_of_mem_tokens ht
    rw [cut, hnext] at ht
    rcases List.mem_cons.mp ht with rfl | ht
    · obtain rfl := eq_dot_of_byteLength hs (Nat.add_left_cancel hstop)
      exact hpoint ⟨rfl, _, hts, rfl, text, suffix, rfl⟩
    · have hle := le_of_mem_tokens ht
      have hpos := byteLength_pos s.chars_ne_nil
      simp only at hle
      omega

/-- Behind an integer nothing is put in that makes it have a point. -/
theorem Fits.fraction?_spread {limit : Nat} {rest : List Char} {text : String}
    {suffix : Option String} (h : Fits gap ts offset (p :: cut limit rest))
    (hlimit : rest.length ≤ limit) (hspace : ∀ o, ∀ c ∈ gap o, Text.isSpace c)
    (hts : ⟨.integer text suffix, offset, offset + byteLength p.text⟩ ∈ ts)
    (hnone : Digits.fraction? rest = none) :
    Digits.fraction? (spread gap (offset + byteLength p.text) rest) = none := by
  set stop := offset + byteLength p.text with hstop
  by_cases hpoint : (spread gap stop rest).head? = some '.'
  case neg =>
    refine Digits.fraction?_of_not_head ?_
    rintro c hc rfl
    exact hpoint hc
  -- the point is that of the source, with nothing put in front of it
  have hrest := (near_spread hspace stop rest '.' hpoint).resolve_left (by decide)
  obtain ⟨tail, rfl⟩ := List.head?_eq_some_iff.mp hrest
  have hfront : gap stop = [] := by
    cases hgap : gap stop with
    | nil => rfl
    | cons d gaps =>
      rw [spread, hgap] at hpoint
      obtain rfl : d = '.' := by simpa using hpoint
      exact absurd (hspace stop '.' (by simp [hgap])) (by decide)
  have hbehind := h.behind_point hlimit hnone hts
  obtain ⟨c, rest, rfl, hsettled⟩ := Digits.exists_of_fraction?_point hnone
  have hsize : ('.' : Char).utf8Size = 1 := by decide
  rw [spread, spread, hfront, hsize, hbehind]
  exact hsettled _

/-- White space that is put into a clean text leaves its lexemes as they are. -/
theorem lexes_spread (hspace : ∀ o, ∀ c ∈ gap o, Text.isSpace c) {limit : Nat} {cs : List Char}
    (hlimit : cs.length ≤ limit) (hclean : ∀ p ∈ cut limit cs, p.faults = [])
    (hts : ∀ t ∈ tokens offset (cut limit cs), t ∈ ts)
    (hfits : Fits gap ts offset (cut limit cs)) :
    Lexes (spread gap offset cs) ((cut limit cs).filterMap (·.lexeme)) := by
  induction limit generalizing cs offset with
  | zero =>
    obtain rfl := List.length_eq_zero_iff.mp (Nat.le_zero.mp hlimit)
    rw [spread, ← List.append_nil (gap offset)]
    exact (lexes_append_iff (hspace offset)).mpr .nil
  | succ limit ih =>
    cases hnext : next? cs with
    | none =>
      cases cs with
      | nil =>
        rw [spread, ← List.append_nil (gap offset)]
        exact (lexes_append_iff (hspace offset)).mpr (by rw [cut, hnext]; exact .nil)
      | cons c cs => cases hnext
    | some found =>
      obtain ⟨p, rest⟩ := found
      have hlt := length_lt_of_next? hnext
      rw [cut, hnext] at hclean hts hfits ⊢
      simp only at hclean hts hfits ⊢
      obtain ⟨hfaults, hclean⟩ := List.forall_mem_cons.mp hclean
      have hrest : Lexes (spread gap (offset + byteLength p.text) rest)
          ((cut limit rest).filterMap (·.lexeme)) := by
        refine ih (by omega) hclean (fun t ht => hts t ?_) hfits.rest
        exact mem_tokens_cons.mpr (.inr ht)
      rw [← next?_append hnext, spread_append (text_ne_nil_of_next? hnext) _ _ fun o => hfits.inner,
        lexes_append_iff (hspace offset)]
      cases kind_of_next? hnext with
      | blank hl _ hblank =>
        rw [List.filterMap_cons_none hl]
        exact (lexes_append_iff hblank).mpr hrest
      | comment hl hcomment =>
        rw [List.filterMap_cons_none hl]
        rcases closed_of_clean hnext hfaults hcomment with
          ⟨text, htext, hline, hend⟩ | ⟨text, htext, hcloses⟩
        · obtain ⟨tail, heq, -, hhead⟩ := spread_eq gap (offset + byteLength p.text) rest
          rw [heq] at hrest ⊢
          have hcut := lexes_line hline (hspace _) (hhead ▸ hend) hrest
          rwa [← htext] at hcut
        · have hcut := lexes_block hcloses hrest
          rwa [← htext] at hcut
      | stray _ _ hd _ _ =>
        rw [hfaults] at hd
        cases hd
      | @lexeme l hl _ _ =>
        rw [List.filterMap_cons_some hl]
        refine .lexeme (next?_near hnext hl hfaults (near_spread hspace _ _) ?_) hl hfaults hrest
        rintro ⟨text, suffix, rfl⟩
        exact hfits.fraction?_spread (by omega) hspace
          (hts _ (mem_tokens_cons.mpr (.inl ⟨_, hl, rfl⟩)))

end Piece

/-- White space that is put in at the ends of tokens of a clean source, other than points directly behind
integers, leaves the source clean and its lexemes as they are. -/
theorem lexemes_respaced {source : String} (hclean : (tokenize source).2 = [])
    {gap : Nat → List Char} (h : Respaces source gap) :
    (tokenize (String.ofList (spread gap 0 source.toList))).2 = [] ∧
      (tokenize (String.ofList (spread gap 0 source.toList))).1.map Token.lexeme =
        (tokenize source).1.map Token.lexeme := by
  have hfits : Piece.Fits gap (tokenize source).1 0 (pieces source.toList) := by
    intro o _ hgap
    obtain ⟨t, ht, hstop, hpoint⟩ := h.ends o hgap
    rcases List.mem_append.mp ht with ht | ht
    · exact .inr ⟨t, ht, hstop, hpoint⟩
    · obtain rfl := List.mem_singleton.mp ht
      left
      rw [← hstop, pieces, Piece.flatMap_cut (Nat.le_refl _), byteLength_eq_utf8ByteSize,
        String.ofList_toList, Nat.zero_add]
  have hlexes := Piece.lexes_spread h.spaces (Nat.le_refl _)
    (Piece.diagnostics_eq_nil_iff.mp hclean) (fun _ => List.mem_append_left _) hfits
  rw [← String.toList_ofList (l := spread gap 0 source.toList)] at hlexes
  obtain ⟨hclean', hlexemes⟩ := tokenize_of_lexes hlexes
  refine ⟨hclean', hlexemes.trans ?_⟩
  simp only [tokenize, List.map_append, Piece.map_lexeme_tokens, List.map_cons, List.map_nil]
  rfl

/-- White space in front of the point of a method on an integer and behind the method's name. -/
def methodGap (o : Nat) : List Char := if o = 1 then [' '] else if o = 5 then ['\t', '\n'] else []

theorem lexemes_respaced_method :
    (tokenize "1.max").2 = [] ∧ Respaces "1.max" methodGap ∧
      String.ofList (spread methodGap 0 "1.max".toList) = "1 .max\t\n" ∧
      (tokenize "1 .max\t\n").1.map Token.lexeme = (tokenize "1.max").1.map Token.lexeme := by
  have hclean : (tokenize "1.max").2 = [] := by decide +kernel
  have htokens : (tokenize "1.max").1 = [⟨.integer "1" none, 0, 1⟩, ⟨.symbol .dot, 1, 2⟩,
      ⟨.ident "max", 2, 5⟩, ⟨.endOfInput, 5, 5⟩] := by decide +kernel
  have hrespaces : Respaces "1.max" methodGap := by
    constructor
    · intro o
      unfold methodGap
      split
      · exact List.all_eq_true.mp (by decide)
      split
      · exact List.all_eq_true.mp (by decide)
      · nofun
    · intro o hgap
      rw [htokens]
      unfold methodGap at hgap
      split at hgap
      · rename_i ho
        exact ⟨⟨.integer "1" none, 0, 1⟩, by simp, ho.symm, fun hpoint => by cases hpoint.1⟩
      split at hgap
      · rename_i ho
        exact ⟨⟨.ident "max", 2, 5⟩, by simp, ho.symm, fun hpoint => by cases hpoint.1⟩
      · exact (hgap rfl).elim
  have htext : String.ofList (spread methodGap 0 "1.max".toList) = "1 .max\t\n" := by decide +kernel
  have hlexemes := (lexemes_respaced hclean hrespaces).2
  rw [htext] at hlexemes
  exact ⟨hclean, hrespaces, htext, hlexemes⟩

/-- Behind the point it makes a difference. -/
example : (tokenize "1. max").1.map Token.lexeme =
    [.float "1." none, .ident "max", .endOfInput] := by decide +kernel

end ComputeKernel
