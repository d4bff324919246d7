import ComputeKernel.Proofs.Lexing.Comments
import ComputeKernel.Proofs.Lexing.Order

/-!
The account of a source's bytes. Every byte stands in a token, in white space, in a comment or in a
character that a diagnostic reports, and a token of a source without diagnostics stands where its
spelling does.
-/

namespace ComputeKernel

/-! ### What stands where -/

/-- The range of `text` behind `front`. -/
def Span.behind (front text : List Char) : Span :=
  ⟨byteLength front, byteLength front + byteLength text⟩

/-- Whether a byte is in a range. -/
def Span.Holds (s : Span) (byte : Nat) : Prop := s.start ≤ byte ∧ byte < s.stop

/-- Whether `text` is what the characters `cs` have at a range. -/
def StandsAt (cs : List Char) (span : Span) (text : List Char) : Prop :=
  ∃ front back, cs = front ++ text ++ back ∧ span = Span.behind front text

theorem Span.behind_append (front front' text : List Char) :
    Span.behind (front ++ front') text = (Span.behind front' text).shift (byteLength front) := by
  simp [Span.behind, Span.shift, Nat.add_assoc]

/-- The character to which a byte of a text belongs. -/
theorem exists_char_of_lt {cs : List Char} {byte : Nat} (h : byte < byteLength cs) :
    ∃ front c back, cs = front ++ c :: back ∧ (Span.behind front [c]).Holds byte := by
  induction cs generalizing byte with
  | nil => exact (Nat.not_lt_zero byte h).elim
  | cons c cs ih =>
    rw [byteLength_cons] at h
    by_cases hfirst : byte < c.utf8Size
    · exact ⟨[], c, cs, rfl, Nat.zero_le byte, by simpa [Span.behind] using hfirst⟩
    · obtain ⟨front, d, back, rfl, hstart, hstop⟩ := ih (show byte - c.utf8Size < _ by omega)
      refine ⟨c :: front, d, back, rfl, ?_, ?_⟩
      · simp only [Span.behind, byteLength_cons] at hstart ⊢
        omega
      · simp only [Span.behind, byteLength_cons, byteLength_nil] at hstop ⊢
        omega

/-! ### What the account says -/

/-- How a lexeme is written: a number with its suffix, everything else as it is spelled. -/
def Lexeme.written : Lexeme → List Char
  | keyword k => k.spelling.toList
  | symbol s => s.chars
  | integer text suffix | float text suffix => text.toList ++ (suffix.getD "").toList
  | ident name => name.toList
  | endOfInput => []

/-- What a byte in no token of a source belongs to. No token reaches into a comment. -/
inductive Skipped (cs : List Char) (ts : List Token) (faults : List Diagnostic) (byte : Nat) :
    Prop where
  | blank {span : Span} {c : Char} : StandsAt cs span [c] → Text.isSpace c → span.Holds byte →
      Skipped cs ts faults byte
  | comment {front text back : List Char} : cs = front ++ text ++ back → IsComment back text →
      (Span.behind front text).Holds byte →
      (∀ t ∈ ts, t.span.stop ≤ byteLength front ∨
        byteLength front + byteLength text ≤ t.span.start) →
      Skipped cs ts faults byte
  | stray {d : Diagnostic} {c : Char} : d ∈ faults → d.message = s!"unexpected character '{c}'" →
      StandsAt cs d.span [c] → d.span.Holds byte → Skipped cs ts faults byte

/-- The account of the bytes of `cs`, of which `ts` are the tokens. -/
structure Account (cs : List Char) (ts : List Token) (faults : List Diagnostic) : Prop where
  lexeme_ne : ∀ t ∈ ts, t.lexeme ≠ .endOfInput
  stands : ∀ t ∈ ts, ∃ text, text ≠ [] ∧ StandsAt cs t.span text
  ordered : ts.Pairwise fun t u => t.span.stop ≤ u.span.start
  skipped : ∀ byte < byteLength cs, (∀ t ∈ ts, ¬ t.span.Holds byte) → Skipped cs ts faults byte
  written : faults = [] → ∀ t ∈ ts, StandsAt cs t.span t.lexeme.written

/-! ### What a piece is -/

namespace Piece

/-- What a piece is, with `back` behind it. -/
inductive Kind (back : List Char) (p : Piece) : Prop where
  | blank : p.lexeme = none → p.text ≠ [] → (∀ c ∈ p.text, Text.isSpace c) → Kind back p
  | comment : p.lexeme = none → IsComment back p.text → Kind back p
  | stray {c : Char} {d : Diagnostic} : p.lexeme = none → p.text = [c] → d ∈ p.faults →
      d.message = s!"unexpected character '{c}'" → d.span = ⟨0, c.utf8Size⟩ → Kind back p
  | lexeme {l : Lexeme} : p.lexeme = some l → l ≠ .endOfInput →
      (p.faults = [] → p.text = l.written) → Kind back p

theorem written_ofWord (text : List Char) :
    (Lexeme.ofWord (String.ofList text)).written = text := by
  unfold Lexeme.ofWord
  cases hk : Keyword.ofWord? (String.ofList text) with
  | none => simp [Lexeme.written]
  | some k =>
    have hspelling := List.find?_some hk
    rw [beq_iff_eq] at hspelling
    simp [Lexeme.written, hspelling]

/-- A number whose suffix fits is written with it. -/
theorem written_numberLexeme {digits : Digits} {suffix : Option String}
    (hfits : (numberLexeme digits suffix).2) :
    (numberLexeme digits suffix).1.written = digits.text ++ (suffix.getD "").toList := by
  unfold numberLexeme at hfits ⊢
  cases suffix with
  | none =>
    simp only [Option.getD_none]
    split <;> simp [Lexeme.written]
  | some s =>
    simp only at hfits ⊢
    by_cases hfloat : s ∈ floatSuffixes ∧ ¬ digits.isMarked
    · rw [if_pos hfloat]
      simp [Lexeme.written]
    rw [if_neg hfloat] at hfits ⊢
    by_cases hinteger : s ∈ integerSuffixes ∧ ¬ digits.isFloat
    · rw [if_pos hinteger]
      simp [Lexeme.written]
    · rw [if_neg hinteger] at hfits
      cases hfits

theorem number_written {cs : List Char} {l : Lexeme} (hl : (number cs).1.lexeme = some l)
    (hfaults : (number cs).1.faults = []) : (number cs).1.text = l.written := by
  simp only [number, List.append_eq_nil_iff, ite_eq_left_iff, List.cons_ne_nil, imp_false,
    Bool.not_eq_true, Bool.not_eq_false] at hfaults
  obtain rfl := Option.some.inj hl
  refine Eq.trans ?_ (written_numberLexeme hfaults.2).symm
  cases hword : suffixWord (Digits.scan cs).rest with
  | nil => simp [number, hword]
  | cons c word => simp [number, hword]

theorem kind_of_next? {cs rest : List Char} {p : Piece} (h : next? cs = some (p, rest)) :
    p.Kind rest := by
  have hspelled := fun l => spelled_of_next? (l := l) h
  unfold next? at h
  split at h
  · cases h
  rename_i c tail
  replace h := Option.some.inj h
  split at h
  · rename_i hspace
    cases h
    refine .blank rfl ?_ fun d hd => List.all_eq_true.mp List.all_takeWhile d hd
    simp [List.takeWhile_cons_of_pos hspace]
  split at h
  · rename_i hline
    cases h
    exact .comment rfl (isComment_lineComment _ (List.isPrefixOf_iff_prefix.mp hline))
  split at h
  · rename_i hblock
    have hcomment := isComment_blockComment _ (List.isPrefixOf_iff_prefix.mp hblock)
    have hlexeme : (blockComment (c :: tail)).1.lexeme = none := by
      unfold blockComment
      split <;> rfl
    rw [h] at hcomment hlexeme
    exact .comment hlexeme hcomment
  split at h
  · cases h
    refine .lexeme rfl ?_ fun _ => (written_ofWord _).symm
    intro hend
    exact (hend ▸ hspelled _ rfl : Lexeme.endOfInput.SpelledBy _)
  split at h
  · have hl : (number (c :: tail)).1.lexeme =
        some (numberLexeme (Digits.scan (c :: tail)) _).1 := rfl
    have hwritten := number_written hl
    rw [h] at hl hwritten
    refine .lexeme hl ?_ hwritten
    intro hend
    exact (hend ▸ hspelled _ hl : Lexeme.endOfInput.SpelledBy _)
  split at h
  · cases h
    exact .lexeme rfl nofun fun _ => rfl
  · cases h
    exact .stray rfl rfl List.mem_cons_self rfl rfl

theorem text_ne_nil_of_next? {cs rest : List Char} {p : Piece} (h : next? cs = some (p, rest)) :
    p.text ≠ [] := by
  cases kind_of_next? h with
  | blank _ hne _ => exact hne
  | comment _ hcomment =>
    intro hnil
    rw [hnil] at hcomment
    cases hcomment
  | stray _ htext _ _ _ => simp [htext]
  | lexeme hl _ _ => exact (spelled_of_next? h hl).ne_nil

/-- The text behind a piece is shorter than the text that begins with it. -/
theorem length_lt_of_next? {cs rest : List Char} {p : Piece} (h : next? cs = some (p, rest)) :
    rest.length < cs.length := by
  have hpos := List.length_pos_iff.mpr (text_ne_nil_of_next? h)
  rw [← next?_append h, List.length_append]
  omega

/-! ### The pieces of a text -/

/-- With a limit that is no less than the number of characters, nothing of a text is left out. -/
theorem flatMap_cut {limit : Nat} {cs : List Char} (h : cs.length ≤ limit) :
    (cut limit cs).flatMap text = cs := by
  induction limit generalizing cs with
  | zero =>
    rw [List.length_eq_zero_iff.mp (Nat.le_zero.mp h)]
    rfl
  | succ limit ih =>
    unfold cut
    cases hnext : next? cs with
    | none =>
      cases cs with
      | nil => rfl
      | cons c tail => cases hnext
    | some found =>
      obtain ⟨p, rest⟩ := found
      have hlength := length_lt_of_next? hnext
      rw [List.flatMap_cons, ih (by omega), next?_append hnext]

theorem kind_of_cut {limit : Nat} {cs : List Char} {front back : List Piece} {p : Piece}
    (hlimit : cs.length ≤ limit) (h : cut limit cs = front ++ p :: back) :
    p.Kind (back.flatMap text) := by
  induction limit generalizing cs front with
  | zero => simp [cut] at h
  | succ limit ih =>
    unfold cut at h
    cases hnext : next? cs with
    | none => simp [hnext] at h
    | some found =>
      obtain ⟨q, rest⟩ := found
      have hlength := length_lt_of_next? hnext
      have hrest : rest.length ≤ limit := by omega
      simp only [hnext] at h
      cases front with
      | nil =>
        obtain ⟨rfl, rfl⟩ := List.cons.inj h
        rw [flatMap_cut hrest]
        exact kind_of_next? hnext
      | cons r front => exact ih hrest (List.cons.inj h).2

theorem exists_piece_of_lt {ps : List Piece} {byte : Nat}
    (h : byte < byteLength (ps.flatMap text)) :
    ∃ front p back, ps = front ++ p :: back ∧
      (Span.behind (front.flatMap text) p.text).Holds byte := by
  induction ps generalizing byte with
  | nil => exact (Nat.not_lt_zero byte h).elim
  | cons p ps ih =>
    rw [List.flatMap_cons, byteLength_append] at h
    by_cases hfirst : byte < byteLength p.text
    · exact ⟨[], p, ps, rfl, Nat.zero_le byte, by simpa [Span.behind] using hfirst⟩
    · obtain ⟨front, q, back, rfl, hstart, hstop⟩ :=
        ih (show byte - byteLength p.text < _ by omega)
      refine ⟨p :: front, q, back, rfl, ?_, ?_⟩
      · simp only [Span.behind, List.flatMap_cons, byteLength_append] at hstart ⊢
        omega
      · simp only [Span.behind, List.flatMap_cons, byteLength_append] at hstop ⊢
        omega

/-! ### Where the tokens and the diagnostics of pieces stand -/

theorem mem_tokens (offset : Nat) (front back : List Piece) {p : Piece} {l : Lexeme}
    (hl : p.lexeme = some l) :
    (⟨l, (Span.behind (front.flatMap text) p.text).shift offset⟩ : Token) ∈
      tokens offset (front ++ p :: back) := by
  induction front generalizing offset with
  | nil =>
    simp [tokens, hl, Span.behind, Span.shift]
  | cons q front ih =>
    have hrest := ih (offset + byteLength q.text)
    rw [List.flatMap_cons, Span.behind_append]
    simp only [Span.shift, ← Nat.add_assoc] at hrest ⊢
    rw [List.cons_append, tokens]
    cases q.lexeme with
    | none => exact hrest
    | some l' => exact List.mem_cons_of_mem _ hrest

theorem exists_piece_of_mem_tokens {offset : Nat} {ps : List Piece} {t : Token}
    (ht : t ∈ tokens offset ps) :
    ∃ front p back, ps = front ++ p :: back ∧ p.lexeme = some t.lexeme ∧
      t.span = (Span.behind (front.flatMap text) p.text).shift offset := by
  induction ps generalizing offset with
  | nil => cases ht
  | cons p ps ih =>
    -- the tokens behind the first piece are those of the rest, moved by the piece's length
    have hrest (ht : t ∈ tokens (offset + byteLength p.text) ps) :
        ∃ front q back, p :: ps = front ++ q :: back ∧ q.lexeme = some t.lexeme ∧
          t.span = (Span.behind (front.flatMap text) q.text).shift offset := by
      obtain ⟨front, q, back, rfl, hl, hspan⟩ := ih ht
      refine ⟨p :: front, q, back, rfl, hl, ?_⟩
      rw [hspan, List.flatMap_cons, Span.behind_append]
      simp only [Span.shift, Nat.add_assoc]
    rw [tokens] at ht
    cases hl : p.lexeme with
    | none =>
      rw [hl] at ht
      exact hrest ht
    | some l =>
      rw [hl] at ht
      rcases List.mem_cons.mp ht with rfl | ht
      · exact ⟨[], p, ps, rfl, hl, by simp [Span.behind, Span.shift]⟩
      · exact hrest ht

theorem mem_diagnostics (offset : Nat) (front back : List Piece) {p : Piece} {d : Diagnostic}
    (hd : d ∈ p.faults) :
    d.shift (offset + byteLength (front.flatMap text)) ∈
      diagnostics offset (front ++ p :: back) := by
  induction front generalizing offset with
  | nil => exact List.mem_append_left _ (List.mem_map_of_mem hd)
  | cons q front ih =>
    rw [List.flatMap_cons, byteLength_append, ← Nat.add_assoc, List.cons_append, diagnostics]
    exact List.mem_append_right _ (ih _)

/-- Two pieces of one text are one piece, or one of them stands behind the other. -/
theorem same_or_apart {front front' back back' : List Piece} {p q : Piece}
    (h : front ++ p :: back = front' ++ q :: back') :
    p = q ∨
      (Span.behind (front.flatMap text) p.text).stop ≤
        (Span.behind (front'.flatMap text) q.text).start ∨
      (Span.behind (front'.flatMap text) q.text).stop ≤
        (Span.behind (front.flatMap text) p.text).start := by
  rcases List.append_eq_append_iff.mp h with ⟨mid, hmid, hback⟩ | ⟨mid, hmid, hback⟩
  · cases mid with
    | nil => exact .inl (List.cons.inj hback).1
    | cons r mid =>
      obtain ⟨rfl, -⟩ := List.cons.inj hback
      right; left
      simp only [Span.behind, hmid, List.flatMap_append, List.flatMap_cons, byteLength_append]
      omega
  · cases mid with
    | nil => exact .inl (List.cons.inj hback).1.symm
    | cons r mid =>
      obtain ⟨rfl, -⟩ := List.cons.inj hback
      right; right
      simp only [Span.behind, hmid, List.flatMap_append, List.flatMap_cons, byteLength_append]
      omega

theorem pairwise_tokens (offset : Nat) (ps : List Piece) :
    (tokens offset ps).Pairwise fun t u => t.span.stop ≤ u.span.start := by
  induction ps generalizing offset with
  | nil => exact List.Pairwise.nil
  | cons p ps ih =>
    rw [tokens]
    cases p.lexeme with
    | none => exact ih _
    | some l =>
      refine List.Pairwise.cons (fun u hu => ?_) (ih _)
      obtain ⟨front, q, back, -, -, hspan⟩ := exists_piece_of_mem_tokens hu
      rw [hspan]
      exact Nat.le_add_right _ _

end Piece

/-! ### The account -/

theorem standsAt_of_pieces {ps front back : List Piece} {p : Piece} (h : ps = front ++ p :: back) :
    StandsAt (ps.flatMap Piece.text) (Span.behind (front.flatMap Piece.text) p.text) p.text :=
  ⟨front.flatMap Piece.text, back.flatMap Piece.text, by simp [h], rfl⟩

theorem Span.shift_zero (s : Span) : s.shift 0 = s := by simp [Span.shift]

variable {cs : List Char} {limit : Nat}

/-- What a byte of a piece belongs to if no token has it. -/
theorem skipped_of_piece (hlimit : cs.length ≤ limit) {front back : List Piece} {p : Piece}
    (hps : Piece.cut limit cs = front ++ p :: back) {byte : Nat}
    (hbyte : (Span.behind (front.flatMap Piece.text) p.text).Holds byte)
    (hnone : ∀ t ∈ Piece.tokens 0 (Piece.cut limit cs), ¬ t.span.Holds byte) :
    Skipped cs (Piece.tokens 0 (Piece.cut limit cs)) (Piece.diagnostics 0 (Piece.cut limit cs))
      byte := by
  have hcs : cs = front.flatMap Piece.text ++ p.text ++ back.flatMap Piece.text := by
    rw [← Piece.flatMap_cut hlimit, hps]
    simp
  cases Piece.kind_of_cut hlimit hps with
  | blank hlexeme _ hspace =>
    have hlt : byte - byteLength (front.flatMap Piece.text) < byteLength p.text := by
      have := hbyte.1
      have := hbyte.2
      simp only [Span.behind] at *
      omega
    obtain ⟨before, c, behind, htext, hstart, hstop⟩ := exists_char_of_lt hlt
    refine @Skipped.blank _ _ _ _ (Span.behind (front.flatMap Piece.text ++ before) [c]) c ?_ ?_ ?_
    · exact ⟨_, behind ++ back.flatMap Piece.text, by simp [hcs, htext], rfl⟩
    · exact hspace c (by simp [htext])
    · have := hbyte.1
      simp only [Span.behind, Span.Holds, byteLength_append] at *
      omega
  | comment hlexeme hcomment =>
    refine .comment hcs hcomment hbyte fun t ht => ?_
    obtain ⟨front', q, back', hps', hl, hspan⟩ := Piece.exists_piece_of_mem_tokens ht
    rw [Span.shift_zero] at hspan
    rw [hspan]
    rcases Piece.same_or_apart (hps.symm.trans hps') with rfl | hbehind | hbefore
    · rw [hlexeme] at hl
      cases hl
    · exact .inr hbehind
    · exact .inl hbefore
  | @stray c d hlexeme htext hd hmessage hspan =>
    have hmem := Piece.mem_diagnostics 0 front back hd
    rw [← hps, Nat.zero_add] at hmem
    have hplace : (d.shift (byteLength (front.flatMap Piece.text))).span =
        Span.behind (front.flatMap Piece.text) [c] := by
      simp [Diagnostic.shift, Span.shift, Span.behind, hspan]
    refine .stray hmem hmessage ?_ ?_
    · rw [hplace]
      exact ⟨_, back.flatMap Piece.text, by rw [hcs, htext], rfl⟩
    · rw [hplace, ← htext]
      exact hbyte
  | @lexeme l hl _ _ =>
    have hmem := Piece.mem_tokens 0 front back hl
    rw [← hps, Span.shift_zero] at hmem
    exact (hnone _ hmem hbyte).elim

theorem account_cut (hlimit : cs.length ≤ limit) :
    Account cs (Piece.tokens 0 (Piece.cut limit cs)) (Piece.diagnostics 0 (Piece.cut limit cs)) := by
  have hstands {t : Token} (ht : t ∈ Piece.tokens 0 (Piece.cut limit cs)) :
      ∃ p, ∃ front back, Piece.cut limit cs = front ++ p :: back ∧ p.lexeme = some t.lexeme ∧
        StandsAt cs t.span p.text := by
    obtain ⟨front, p, back, hps, hl, hspan⟩ := Piece.exists_piece_of_mem_tokens ht
    have hat := standsAt_of_pieces hps
    rw [Piece.flatMap_cut hlimit] at hat
    rw [Span.shift_zero] at hspan
    exact ⟨p, front, back, hps, hl, hspan ▸ hat⟩
  constructor
  case lexeme_ne =>
    intro t ht hend
    obtain ⟨p, front, back, hps, hl, -⟩ := hstands ht
    have hspelled := Piece.spelled_of_mem_cut (hps ▸ List.mem_append_right _ List.mem_cons_self) hl
    rw [hend] at hspelled
    exact hspelled
  case stands =>
    intro t ht
    obtain ⟨p, front, back, hps, hl, hat⟩ := hstands ht
    have hspelled := Piece.spelled_of_mem_cut (hps ▸ List.mem_append_right _ List.mem_cons_self) hl
    exact ⟨p.text, hspelled.ne_nil, hat⟩
  case ordered => exact Piece.pairwise_tokens 0 _
  case skipped =>
    intro byte hbyte hnone
    rw [← Piece.flatMap_cut hlimit] at hbyte
    obtain ⟨front, p, back, hps, hholds⟩ := Piece.exists_piece_of_lt hbyte
    exact skipped_of_piece hlimit hps hholds hnone
  case written =>
    intro hnone t ht
    obtain ⟨p, front, back, hps, hl, hat⟩ := hstands ht
    have hfaults : p.faults = [] := by
      refine List.eq_nil_iff_forall_not_mem.mpr fun d hd => ?_
      have hmem := Piece.mem_diagnostics 0 front back hd
      rw [← hps, hnone] at hmem
      cases hmem
    cases Piece.kind_of_cut hlimit hps with
    | blank hlexeme _ _ | comment hlexeme _ | stray hlexeme _ _ _ _ =>
      rw [hlexeme] at hl
      cases hl
    | lexeme hl' _ hwritten =>
      obtain rfl := Option.some.inj (hl.symm.trans hl')
      exact hwritten hfaults ▸ hat

/-- The tokens of a source are its account, with the end of input behind them. -/
theorem tokenize_accounts (source : String) :
    ∃ ts, (tokenize source).1 = ts ++ [⟨.endOfInput, source.utf8ByteSize, source.utf8ByteSize⟩] ∧
      source.utf8ByteSize = byteLength source.toList ∧
      Account source.toList ts (tokenize source).2 := by
  refine ⟨_, rfl, ?_, account_cut (Nat.le_refl _)⟩
  rw [byteLength_eq_utf8ByteSize, String.ofList_toList]

end ComputeKernel
