import ComputeKernel.Proofs.Host.RoundTrip
import ComputeKernel.Proofs.Parsing.Precedence

/-!
The types written in a closure. Their names are read from words and their arguments from types, so the
reader of host types takes each of them: it reads the canonical text of a type that was read from the
tokens of a source, however the closing brackets of its arguments stood together there.
-/

namespace ComputeKernel

/-! ### Types in closures -/

/-- The blocks that a statement is made of. -/
def Stmt.blocks : Stmt → List Block
  | .if _ _ body none => [body]
  | .if _ _ body (some otherwise) => [body, otherwise]
  | .for _ _ _ _ _ body | .while _ _ body | .loop _ body | .nested _ body => [body]
  | .let .. | .assign .. | .jump .. | .eval .. => []

/-- Whether a statement stands in a block, at any depth. -/
inductive Stmt.Within (s : Stmt) : Block → Prop where
  | here {b : Block} : s ∈ b.stmts → Within s b
  | deeper {b inner : Block} {s' : Stmt} : s' ∈ b.stmts → inner ∈ s'.blocks → Within s inner →
      Within s b

/-- Whether a type is written in a closure: behind its parameter or a local, in a cast, or as an argument
of such a type. -/
inductive Closure.WritesType (c : Closure) : HostType → Prop where
  | param {t place} : c.paramType = some ⟨t, place⟩ → WritesType c t
  | local {t place span mutable name value} :
      (Stmt.let span mutable name (some ⟨t, place⟩) value).Within c.body → WritesType c t
  | cast {t place span operand e} : e ∈ c.body.exprs → (Expr.cast span operand ⟨t, place⟩).Part e →
      WritesType c t
  | arg {t u} : WritesType c t → u ∈ t.args → WritesType c u

/-! ### Forms -/

theorem Stmt.inside_block {ps : List Slot} {s : Stmt} {b : Block} (hb : b ∈ s.blocks)
    (h : Inside ps b.form) (h' : Inside ps b.inner) : Inside ps s.form := by
  cases s with
  | «if» _ condition body otherwise =>
    cases otherwise with
    | none =>
      obtain rfl := List.mem_singleton.mp hb
      exact ((h.append_right _).append_left _).cons _
    | some otherwise =>
      rcases List.mem_pair.mp hb with rfl | rfl
      · exact ((h.append_right _).append_left _).cons _
      · exact (((Inside.elseBlock h h').cons _).append_right _).cons _
  | «for» =>
    obtain rfl := List.mem_singleton.mp hb
    exact (((((h.append_right _).cons _).append_right _).cons _).cons _).cons _
  | «while» =>
    obtain rfl := List.mem_singleton.mp hb
    exact (h.append_right _).cons _
  | loop =>
    obtain rfl := List.mem_singleton.mp hb
    exact h.cons _
  | nested =>
    obtain rfl := List.mem_singleton.mp hb
    exact h
  | «let» | assign | jump | eval => cases hb

theorem Stmt.inside_sequence {s : Stmt} {ss : List Stmt} (h : s ∈ ss) :
    Inside s.form (Stmt.sequenceForm ss) := by
  induction ss with
  | nil => cases h
  | cons s' ss ih =>
    rcases List.mem_cons.mp h with rfl | h
    · exact ((Inside.refl _).append_left _).append_left _
    · exact ((ih h).cons _).append_right _

theorem Stmt.Within.inside {s : Stmt} {b : Block} (h : s.Within b) :
    Inside s.form b.form ∧ Inside s.form b.inner := by
  have hblock : ∀ {ps : List Slot} {b : Block} {s : Stmt}, s ∈ b.stmts → Inside ps s.form →
      Inside ps b.form ∧ Inside ps b.inner := by
    rintro ps ⟨_, stmts⟩ s hs h
    have hinner := h.trans (Stmt.inside_sequence hs)
    exact ⟨(hinner.cons _).braced, hinner⟩
  induction h with
  | here hs => exact hblock hs (.refl _)
  | deeper hs hinner _ ih => exact hblock hs (Stmt.inside_block hinner ih.1 ih.2)

theorem Stmt.blocks_of_isSimple {s : Stmt} (h : s.isSimple) : s.blocks = [] := by
  cases s with
  | assign | eval => rfl
  | «let» | «if» | «for» | «while» | loop | jump | nested => cases h

theorem Block.inside_bodyForm {s : Stmt} {b : Block} (h : s.Within b) : Inside s.form b.bodyForm := by
  unfold bodyForm
  split
  · rename_i s' hstmts
    split
    · rename_i hsimple
      refine h.inside.1.either ?_
      -- A statement that may stand without braces has no blocks, so `s` is that statement.
      cases h with
      | here hs =>
        obtain rfl := List.mem_singleton.mp (hstmts ▸ hs)
        exact (Inside.refl _).append_left _
      | deeper hs hinner _ =>
        obtain rfl := List.mem_singleton.mp (hstmts ▸ hs)
        rw [Stmt.blocks_of_isSimple hsimple] at hinner
        cases hinner
    · exact h.inside.1
  · exact h.inside.1

theorem HostType.form_mem_forms {u : HostType} {ts : List HostType} (h : u ∈ ts) :
    u.form ∈ HostType.forms ts := by
  induction ts with
  | nil => cases h
  | cons t ts ih =>
    rcases List.mem_cons.mp h with rfl | h
    · exact List.mem_cons_self
    · exact List.mem_cons_of_mem _ (ih h)

theorem HostType.inside_arg {t u : HostType} (h : u ∈ t.args) : Inside u.form t.form := by
  obtain ⟨name, args⟩ := t
  have hform := HostType.form_mem_forms h
  have hne : (HostType.forms args).isEmpty = false := by
    rw [List.isEmpty_eq_false_iff]
    exact List.ne_nil_of_mem hform
  rw [form, typeArgumentForm, hne]
  exact (((Inside.commas ⟨_, hform, .refl _⟩).append_left _).cons _).append_right _

/-- Each type that is written in a closure stands in the form of the closure. -/
theorem Closure.WritesType.inside {c : Closure} {t : HostType} (h : c.WritesType t) (extra : List Lexeme) :
    Inside t.form (c.form extra) := by
  have hbody : ∀ {ps : List Slot}, Inside ps c.body.bodyForm → Inside ps (c.form extra) :=
    fun h => ((((h.cons _).append_right _).cons _).cons _).cons _
  induction h with
  | @param t _ ht =>
    have hwritten : Inside t.form (annotationForm c.paramType) := by
      rw [ht]
      exact (Inside.refl _).cons _
    exact ((((hwritten.append_left _).append_left _).cons _).cons _).cons _
  | «local» hs =>
    refine hbody (.trans ?_ (Block.inside_bodyForm hs))
    exact (((((Inside.refl _).cons _).append_left _).cons _).append_right _).cons _
  | cast he hx =>
    exact ((((Inside.refl _).cons _).append_right _).trans hx.inside).trans (Closure.inside he extra)
  | arg _ hu ih => exact (HostType.inside_arg hu).trans ih

/-! ### Words -/

/-- Whether the names among lexemes are words. -/
def Worded (ls : List Lexeme) : Prop := ∀ name, .ident name ∈ ls → IsWord name.toList

theorem Tape.worded {ls : List Lexeme} (h : Tape ls) : Worded ls := by
  induction h with
  | last => simp [Worded]
  | cons _ hword _ ih =>
    intro name hname
    rcases List.mem_cons.mp hname with rfl | hname
    · exact hword name rfl
    · exact ih name hname

theorem Worded.of_cons {l : Lexeme} {ls : List Lexeme} (h : Worded (l :: ls)) : Worded ls :=
  fun name hname => h name (List.mem_cons_of_mem l hname)

mutual

theorem Slot.FilledBy.worded : ∀ {p : Slot} {ls left : List Lexeme}, p.FilledBy ls left → Worded ls →
    Worded left
  | .token _, _, _, h, hls => by
    rw [Slot.FilledBy] at h
    exact (h ▸ hls).of_cons
  | .close, _, _, h, hls => by
    rw [Slot.FilledBy] at h
    rcases h with rfl | ⟨rest, rfl, rfl⟩
    · exact hls.of_cons
    · intro name hname
      exact hls.of_cons name (by simpa using hname)
  | .semicolons, _, _, h, hls => by
    rw [Slot.FilledBy] at h
    obtain ⟨n, rfl⟩ := h
    exact fun name hname => hls name (List.mem_append_right _ hname)
  | .either _ _, _, _, h, hls => by
    rw [Slot.FilledBy] at h
    rcases h with h | h
    · exact Fills.worded h hls
    · exact Fills.worded h hls

theorem Fills.worded : ∀ {ps : List Slot} {ls left : List Lexeme}, Fills ps ls left → Worded ls →
    Worded left
  | [], _, _, h, hls => by
    rw [Fills] at h
    exact h ▸ hls
  | _ :: _, _, _, h, hls => by
    rw [Fills] at h
    obtain ⟨mid, hp, hps⟩ := h
    exact Fills.worded hps (Slot.FilledBy.worded hp hls)

end

/-- The names in a form are words if those are that fill it. -/
theorem Inside.isWord {name : String} {qs : List Slot} {ls left : List Lexeme}
    (h : Inside [.ident name] qs) (hfills : Fills qs ls left) (hls : Worded ls) :
    IsWord name.toList := by
  obtain ⟨before, after, hparts⟩ := h ls left hfills
  obtain ⟨mid, hbefore, hrest⟩ := fills_append.mp hparts
  obtain ⟨_, ⟨_, rfl, _⟩, _⟩ := fills_append.mp hrest
  exact hbefore.worded hls name List.mem_cons_self

/-! ### Names -/

theorem HostType.isNameChar_of_isIdentContinue {c : Char} (h : isIdentContinue c) : isNameChar c := by
  simp only [isIdentContinue, isIdentStart, Bool.or_eq_true] at h
  simp only [isNameChar, Bool.or_eq_true]
  tauto

theorem IsWord.isTypeName {cs : List Char} (h : IsWord cs) : HostType.IsTypeName cs := by
  have hcolon : ':' ∉ cs := fun hmem => absurd (h.continues ':' hmem) (by decide)
  have hchars := h.continues
  obtain ⟨c, rest, rfl, _⟩ := h
  refine ⟨List.cons_ne_nil _ _, fun d hd => ?_, ?_, ?_⟩
  · exact HostType.isNameChar_of_isIdentContinue (hchars d hd)
  · exact fun hhead => hcolon (List.mem_of_mem_head? hhead)
  · exact fun hlast => hcolon (List.mem_of_getLast? hlast)

theorem HostType.IsTypeName.append {name name' : List Char} (h : IsTypeName name)
    (h' : IsTypeName name') : IsTypeName (name ++ ':' :: ':' :: name') := by
  refine ⟨by simp, ?_, ?_, ?_⟩
  · simp only [List.forall_mem_append, List.forall_mem_cons]
    exact ⟨h.chars, by decide, by decide, h'.chars⟩
  · rw [List.head?_append_of_ne_nil _ h.ne_nil]
    exact h.head
  · rw [List.append_cons, List.append_cons, List.getLast?_append_of_ne_nil _ h'.ne_nil]
    exact h'.last

theorem isTypeName_joinPath {path : List String} (hne : path ≠ [])
    (h : ∀ segment ∈ path, IsWord segment.toList) :
    HostType.IsTypeName (Text.joinPath path).toList := by
  unfold Text.joinPath
  induction path with
  | nil => exact absurd rfl hne
  | cons segment path ih =>
    obtain ⟨hsegment, hpath⟩ := List.forall_mem_cons.mp h
    cases path with
    | nil =>
      rw [String.intercalate_singleton]
      exact hsegment.isTypeName
    | cons next path =>
      rw [String.intercalate_cons_cons, String.toList_append, String.toList_append, List.append_assoc]
      exact hsegment.isTypeName.append (ih (List.cons_ne_nil _ _) hpath)

theorem inside_pathForm {path : Path} {segment : String} (h : segment ∈ path) :
    Inside [.ident segment] (pathForm path) := by
  cases path with
  | nil => cases h
  | cons first rest =>
    rcases List.mem_cons.mp h with rfl | h
    · exact (Inside.refl [_]).append_left _
    · obtain ⟨front, back, rfl⟩ := List.append_of_mem h
      rw [pathForm, List.flatMap_append, List.flatMap_cons]
      exact (((((Inside.refl _).cons _).append_left _).append_right _).cons _)

/-- A type that stands in a form is one that the reader takes. -/
theorem HostType.readable_of_inside {qs : List Slot} {ls left : List Lexeme} (hfills : Fills qs ls left)
    (hls : Worded ls) : ∀ (t : HostType), Inside t.form qs → t.Readable
  | ⟨name, args⟩, h => by
    refine .mk ?_ fun u hu => readable_of_inside hfills hls u ((inside_arg hu).trans h)
    rw [← Text.joinPath_splitPath name]
    refine isTypeName_joinPath (Text.splitPath_ne_nil name) fun segment hsegment => ?_
    exact (((inside_pathForm hsegment).append_left _).trans h).isWord hfills hls

theorem Closure.WritesType.readable {source : String} {c : Closure} (hparse : Closure.parse source = .ok c)
    {t : HostType} (h : c.WritesType t) : t.Readable := by
  obtain ⟨⟨_, hreads⟩, _⟩ := Closure.reads_of_parse hparse
  have htape := tape_of_tokenize source
  obtain ⟨extra, _, hfills⟩ := hreads.passes htape
  exact HostType.readable_of_inside hfills htape.worded t (h.inside extra)

/-- The canonical text of a host type that was read from a text, or that is written in an accepted
closure, is read as that type. It differs from the text that the type was read from in white space only. -/
theorem HostType.reads_back :
    (∀ s t, parse? s = some t → parse? t.text = some t ∧ Text.compact t.text = Text.compact s) ∧
    ∀ source c, Closure.parse source = .ok c → ∀ t, c.WritesType t → parse? t.text = some t := by
  have hread : ∀ {t : HostType}, t.Readable → parse? t.text = some t :=
    fun h => parse?_eq_some_iff.mpr ⟨h, h.compact_text.symm⟩
  refine ⟨fun s t h => ?_, fun source c hparse t h => hread (h.readable hparse)⟩
  obtain ⟨hreadable, hcompact⟩ := parse?_eq_some_iff.mp h
  exact ⟨hread hreadable, hreadable.compact_text.trans hcompact⟩

/-- A type whose innermost brackets close together. -/
def pairs : HostType := ⟨"a::Buffer", [⟨"Pair", [.named "u32", .named "_f"]⟩]⟩

def pairsKernel : Closure :=
  ⟨⟨"ids", ⟨1, 4⟩⟩, some ⟨pairs, ⟨6, 29⟩⟩, ⟨⟨31, 56⟩,
    [.let ⟨33, 54⟩ false ⟨"v", ⟨37, 38⟩⟩ none (some (.cast ⟨41, 53⟩ (.name ⟨41, 42⟩ "x")
      ⟨⟨"T", [⟨"U", [.named "V"]⟩]⟩, ⟨46, 53⟩⟩))]⟩⟩

/-- A type as a field and behind a parameter, and the argument of another one in a cast. -/
theorem HostType.reads_back_pairs :
    parse? " a::Buf fer<Pair<u32,\t_f> >" = some pairs ∧ pairs.text = "a::Buffer<Pair<u32, _f>>" ∧
      (parse? pairs.text = some pairs ∧
        Text.compact pairs.text = Text.compact " a::Buf fer<Pair<u32,\t_f> >") ∧
      Closure.parse "|ids: a::Buffer<Pair<u32,_f>>| \x7b let v = x as T<U<V>>; \x7d" = .ok pairsKernel ∧
      parse? pairs.text = some pairs ∧
      parse? (HostType.text ⟨"U", [.named "V"]⟩) = some ⟨"U", [.named "V"]⟩ := by
  have hparse : Closure.parse "|ids: a::Buffer<Pair<u32,_f>>| \x7b let v = x as T<U<V>>; \x7d" =
      .ok pairsKernel := rfl
  have hparam : pairsKernel.WritesType pairs := .param rfl
  have hfield : parse? " a::Buf fer<Pair<u32,\t_f> >" = some pairs :=
    parse?_eq_some_iff.mpr ⟨hparam.readable hparse, by decide +kernel⟩
  have hcast : pairsKernel.WritesType ⟨"T", [⟨"U", [.named "V"]⟩]⟩ := .cast List.mem_cons_self .refl
  exact ⟨hfield, by decide +kernel, reads_back.1 _ _ hfield, hparse,
    reads_back.2 _ _ hparse _ hparam,
    reads_back.2 _ _ hparse _ (.arg hcast List.mem_cons_self)⟩

end ComputeKernel
