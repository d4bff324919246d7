import ComputeKernel.Proofs.Parsing.Fidelity
import ComputeKernel.Proofs.Parsing.Nesting
import ComputeKernel.Proofs.Parsing.Steps

/-!
Rules for readings of what can be derived. As long as the levels of a derivation fit in the bound on
the blocks and expressions that may be open, a reading passes what is derived, without a fault; where
they do not fit, it reports that the nesting is too deep. Two readings one behind the other need the
levels of the one that needs more, for a reading closes what it opens; only an expression and a block
are read at one level more.
-/

namespace ComputeKernel

/-- What is reported where too many blocks and expressions are open. -/
def depthExceeded : String := "nesting depth exceeded (maximum 256 levels)"

namespace Cursor

/-- Whether these lexemes are left to read. -/
structure Faces (c : Cursor) (ls : List Lexeme) : Prop where
  lexemes : c.lexemes = ls
  tape : Tape ls

/-- Whether it was reported that too many blocks and expressions are open. -/
def TooDeep (c : Cursor) : Prop :=
  ∃ d ∈ c.diagnostics, d.message = depthExceeded

/-- Whether a reading leads from `c` to `c'`, in front of `ls`, without a fault. -/
structure Reaches (c c' : Cursor) (ls : List Lexeme) : Prop where
  faces : c'.Faces ls
  depth : c'.depth = c.depth
  diagnostics : c'.diagnostics = c.diagnostics

variable {c c₁ c' : Cursor} {ls ls' : List Lexeme} {l : Lexeme}

theorem Reaches.trans (h : c.Reaches c₁ ls) (h' : c₁.Reaches c' ls') : c.Reaches c' ls' :=
  ⟨h'.faces, h'.depth.trans h.depth, h'.diagnostics.trans h.diagnostics⟩

theorem Faces.reaches (h : c.Faces ls) : c.Reaches c ls := ⟨h, rfl, rfl⟩

theorem Faces.lexeme (h : c.Faces ls) : c.lexeme = Parse.first ls := by
  rw [lexeme_eq_headD, Parse.first, ← h.lexemes]
  rfl

theorem advance_depth (c : Cursor) : c.advance.depth = c.depth := by
  unfold advance
  split <;> rfl

theorem Faces.advance (h : c.Faces (l :: ls)) (hne : l ≠ .endOfInput) : c.Reaches c.advance ls := by
  obtain ⟨hlexemes, _, htape⟩ := lexemes_advance (h.lexemes ▸ h.tape) h.lexeme hne
  have hls : c.advance.lexemes = ls := (List.cons.inj (hlexemes.symm.trans h.lexemes)).2
  exact ⟨⟨hls, hls ▸ htape⟩, advance_depth c, advance_diagnostics c⟩

theorem splitShift_depth (c : Cursor) : c.splitShift.depth = c.depth := by
  unfold splitShift
  split <;> rfl

theorem TooDeep.step (hstep : Step c c') (h : c.TooDeep) : c'.TooDeep := by
  obtain ⟨d, hd, hmessage⟩ := h
  refine ⟨d, ?_, hmessage⟩
  cases hstep with
  | advance => exact c.advance_diagnostics.symm ▸ hd
  | splitShift => exact c.splitShift_diagnostics.symm ▸ hd
  | report d' => exact List.mem_append_left _ hd
  | _ => exact hd

end Cursor

namespace Parse

open Cursor (Step)

variable {α β : Type} {ls ls₁ ls' : List Lexeme} {l : Lexeme} {m n : Nat}

/-- Whether a reading in front of `ls` reads up to `ls'`, without a fault, and gives what `V` says,
as long as `n` more blocks and expressions may be open, and reports that the nesting is too deep
where they may not. -/
def Follows (n : Nat) (p : Parse α) (V : α → Prop) (ls ls' : List Lexeme) : Prop :=
  ∀ c, c.Faces ls → c.depth ≤ maxDepth →
    (c.depth + n ≤ maxDepth → V (p.run c).1 ∧ c.Reaches (p.run c).2 ls') ∧
    (maxDepth < c.depth + n → (p.run c).2.TooDeep)

namespace Follows

variable {p : Parse α} {f : α → Parse β} {V : α → Prop} {W : β → Prop}

/-- What a reading reports is still reported behind it. -/
theorem tooDeep {q : Parse α} (hq : Walks Step q) {c : Cursor} (h : c.TooDeep) :
    (q.run c).2.TooDeep := hq.preserves (fun _ _ => Cursor.TooDeep.step) h

theorem mono {U : α → Prop} (h : Follows n p V ls ls') (hVU : ∀ a, V a → U a) :
    Follows n p U ls ls' := by
  intro c hc hdepth
  obtain ⟨hfits, hexceeds⟩ := h c hc hdepth
  exact ⟨fun hn => (hfits hn).imp_left (hVU _), hexceeds⟩

theorem discard (h : Follows n p V ls ls') :
    Follows n (Functor.discard p) (fun _ => True) ls ls' := by
  intro c hc hdepth
  obtain ⟨hfits, hexceeds⟩ := h c hc hdepth
  exact ⟨fun hn => ⟨trivial, (hfits hn).2⟩, hexceeds⟩

/-- A reading that opens nothing. -/
theorem of_reaches (h : ∀ c, c.Faces ls → V (p.run c).1 ∧ c.Reaches (p.run c).2 ls') :
    Follows 0 p V ls ls' :=
  fun c hc hdepth => ⟨fun _ => h c hc, fun hexceeds => absurd hdepth (Nat.not_le.mpr hexceeds)⟩

theorem reaches (h : Follows 0 p V ls ls') {c : Cursor} (hc : c.Faces ls)
    (hdepth : c.depth ≤ maxDepth) : V (p.run c).1 ∧ c.Reaches (p.run c).2 ls' :=
  (h c hc hdepth).1 hdepth

theorem pure {a : α} (h : V a) : Follows 0 (Pure.pure a : Parse α) V ls ls :=
  of_reaches fun _ hc => ⟨h, hc.reaches⟩

/-- One reading behind another opens as much as the one of the two that opens more. -/
theorem seq_of (hp : Follows m p V ls ls₁) (hwalks : ∀ a, Walks Step (f a))
    (hf : ∀ a, V a → Follows n (f a) W ls₁ ls') : Follows (max m n) (p >>= f) W ls ls' := by
  intro c hc hdepth
  obtain ⟨hfits, hexceeds⟩ := hp c hc hdepth
  by_cases hm : c.depth + m ≤ maxDepth
  · obtain ⟨ha, hreaches⟩ := hfits hm
    have hrest := hf _ ha _ hreaches.faces (hreaches.depth ▸ hdepth)
    rw [hreaches.depth] at hrest
    exact ⟨fun hn => (hrest.1 (by omega)).imp_right hreaches.trans, fun hn => hrest.2 (by omega)⟩
  · exact ⟨fun hn => absurd hn (by omega), fun _ => tooDeep (hwalks _) (hexceeds (by omega))⟩

theorem seq (hp : Follows m p V ls ls₁) (hf : ∀ a, V a → Follows n (f a) W ls₁ ls')
    [hwalks : ∀ a, Walks Step (f a)] : Follows (max m n) (p >>= f) W ls ls' :=
  hp.seq_of hwalks hf

/-- A reading in front that opens nothing. -/
theorem behind (hp : Follows 0 p V ls ls₁) (hf : ∀ a, V a → Follows n (f a) W ls₁ ls') :
    Follows n (p >>= f) W ls ls' := by
  intro c hc hdepth
  obtain ⟨ha, hreaches⟩ := hp.reaches hc hdepth
  have hrest := hf _ ha _ hreaches.faces (hreaches.depth ▸ hdepth)
  rw [hreaches.depth] at hrest
  exact ⟨fun hn => (hrest.1 hn).imp_right hreaches.trans, hrest.2⟩

theorem behind_eq {a : α} (hp : Follows 0 p (· = a) ls ls₁) (hf : Follows n (f a) W ls₁ ls') :
    Follows n (p >>= f) W ls ls' := by
  refine hp.behind ?_
  rintro _ rfl
  exact hf

/-- A reading at the end that opens nothing. -/
theorem before (hp : Follows n p V ls ls₁) (hf : ∀ a, V a → Follows 0 (f a) W ls₁ ls')
    [∀ a, Walks Step (f a)] : Follows n (p >>= f) W ls ls' := Nat.max_zero n ▸ hp.seq hf

end Follows

/-! ### Tokens -/

theorem lexeme_follows : Follows 0 lexeme (· = first ls) ls ls :=
  .of_reaches fun _ hc => ⟨hc.lexeme, hc.reaches⟩

theorem here_follows : Follows 0 here (fun _ => True) ls ls :=
  .of_reaches fun _ hc => ⟨trivial, hc.reaches⟩

theorem behind_follows : Follows 0 behind (fun _ => True) ls ls :=
  .of_reaches fun _ hc => ⟨trivial, hc.reaches⟩

theorem at?_follows (l : Lexeme) : Follows 0 (at? l) (· = (first ls == l)) ls ls :=
  .of_reaches fun _ hc => ⟨congrArg (· == l) hc.lexeme, hc.reaches⟩

theorem atSymbol_follows (s : Symbol) :
    Follows 0 (atSymbol s) (· = (first ls == .symbol s)) ls ls := at?_follows _

theorem atKeyword_follows (k : Keyword) :
    Follows 0 (atKeyword k) (· = (first ls == .keyword k)) ls ls := at?_follows _

theorem advance_follows (hne : l ≠ .endOfInput) : Follows 0 advance (fun _ => True) (l :: ls) ls :=
  .of_reaches fun _ hc => ⟨trivial, hc.advance hne⟩

theorem advanceSymbol_follows (s : Symbol) :
    Follows 0 advance (fun _ => True) (.symbol s :: ls) ls := advance_follows nofun

theorem advanceKeyword_follows (k : Keyword) :
    Follows 0 advance (fun _ => True) (.keyword k :: ls) ls := advance_follows nofun

theorem advanceIdent_follows (name : String) :
    Follows 0 advance (fun _ => True) (.ident name :: ls) ls := advance_follows nofun

theorem eat_follows (hne : l ≠ .endOfInput) : Follows 0 (eat l) (· = true) (l :: ls) ls := by
  refine (at?_follows l).behind_eq ?_
  rw [first_cons, beq_self_eq_true, if_pos rfl]
  exact (advance_follows hne).behind fun _ _ => .pure rfl

theorem eatSymbol_follows (s : Symbol) :
    Follows 0 (eat (.symbol s)) (· = true) (.symbol s :: ls) ls := eat_follows nofun

theorem eatKeyword_follows (k : Keyword) :
    Follows 0 (eat (.keyword k)) (· = true) (.keyword k :: ls) ls := eat_follows nofun

theorem eat_stays (hne : first ls ≠ l) : Follows 0 (eat l) (· = false) ls ls := by
  refine (at?_follows l).behind_eq ?_
  rw [beq_false_of_ne hne, if_neg Bool.false_ne_true]
  exact .pure rfl

theorem expect_follows (hne : l ≠ .endOfInput) :
    Follows 0 (expect l) (fun _ => True) (l :: ls) ls := by
  refine here_follows.behind fun _ _ => (at?_follows l).behind_eq ?_
  rw [first_cons, beq_self_eq_true]
  exact (advance_follows hne).behind fun _ _ => .pure trivial

theorem expectSymbol_follows (s : Symbol) :
    Follows 0 (expectSymbol s) (fun _ => True) (.symbol s :: ls) ls := expect_follows nofun

theorem passSymbol_follows (s : Symbol) :
    Follows 0 (discard (expectSymbol s)) (fun _ => True) (.symbol s :: ls) ls :=
  (expectSymbol_follows s).discard

theorem passKeyword_follows (k : Keyword) :
    Follows 0 (discard (expectKeyword k)) (fun _ => True) (.keyword k :: ls) ls :=
  (expect_follows (l := .keyword k) nofun).discard

theorem identifier_follows {name : String} :
    Follows 0 identifier (·.text = name) (.ident name :: ls) ls := by
  refine here_follows.behind fun _ _ => lexeme_follows.behind_eq ?_
  exact (advanceIdent_follows name).behind fun _ _ => .pure rfl

/-! ### Levels -/

/-- A reading at one level more, and what is done where there is none left. -/
def enclosed (p q : Parse α) : Parse α := do
  if ← enter then
    let a ← p
    leave
    return a
  else
    q

theorem run_enter (c : Cursor) : enter.run c =
    StateT.run (if maxDepth < c.depth + 1 then do
      faultWithHelp depthExceeded
        "split deeply nested expressions into intermediate `let` bindings"
      return false
    else
      return true) c.deeper := rfl

theorem enter_open {c : Cursor} (h : c.depth < maxDepth) : enter.run c = (true, c.deeper) := by
  rw [run_enter, if_neg (Nat.not_lt.mpr h)]
  rfl

theorem enter_full {c : Cursor} (h : maxDepth ≤ c.depth) :
    (enter.run c).1 = false ∧ (enter.run c).2.TooDeep := by
  rw [run_enter, if_pos (Nat.lt_succ_of_le h)]
  exact ⟨rfl, _, List.mem_append_right _ (List.mem_singleton_self _), rfl⟩

theorem run_enclosed (p q : Parse α) (c : Cursor) : (enclosed p q).run c =
    StateT.run (if (enter.run c).1 then do
      let a ← p
      leave
      return a
    else q) (enter.run c).2 := rfl

theorem enclosed_open (p q : Parse α) {c : Cursor} (h : c.depth < maxDepth) :
    (enclosed p q).run c = ((p.run c.deeper).1, (p.run c.deeper).2.shallower) := by
  rw [run_enclosed, enter_open h]
  rfl

theorem enclosed_full (p q : Parse α) [hq : Walks Step q] {c : Cursor} (h : maxDepth ≤ c.depth) :
    ((enclosed p q).run c).2.TooDeep := by
  obtain ⟨hfalse, hdeep⟩ := enter_full h
  rw [run_enclosed, hfalse]
  exact Follows.tooDeep hq hdeep

theorem Follows.enclosed {p q : Parse α} {V : α → Prop} [Walks Step q] (h : Follows n p V ls ls') :
    Follows (n + 1) (enclosed p q) V ls ls' := by
  intro c hc hdepth
  by_cases hopen : c.depth < maxDepth
  · have hp := h c.deeper ⟨hc.lexemes, hc.tape⟩ hopen
    have hlevels : c.deeper.depth + n = c.depth + (n + 1) := Nat.succ_add_eq_add_succ c.depth n
    rw [hlevels] at hp
    rw [enclosed_open p q hopen]
    refine ⟨fun hn => ?_, hp.2⟩
    obtain ⟨ha, hreaches⟩ := hp.1 hn
    exact ⟨ha, ⟨hreaches.faces.lexemes, hreaches.faces.tape⟩, congrArg (· - 1) hreaches.depth,
      hreaches.diagnostics⟩
  · exact ⟨fun hn => absurd hn (by omega), fun _ => enclosed_full p q (Nat.le_of_not_lt hopen)⟩

end Parse

end ComputeKernel
