import ComputeKernel.Proofs.Lexing.Order
import ComputeKernel.Proofs.Parsing.Extraction
import ComputeKernel.Proofs.Parsing.Layout

/-!
What is read of tokens in order is laid out in order. Each phrase keeps the rest of the tokens in
order, and its ranges lie between the token in front of it and the one behind it.
-/

namespace ComputeKernel

namespace Cursor

/-- Where the last passed token ends. -/
def edge (c : Cursor) : Nat :=
  match c.passed with
  | some s => s.stop
  | none => 0

/-- Whether what is left to read is in order, behind what was passed. -/
def Ordered (c : Cursor) : Prop := Token.Ordered c.edge c.tokens

/-- Whether a token was passed, the last one of which begins at `lo` or behind it. -/
def Since (lo : Nat) (c : Cursor) : Prop :=
  ∃ s, c.passed = some s ∧ lo ≤ s.start ∧ s.start < s.stop

variable {c c₁ c' : Cursor} {lo : Nat}

theorem Since.behind (h : c.Since lo) :
    lo ≤ c.behind.start ∧ c.behind.start < c.behind.stop ∧ c.behind.stop = c.edge := by
  obtain ⟨s, hs, hlo, hspan⟩ := h
  simp [Cursor.behind, edge, hs, hlo, hspan]

theorem Ordered.edge_le (h : c.Ordered) : c.edge ≤ c.here.start := by
  unfold Ordered at h
  unfold here
  cases htokens : c.tokens with
  | nil => rw [htokens] at h; cases h
  | cons t ts =>
    rw [htokens] at h
    cases h <;> assumption

/-- A token that is not the last one can be passed. -/
theorem Ordered.advance (h : c.Ordered) (hl : c.lexeme ≠ .endOfInput) :
    c.advance.Ordered ∧ c.advance.passed = some c.here ∧ c.advance.edge = c.here.stop ∧
      c.here.start < c.here.stop := by
  obtain ⟨tokens, passed, depth, diagnostics⟩ := c
  unfold Ordered at h
  cases h with
  | last _ _ hend => exact (hl hend).elim
  | cons hstart hspan hlexeme hshift hrest => exact ⟨hrest, rfl, rfl, hspan⟩

/-! ### Progress -/

/-- Whether a reading that leads from `c` to `c'` keeps the order. -/
structure Goes (c c' : Cursor) : Prop where
  ordered : c'.Ordered
  edge_le : c.edge ≤ c'.edge
  here_le : c.here.start ≤ c'.here.start
  since : ∀ lo, c.Since lo → c'.Since lo

/-- Whether a reading that leads from `c` to `c'` keeps the order and passes a token. -/
structure Passes (c c' : Cursor) : Prop where
  ordered : c'.Ordered
  since : c'.Since c.here.start
  proper : c.here.start < c.here.stop
  here_stop_le : c.here.stop ≤ c'.edge

theorem Goes.refl (h : c.Ordered) : Goes c c := ⟨h, Nat.le_refl _, Nat.le_refl _, fun _ hs => hs⟩

theorem Goes.trans (h : Goes c c₁) (h' : Goes c₁ c') : Goes c c' :=
  ⟨h'.ordered, Nat.le_trans h.edge_le h'.edge_le, Nat.le_trans h.here_le h'.here_le,
    fun lo hs => h'.since lo (h.since lo hs)⟩

theorem Passes.lt_edge (h : Passes c c') : c.here.start < c'.edge := by
  obtain ⟨hlo, hspan, hstop⟩ := h.since.behind
  omega

theorem Passes.goes (h : Passes c c') (hc : c.Ordered) : Goes c c' := by
  have hedge := hc.edge_le
  have hlt := h.lt_edge
  have hhere := h.ordered.edge_le
  refine ⟨h.ordered, by omega, by omega, fun lo hs => ?_⟩
  obtain ⟨hlo, hspan, hstop⟩ := hs.behind
  obtain ⟨s, hpassed, hstart, hproper⟩ := h.since
  exact ⟨s, hpassed, by omega, hproper⟩

theorem Passes.trans_goes (h : Passes c c₁) (h' : Goes c₁ c') : Passes c c' :=
  ⟨h'.ordered, h'.since _ h.since, h.proper, Nat.le_trans h.here_stop_le h'.edge_le⟩

theorem Passes.trans (h : Passes c c₁) (h' : Passes c₁ c') : Passes c c' :=
  h.trans_goes (h'.goes h.ordered)

/-- How many blocks and expressions are open does not matter. -/
theorem Passes.of_deeper (h : Passes c.deeper c') : Passes c c'.shallower :=
  ⟨h.ordered, h.since, h.proper, h.here_stop_le⟩

theorem Ordered.passes (h : c.Ordered) (hl : c.lexeme ≠ .endOfInput) : Passes c c.advance := by
  obtain ⟨hordered, hpassed, hedge, hspan⟩ := h.advance hl
  exact ⟨hordered, ⟨c.here, hpassed, Nat.le_refl _, hspan⟩, hspan, Nat.le_of_eq hedge.symm⟩

theorem Ordered.splitShift (h : c.Ordered) (hl : c.lexeme = .symbol .shr) :
    Goes c c.splitShift := by
  obtain ⟨tokens, passed, depth, diagnostics⟩ := c
  unfold Ordered at h
  cases h with
  | last _ _ hend => cases hend.symm.trans hl
  | cons hstart hspan hlexeme hshift hrest =>
    have hstop := hshift hl
    refine ⟨.cons (Nat.le_succ_of_le hstart) ?_ (by nofun) (by nofun) hrest, Nat.le_refl _,
      Nat.le_succ _, fun lo hs => hs⟩
    simp only
    omega

theorem Goes.advance (h : Goes c c') : Goes c c'.advance := by
  by_cases hl : c'.lexeme = .endOfInput
  · obtain ⟨tokens, passed, depth, diagnostics⟩ := c'
    have hordered := h.ordered
    unfold Ordered at hordered
    cases hordered with
    | last => exact h
    | cons _ _ hlexeme _ _ => exact (hlexeme hl).elim
  · exact h.trans ((h.ordered.passes hl).goes h.ordered)

theorem Ordered.skipUntil (stop : Lexeme → Bool) (h : c.Ordered) : Goes c (c.skipUntil stop) :=
  skipUntil_of_advance (P := Goes c) (fun _ => Goes.advance) stop (Goes.refl h)

end Cursor

namespace Parse

open Cursor

variable {c c' : Cursor}

/-! ### Types -/

/-- What the order of the tokens says of a phrase of types. -/
def TypePlaced (c : Cursor) : TypePhrase → Cursor → Prop
  | .tail _, c' => Goes c c'
  | .type t, c' => Passes c c' ∧ t.span.Between c.here.start c'.edge
  | .args _, c' => Passes c c'

theorem Closes.goes (h : Closes c c') (hc : c.Ordered) : Goes c c' := by
  rcases h with ⟨hl, rfl⟩ | ⟨hl, rfl⟩
  · exact hc.splitShift hl
  · exact (hc.passes (by rw [hl]; nofun)).goes hc

/-- The range from a token up to the last one that was passed. -/
theorem Passes.between {c c' : Cursor} (h : Passes c c') :
    (c.here.merge c'.behind).Between c.here.start c'.edge := by
  obtain ⟨hlo, hspan, hstop⟩ := h.since.behind
  have := h.here_stop_le
  simp only [Span.Between, Span.Proper, Span.merge_start, Span.merge_stop]
  omega

theorem Passes.merge_stop {c c' : Cursor} (h : Passes c c') :
    (c.here.merge c'.behind).stop = c'.edge := by
  obtain ⟨_, _, hstop⟩ := h.since.behind
  have := h.here_stop_le
  simp only [Span.merge_stop]
  omega

theorem Passes.merge_start {c c' : Cursor} (h : Passes c c') :
    (c.here.merge c'.behind).start = c.here.start :=
  Nat.min_eq_left h.since.behind.1

/-- The range from a token up to the end of a part that is read last. -/
theorem Passes.merge_part {c c' : Cursor} {s : Span} (h : Passes c c')
    (hs : s.Between c.here.stop c'.edge) :
    (c.here.merge s).start = c.here.start ∧ (c.here.merge s).stop = s.stop ∧
      (c.here.merge s).Between c.here.start c'.edge := by
  obtain ⟨hlo, hproper, hhi⟩ := hs
  have := h.proper
  unfold Span.Proper at hproper
  simp only [Span.Between, Span.Proper, Span.merge_start, Span.merge_stop]
  omega

theorem ReadsType.placed {p : TypePhrase} (h : ReadsType c p c') (hc : c.Ordered) :
    TypePlaced c p c' := by
  induction h with
  | tailEnd _ => exact Goes.refl hc
  | tailMore hcolons hsegment _ ih =>
    have h₁ := hc.passes (by rw [hcolons]; nofun)
    have h₂ := h₁.ordered.passes (by rw [hsegment]; nofun)
    exact (h₁.trans (h₂.trans_goes (ih h₂.ordered))).goes hc
  | plain hfirst _ _ ih =>
    have h₁ := hc.passes (by rw [hfirst]; nofun)
    have hpasses := h₁.trans_goes (ih h₁.ordered)
    exact ⟨hpasses, Passes.between hpasses⟩
  | generic hfirst _ hlt _ hclose ihRest ihArgs =>
    have h₁ := hc.passes (by rw [hfirst]; nofun)
    have h₂ := h₁.trans_goes (ihRest h₁.ordered)
    have h₃ := h₂.ordered.passes (by rw [hlt]; nofun)
    have h₄ := h₃.trans (ihArgs h₃.ordered)
    have hpasses := (h₂.trans h₄).trans_goes (hclose.goes h₄.ordered)
    exact ⟨hpasses, Passes.between hpasses⟩
  | lastArg _ _ ih => exact (ih hc).1
  | moreArgs _ hcomma _ ihType ihRest =>
    have h₁ := (ihType hc).1
    have h₂ := h₁.ordered.passes (by rw [hcomma]; nofun)
    exact h₁.trans (h₂.trans (ihRest h₂.ordered))

/-! ### Expressions -/

/-- What the order of the tokens says of an expression that is read from `c` to `c'`. -/
def ExprPlaced (c : Cursor) (e : Expr) (c' : Cursor) : Prop :=
  Passes c c' ∧ e.LaidIn c.here.start c'.edge

/-- What the order of the tokens says of an expression that is read behind a part of it. -/
def TailPlaced (c : Cursor) (left whole : Expr) (c' : Cursor) : Prop :=
  ∀ lo, left.LaidIn lo c.edge → Goes c c' ∧ whole.LaidIn lo c'.edge

/-- What the order of the tokens says of a phrase of expressions. -/
def Placed (c : Cursor) : Phrase → Cursor → Prop
  | .expression _ e, c' | .operand e, c' | .primary e, c' => ExprPlaced c e c'
  | .branch e, c' => Passes c c' ∧ e.LaidIn c.here.stop c'.edge
  | .operators _ left whole, c' | .members left whole, c' => TailPlaced c left whole c'
  | .tupleItems items, c' =>
    Goes c c' ∧ ∀ lo hi, lo ≤ c.edge → c'.edge < hi → Expr.AllLaid lo hi items
  | .arguments args, c' => Passes c c' ∧ ∀ lo, lo ≤ c.edge → Expr.AllLaid lo c'.edge args
  | .argumentItems args, c' =>
    Goes c c' ∧ ∀ lo hi, lo < c.edge → c'.edge < hi → Expr.AllLaid lo hi args

/-- Passing a token that is known. -/
structure Token.Passed (c : Cursor) : Prop where
  passes : Passes c c.advance
  edge_le : c.edge ≤ c.here.start
  proper : c.here.start < c.here.stop
  edge_advance : c.advance.edge = c.here.stop
  behind_advance : c.advance.behind = c.here
  here_le : c.here.stop ≤ c.advance.here.start

theorem passed_of_lexeme {l : Lexeme} (hc : c.Ordered) (hl : c.lexeme = l)
    (hne : l ≠ .endOfInput) : Token.Passed c := by
  have hne' : c.lexeme ≠ .endOfInput := hl ▸ hne
  obtain ⟨hordered, hpassed, hedge, hspan⟩ := hc.advance hne'
  exact ⟨hc.passes hne', hc.edge_le, hspan, hedge, by simp [Cursor.behind, hpassed],
    hedge ▸ hordered.edge_le⟩

theorem ExprPlaced.of_passed {e : Expr} (h : Token.Passed c) (he : ExprPlaced c.advance e c') :
    Passes c c' ∧ e.LaidIn c.here.stop c'.edge :=
  ⟨h.passes.trans he.1, he.2.mono h.here_le (Nat.le_refl _)⟩

theorem Reads.placed {p : Phrase} (h : Reads c p c') (hc : c.Ordered) : Placed c p c' := by
  induction h with
  | expression _ _ _ ihFirst ihWhole =>
    obtain ⟨h₁, hfirst⟩ := ihFirst hc
    obtain ⟨h₂, hwhole⟩ := ihWhole h₁.ordered _ hfirst
    exact ⟨(h₁.trans_goes h₂).of_deeper, hwhole⟩
  | noOperator _ => exact fun lo hleft => ⟨Goes.refl hc, hleft⟩
  | cast has htype _ ihWhole =>
    intro lo hleft
    have h₁ := passed_of_lexeme hc has nofun
    obtain ⟨h₂, htype⟩ := htype.placed h₁.passes.ordered
    obtain ⟨h₃, hwhole⟩ := ihWhole h₂.ordered lo
      (hleft.cast (htype.mono (by have := h₁.edge_le; have := h₁.proper; have := h₁.here_le; omega)
        (Nat.le_refl _)))
    exact ⟨((h₁.passes.trans h₂).goes hc).trans h₃, hwhole⟩
  | binary hs _ _ _ _ ihRight ihWhole =>
    intro lo hleft
    have h₁ := passed_of_lexeme hc hs nofun
    obtain ⟨h₂, hright⟩ := ExprPlaced.of_passed h₁ (ihRight h₁.passes.ordered)
    obtain ⟨h₃, hwhole⟩ := ihWhole h₂.ordered lo (hleft.binary (hright.mono
      (by have := h₁.edge_le; have := h₁.proper; omega) (Nat.le_refl _)))
    exact ⟨(h₂.goes hc).trans h₃, hwhole⟩
  | neg hminus _ ih | not hminus _ ih =>
    have h₁ := passed_of_lexeme hc hminus nofun
    obtain ⟨h₂, hinner⟩ := ExprPlaced.of_passed h₁ (ih h₁.passes.ordered)
    exact ⟨h₂, hinner.unary h₁.proper⟩
  | plain _ _ _ _ ihFirst ihWhole =>
    obtain ⟨h₁, hfirst⟩ := ihFirst hc
    obtain ⟨h₂, hwhole⟩ := ihWhole h₁.ordered _ hfirst
    exact ⟨h₁.trans_goes h₂, hwhole⟩
  | noMember _ _ _ => exact fun lo hleft => ⟨Goes.refl hc, hleft⟩
  | @method c c₁ c' receiver whole member args hdot hmember hspan _ _ ihArgs ihWhole =>
    intro lo hleft
    have h₁ := passed_of_lexeme hc hdot nofun
    have h₂ := passed_of_lexeme h₁.passes.ordered hmember nofun
    obtain ⟨h₃, hargs⟩ := ihArgs h₂.passes.ordered
    obtain ⟨hbehind, _, hstop⟩ := h₃.since.behind
    have hedge := h₁.edge_le
    have hproper := h₁.proper
    have hnext := h₁.here_le
    have hname := h₂.proper
    have hlast := h₂.edge_advance
    have hopen := h₂.here_le
    have hmid := h₃.lt_edge
    have hmethod : (Expr.method (receiver.span.merge c₁.behind) receiver member args).LaidIn lo
        c₁.behind.stop :=
      hleft.method
        ⟨by rw [hspan]; omega, by rw [hspan]; exact hname, by rw [hspan]; omega⟩ (by omega)
        (by rw [hspan, hstop]; exact hargs _ (by omega))
    rw [hstop] at hmethod
    obtain ⟨h₄, hwhole⟩ := ihWhole h₃.ordered lo hmethod
    exact ⟨((h₁.passes.trans (h₂.passes.trans h₃)).goes hc).trans h₄, hwhole⟩
  | field hdot hmember hspan _ _ ihWhole =>
    intro lo hleft
    have h₁ := passed_of_lexeme hc hdot nofun
    have h₂ := passed_of_lexeme h₁.passes.ordered hmember nofun
    have hedge := h₁.edge_le
    have hproper := h₁.proper
    have hnext := h₁.here_le
    have hname := h₂.proper
    have hlast := h₂.edge_advance
    obtain ⟨h₃, hwhole⟩ := ihWhole h₂.passes.ordered lo
      (hleft.field ⟨by rw [hspan]; omega, by rw [hspan]; exact hname, by rw [hspan]; omega⟩)
    exact ⟨((h₁.passes.trans h₂.passes).goes hc).trans h₃, hwhole⟩
  | index hopen _ hclose _ ihIndex ihWhole =>
    intro lo hleft
    have h₁ := passed_of_lexeme hc hopen nofun
    obtain ⟨h₂, hindex⟩ := ExprPlaced.of_passed h₁ (ihIndex h₁.passes.ordered)
    have h₃ := passed_of_lexeme h₂.ordered hclose nofun
    have hedge := h₁.edge_le
    have hproper := h₁.proper
    have hfull := hleft.index (b := _) (hindex.mono (by omega) h₃.edge_le) h₃.proper
    rw [← h₃.behind_advance] at hfull
    obtain ⟨h₄, hwhole⟩ := ihWhole h₃.passes.ordered lo (hfull.mono (Nat.le_refl _)
      (Nat.le_of_eq (by rw [h₃.behind_advance, h₃.edge_advance])))
    exact ⟨((h₂.trans h₃.passes).goes hc).trans h₄, hwhole⟩
  | integer hl | float hl | true hl | false hl =>
    have h₁ := passed_of_lexeme hc hl nofun
    exact ⟨h₁.passes, h₁.proper, Nat.le_refl _, Nat.le_of_eq h₁.edge_advance.symm⟩
  | call hfirst htail _ ihArgs =>
    have h₁ := passed_of_lexeme hc hfirst nofun
    have h₂ := h₁.passes.trans_goes (htail.placed h₁.passes.ordered)
    obtain ⟨h₃, hargs⟩ := ihArgs h₂.ordered
    have h₄ := h₂.trans h₃
    have hcallee := Passes.between h₂
    have hcall := Passes.between h₄
    have hbehind := h₄.since.behind
    refine ⟨h₄, ⟨⟨?_, hcallee.2.1, ?_⟩, ?_⟩, hcall.1, hcall.2.2⟩
    · exact Nat.le_trans (Nat.min_le_left _ _) hcallee.1
    · rw [Passes.merge_stop h₂, Passes.merge_stop h₄]
      exact (h₃.goes h₂.ordered).edge_le
    · rw [Passes.merge_stop h₂, Passes.merge_stop h₄]
      exact hargs _ (Nat.le_refl _)
  | name hfirst _ _ =>
    have h₁ := passed_of_lexeme hc hfirst nofun
    have hspan := Passes.between h₁.passes
    exact ⟨h₁.passes, hspan.2.1, hspan.1, hspan.2.2⟩
  | path hfirst htail _ _ =>
    have h₁ := passed_of_lexeme hc hfirst nofun
    have h₂ := h₁.passes.trans_goes (htail.placed h₁.passes.ordered)
    have hspan := Passes.between h₂
    exact ⟨h₂, hspan.2.1, hspan.1, hspan.2.2⟩
  | paren hopen _ hclose ih =>
    have h₁ := passed_of_lexeme hc hopen nofun
    obtain ⟨h₂, hinner⟩ := ExprPlaced.of_passed h₁ (ih h₁.passes.ordered)
    have h₃ := passed_of_lexeme h₂.ordered hclose nofun
    have hproper := h₁.proper
    have hproper' := h₃.proper
    have hedge := h₃.edge_le
    have hbounds := hinner.bounds
    have hparen := (hinner.mono (Nat.le_refl _) hedge).paren hproper hproper'
      (by omega) (by omega)
    rw [← h₃.edge_advance] at hparen
    exact ⟨h₂.trans h₃.passes, hparen⟩
  | tuple hopen _ _ _ hclose ihFirst ihRest =>
    have h₁ := passed_of_lexeme hc hopen nofun
    obtain ⟨h₂, hfirst⟩ := ExprPlaced.of_passed h₁ (ihFirst h₁.passes.ordered)
    obtain ⟨h₃, hrest⟩ := ihRest h₂.ordered
    have h₄ := passed_of_lexeme h₃.ordered hclose nofun
    have hproper := h₁.proper
    have hproper' := h₄.proper
    have hedge := h₄.edge_le
    have hedge' := h₃.edge_le
    have hbounds := hfirst.bounds
    refine ⟨(h₂.trans_goes h₃).trans h₄.passes, ⟨hfirst.1, ?_, hrest _ _ hbounds.2.2 ?_⟩, ?_, ?_⟩ <;>
      simp only [Expr.span_tuple, Span.merge_start, Span.merge_stop, h₄.edge_advance] <;> omega
  | choice hif _ _ helse _ ihCondition ihYes ihNo =>
    have h₁ := passed_of_lexeme hc hif nofun
    obtain ⟨h₂, hcondition⟩ := ExprPlaced.of_passed h₁ (ihCondition h₁.passes.ordered)
    obtain ⟨h₃, hyes⟩ := ihYes h₂.ordered
    have h₄ := passed_of_lexeme h₃.ordered helse nofun
    obtain ⟨h₅, hno⟩ := ihNo h₄.passes.ordered
    refine ⟨h₂.trans (h₃.trans (h₄.passes.trans h₅)), hcondition.choice h₁.proper
      (hyes.mono (Nat.lt_of_le_of_lt h₂.ordered.edge_le h₃.proper) h₄.edge_le) (hno.mono ?_ (Nat.le_refl _))⟩
    exact Nat.lt_of_lt_of_le h₄.proper
      (Nat.le_trans h₄.here_le (Nat.le_of_lt h₅.proper))
  | choiceChain hif _ _ helse _ _ ihCondition ihYes ihNo =>
    have h₁ := passed_of_lexeme hc hif nofun
    obtain ⟨h₂, hcondition⟩ := ExprPlaced.of_passed h₁ (ihCondition h₁.passes.ordered)
    obtain ⟨h₃, hyes⟩ := ihYes h₂.ordered
    have h₄ := passed_of_lexeme h₃.ordered helse nofun
    obtain ⟨h₅, hno⟩ := ExprPlaced.of_passed h₄ (ihNo h₄.passes.ordered)
    exact ⟨h₂.trans (h₃.trans h₅), hcondition.choice h₁.proper
      (hyes.mono (Nat.lt_of_le_of_lt h₂.ordered.edge_le h₃.proper) h₄.edge_le) (hno.mono h₄.proper (Nat.le_refl _))⟩
  | noItem _ => exact ⟨Goes.refl hc, fun lo hi hlo hhi => Nat.lt_of_le_of_lt hlo hhi⟩
  | lastComma hcomma _ =>
    have h₁ := passed_of_lexeme hc hcomma nofun
    have hgoes := h₁.passes.goes hc
    refine ⟨hgoes, fun lo hi hlo hhi => ?_⟩
    exact Nat.lt_of_le_of_lt (Nat.le_trans hlo hgoes.edge_le) hhi
  | moreItems hcomma _ _ _ ihItem ihRest =>
    have h₁ := passed_of_lexeme hc hcomma nofun
    obtain ⟨h₂, hitem⟩ := ExprPlaced.of_passed h₁ (ihItem h₁.passes.ordered)
    obtain ⟨h₃, hrest⟩ := ihRest h₂.ordered
    have hproper := h₁.proper
    have hedge := h₁.edge_le
    have hbounds := hitem.bounds
    refine ⟨(h₂.goes hc).trans h₃, fun lo hi hlo hhi => ⟨hitem.1, by omega, ?_⟩⟩
    exact hrest _ _ hbounds.2.2 hhi
  | branch hopen _ hclose ih =>
    have h₁ := passed_of_lexeme hc hopen nofun
    obtain ⟨h₂, hvalue⟩ := ExprPlaced.of_passed h₁ (ih h₁.passes.ordered)
    have h₃ := passed_of_lexeme h₂.ordered hclose nofun
    exact ⟨h₂.trans h₃.passes, hvalue.mono (Nat.le_refl _) (h₃.passes.goes h₂.ordered).edge_le⟩
  | arguments hopen _ hclose ih =>
    have h₁ := passed_of_lexeme hc hopen nofun
    obtain ⟨h₂, hargs⟩ := ih h₁.passes.ordered
    have h₃ := passed_of_lexeme h₂.ordered hclose nofun
    have hproper := h₁.proper
    have hedge := h₁.edge_le
    have hedge' := h₁.edge_advance
    refine ⟨(h₁.passes.trans_goes h₂).trans h₃.passes, fun lo hlo => hargs lo _ (by omega) ?_⟩
    rw [h₃.edge_advance]
    exact Nat.lt_of_le_of_lt h₃.edge_le h₃.proper
  | noArgument _ => exact ⟨Goes.refl hc, fun lo hi hlo hhi => Nat.lt_trans hlo hhi⟩
  | lastArgument _ _ _ ih =>
    obtain ⟨h₁, harg⟩ := ih hc
    have hedge := hc.edge_le
    have hbounds := harg.bounds
    exact ⟨h₁.goes hc, fun lo hi hlo hhi => ⟨harg.1, by omega, Nat.lt_of_le_of_lt hbounds.2.2 hhi⟩⟩
  | moreArguments _ _ hcomma _ ihArg ihRest =>
    obtain ⟨h₁, harg⟩ := ihArg hc
    have h₂ := passed_of_lexeme h₁.ordered hcomma nofun
    obtain ⟨h₃, hrest⟩ := ihRest h₂.passes.ordered
    have hedge := hc.edge_le
    have hbounds := harg.bounds
    refine ⟨((h₁.trans h₂.passes).goes hc).trans h₃, fun lo hi hlo hhi => ⟨harg.1, by omega, ?_⟩⟩
    refine hrest _ _ ?_ hhi
    rw [h₂.edge_advance]
    exact Nat.lt_of_le_of_lt (Nat.le_trans hbounds.2.2 h₂.edge_le) h₂.proper

/-! ### Statements -/

theorem Takes.goes {l : Lexeme} {there : Bool} (h : Takes l c there c') (hne : l ≠ .endOfInput)
    (hc : c.Ordered) : Goes c c' := by
  cases there with
  | true =>
    obtain ⟨hl, rfl⟩ := h
    exact (passed_of_lexeme hc hl hne).passes.goes hc
  | false =>
    obtain ⟨_, rfl⟩ := h
    exact Goes.refl hc

theorem Ends.goes {free : Bool} (h : Ends free c c') (hc : c.Ordered) : Goes c c' := by
  cases free with
  | true =>
    obtain rfl : c' = c := h
    exact Goes.refl hc
  | false =>
    obtain ⟨hl, rfl⟩ := h
    exact (passed_of_lexeme hc hl nofun).passes.goes hc

theorem ReadsAnnotation.placed {type : Option TypeRef} (h : ReadsAnnotation c type c')
    (hc : c.Ordered) : Goes c c' ∧ ∀ t ∈ type, t.span.Between c.edge c'.edge := by
  cases type with
  | none =>
    obtain ⟨_, rfl⟩ := h
    exact ⟨Goes.refl hc, nofun⟩
  | some t =>
    obtain ⟨hcolon, htype⟩ := h
    have h₁ := passed_of_lexeme hc hcolon nofun
    obtain ⟨h₂, hspan⟩ := htype.placed h₁.passes.ordered
    refine ⟨(h₁.passes.trans h₂).goes hc, fun t' ht' => ?_⟩
    obtain rfl := Option.some.inj ht'
    exact hspan.mono (Nat.le_trans h₁.edge_le (Nat.le_of_lt (Nat.lt_of_lt_of_le h₁.proper h₁.here_le)))
      (Nat.le_refl _)

theorem ReadsInitial.placed {value : Option Expr} (h : ReadsInitial c value c') (hc : c.Ordered) :
    Goes c c' ∧ ∀ e ∈ value, e.LaidIn (c.edge + 1) c'.edge := by
  cases value with
  | none =>
    obtain ⟨_, rfl⟩ := h
    exact ⟨Goes.refl hc, nofun⟩
  | some e =>
    obtain ⟨heq, he⟩ := h
    have h₁ := passed_of_lexeme hc heq nofun
    obtain ⟨h₂, hlaid⟩ := ExprPlaced.of_passed h₁ (he.placed h₁.passes.ordered)
    refine ⟨h₂.goes hc, fun e' he' => ?_⟩
    obtain rfl := Option.some.inj he'
    exact hlaid.mono (Nat.lt_of_le_of_lt h₁.edge_le h₁.proper) (Nat.le_refl _)

theorem ReadsSimple.placed {isBody : Bool} {s : Stmt} (h : ReadsSimple isBody c s c')
    (hc : c.Ordered) : Passes c c' ∧ s.LaidIn c.here.start c'.edge := by
  cases h with
  | eval he _ hends =>
    obtain ⟨h₁, hlaid⟩ := he.placed hc
    have h₂ := hends.goes h₁.ordered
    obtain ⟨hlo, hproper, hhi⟩ := hlaid.bounds
    exact ⟨h₁.trans_goes h₂, ⟨hlaid.1, rfl⟩, hlo, hproper, Nat.le_trans hhi h₂.edge_le⟩
  | assign hplace hs _ hvalue hends =>
    obtain ⟨h₁, hplace⟩ := hplace.placed hc
    have h₂ := passed_of_lexeme h₁.ordered hs nofun
    obtain ⟨h₃, hvalue⟩ := ExprPlaced.of_passed h₂ (hvalue.placed h₂.passes.ordered)
    have h₄ := hends.goes h₃.ordered
    have hbounds := hplace.bounds
    have hbounds' := hvalue.bounds
    have hedge := h₂.edge_le
    have hproper := h₂.proper
    have hend := h₄.edge_le
    refine ⟨(h₁.trans h₃).trans_goes h₄, ⟨hplace.1, hvalue.1, ?_, ?_, ?_⟩, ?_, ?_, ?_⟩ <;>
      (try simp only [Span.Proper, Stmt.span, Span.merge_start, Span.merge_stop]) <;> omega

/-- What the order of the tokens says of a phrase of statements. -/
def StmtPlaced (c : Cursor) : StmtPhrase → Cursor → Prop
  | .block b, c' => Passes c c' ∧ b.LaidIn c.here.start c'.edge
  | .statement s, c' => Passes c c' ∧ s.LaidIn c.here.start c'.edge
  | .statements stmts, c' =>
    Goes c c' ∧ ∀ lo hi, lo ≤ c.edge → c'.edge ≤ hi → Stmt.AllLaid lo hi stmts

theorem ReadsStmt.placed {p : StmtPhrase} (h : ReadsStmt c p c') (hc : c.Ordered) :
    StmtPlaced c p c' := by
  induction h with
  | @block c c₁ _ _ hopen _ hclose ih =>
    have h₁ := passed_of_lexeme (c := c.deeper) hc hopen nofun
    obtain ⟨h₂, hstmts⟩ := ih h₁.passes.ordered
    have h₃ := passed_of_lexeme h₂.ordered hclose nofun
    have hpasses := (h₁.passes.trans_goes h₂).trans h₃.passes
    have hspan := Passes.between hpasses
    have hstart := Passes.merge_start hpasses
    have hstop := Passes.merge_stop hpasses
    rw [h₃.behind_advance] at hspan hstart hstop
    refine ⟨hpasses.of_deeper, ⟨hspan.2.1, hstmts _ _ ?_ ?_⟩, hspan⟩
    · rw [h₁.edge_advance]
      exact Nat.le_trans (Nat.le_of_eq hstart) (Nat.le_of_lt h₁.proper)
    · exact Nat.le_trans (h₃.passes.goes h₂.ordered).edge_le (Nat.le_of_eq hstop.symm)
  | noStatement _ => exact ⟨Goes.refl hc, fun lo hi hlo hhi => Nat.le_trans hlo hhi⟩
  | emptyStatement hsemicolon _ ih =>
    have h₁ := passed_of_lexeme hc hsemicolon nofun
    have hgoes := h₁.passes.goes hc
    obtain ⟨h₂, hstmts⟩ := ih h₁.passes.ordered
    exact ⟨hgoes.trans h₂, fun lo hi hlo hhi => hstmts lo hi (Nat.le_trans hlo hgoes.edge_le) hhi⟩
  | moreStatements _ _ _ _ ihFirst ihRest =>
    obtain ⟨h₁, hfirst, hspan⟩ := ihFirst hc
    obtain ⟨h₂, hrest⟩ := ihRest h₁.ordered
    refine ⟨(h₁.goes hc).trans h₂, fun lo hi hlo hhi => ⟨hfirst, hspan.2.1, ?_, ?_⟩⟩
    · exact Nat.le_trans hlo (Nat.le_trans hc.edge_le hspan.1)
    · exact hrest _ _ hspan.2.2 hhi
  | «let» hlet hmut hname hspan htype hvalue hends =>
    have h₁ := passed_of_lexeme hc hlet nofun
    have h₂ := hmut.goes nofun h₁.passes.ordered
    have h₃ := passed_of_lexeme h₂.ordered hname nofun
    obtain ⟨h₄, htype⟩ := htype.placed h₃.passes.ordered
    obtain ⟨h₅, hvalue⟩ := hvalue.placed h₄.ordered
    have h₆ := hends.goes h₅.ordered
    have hpasses := (h₁.passes.trans_goes h₂).trans
      (h₃.passes.trans_goes (h₄.trans (h₅.trans h₆)))
    have hspan' := Passes.between hpasses
    have hstart := Passes.merge_start hpasses
    have hstop := Passes.merge_stop hpasses
    have hfront := Nat.lt_of_lt_of_le (Nat.lt_of_lt_of_le h₁.proper h₁.here_le) h₂.here_le
    have hname := h₃.edge_advance
    have hend₄ := h₄.edge_le
    have hend₅ := h₅.edge_le
    have hend₆ := h₆.edge_le
    refine ⟨hpasses, ⟨⟨?_, by rw [hspan]; exact h₃.proper, ?_⟩, fun t ht => ?_, fun e he => ?_⟩,
      hspan'⟩
    · rw [hstart, hspan]
      exact hfront
    · rw [hstop, hspan]
      omega
    · rw [hstop, hspan, ← hname]
      exact (htype t ht).mono (Nat.le_refl _) (by omega)
    · obtain ⟨hlaid, hlo, hhi⟩ := hvalue e he
      rw [hstop, hspan]
      exact ⟨hlaid, by omega, by omega⟩
  | ifOnly hif hcondition _ _ ihBody =>
    have h₁ := passed_of_lexeme hc hif nofun
    obtain ⟨h₂, hcondition⟩ := ExprPlaced.of_passed h₁ (hcondition.placed h₁.passes.ordered)
    obtain ⟨h₃, hbody⟩ := ihBody h₂.ordered
    have hpasses := h₂.trans h₃
    refine ⟨hpasses, .ifOnly (hcondition.mono ?_ h₂.ordered.edge_le) (hbody.mono (Nat.le_refl _) ?_),
      Passes.between hpasses⟩
    · rw [Passes.merge_start hpasses]
      exact h₁.proper
    · exact Nat.le_of_eq (Passes.merge_stop hpasses).symm
  | ifElse hif hcondition _ helse _ _ ihBody ihOtherwise =>
    have h₁ := passed_of_lexeme hc hif nofun
    obtain ⟨h₂, hcondition⟩ := ExprPlaced.of_passed h₁ (hcondition.placed h₁.passes.ordered)
    obtain ⟨h₃, hbody⟩ := ihBody h₂.ordered
    have h₄ := passed_of_lexeme h₃.ordered helse nofun
    obtain ⟨h₅, hotherwise⟩ := ihOtherwise h₄.passes.ordered
    have hpasses := (h₂.trans h₃).trans (h₄.passes.trans h₅)
    refine ⟨hpasses, .ifElse (hcondition.mono ?_ h₂.ordered.edge_le)
      (hbody.mono (Nat.le_refl _) (h₄.passes.goes h₃.ordered).edge_le)
      (hotherwise.mono h₄.passes.ordered.edge_le ?_), Passes.between hpasses⟩
    · rw [Passes.merge_start hpasses]
      exact h₁.proper
    · exact Nat.le_of_eq (Passes.merge_stop hpasses).symm
  | ifChain hif hcondition _ helse _ _ ihBody ihOtherwise =>
    have h₁ := passed_of_lexeme hc hif nofun
    obtain ⟨h₂, hcondition⟩ := ExprPlaced.of_passed h₁ (hcondition.placed h₁.passes.ordered)
    obtain ⟨h₃, hbody⟩ := ihBody h₂.ordered
    have h₄ := passed_of_lexeme h₃.ordered helse nofun
    obtain ⟨h₅, hchained⟩ := ihOtherwise h₄.passes.ordered
    have hpasses := (h₂.trans h₃).trans (h₄.passes.trans h₅)
    refine ⟨hpasses, .ifElse (hcondition.mono ?_ h₂.ordered.edge_le)
      (hbody.mono (Nat.le_refl _) (h₄.passes.goes h₃.ordered).edge_le)
      (hchained.block.mono h₄.passes.ordered.edge_le ?_), Passes.between hpasses⟩
    · rw [Passes.merge_start hpasses]
      exact h₁.proper
    · exact Nat.le_of_eq (Passes.merge_stop hpasses).symm
  | «for» hfor hname hspan hin hfirst hrange hlast _ ihBody =>
    have h₁ := passed_of_lexeme hc hfor nofun
    have h₂ := passed_of_lexeme h₁.passes.ordered hname nofun
    have h₃ := passed_of_lexeme h₂.passes.ordered hin nofun
    obtain ⟨h₄, hfirst⟩ := ExprPlaced.of_passed h₃ (hfirst.placed h₃.passes.ordered)
    have h₅ := passed_of_lexeme h₄.ordered hrange (by split <;> nofun)
    obtain ⟨h₆, hlast⟩ := ExprPlaced.of_passed h₅ (hlast.placed h₅.passes.ordered)
    obtain ⟨h₇, hbody⟩ := ihBody h₆.ordered
    have hpasses := ((h₁.passes.trans h₂.passes).trans (h₄.trans h₆)).trans h₇
    have hstartProper := h₁.proper
    have hfront := h₁.here_le
    have hproper := h₂.proper
    have hmid := h₂.here_le
    have hproper₃ := h₃.proper
    have hfirstBounds := hfirst.bounds
    have hedge₅ := h₅.edge_le
    have hproper₅ := h₅.proper
    have hlastBounds := hlast.bounds
    have hedge := h₆.ordered.edge_le
    have hbodyStart := hbody.2.1
    obtain ⟨hstart, hstop, hbetween⟩ := Passes.merge_part hpasses
      (hbody.2.mono (by omega) (Nat.le_refl _))
    refine ⟨hpasses, ⟨hfirst.1, hlast.1, hbody.1, ⟨?_, ?_, ?_⟩, ?_, ?_, ?_⟩, hbetween⟩
    · rw [hstart, hspan]
      omega
    · rw [hspan]
      exact h₂.proper
    · rw [hspan]
      omega
    · omega
    · omega
    · exact Nat.le_of_eq hstop.symm
  | «while» hwhile hcondition _ ihBody =>
    have h₁ := passed_of_lexeme hc hwhile nofun
    obtain ⟨h₂, hcondition⟩ := ExprPlaced.of_passed h₁ (hcondition.placed h₁.passes.ordered)
    obtain ⟨h₃, hbody⟩ := ihBody h₂.ordered
    have hpasses := h₂.trans h₃
    have hedge := h₂.ordered.edge_le
    have hproper := h₁.proper
    obtain ⟨hstart, hstop, hbetween⟩ := Passes.merge_part hpasses
      (hbody.2.mono (Nat.le_trans h₂.here_stop_le hedge) (Nat.le_refl _))
    have hbounds := hcondition.bounds
    refine ⟨hpasses, ⟨hcondition.1, hbody.1, ?_, ?_, Nat.le_of_eq hstop.symm⟩, hbetween⟩
    · rw [hstart]
      omega
    · exact Nat.le_trans hbounds.2.2 (Nat.le_trans hedge hbody.2.1)
  | loop hloop _ ihBody =>
    have h₁ := passed_of_lexeme hc hloop nofun
    obtain ⟨h₂, hbody⟩ := ihBody h₁.passes.ordered
    have hpasses := h₁.passes.trans h₂
    obtain ⟨hstart, hstop, hbetween⟩ := Passes.merge_part hpasses
      (hbody.2.mono h₁.here_le (Nat.le_refl _))
    refine ⟨hpasses, ⟨hbody.1, ?_, Nat.le_of_eq hstop.symm⟩, hbetween⟩
    rw [hstart]
    exact Nat.lt_of_lt_of_le h₁.proper (Nat.le_trans h₁.here_le hbody.2.1)
  | jump hkind hends =>
    have h₁ := passed_of_lexeme hc hkind nofun
    have h₂ := hends.goes h₁.passes.ordered
    exact ⟨h₁.passes.trans_goes h₂, h₁.proper, Nat.le_refl _, h₁.proper,
      Nat.le_trans (Nat.le_of_eq h₁.edge_advance.symm) h₂.edge_le⟩
  | nested hopen _ ihBody =>
    obtain ⟨h₁, hbody⟩ := ihBody hc
    exact ⟨h₁, ⟨hbody.1, rfl⟩, hbody.2⟩
  | simple _ hs => exact hs.placed hc

/-! ### Closures -/

theorem ReadsBody.placed {b : Block} (h : ReadsBody c b c') (hc : c.Ordered) :
    Passes c c' ∧ b.LaidIn c.here.start c'.edge := by
  cases h with
  | block _ hb => exact hb.placed hc
  | simple _ hs =>
    obtain ⟨h₁, hlaid⟩ := hs.placed hc
    exact ⟨h₁, hlaid.block⟩

/-- The parts of a closure are laid out, and none reaches into the end of input. -/
theorem ReadsClosure.placed {closure : Closure} (h : ReadsClosure c closure c') (hc : c.Ordered) :
    c'.Ordered ∧ closure.Laid c'.edge := by
  cases h with
  | mk hmove hbar hname hspan htype _ hclose hbody _ =>
    have h₁ := hmove.goes nofun hc
    have h₂ := passed_of_lexeme h₁.ordered hbar nofun
    have h₃ := passed_of_lexeme h₂.passes.ordered hname nofun
    obtain ⟨h₄, htype⟩ := htype.placed h₃.passes.ordered
    have h₅ := h₄.ordered.skipUntil endsParameters
    have h₆ := passed_of_lexeme h₅.ordered hclose nofun
    obtain ⟨h₇, hbody⟩ := hbody.placed h₆.passes.ordered
    have hmid := h₄.edge_le
    have hskip := h₅.edge_le
    have hedge := h₆.edge_le
    have hproper := h₆.proper
    have hnext := h₆.here_le
    have hbodyStart := hbody.2.1
    refine ⟨h₇.ordered, by simp only [hspan]; exact h₃.proper, fun t ht => ?_, ?_, hbody.1,
      hbody.2.2.2⟩
    · simp only [hspan]
      rw [← h₃.edge_advance]
      exact (htype t ht).mono (Nat.le_refl _) (by omega)
    · simp only [hspan]
      rw [← h₃.edge_advance]
      omega

end Parse

/-- The parts of an accepted closure are laid out in its source. -/
theorem Closure.laid_of_parse {source : String} {c : Closure} (h : Closure.parse source = .ok c) :
    ∃ hi, c.Laid hi := by
  obtain ⟨⟨c', hreads⟩, _⟩ := Closure.reads_of_parse h
  exact ⟨_, (hreads.placed (tokenize_ordered source)).2⟩

end ComputeKernel
