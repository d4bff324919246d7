import ComputeKernel.Proofs.Parsing.Productions
import ComputeKernel.Proofs.Parsing.Steps

/-!
Progress of readings. What a production calls stands behind a token that it passed, or is of a lower
rank; some ranks depend on the current lexeme, as a block that begins with its brace passes it before
it calls anything, and one without a brace does not. And the tokens that a production passes pay for
what it does: each of them for 64 steps, a few more are its toll. Where a token is passed for sure the
toll is negative, and what is left over pays for the caller's next round.

Both are told by one account of a plan, which answers its calls by any reading that pays its toll.
Each production has its account, and none of them needs another's: that calls do pay their tolls
follows from all of them together.
-/

namespace ComputeKernel

open Parse

/-! ### The tokens that are left -/

namespace Cursor

variable {c c' : Cursor}

def left (c : Cursor) : Nat := c.tokens.length

/-- Whether the last token marks the end of input. -/
def Marked (c : Cursor) : Prop := c.tokens.getLast?.map Token.lexeme = some .endOfInput

theorem Marked.congr (h : c.Marked) (htokens : c'.tokens = c.tokens) : c'.Marked := by
  rwa [Marked, htokens]

theorem lexeme_congr (h : c'.tokens = c.tokens) : c'.lexeme = c.lexeme := by
  rw [lexeme, lexeme, h]

theorem left_congr (h : c'.tokens = c.tokens) : c'.left = c.left := congrArg List.length h

theorem Marked.left_pos (h : c.Marked) : 0 < c.left := by
  rw [left, List.length_pos_iff]
  intro hnil
  simp [Marked, hnil] at h

theorem Marked.advance (h : c.Marked) : c.advance.Marked := by
  obtain ⟨tokens, passed, depth, diagnostics⟩ := c
  rcases tokens with _ | ⟨t, _ | ⟨u, rest⟩⟩
  · exact h
  · exact h
  · simpa [Marked, Cursor.advance] using h

theorem left_advance_le (c : Cursor) : c.advance.left ≤ c.left := by
  obtain ⟨tokens, passed, depth, diagnostics⟩ := c
  rcases tokens with _ | ⟨t, _ | ⟨u, rest⟩⟩ <;> simp [left, Cursor.advance]

/-- Any other token than the mark of the end is passed. -/
theorem Marked.left_advance (h : c.Marked) (hne : c.lexeme ≠ .endOfInput) :
    c.advance.left + 1 = c.left := by
  obtain ⟨tokens, passed, depth, diagnostics⟩ := c
  rcases tokens with _ | ⟨t, _ | ⟨u, rest⟩⟩
  · simp [Marked] at h
  · simp [Marked] at h
    exact absurd h hne
  · simp [left, Cursor.advance]

theorem skipTokens_left (stop : Lexeme → Bool) (tokens : List Token) (passed : Option Span) :
    (skipTokens stop tokens passed).1.getLast? = tokens.getLast? ∧
      (skipTokens stop tokens passed).1.length ≤ tokens.length := by
  induction tokens generalizing passed with
  | nil => exact ⟨rfl, Nat.le_refl 0⟩
  | cons t rest ih =>
    cases rest with
    | nil => exact ⟨rfl, Nat.le_refl 1⟩
    | cons u rest =>
      rw [skipTokens]
      split
      · exact ⟨rfl, Nat.le_refl _⟩
      · obtain ⟨hlast, hlength⟩ := ih (some t.span)
        exact ⟨by rw [hlast, List.getLast?_cons_cons], Nat.le_succ_of_le hlength⟩

/-- No step brings back a token, nor does one pass the mark of the end. -/
theorem Marked.step (h : c.Marked) (hstep : Step c c') : c'.Marked ∧ c'.left ≤ c.left := by
  cases hstep with
  | advance => exact ⟨h.advance, c.left_advance_le⟩
  | skipUntil stop =>
    obtain ⟨hlast, hlength⟩ := skipTokens_left stop c.tokens c.passed
    exact ⟨(congrArg _ hlast).trans h, hlength⟩
  | splitShift hshift =>
    obtain ⟨tokens, passed, depth, diagnostics⟩ := c
    rcases tokens with _ | ⟨t, _ | ⟨u, rest⟩⟩
    · cases hshift
    · simp [Marked] at h
      cases h.symm.trans hshift
    · exact ⟨by simpa [Marked, Cursor.splitShift] using h, Nat.le_refl _⟩
  | deeper => exact ⟨h, Nat.le_refl _⟩
  | shallower => exact ⟨h, Nat.le_refl _⟩
  | report => exact ⟨h, Nat.le_refl _⟩

theorem Marked.walk {α : Type} {step : Parse α} (h : c.Marked) (hwalk : Walks Step step) :
    (step.run c).2.Marked ∧ (step.run c).2.left ≤ c.left :=
  hwalk.preserves (I := fun c' => c'.Marked ∧ c'.left ≤ c.left)
    (fun _ _ hstep hs => ⟨(hs.1.step hstep).1, Nat.le_trans (hs.1.step hstep).2 hs.2⟩)
    ⟨h, Nat.le_refl _⟩

end Cursor

theorem Parse.tokens_enter (c : Cursor) : (enter.run c).2.tokens = c.tokens := by
  have hrun : enter.run c = StateT.run (if maxDepth < c.depth + 1 then do
      faultWithHelp "nesting depth exceeded (maximum 256 levels)"
        "split deeply nested expressions into intermediate `let` bindings"
      return false
    else return true) c.deeper := rfl
  rw [hrun]
  split <;> rfl

/-! ### Ranks and tolls -/

namespace Production

/-- One if a reading that begins with the lexeme `first` finds it. -/
def begun (first l : Lexeme) : Nat := if l = first then 1 else 0

theorem begun_self (l : Lexeme) : begun l l = 1 := if_pos rfl

theorem begun_le (first l : Lexeme) : begun first l ≤ 1 := by
  unfold begun
  split <;> decide

/-- What the reading of an expression costs more where it passes no token. -/
def idle (l : Lexeme) : Int := if isBlockEnd l then 25 else 0

theorem idle_nonneg (l : Lexeme) : 0 ≤ idle l := by
  unfold idle
  split <;> decide

theorem idle_le (l : Lexeme) : idle l ≤ 25 := by
  unfold idle
  split <;> decide

theorem idle_eq_zero {l : Lexeme} (h : isBlockEnd l = false) : idle l = 0 := by
  rw [idle, h]
  rfl

/-- How many calls may follow, each made by the one before, until a token is passed. -/
def rank : {α : Type} → Production α → Lexeme → Nat
  | _, .skip _ _, _ | _, .pathTail, _ | _, .operators _ _, _ | _, .tupleItems, _ => 0
  | _, .typeRef, _ | _, .members _, _ | _, .primary, _ => 1
  | _, .typeArgs, _ | _, .operand, _ => 2
  | _, .expression _, _ => 3
  | _, .branch, _ | _, .argumentItems, _ | _, .statement, _ => 4
  | _, .statements, _ => 5
  | _, .parenthesized, l => 4 - 4 * begun (.symbol .lparen) l
  | _, .arguments, l => 5 - 5 * begun (.symbol .lparen) l
  | _, .conditional, l => 5 - 5 * begun (.keyword .if_) l
  | _, .block, l => 6 - 5 * begun (.symbol .lbrace) l
  | _, .ifStmt, l => 7 - 7 * begun (.keyword .if_) l
  | _, .forStmt, l => 7 - 7 * begun (.keyword .for_) l

/-- How many steps of a production, at most, the tokens that it passes do not pay for. -/
def toll : {α : Type} → Production α → Lexeme → Int
  | _, .skip stop _, l => if stop l then 1 else -60
  | _, .pathTail, _ | _, .operators _ _, _ | _, .members _, _ | _, .tupleItems, _ => 1
  | _, .typeRef, _ => 6
  | _, .typeArgs, _ => 8
  | _, .expression _, l => idle l - 12
  | _, .operand, l => idle l - 17
  | _, .primary, l => idle l - 22
  | _, .parenthesized, l => 20 - 64 * begun (.symbol .lparen) l
  | _, .conditional, l => 39 - 64 * begun (.keyword .if_) l
  | _, .branch, _ => 20
  | _, .arguments, l => 19 - 64 * begun (.symbol .lparen) l
  | _, .argumentItems, _ => 16
  | _, .block, l => 7 - 64 * begun (.symbol .lbrace) l
  | _, .statements, _ => 1
  | _, .statement, l => idle l - 4
  | _, .ifStmt, l => 26 - 64 * begun (.keyword .if_) l
  | _, .forStmt, l => 43 - 64 * begun (.keyword .for_) l

variable {α β : Type}

theorem rank_lt (p : Production α) (l : Lexeme) : p.rank l < 16 := by
  cases p <;> simp only [rank] <;> omega

/-- Tokens that are left and rank as one number, of which the tokens are the upper part. -/
def weight (p : Production α) (c : Cursor) : Nat := 16 * c.left + p.rank c.lexeme

/-- Whether `q` at `d` is nearer to an exit than `p` at `c`: fewer tokens are left, or as many and the
rank is lower. Splitting a `>>` does not count; no reading depends on that to come to an end. -/
def Nearer (q : Production β) (d : Cursor) (p : Production α) (c : Cursor) : Prop :=
  d.left < c.left ∨ d.left = c.left ∧ q.rank d.lexeme < p.rank c.lexeme

theorem nearer_of_weight_lt {q : Production β} {d : Cursor} {p : Production α} {c : Cursor}
    (h : q.weight d < p.weight c) : q.Nearer d p c := by
  have hrank := p.rank_lt c.lexeme
  simp only [weight] at h
  unfold Nearer
  omega

end Production

/-- That the steps from `c` to `c'` are paid for, up to `toll`, by 64 for each token passed. -/
structure Paid (toll : Int) (c c' : Cursor) (steps : Nat) : Prop where
  marked : c'.Marked
  paid : (steps : Int) + 64 * c'.left ≤ 64 * c.left + toll

theorem Paid.mono {t u : Int} {c c' : Cursor} {k : Nat} (h : Paid t c c' k) (htu : t ≤ u) :
    Paid u c c' k :=
  ⟨h.marked, Int.le_trans h.paid (Int.add_le_add_left htu _)⟩

/-! ### The account of a plan -/

namespace Plan

variable {α β : Type} {limit : Nat} {c : Cursor} {n : Nat}

/-- The account of a plan that is followed from `c` with `n` steps behind it: it calls nothing but
what is below `limit`, and ends in `Q`, whatever the calls answer for their tolls. -/
def Assures (limit : Nat) : Plan α → (α → Cursor → Nat → Prop) → Cursor → Nat → Prop
  | done a, Q, c, n => Q a c n
  | move step next, Q, c, n => (next (step.run c).1).Assures limit Q (step.run c).2 (n + 1)
  | call p next, Q, c, n => c.Marked ∧ p.weight c < limit ∧
      ∀ b c' k, Paid (p.toll c.lexeme) c c' k → (next b).Assures limit Q c' (n + k + 1)

namespace Assures

variable {Q : α → Cursor → Nat → Prop}

theorem mono {plan : Plan α} {Q' : α → Cursor → Nat → Prop} (h : plan.Assures limit Q c n)
    (hQ : ∀ a c n, Q a c n → Q' a c n) : plan.Assures limit Q' c n := by
  induction plan generalizing c n with
  | done a => exact hQ a c n h
  | move step next ih => exact ih _ h
  | call p next ih => exact ⟨h.1, h.2.1, fun b c' k hpaid => ih b (h.2.2 b c' k hpaid)⟩

theorem of_bind {plan : Plan β} {f : β → Plan α}
    (h : plan.Assures limit (fun b c n => (f b).Assures limit Q c n) c n) :
    (plan >>= f).Assures limit Q c n := by
  induction plan generalizing c n with
  | done b => exact h
  | move step next ih => exact ih _ h
  | call p next ih => exact ⟨h.1, h.2.1, fun b c' k hpaid => ih b (h.2.2 b c' k hpaid)⟩

theorem of_paid {plan : Plan α} {t : Int} {c₀ : Cursor}
    (h : plan.Assures limit (fun _ => Paid t c₀) c n)
    (hQ : ∀ a c' (m : Nat), c'.Marked → (m : Int) + 64 * c'.left ≤ 64 * c₀.left + t → Q a c' m) :
    plan.Assures limit Q c n :=
  h.mono fun a c' m hpaid => hQ a c' m hpaid.marked hpaid.paid

theorem pure {a : α} (h : Q a c n) : (Pure.pure a : Plan α).Assures limit Q c n := h

theorem discard {plan : Plan β} {Q : Unit → Cursor → Nat → Prop}
    (h : plan.Assures limit (fun _ => Q ()) c n) : (discard plan).Assures limit Q c n := of_bind h

/-! #### Steps -/

/-- A step that only looks. -/
theorem look {step : Parse α} {a : α} (hlook : step.run c = (a, c)) (h : Q a c (n + 1)) :
    (liftM step : Plan α).Assures limit Q c n := by
  change Q (step.run c).1 (step.run c).2 (n + 1)
  rw [hlook]
  exact h

theorem at? {l : Lexeme} {Q : Bool → Cursor → Nat → Prop} (hyes : c.lexeme = l → Q true c (n + 1))
    (hno : c.lexeme ≠ l → Q false c (n + 1)) :
    (liftM (Parse.at? l) : Plan Bool).Assures limit Q c n := by
  by_cases h : c.lexeme = l
  · exact look (Prod.ext (beq_iff_eq.mpr h) rfl) (hyes h)
  · exact look (Prod.ext (beq_eq_false_iff_ne.mpr h) rfl) (hno h)

/-- A step of which it only matters that it brings back no token. -/
theorem walk {step : Parse α} [hwalk : Walks Cursor.Step step] (hc : c.Marked)
    (h : ∀ a c', c'.Marked → c'.left ≤ c.left → Q a c' (n + 1)) :
    (liftM step : Plan α).Assures limit Q c n :=
  h _ _ (hc.walk hwalk).1 (hc.walk hwalk).2

/-- A step that stays where it is. -/
theorem stay {step : Parse α} (hc : c.Marked) (hstay : (step.run c).2.tokens = c.tokens)
    (h : ∀ a c', c'.Marked → c'.lexeme = c.lexeme → c'.left = c.left → Q a c' (n + 1)) :
    (liftM step : Plan α).Assures limit Q c n :=
  h _ _ (hc.congr hstay) (Cursor.lexeme_congr hstay) (Cursor.left_congr hstay)

theorem advance {Q : Unit → Cursor → Nat → Prop} (hc : c.Marked) (hne : c.lexeme ≠ .endOfInput)
    (h : ∀ c', c'.Marked → c'.left + 1 = c.left → Q () c' (n + 1)) :
    (liftM Parse.advance : Plan Unit).Assures limit Q c n :=
  h c.advance hc.advance (hc.left_advance hne)

theorem eat {l : Lexeme} {Q : Bool → Cursor → Nat → Prop} (hc : c.Marked) (hne : l ≠ .endOfInput)
    (hyes : ∀ c', c'.Marked → c'.left + 1 = c.left → Q true c' (n + 1)) (hno : Q false c (n + 1)) :
    (liftM (Parse.eat l) : Plan Bool).Assures limit Q c n := by
  change Q ((Parse.eat l).run c).1 ((Parse.eat l).run c).2 (n + 1)
  have hrun : (Parse.eat l).run c =
      StateT.run (if c.lexeme == l then do Parse.advance; return true else return false) c := rfl
  by_cases h : c.lexeme = l
  · rw [hrun, if_pos (beq_iff_eq.mpr h)]
    exact hyes _ hc.advance (hc.left_advance (h ▸ hne))
  · rw [hrun, if_neg (mt beq_iff_eq.mp h)]
    exact hno

theorem expect {l : Lexeme} {Q : Span → Cursor → Nat → Prop} (hc : c.Marked)
    (hne : l ≠ .endOfInput)
    (h : ∀ span c', c'.Marked → c'.left + Production.begun l c.lexeme ≤ c.left → Q span c' (n + 1)) :
    (liftM (Parse.expect l) : Plan Span).Assures limit Q c n := by
  by_cases hl : c.lexeme = l
  · have hrun : (Parse.expect l).run c = StateT.run (do
        if c.lexeme == l then Parse.advance else
          Parse.fault s!"expected {l.description}, found {(← Parse.lexeme).description}"
        return c.here) c := rfl
    change Q ((Parse.expect l).run c).1 ((Parse.expect l).run c).2 (n + 1)
    rw [hrun, if_pos (beq_iff_eq.mpr hl)]
    refine h _ _ hc.advance ?_
    rw [hl, Production.begun_self]
    exact Nat.le_of_eq (hc.left_advance (hl ▸ hne))
  · refine walk hc fun span c' hc' hleft => h span c' hc' ?_
    rwa [Production.begun, if_neg hl]

/-- What a plan may do or leave out, if it takes one step and brings back no token. -/
theorem optional {b : Prop} [Decidable b] {x : Plan Unit} {next : Unit → Plan α} (hc : c.Marked)
    (hx : x.Assures limit (fun _ c' m => c'.Marked ∧ c'.left ≤ c.left ∧ m ≤ n + 1) c n)
    (h : ∀ c' m, c'.Marked → c'.left ≤ c.left → m ≤ n + 1 → (next ()).Assures limit Q c' m) :
    (if b then x >>= next else next ()).Assures limit Q c n := by
  split
  · exact of_bind (hx.mono fun _ c' m hm => h c' m hm.1 hm.2.1 hm.2.2)
  · exact h c n hc (Nat.le_refl _) (Nat.le_succ n)

/-! #### Calls -/

/-- A call of a production that here has a rank of at most `r` and a toll of at most `t`. -/
theorem ask_le {p : Production α} (r : Nat) (t : Int) (hr : p.rank c.lexeme ≤ r)
    (ht : p.toll c.lexeme ≤ t) (hc : c.Marked) (hlimit : 16 * c.left + r < limit)
    (h : ∀ a c' (k : Nat), c'.Marked → (k : Int) + 64 * c'.left ≤ 64 * c.left + t →
      Q a c' (n + k + 1)) :
    (Plan.ask p).Assures limit Q c n :=
  ⟨hc, Nat.lt_of_le_of_lt (Nat.add_le_add_left hr _) hlimit,
    fun a c' k hpaid => h a c' k hpaid.marked (hpaid.mono ht).paid⟩

theorem ask {p : Production α} (r : Nat) (t : Int) (hr : p.rank c.lexeme = r)
    (ht : p.toll c.lexeme = t) (hc : c.Marked) (hlimit : 16 * c.left + r < limit)
    (h : ∀ a c' (k : Nat), c'.Marked → (k : Int) + 64 * c'.left ≤ 64 * c.left + t →
      Q a c' (n + k + 1)) :
    (Plan.ask p).Assures limit Q c n :=
  ask_le r t (Nat.le_of_eq hr) (Int.le_of_eq ht) hc hlimit h

theorem skip {stop : Lexeme → Bool} {hstop : stop .endOfInput} {Q : Unit → Cursor → Nat → Prop}
    (hc : c.Marked) (hlimit : 16 * c.left < limit)
    (h : ∀ c' (k : Nat), c'.Marked → (k : Int) + 64 * c'.left ≤ 64 * c.left + 1 →
      Q () c' (n + k + 1)) :
    (Plan.ask (.skip stop hstop)).Assures limit Q c n := by
  refine ask_le 0 1 (Nat.le_refl 0) ?_ hc hlimit fun _ => h
  simp only [Production.toll]
  split <;> decide

theorem expression {floor : Nat} {Q : Expr → Cursor → Nat → Prop} (hc : c.Marked)
    (hlimit : 16 * c.left + 3 < limit)
    (h : ∀ e c' (k : Nat), c'.Marked → (k : Int) + 64 * c'.left ≤ 64 * c.left + 13 →
      Q e c' (n + k + 1)) :
    (Plan.ask (.expression floor)).Assures limit Q c n := by
  refine ask_le 3 13 (Nat.le_refl 3) ?_ hc hlimit h
  have hidle := Production.idle_le c.lexeme
  simp only [Production.toll]
  omega

theorem block {Q : Block → Cursor → Nat → Prop} (hc : c.Marked) (hlimit : 16 * c.left + 6 < limit)
    (h : ∀ b c' (k : Nat), c'.Marked → (k : Int) + 64 * c'.left ≤ 64 * c.left + 7 →
      Q b c' (n + k + 1)) :
    (Plan.ask .block).Assures limit Q c n := by
  refine ask_le 6 7 (Nat.sub_le _ _) ?_ hc hlimit h
  simp only [Production.toll]
  omega

end Assures

/-! ### Types -/

theorem skip_assures {stop : Lexeme → Bool} (hstop : stop .endOfInput) (hc : c.Marked)
    (hlimit : 16 * c.left ≤ limit) :
    (skip stop hstop).Assures limit (fun _ => Paid (if stop c.lexeme then 1 else -60) c) c 0 := by
  refine .of_bind (.look rfl ?_)
  cases hl : stop c.lexeme with
  | true => exact .pure ⟨hc, by simp; omega⟩
  | false =>
    refine .of_bind (.advance hc (fun hend => ?_) fun c₁ hc₁ h₁ => ?_)
    · rw [hend, hstop] at hl
      cases hl
    · refine .skip hc₁ (by omega) fun c₂ k₂ hc₂ h₂ => ⟨hc₂, ?_⟩
      simp
      omega

theorem pathTail_assures (hc : c.Marked) (hlimit : 16 * c.left ≤ limit) :
    pathTail.Assures limit (fun _ => Paid 1 c) c 0 := by
  refine .of_bind (.eat hc (by decide) (fun c₁ hc₁ h₁ => ?_) (.pure ⟨hc, by omega⟩))
  refine .of_bind (.walk hc₁ fun segment c₂ hc₂ h₂ => .of_bind ?_)
  exact .ask 0 1 rfl rfl hc₂ (by omega) fun rest c₃ k₃ hc₃ h₃ => .pure ⟨hc₃, by omega⟩

theorem typeRef_assures (hc : c.Marked) (hlimit : 16 * c.left + 1 ≤ limit) :
    typeRef.Assures limit (fun _ => Paid 6 c) c 0 := by
  refine .of_bind (.look rfl (.of_bind (.walk hc fun first c₁ hc₁ h₁ => .of_bind ?_)))
  refine .ask 0 1 rfl rfl hc₁ (by omega) fun rest c₂ k₂ hc₂ h₂ => ?_
  refine .of_bind (.of_bind (.eat hc₂ (by decide) (fun c₃ hc₃ h₃ => .of_bind ?_) ?_))
  · refine .ask 2 8 rfl rfl hc₃ (by omega) fun args c₄ k₄ hc₄ h₄ => ?_
    refine .of_bind (.walk hc₄ fun _ c₅ hc₅ h₅ => .pure (.of_bind (.look rfl ?_)))
    exact .pure ⟨hc₅, by omega⟩
  · exact .pure (.of_bind (.look rfl (.pure ⟨hc₂, by omega⟩)))

theorem typeArgs_assures (hc : c.Marked) (hlimit : 16 * c.left + 2 ≤ limit) :
    typeArgs.Assures limit (fun _ => Paid 8 c) c 0 := by
  refine .of_bind (.ask 1 6 rfl rfl hc (by omega) fun arg c₁ k₁ hc₁ h₁ => .of_bind ?_)
  refine .eat hc₁ (by decide) (fun c₂ hc₂ h₂ => .of_bind ?_) (.pure ⟨hc₁, by omega⟩)
  exact .ask 2 8 rfl rfl hc₂ (by omega) fun rest c₃ k₃ hc₃ h₃ => .pure ⟨hc₃, by omega⟩

/-! ### Expressions -/

theorem toll_skip_le (l : Lexeme) :
    (Production.skip isEnd (by decide)).toll l ≤ Production.idle l - 24 := by
  have hidle := Production.idle_nonneg l
  cases h : isEnd l with
  | true =>
    obtain rfl := of_decide_eq_true h
    decide
  | false =>
    simp only [Production.toll, h, Bool.false_eq_true, if_false]
    omega

theorem expression_assures (floor : Nat) (hc : c.Marked) (hlimit : 16 * c.left + 3 ≤ limit) :
    (expression floor).Assures limit
      (fun _ => Paid ((Production.expression floor).toll c.lexeme) c) c 0 := by
  have hidle := Production.idle_le c.lexeme
  simp only [Production.toll]
  refine .of_bind (.stay hc (tokens_enter c) fun opened c₁ hc₁ hl₁ h₁ => ?_)
  cases opened with
  | true =>
    refine .of_bind (.ask 2 (Production.idle c.lexeme - 17) rfl (by rw [hl₁]; rfl) hc₁ (by omega) ?_)
    intro first c₂ k₂ hc₂ h₂
    refine .of_bind (.ask 0 1 rfl rfl hc₂ (by omega) fun whole c₃ k₃ hc₃ h₃ => ?_)
    exact .of_bind (.walk hc₃ fun _ c₄ hc₄ h₄ => .pure ⟨hc₄, by omega⟩)
  | false =>
    refine .of_bind (.look rfl (.of_bind ?_))
    refine .ask_le 0 _ (Nat.le_refl 0) (toll_skip_le c₁.lexeme) hc₁ (by omega) ?_
    rw [hl₁]
    exact fun _ c₂ k₂ hc₂ h₂ => .pure ⟨hc₂, by omega⟩

theorem operators_assures (floor : Nat) (left : Expr) (hc : c.Marked)
    (hlimit : 16 * c.left ≤ limit) :
    (operators floor left).Assures limit (fun _ => Paid 1 c) c 0 := by
  refine .of_bind (.look rfl ?_)
  split
  · rename_i hl
    refine .of_bind (.advance hc (by simp [hl]) fun c₁ hc₁ h₁ => .of_bind ?_)
    refine .ask 1 6 rfl rfl hc₁ (by omega) fun type c₂ k₂ hc₂ h₂ => ?_
    exact .ask 0 1 rfl rfl hc₂ (by omega) fun _ c₃ k₃ hc₃ h₃ => ⟨hc₃, by omega⟩
  · rename_i hl
    split
    · exact .pure ⟨hc, by omega⟩
    split
    · exact .pure ⟨hc, by omega⟩
    refine .of_bind (.advance hc (by simp [hl]) fun c₁ hc₁ h₁ => ?_)
    refine .of_bind (.expression hc₁ (by omega) fun right c₂ k₂ hc₂ h₂ => ?_)
    exact .ask 0 1 rfl rfl hc₂ (by omega) fun _ c₃ k₃ hc₃ h₃ => ⟨hc₃, by omega⟩
  · exact .pure ⟨hc, by omega⟩

theorem operand_assures (hc : c.Marked) (hlimit : 16 * c.left + 2 ≤ limit) :
    operand.Assures limit (fun _ => Paid (Production.operand.toll c.lexeme) c) c 0 := by
  have hunary {s : Symbol} {f : Expr → Expr} (hl : c.lexeme = .symbol s)
      (hs : isBlockEnd (.symbol s) = false) : (do advance; let inner ← ask .operand; return f inner :
        Plan Expr).Assures limit (fun _ => Paid (Production.operand.toll c.lexeme) c) c 2 := by
    simp only [Production.toll, hl, Production.idle_eq_zero hs]
    refine .of_bind (.advance hc (by simp [hl]) fun c₁ hc₁ h₁ => .of_bind ?_)
    have hidle := Production.idle_le c₁.lexeme
    refine .ask 2 (Production.idle c₁.lexeme - 17) rfl rfl hc₁ (by omega) ?_
    exact fun inner c₂ k₂ hc₂ h₂ => .pure ⟨hc₂, by omega⟩
  refine .of_bind (.look rfl (.of_bind (.look rfl ?_)))
  split
  · rename_i hl
    exact hunary hl rfl
  · rename_i hl
    exact hunary hl rfl
  · have hidle := Production.idle_le c.lexeme
    simp only [Production.toll]
    refine .of_bind (.ask 1 (Production.idle c.lexeme - 22) rfl rfl hc (by omega) ?_)
    intro first c₁ k₁ hc₁ h₁
    exact .ask 1 1 rfl rfl hc₁ (by omega) fun _ c₂ k₂ hc₂ h₂ => ⟨hc₂, by omega⟩

theorem members_assures (receiver : Expr) (hc : c.Marked) (hlimit : 16 * c.left + 1 ≤ limit) :
    (members receiver).Assures limit (fun _ => Paid 1 c) c 0 := by
  refine .of_bind (.look rfl ?_)
  split
  · rename_i hl
    refine .of_bind (.advance hc (by simp [hl]) fun c₁ hc₁ h₁ => ?_)
    refine .of_bind (.walk hc₁ fun member c₂ hc₂ h₂ => .of_bind (.at? (fun hl₂ => ?_) fun _ => ?_))
    · refine .of_bind (.ask 0 (-45) (by rw [hl₂]; rfl) (by rw [hl₂]; rfl) hc₂ (by omega) ?_)
      intro args c₃ k₃ hc₃ h₃
      refine .of_bind (.look rfl (.ask 1 1 rfl rfl hc₃ (by omega) ?_))
      exact fun _ c₄ k₄ hc₄ h₄ => ⟨hc₄, by omega⟩
    · exact .ask 1 1 rfl rfl hc₂ (by omega) fun _ c₃ k₃ hc₃ h₃ => ⟨hc₃, by omega⟩
  · rename_i hl
    refine .of_bind (.advance hc (by simp [hl]) fun c₁ hc₁ h₁ => ?_)
    refine .of_bind (.expression hc₁ (by omega) fun index c₂ k₂ hc₂ h₂ => ?_)
    refine .of_bind (.discard (.walk hc₂ fun _ c₃ hc₃ h₃ => .of_bind (.look rfl ?_)))
    exact .ask 1 1 rfl rfl hc₃ (by omega) fun _ c₄ k₄ hc₄ h₄ => ⟨hc₄, by omega⟩
  · rename_i hl
    refine .of_bind (.stay hc rfl fun _ c₁ hc₁ hl₁ h₁ => .of_bind (.discard ?_))
    rw [hl] at hl₁
    refine .ask 0 (-45) (by rw [hl₁]; rfl) (by rw [hl₁]; rfl) hc₁ (by omega) ?_
    intro args c₂ k₂ hc₂ h₂
    exact .ask 1 1 rfl rfl hc₂ (by omega) fun _ c₃ k₃ hc₃ h₃ => ⟨hc₃, by omega⟩
  · exact .pure ⟨hc, by omega⟩

theorem primary_assures (hc : c.Marked) (hlimit : 16 * c.left + 1 ≤ limit) :
    primary.Assures limit (fun _ => Paid (Production.primary.toll c.lexeme) c) c 0 := by
  simp only [Production.toll]
  have hliteral {l : Lexeme} {e : Expr} (hl : c.lexeme = l) (hend : isBlockEnd l = false) :
      (do advance; return e : Plan Expr).Assures limit
        (fun _ => Paid (Production.idle c.lexeme - 22) c) c 2 := by
    rw [hl, Production.idle_eq_zero hend]
    refine .of_bind (.advance hc (fun h => ?_) fun c₁ hc₁ h₁ => .pure ⟨hc₁, by omega⟩)
    rw [← hl, h] at hend
    cases hend
  refine .of_bind (.look rfl (.of_bind (.look rfl ?_)))
  split
  · rename_i hl
    exact hliteral hl rfl
  · rename_i hl
    exact hliteral hl rfl
  · rename_i hl
    exact hliteral hl rfl
  · rename_i hl
    exact hliteral hl rfl
  · rename_i hl
    rw [hl, Production.idle_eq_zero rfl]
    refine .of_bind (.advance hc (by simp [hl]) fun c₁ hc₁ h₁ => .of_bind ?_)
    refine .ask 0 1 rfl rfl hc₁ (by omega) fun rest c₂ k₂ hc₂ h₂ => ?_
    refine .of_bind (.look rfl (.of_bind (.at? (fun hl₂ => .of_bind ?_) fun _ => ?_)))
    · refine .ask 0 (-45) (by rw [hl₂]; rfl) (by rw [hl₂]; rfl) hc₂ (by omega) ?_
      exact fun args c₃ k₃ hc₃ h₃ => .of_bind (.look rfl (.pure ⟨hc₃, by omega⟩))
    · cases rest <;> exact .pure ⟨hc₂, by omega⟩
  · rename_i hl
    rw [hl, Production.idle_eq_zero rfl]
    refine .ask 0 (-44) (by rw [hl]; rfl) (by rw [hl]; rfl) hc (by omega) ?_
    exact fun _ c₁ k₁ hc₁ h₁ => ⟨hc₁, by omega⟩
  · rename_i hl
    rw [hl, Production.idle_eq_zero rfl]
    refine .ask 0 (-25) (by rw [hl]; rfl) (by rw [hl]; rfl) hc (by omega) ?_
    exact fun _ c₁ k₁ hc₁ h₁ => ⟨hc₁, by omega⟩
  · refine .of_bind (.stay hc rfl fun _ c₁ hc₁ hl₁ h₁ => ?_)
    cases hl : isBlockEnd c.lexeme with
    | true =>
      rw [Production.idle, hl, if_pos rfl]
      exact .pure ⟨hc₁, by omega⟩
    | false =>
      rw [Production.idle_eq_zero hl]
      refine .of_bind (.advance hc₁ (fun hend => ?_) fun c₂ hc₂ h₂ => .pure ⟨hc₂, by omega⟩)
      rw [← hl₁, hend] at hl
      cases hl

theorem parenthesized_assures (hc : c.Marked) (hlimit : Production.parenthesized.weight c ≤ limit) :
    parenthesized.Assures limit (fun _ => Paid (Production.parenthesized.toll c.lexeme) c) c 0 := by
  have hbegun := Production.begun_le (.symbol .lparen) c.lexeme
  simp only [Production.weight, Production.rank] at hlimit
  simp only [Production.toll]
  refine .of_bind (.expect hc (by decide) fun start c₁ hc₁ h₁ => .of_bind ?_)
  refine .at? (fun _ => ?_) fun _ => ?_
  · refine .of_bind (.walk hc₁ fun _ c₂ hc₂ h₂ => .of_bind (.walk hc₂ fun stop c₃ hc₃ h₃ => ?_))
    exact .pure ⟨hc₃, by omega⟩
  · refine .of_bind (.expression hc₁ (by omega) fun first c₂ k₂ hc₂ h₂ => .of_bind ?_)
    refine .at? (fun _ => .of_bind ?_) fun _ => .of_bind ?_
    · exact .walk hc₂ fun stop c₃ hc₃ h₃ => .pure ⟨hc₃, by omega⟩
    · refine .ask 0 1 rfl rfl hc₂ (by omega) fun rest c₃ k₃ hc₃ h₃ => ?_
      exact .of_bind (.walk hc₃ fun stop c₄ hc₄ h₄ => .pure ⟨hc₄, by omega⟩)

theorem tupleItems_assures (hc : c.Marked) (hlimit : 16 * c.left ≤ limit) :
    tupleItems.Assures limit (fun _ => Paid 1 c) c 0 := by
  refine .of_bind (.eat hc (by decide) (fun c₁ hc₁ h₁ => ?_) (.pure ⟨hc, by omega⟩))
  refine .of_bind (.at? (fun _ => .pure ⟨hc₁, by omega⟩) fun _ => ?_)
  refine .of_bind (.expression hc₁ (by omega) fun item c₂ k₂ hc₂ h₂ => .of_bind ?_)
  exact .ask 0 1 rfl rfl hc₂ (by omega) fun rest c₃ k₃ hc₃ h₃ => .pure ⟨hc₃, by omega⟩

theorem conditional_assures (hc : c.Marked) (hlimit : Production.conditional.weight c ≤ limit) :
    conditional.Assures limit (fun _ => Paid (Production.conditional.toll c.lexeme) c) c 0 := by
  have hbegun := Production.begun_le (.keyword .if_) c.lexeme
  simp only [Production.weight, Production.rank] at hlimit
  simp only [Production.toll]
  refine .of_bind (.look rfl (.of_bind (.discard (.expect hc (by decide) fun _ c₁ hc₁ h₁ => ?_))))
  refine .of_bind (.expression hc₁ (by omega) fun condition c₂ k₂ hc₂ h₂ => .of_bind ?_)
  refine .ask 4 20 rfl rfl hc₂ (by omega) fun yes c₃ k₃ hc₃ h₃ => ?_
  refine .of_bind (.eat hc₃ (by decide) (fun c₄ hc₄ h₄ => .of_bind (.of_bind ?_)) ?_)
  · refine .at? (fun hl₄ => ?_) fun _ => ?_
    · refine .ask 0 (-25) (by rw [hl₄]; rfl) (by rw [hl₄]; rfl) hc₄ (by omega) ?_
      exact fun no c₅ k₅ hc₅ h₅ => .pure ⟨hc₅, by omega⟩
    · exact .ask 4 20 rfl rfl hc₄ (by omega) fun no c₅ k₅ hc₅ h₅ => .pure ⟨hc₅, by omega⟩
  · exact .of_bind (.walk hc₃ fun _ c₄ hc₄ h₄ => .pure ⟨hc₄, by omega⟩)

theorem branch_assures (hc : c.Marked) (hlimit : 16 * c.left + 4 ≤ limit) :
    branch.Assures limit (fun _ => Paid 20 c) c 0 := by
  refine .of_bind (.discard (.walk hc fun _ c₁ hc₁ h₁ => ?_))
  refine .of_bind (.expression hc₁ (by omega) fun value c₂ k₂ hc₂ h₂ => ?_)
  refine .of_bind (.at? (fun _ => ?_) fun _ => ?_)
  · exact .of_bind (.discard (.walk hc₂ fun _ c₃ hc₃ h₃ => .pure ⟨hc₃, by omega⟩))
  · refine .of_bind (.walk hc₂ fun _ c₃ hc₃ h₃ => .of_bind ?_)
    refine .skip hc₃ (by omega) fun c₄ k₄ hc₄ h₄ => ?_
    exact .of_bind (.discard (.walk hc₄ fun _ c₅ hc₅ h₅ => .pure ⟨hc₅, by omega⟩))

theorem arguments_assures (hc : c.Marked) (hlimit : Production.arguments.weight c ≤ limit) :
    arguments.Assures limit (fun _ => Paid (Production.arguments.toll c.lexeme) c) c 0 := by
  have hbegun := Production.begun_le (.symbol .lparen) c.lexeme
  simp only [Production.weight, Production.rank] at hlimit
  simp only [Production.toll]
  refine .of_bind (.discard (.expect hc (by decide) fun _ c₁ hc₁ h₁ => .of_bind ?_))
  refine .ask 4 16 rfl rfl hc₁ (by omega) fun args c₂ k₂ hc₂ h₂ => ?_
  exact .of_bind (.discard (.walk hc₂ fun _ c₃ hc₃ h₃ => .pure ⟨hc₃, by omega⟩))

theorem argumentItems_assures (hc : c.Marked) (hlimit : 16 * c.left + 4 ≤ limit) :
    argumentItems.Assures limit (fun _ => Paid 16 c) c 0 := by
  refine .of_bind (.look rfl ?_)
  split
  · exact .pure ⟨hc, by omega⟩
  · refine .of_bind (.expression hc (by omega) fun arg c₁ k₁ hc₁ h₁ => .of_bind ?_)
    refine .eat hc₁ (by decide) (fun c₂ hc₂ h₂ => .of_bind ?_) (.pure ⟨hc₁, by omega⟩)
    exact .ask 4 16 rfl rfl hc₂ (by omega) fun rest c₃ k₃ hc₃ h₃ => .pure ⟨hc₃, by omega⟩

/-! ### Statements -/

theorem simpleStmt_assures (isBody : Bool) (hc : c.Marked) (hlimit : 16 * c.left + 3 < limit) :
    (simpleStmt isBody).Assures limit
      (fun _ => Paid (n + Production.idle c.lexeme - 7) c) c n := by
  have hidle := Production.idle_le c.lexeme
  refine .of_bind (.ask 3 (Production.idle c.lexeme - 12) rfl rfl hc hlimit ?_)
  intro first c₁ k₁ hc₁ h₁
  refine .of_bind (.look rfl (.of_bind ?_))
  refine .mono (Q := fun _ => Paid (n + Production.idle c.lexeme - 10) c) ?_ ?_
  · -- no assignment begins at the mark of the end, and every other token is passed
    by_cases hend : c₁.lexeme = .endOfInput
    · rw [hend]
      exact .pure ⟨hc₁, by omega⟩
    split
    · refine .of_bind (.advance hc₁ hend fun c₂ hc₂ h₂ => .of_bind ?_)
      exact .expression hc₂ (by omega) fun value c₃ k₃ hc₃ h₃ => .pure ⟨hc₃, by omega⟩
    · exact .pure ⟨hc₁, by omega⟩
  · rintro stmt c₂ m₂ ⟨hc₂, h₂⟩
    refine .of_bind (.look rfl (.of_bind (.look rfl ?_)))
    refine .optional hc₂ (.discard (.walk hc₂ fun _ c₃ hc₃ h₃ => ⟨hc₃, h₃, Nat.le_refl _⟩)) ?_
    exact fun c₃ m₃ hc₃ h₃ hm₃ => .pure ⟨hc₃, by omega⟩

theorem letStmt_assures (hc : c.Marked) (hl : c.lexeme = .keyword .let_)
    (hlimit : 16 * c.left ≤ limit) : letStmt.Assures limit (fun _ => Paid (n - 55) c) c n := by
  refine .of_bind (.look rfl (.of_bind (.discard (.expect hc (by decide) fun _ c₁ hc₁ h₁ => ?_))))
  rw [hl, Production.begun_self] at h₁
  refine .of_bind (.walk hc₁ fun mutable c₂ hc₂ h₂ => .of_bind (.walk hc₂ fun name c₃ hc₃ h₃ => ?_))
  refine .of_bind
    (.mono (Q := fun _ c' m => Paid (n - 59) c c' m ∧ c'.left < c.left) (.of_bind ?_) ?_)
  · refine .eat hc₃ (by decide) (fun c₄ hc₄ h₄ => .of_bind ?_) (.pure ⟨⟨hc₃, by omega⟩, by omega⟩)
    refine .ask 1 6 rfl rfl hc₄ (by omega) fun type c₅ k₅ hc₅ h₅ => ?_
    exact .pure ⟨⟨hc₅, by omega⟩, by omega⟩
  rintro type c₄ m₄ ⟨⟨hc₄, hpaid₄⟩, h₄⟩
  refine .of_bind (.mono (Q := fun _ => Paid (n - 58) c) (.of_bind ?_) ?_)
  · refine .eat hc₄ (by decide) (fun c₅ hc₅ h₅ => .of_bind ?_) (.pure ⟨hc₄, by omega⟩)
    exact .expression hc₅ (by omega) fun value c₆ k₆ hc₆ h₆ => .pure ⟨hc₆, by omega⟩
  rintro value c₅ m₅ ⟨hc₅, h₅⟩
  refine .of_bind (.look rfl ?_)
  refine .optional hc₅ (.discard (.walk hc₅ fun _ c₆ hc₆ h₆ => ⟨hc₆, h₆, Nat.le_refl _⟩)) ?_
  exact fun c₆ m₆ hc₆ h₆ hm₆ => .of_bind (.look rfl (.pure ⟨hc₆, by omega⟩))

theorem jumpStmt_assures (kind : Jump) (hc : c.Marked) (hne : c.lexeme ≠ .endOfInput)
    (hlimit : 16 * c.left ≤ limit) :
    (jumpStmt kind).Assures limit (fun _ => Paid (n - 57) c) c n := by
  refine .of_bind (.look rfl (.of_bind (.advance hc hne fun c₁ hc₁ h₁ => .of_bind (.look rfl ?_))))
  split
  · refine .of_bind (.walk hc₁ fun _ c₂ hc₂ h₂ => .of_bind ?_)
    refine .skip hc₂ (by omega) fun c₃ k₃ hc₃ h₃ => ?_
    exact .of_bind (.discard (.walk hc₃ fun _ c₄ hc₄ h₄ => .pure ⟨hc₄, by omega⟩))
  · exact .of_bind (.discard (.walk hc₁ fun _ c₂ hc₂ h₂ => .pure ⟨hc₂, by omega⟩))

theorem toll_skip_le_block (l : Lexeme) :
    (Production.skip isEnd (by decide)).toll l ≤
      4 - 64 * (Production.begun (.symbol .lbrace) l : Int) := by
  by_cases hl : l = .symbol .lbrace
  · rw [hl]
    decide
  · rw [Production.begun, if_neg hl]
    simp only [Production.toll]
    split <;> decide

theorem block_assures (hc : c.Marked) (hlimit : Production.block.weight c ≤ limit) :
    block.Assures limit (fun _ => Paid (Production.block.toll c.lexeme) c) c 0 := by
  have hbegun := Production.begun_le (.symbol .lbrace) c.lexeme
  simp only [Production.weight, Production.rank] at hlimit
  simp only [Production.toll]
  refine .of_bind (.stay hc (tokens_enter c) fun opened c₁ hc₁ hl₁ h₁ => ?_)
  cases opened with
  | true =>
    refine .of_bind (.expect hc₁ (by decide) fun start c₂ hc₂ h₂ => .of_bind ?_)
    rw [hl₁] at h₂
    refine .ask 5 1 rfl rfl hc₂ (by omega) fun stmts c₃ k₃ hc₃ h₃ => .of_bind ?_
    refine .walk hc₃ fun stop c₄ hc₄ h₄ => .of_bind ?_
    exact .walk hc₄ fun _ c₅ hc₅ h₅ => .pure ⟨hc₅, by omega⟩
  | false =>
    refine .of_bind (.look rfl (.of_bind ?_))
    refine .ask_le 0 _ (Nat.le_refl 0) (toll_skip_le_block c₁.lexeme) hc₁ (by omega) ?_
    rw [hl₁]
    exact fun _ c₂ k₂ hc₂ h₂ => .pure ⟨hc₂, by omega⟩

theorem statements_assures (hc : c.Marked) (hlimit : 16 * c.left + 5 ≤ limit) :
    statements.Assures limit (fun _ => Paid 1 c) c 0 := by
  refine .of_bind (.look rfl ?_)
  cases hl : isBlockEnd c.lexeme with
  | true => exact .pure ⟨hc, by omega⟩
  | false =>
    refine .of_bind (.eat hc (by decide) (fun c₁ hc₁ h₁ => ?_) (.of_bind ?_))
    · exact .ask 5 1 rfl rfl hc₁ (by omega) fun _ c₂ k₂ hc₂ h₂ => ⟨hc₂, by omega⟩
    · -- a statement passes a token, which pays for it and for the statements behind it
      refine .ask 4 (Production.idle c.lexeme - 4) rfl rfl hc (by omega) ?_
      rw [Production.idle_eq_zero hl]
      refine fun stmt c₁ k₁ hc₁ h₁ => .of_bind ?_
      exact .ask 5 1 rfl rfl hc₁ (by omega) fun rest c₂ k₂ hc₂ h₂ => .pure ⟨hc₂, by omega⟩

theorem statement_assures (hc : c.Marked) (hlimit : 16 * c.left + 4 ≤ limit) :
    statement.Assures limit (fun _ => Paid (Production.statement.toll c.lexeme) c) c 0 := by
  simp only [Production.toll]
  have hjump (kind : Jump) {k : Keyword} (hl : c.lexeme = .keyword k) : (jumpStmt kind).Assures limit
      (fun _ => Paid (Production.idle c.lexeme - 4) c) c 2 := by
    rw [hl, Production.idle_eq_zero rfl]
    exact (jumpStmt_assures kind hc (by simp [hl]) (by omega)).mono fun _ _ _ h => h.mono (by decide)
  refine .of_bind (.look rfl (.of_bind (.look rfl ?_)))
  split
  · rename_i hl
    rw [hl, Production.idle_eq_zero rfl]
    exact (letStmt_assures hc hl (by omega)).mono fun _ _ _ h => h.mono (by decide)
  · rename_i hl
    rw [hl, Production.idle_eq_zero rfl]
    refine .ask 0 (-38) (by rw [hl]; rfl) (by rw [hl]; rfl) hc (by omega) ?_
    exact fun _ c₁ k₁ hc₁ h₁ => ⟨hc₁, by omega⟩
  · rename_i hl
    rw [hl, Production.idle_eq_zero rfl]
    refine .ask 0 (-21) (by rw [hl]; rfl) (by rw [hl]; rfl) hc (by omega) ?_
    exact fun _ c₁ k₁ hc₁ h₁ => ⟨hc₁, by omega⟩
  · rename_i hl
    rw [hl, Production.idle_eq_zero rfl]
    refine .of_bind (.advance hc (by simp [hl]) fun c₁ hc₁ h₁ => ?_)
    refine .of_bind (.expression hc₁ (by omega) fun condition c₂ k₂ hc₂ h₂ => ?_)
    exact .of_bind (.block hc₂ (by omega) fun body c₃ k₃ hc₃ h₃ => .pure ⟨hc₃, by omega⟩)
  · rename_i hl
    rw [hl, Production.idle_eq_zero rfl]
    refine .of_bind (.advance hc (by simp [hl]) fun c₁ hc₁ h₁ => ?_)
    exact .of_bind (.block hc₁ (by omega) fun body c₂ k₂ hc₂ h₂ => .pure ⟨hc₂, by omega⟩)
  · rename_i hl
    exact hjump _ hl
  · rename_i hl
    exact hjump _ hl
  · rename_i hl
    exact hjump _ hl
  · rename_i hl
    rw [hl, Production.idle_eq_zero rfl]
    refine .of_bind (.ask 1 (-57) (by rw [hl]; rfl) (by rw [hl]; rfl) hc (by omega) ?_)
    exact fun body c₁ k₁ hc₁ h₁ => .pure ⟨hc₁, by omega⟩
  · exact (simpleStmt_assures false hc (by omega)).mono fun _ _ _ h => h.mono (by omega)

theorem ifStmt_assures (hc : c.Marked) (hlimit : Production.ifStmt.weight c ≤ limit) :
    ifStmt.Assures limit (fun _ => Paid (Production.ifStmt.toll c.lexeme) c) c 0 := by
  have hbegun := Production.begun_le (.keyword .if_) c.lexeme
  simp only [Production.weight, Production.rank] at hlimit
  simp only [Production.toll]
  refine .of_bind (.look rfl (.of_bind (.discard (.expect hc (by decide) fun _ c₁ hc₁ h₁ => ?_))))
  refine .of_bind (.expression hc₁ (by omega) fun condition c₂ k₂ hc₂ h₂ => ?_)
  refine .of_bind (.block hc₂ (by omega) fun body c₃ k₃ hc₃ h₃ => .of_bind (.of_bind ?_))
  refine .eat hc₃ (by decide) (fun c₄ hc₄ h₄ => .of_bind (.at? (fun hl₄ => .of_bind ?_) ?_)) ?_
  · refine .ask 0 (-38) (by rw [hl₄]; rfl) (by rw [hl₄]; rfl) hc₄ (by omega) ?_
    exact fun chained c₅ k₅ hc₅ h₅ => .pure (.of_bind (.look rfl (.pure ⟨hc₅, by omega⟩)))
  · refine fun _ => .of_bind (.block hc₄ (by omega) fun last c₅ k₅ hc₅ h₅ => ?_)
    exact .pure (.of_bind (.look rfl (.pure ⟨hc₅, by omega⟩)))
  · exact .pure (.of_bind (.look rfl (.pure ⟨hc₃, by omega⟩)))

theorem forStmt_assures (hc : c.Marked) (hlimit : Production.forStmt.weight c ≤ limit) :
    forStmt.Assures limit (fun _ => Paid (Production.forStmt.toll c.lexeme) c) c 0 := by
  have hbegun := Production.begun_le (.keyword .for_) c.lexeme
  simp only [Production.weight, Production.rank] at hlimit
  simp only [Production.toll]
  refine .of_bind (.look rfl (.of_bind (.discard (.expect hc (by decide) fun _ c₁ hc₁ h₁ => ?_))))
  refine .of_bind (.walk hc₁ fun counter c₂ hc₂ h₂ => .of_bind (.discard ?_))
  refine .walk hc₂ fun _ c₃ hc₃ h₃ => .of_bind ?_
  refine .expression hc₃ (by omega) fun first c₄ k₄ hc₄ h₄ => .of_bind (.look rfl ?_)
  refine .optional hc₄ (.walk hc₄ fun _ c₅ hc₅ h₅ => ⟨hc₅, h₅, Nat.le_refl _⟩) ?_
  refine fun c₅ m₅ hc₅ h₅ hm₅ => .of_bind (.walk hc₅ fun _ c₆ hc₆ h₆ => .of_bind ?_)
  refine .expression hc₆ (by omega) fun stop c₇ k₇ hc₇ h₇ => .of_bind ?_
  exact .block hc₇ (by omega) fun body c₈ k₈ hc₈ h₈ => .pure ⟨hc₈, by omega⟩

/-! ### Closures -/

theorem closureBody_assures (hc : c.Marked) (hlimit : 16 * c.left + 6 < limit) :
    closureBody.Assures limit (fun _ => Paid (n + 19) c) c n := by
  refine .of_bind (.at? (fun _ => ?_) fun _ => .of_bind ?_)
  · exact .block hc hlimit fun b c₁ k₁ hc₁ h₁ => ⟨hc₁, by omega⟩
  · have hidle := Production.idle_le c.lexeme
    refine (simpleStmt_assures true hc (by omega)).of_paid fun stmt c₁ m₁ hc₁ h₁ => ?_
    exact .pure ⟨hc₁, by omega⟩

theorem closureFromParam_assures (hc : c.Marked) (hlimit : 16 * c.left + 16 ≤ limit) :
    closureFromParam.Assures limit (fun _ => Paid (n + 30) c) c n := by
  refine .of_bind (.walk hc fun param c₁ hc₁ h₁ => ?_)
  refine .of_bind
    (.mono (Q := fun _ c' m => Paid (n + 2) c c' m ∧ c'.left ≤ c.left) (.of_bind ?_) ?_)
  · refine .eat hc₁ (by decide) (fun c₂ hc₂ h₂ => .of_bind ?_) (.pure ⟨⟨hc₁, by omega⟩, by omega⟩)
    refine .ask 1 6 rfl rfl hc₂ (by omega) fun type c₃ k₃ hc₃ h₃ => ?_
    exact .pure ⟨⟨hc₃, by omega⟩, by omega⟩
  rintro type c₂ m₂ ⟨⟨hc₂, hpaid₂⟩, h₂⟩
  refine .of_bind (.look rfl (.optional hc₂ ?_ fun c₃ m₃ hc₃ h₃ hm₃ => .of_bind ?_))
  · exact .walk hc₂ fun _ c₃ hc₃ h₃ => ⟨hc₃, h₃, Nat.le_refl _⟩
  refine .skip hc₃ (by omega) fun c₄ k₄ hc₄ h₄ => ?_
  refine .of_bind (.discard (.walk hc₄ fun _ c₅ hc₅ h₅ => .of_bind ?_))
  refine (closureBody_assures hc₅ (by omega)).of_paid fun body c₆ m₆ hc₆ h₆ => .of_bind (.look rfl ?_)
  refine .optional hc₆ (.walk hc₆ fun _ c₇ hc₇ h₇ => ⟨hc₇, h₇, Nat.le_refl _⟩) ?_
  exact fun c₇ m₇ hc₇ h₇ hm₇ => .pure ⟨hc₇, by omega⟩

theorem closure_assures (hc : c.Marked) :
    closure.Assures (16 * c.left + 16) (fun _ => Paid 3 c) c 0 := by
  refine .of_bind (.discard (.walk hc fun _ c₁ hc₁ h₁ => .of_bind (.look rfl ?_)))
  split
  · exact .of_bind (.walk hc₁ fun _ c₂ hc₂ h₂ => .pure ⟨hc₂, by omega⟩)
  · rename_i hl
    refine .of_bind (.advance hc₁ (by simp [hl]) fun c₂ hc₂ h₂ => .of_bind ?_)
    refine (closureFromParam_assures hc₂ (by omega)).of_paid fun closure c₃ m₃ hc₃ h₃ => ?_
    exact .pure ⟨hc₃, by omega⟩
  · exact .of_bind (.walk hc₁ fun _ c₂ hc₂ h₂ => .pure ⟨hc₂, by omega⟩)

end Plan

/-- The account of a production: it calls only what is nearer to an exit, and pays its toll. -/
theorem Production.body_assures {α : Type} {c : Cursor} (p : Production α) (hc : c.Marked) :
    p.body.Assures (p.weight c) (fun _ => Paid (p.toll c.lexeme) c) c 0 := by
  cases p with
  | skip stop hstop => exact Plan.skip_assures hstop hc (Nat.le_refl _)
  | pathTail => exact Plan.pathTail_assures hc (Nat.le_refl _)
  | typeRef => exact Plan.typeRef_assures hc (Nat.le_refl _)
  | typeArgs => exact Plan.typeArgs_assures hc (Nat.le_refl _)
  | expression floor => exact Plan.expression_assures floor hc (Nat.le_refl _)
  | operators floor left => exact Plan.operators_assures floor left hc (Nat.le_refl _)
  | operand => exact Plan.operand_assures hc (Nat.le_refl _)
  | members receiver => exact Plan.members_assures receiver hc (Nat.le_refl _)
  | primary => exact Plan.primary_assures hc (Nat.le_refl _)
  | parenthesized => exact Plan.parenthesized_assures hc (Nat.le_refl _)
  | tupleItems => exact Plan.tupleItems_assures hc (Nat.le_refl _)
  | conditional => exact Plan.conditional_assures hc (Nat.le_refl _)
  | branch => exact Plan.branch_assures hc (Nat.le_refl _)
  | arguments => exact Plan.arguments_assures hc (Nat.le_refl _)
  | argumentItems => exact Plan.argumentItems_assures hc (Nat.le_refl _)
  | block => exact Plan.block_assures hc (Nat.le_refl _)
  | statements => exact Plan.statements_assures hc (Nat.le_refl _)
  | statement => exact Plan.statement_assures hc (Nat.le_refl _)
  | ifStmt => exact Plan.ifStmt_assures hc (Nat.le_refl _)
  | forStmt => exact Plan.forStmt_assures hc (Nat.le_refl _)

end ComputeKernel
