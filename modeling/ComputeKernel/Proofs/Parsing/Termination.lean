import ComputeKernel.Proofs.Lexing.Account
import ComputeKernel.Proofs.Parsing.Progress

/-!
The front end ends. The characters of a source are cut into pieces until none is left, and each piece
takes one at least. The tokens are read in at most 64 steps for each of them: from the accounts of the
productions, by induction on how near a call is to an exit, every call comes to an end and pays its
toll. A reading that is given that many steps to go deep does the same, so the bound on the reading
steps is never met.
-/

namespace ComputeKernel

/-! ### The pieces of a text -/

namespace Piece

/-- That cutting a text from the front, as long as there is a next piece, ends with these pieces. -/
inductive Cuts : List Char → List Piece → Prop where
  | stop {cs : List Char} : next? cs = none → Cuts cs []
  | step {cs rest : List Char} {p : Piece} {ps : List Piece} :
      next? cs = some (p, rest) → rest.length < cs.length → Cuts rest ps → Cuts cs (p :: ps)

theorem cuts_cut {limit : Nat} {cs : List Char} (h : cs.length ≤ limit) : Cuts cs (cut limit cs) := by
  induction limit generalizing cs with
  | zero =>
    rw [List.length_eq_zero_iff.mp (Nat.le_zero.mp h)]
    exact .stop rfl
  | succ limit ih =>
    unfold cut
    cases hnext : next? cs with
    | none => exact .stop hnext
    | some found =>
      have hlength := length_lt_of_next? hnext
      exact .step hnext hlength (ih (by omega))

theorem Cuts.unique {cs : List Char} {ps qs : List Piece} (h : Cuts cs ps) (h' : Cuts cs qs) :
    ps = qs := by
  induction h generalizing qs with
  | stop hnone =>
    cases h' with
    | stop => rfl
    | step hsome => cases hnone.symm.trans hsome
  | step hsome _ _ ih =>
    cases h' with
    | stop hnone => cases hnone.symm.trans hsome
    | step hsome' _ hrest =>
      obtain ⟨rfl, rfl⟩ := Prod.mk.inj (Option.some.inj (hsome.symm.trans hsome'))
      rw [ih hrest]

theorem cuts_iff {cs : List Char} {ps : List Piece} : Cuts cs ps ↔ ps = pieces cs := by
  have hcuts : Cuts cs (pieces cs) := cuts_cut (Nat.le_refl _)
  exact ⟨fun h => h.unique hcuts, fun h => h ▸ hcuts⟩

theorem Cuts.length_le {cs : List Char} {ps : List Piece} (h : Cuts cs ps) :
    ps.length ≤ cs.length := by
  induction h with
  | stop => exact Nat.zero_le _
  | step _ hlength _ ih => exact Nat.lt_of_le_of_lt ih hlength

theorem length_tokens_le (offset : Nat) (ps : List Piece) :
    (tokens offset ps).length ≤ ps.length := by
  induction ps generalizing offset with
  | nil => exact Nat.le_refl 0
  | cons p ps ih =>
    rw [tokens]
    cases p.lexeme with
    | none => exact Nat.le_succ_of_le (ih _)
    | some l => exact Nat.succ_le_succ (ih _)

end Piece

theorem length_tokenize_le (source : String) : (tokenize source).1.length ≤ source.length + 1 := by
  have hcut := (Piece.cuts_iff.mpr (rfl : pieces source.toList = _)).length_le
  have htokens := Piece.length_tokens_le 0 (pieces source.toList)
  rw [tokenize, List.length_append, ← String.length_toList]
  exact Nat.succ_le_succ (Nat.le_trans htokens hcut)

theorem marked_tokenize (source : String) : ({ tokens := (tokenize source).1 } : Cursor).Marked := by
  simp [Cursor.Marked, tokenize]

/-! ### The runs of plans -/

/-- That a call of `p` at `c` comes to an end and pays its toll, and that the reading of `p` ends as
it does once it may go deep enough. -/
def Production.Ends {α : Type} (p : Production α) (c : Cursor) : Prop :=
  ∃ a c' k, p.body.Runs c a c' k ∧ Paid (p.toll c.lexeme) c c' k ∧
    ∀ fuel, p.weight c < fuel → (p.read fuel).run c = (a, c')

namespace Plan.Assures

variable {α γ : Type} {plan : Plan α} {limit n : Nat} {Q : α → Cursor → Nat → Prop} {c d : Cursor}

/-- If what is below the limit ends, a plan ends as its account says. -/
theorem exists_run (h : plan.Assures limit Q c n)
    (hends : ∀ {β : Type} (p : Production β) (c : Cursor), c.Marked → p.weight c < limit → p.Ends c) :
    ∃ a c' k, plan.Runs c a c' k ∧ Q a c' (n + k) ∧
      ∀ fuel, limit ≤ fuel → (plan.runWith (Production.read fuel)).run c = (a, c') := by
  induction plan generalizing c n with
  | done a => exact ⟨a, c, 0, .done, h, fun _ _ => rfl⟩
  | move step next ih =>
    obtain ⟨a, c', k, hrun, hQ, hread⟩ := ih _ h
    refine ⟨a, c', k + 1, .move hrun, ?_, hread⟩
    rwa [Nat.add_comm k, ← Nat.add_assoc]
  | call p next ih =>
    obtain ⟨hc, hlimit, hnext⟩ := h
    obtain ⟨b, c₁, m, hcall, hpaid, hanswer⟩ := hends p c hc hlimit
    obtain ⟨a, c', k, hrun, hQ, hread⟩ := ih b (hnext b c₁ m hpaid)
    refine ⟨a, c', m + k + 1, .call hcall hrun, ?_, fun fuel hfuel => ?_⟩
    · rwa [show n + (m + k + 1) = n + m + 1 + k by omega]
    · rw [runWith, StateT.run_bind, hanswer fuel (Nat.lt_of_lt_of_le hlimit hfuel)]
      exact hread fuel hfuel

/-- What a plan calls is below the limit. -/
theorem of_calls {q : Production γ} (h : plan.Assures limit Q c n)
    (hends : ∀ {β : Type} (p : Production β) (c : Cursor), c.Marked → p.Ends c)
    (hcalls : plan.Calls q d c) : d.Marked ∧ q.weight d < limit := by
  induction hcalls generalizing n with
  | now => exact ⟨h.1, h.2.1⟩
  | move _ ih => exact ih h
  | later hrun _ ih =>
    obtain ⟨_, _, _, hrun', hpaid, _⟩ := hends _ _ h.1
    obtain ⟨rfl, rfl, rfl⟩ := hrun.unique hrun'
    exact ih (h.2.2 _ _ _ hpaid)

end Plan.Assures

namespace Production

/-- Every call ends, by induction on how near it is to an exit. -/
theorem ends {α : Type} (p : Production α) {c : Cursor} (hc : c.Marked) : p.Ends c := by
  obtain ⟨limit, hlimit⟩ : ∃ limit, p.weight c < limit := ⟨_, Nat.lt_succ_self _⟩
  induction limit generalizing α c with
  | zero => exact absurd hlimit (Nat.not_lt_zero _)
  | succ limit ih =>
    obtain ⟨a, c', k, hrun, hpaid, hread⟩ := (p.body_assures hc).exists_run
      fun q d hd hweight => ih q hd (by omega)
    refine ⟨a, c', k, hrun, by simpa using hpaid, fun fuel hfuel => ?_⟩
    obtain ⟨fuel, rfl⟩ := Nat.exists_eq_succ_of_ne_zero (Nat.ne_zero_of_lt hfuel)
    rw [Nat.succ_eq_add_one, read_succ]
    exact hread fuel (Nat.le_of_lt_succ hfuel)

/-- A production calls only what is nearer to an exit. -/
theorem nearer_of_calls {α γ : Type} {p : Production α} {q : Production γ} {c d : Cursor}
    (hc : c.Marked) (h : p.body.Calls q d c) : d.Marked ∧ q.Nearer d p c := by
  obtain ⟨hd, hweight⟩ := (p.body_assures hc).of_calls (fun p _ hc => p.ends hc) h
  exact ⟨hd, nearer_of_weight_lt hweight⟩

end Production

/-! ### The front end -/

/-- The tokens of a closure are read in at most 64 steps for each, and a reading that may go as deep
as the bound says, or deeper, is that run. -/
theorem Closure.exists_run {tokens : List Token} (h : ({ tokens } : Cursor).Marked) :
    ∃ n ≤ 64 * tokens.length, ∀ fuel, Parse.stepBound tokens.length ≤ fuel → ∀ closure rest k,
      Plan.closure.Runs { tokens } closure rest k ↔
        (Parse.closure fuel).run { tokens } = (closure, rest) ∧ k = n := by
  obtain ⟨closure, rest, n, hrun, hpaid, hread⟩ := (Plan.closure_assures h).exists_run
    fun p c hc _ => p.ends hc
  refine ⟨n, ?_, fun fuel hfuel closure' rest' k => ?_⟩
  · have hpos := hpaid.marked.left_pos
    have hpaid := hpaid.paid
    simp only [Cursor.left] at hpos hpaid
    omega
  · have hrun' := hread fuel (by simpa [Cursor.left, Parse.stepBound, Nat.mul_add] using hfuel)
    rw [Plan.closure_runWith] at hrun'
    rw [hrun']
    constructor
    · intro h'
      obtain ⟨rfl, rfl, rfl⟩ := hrun.unique h'
      exact ⟨rfl, rfl⟩
    · rintro ⟨h', rfl⟩
      obtain ⟨rfl, rfl⟩ := Prod.mk.inj h'
      exact hrun

/-- The front end ends on every source. Cutting it into pieces ends, and there is no more than one
token for each character and the mark of the end. Reading the tokens ends, whatever they are, after at
most 64 steps for each of them. Wherever the mark of the end is still to come, and so throughout that
run, each call, and with it each round of a loop, is made with fewer tokens left than its caller began
with, or with as many and at a lower rank. -/
theorem frontEnd_ends (source : String) :
    let tokens := (tokenize source).1
    (∀ ps, Piece.Cuts source.toList ps ↔ ps = pieces source.toList) ∧
    tokens.length ≤ source.length + 1 ∧
    (∃ n ≤ 64 * tokens.length, ∀ fuel, Parse.stepBound tokens.length ≤ fuel → ∀ closure rest k,
      Plan.closure.Runs { tokens } closure rest k ↔
        (Parse.closure fuel).run { tokens } = (closure, rest) ∧ k = n) ∧
    (∀ {γ : Type} (q : Production γ) (d : Cursor), Plan.closure.Calls q d { tokens } → d.Marked) ∧
    ∀ {α γ : Type} (p : Production α) (q : Production γ) (c d : Cursor), c.Marked →
      p.body.Calls q d c → d.Marked ∧ q.Nearer d p c := by
  have hmarked := marked_tokenize source
  refine ⟨fun ps => Piece.cuts_iff, length_tokenize_le source, Closure.exists_run hmarked, ?_, ?_⟩
  · exact fun q d h => ((Plan.closure_assures hmarked).of_calls (fun p _ hc => p.ends hc) h).1
  · exact fun p q c d hc h => Production.nearer_of_calls hc h

end ComputeKernel
