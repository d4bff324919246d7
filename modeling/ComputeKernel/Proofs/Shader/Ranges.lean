import ComputeKernel.Proofs.Shader.Loops

/-!
Ranges of counting loops. The code of each counting loop of an accepted kernel is run for the numbers of
the range that the host runs the loop for, but for a range that ends with the greatest number of its
type. The code for such a range has no end.
-/

namespace ComputeKernel.Shader

open Lower (nameOf)

variable {ctx : Context} {catalog : Catalog} {statics : List StaticUse}
  {bounds : List (Nat × String)} {code : List Stmt} {p : Loop × Block} {c : CountingCode} {id : Nat}
  {l : Local} {Value Memory : Type}

/-! ### Runs of the code -/

/-- Whether the code of a counting loop, when it is run, makes its first test in a state. -/
def CountingCode.Enters (c : CountingCode) (M : Machine Value Memory)
    (s s₀ : State Value Memory) : Prop :=
  ∃ s₁, Runs M s (.stmts c.front) s₁ none ∧ s₀ = s₁.set c.loop.counter (M.eval s₁ c.start)

/-- Whether the code of a counting loop, when it is run, runs the body for some values of the counter. -/
def CountingCode.Traverses (c : CountingCode) (M : Machine Value Memory) (s : State Value Memory)
    (values : List (BitVec 32)) (t : State Value Memory) (o : Option Jump) : Prop :=
  ∃ s₀, c.Enters M s s₀ ∧ Runs M s₀ (.passes c.loop values) t o

/-- The number that an expression comes to, as a value of the type that a loop counts in. -/
def CountingCode.number (c : CountingCode) (M : Machine Value Memory) (s : State Value Memory)
    (e : Expr) : Int := read c.loop.type (M.word (M.eval s e))

section

variable (hemits : Emits ctx catalog statics bounds p c id l)
  (hapart : Apart ctx catalog statics bounds p c id) (horderly : Orderly ctx catalog statics bounds p)
  (M : Machine Value Memory) (s : State Value Memory)

include hemits hapart horderly

/-- The state in which the first test is made. -/
theorem Emits.exists_entry (hjumps : p.2.jumps = []) : ∃ s₀, (∀ s', c.Enters M s s' ↔ s' = s₀) ∧
    read c.loop.type (M.counter s₀ c.loop) = c.number M s c.start ∧
    c.loop.limit M s₀ = behind c.loop.inclusive (c.number M s c.stop) := by
  have hsteady := hemits.steady hapart horderly hjumps
  cases hemits.test with
  | plain hinvariant hfront hbound =>
    refine ⟨s.set c.loop.counter (M.eval s c.start), fun s' => ?_, ?_, ?_⟩
    · simp only [CountingCode.Enters, hfront, runs_nil, and_true, exists_eq_left]
    · simp only [Machine.counter, State.set, Function.update_self, CountingCode.number]
    · have hnot : c.loop.counter ∉ c.stop.variables := fun hmem =>
        absurd List.mem_cons_self (hemits.stop_not_mem_changed hapart horderly hinvariant hmem)
      simp only [CountingLoop.limit, Machine.bound, CountingCode.number, hbound, M.eval_atLeast,
        M.eval_set s hnot]
  | @hoisted bound hmem hfront hbound =>
    obtain ⟨hfixed, hstart⟩ := hemits.bound_not_mem_changed hapart horderly hmem
    let s₁ := s.set bound (M.eval s c.stop)
    refine ⟨s₁.set c.loop.counter (M.eval s₁ c.start), fun s' => ?_, ?_, ?_⟩
    · simp only [CountingCode.Enters, hfront, runs_declare, exists_eq_left, s₁]
    · simp only [Machine.counter, State.set, Function.update_self, CountingCode.number]
      exact congrArg (read c.loop.type ∘ M.word) (M.eval_set s hstart _)
    · have hvars : (s₁.set c.loop.counter (M.eval s₁ c.start)).vars bound = M.eval s c.stop :=
        (State.vars_set_of_ne (List.ne_of_not_mem_cons hfixed) _).trans (Function.update_self ..)
      simp only [CountingLoop.limit, Machine.bound, CountingCode.number, hbound, M.eval_var, hvars]

end

/-- Whether the code of a counting loop is run for certain numbers and ends, if each run of the body that
it comes to does. -/
structure CountingCode.RunsFor (c : CountingCode) (M : Machine Value Memory) (s : State Value Memory)
    (numbers : List Int) : Prop where
  values : ∀ {values t o}, c.Traverses M s values t o →
    o = none ∧ values.map (read c.loop.type) = numbers
  ends : (∀ s₀ s', c.Enters M s s₀ → c.loop.Reaches M s₀ s' → M.Tests s' c.loop →
      ∃ t o, Runs M s' (.stmts c.loop.body) t o) → ∃ values t, c.Traverses M s values t none

/-- The types that loops count in. -/
def CountsIn (l : Local) (type : String) : Prop :=
  l.type = .scalar .int ∧ type = "int" ∨ l.type = .scalar .uint ∧ type = "uint"

theorem countsIn_of_isInteger {l : Local} (h : l.type.isInteger) (htable : ctx.table = .hlsl) :
    CountsIn l (nameOf ctx l.type.toHost) := by
  unfold Lower.nameOf
  rw [htable]
  cases htype : l.type with
  | value v =>
    rw [htype] at h
    cases v with
    | scalar k =>
      cases k with
      | int => exact .inl ⟨htype, rfl⟩
      | uint => exact .inr ⟨htype, rfl⟩
      | _ => cases h
    | _ => cases h
  | _ =>
    rw [htype] at h
    cases h

/-- What the check of a kernel says of its counting loops. -/
theorem orderly_of_bind {kernel source : String} {catalog : Catalog} {body : CheckedBody}
    (hbody : CheckedBody.of kernel source catalog = .ok body) {table : TypeTable} {b : Body}
    (hb : Body.of body table = .ok b) : ∃ bounds, ∀ p ∈ body.closure.body.counting,
      Orderly (Context.of body table) body.catalog b.statics bounds p ∧
        HasCode (Context.of body table) body.catalog b.statics bounds b.code p := by
  obtain ⟨rfl, hparse, hbind⟩ := CheckedBody.read_and_bound hbody
  obtain ⟨hi, hlaid⟩ := Closure.laid_of_parse hparse
  obtain ⟨bounds, haccounted⟩ := exists_accounted hbody hb
  have hres := Closure.resolves_of_bind hlaid hbind
  have hseparates := Closure.separates_of_bind hlaid hbind
  obtain ⟨hcounters, hrooted⟩ := Closure.counters_of_bind hlaid hbind
  have hscopes : ∀ x ∈ Scopes.ids [[(body.closure.param.text, Model.paramId)]], x < 1 := by
    simp [Scopes.ids, Model.paramId]
  refine ⟨bounds, fun p hp =>
    ⟨?_, haccounted.lowers.hasCode hres hscopes (List.Subset.refl _) p hp⟩⟩
  obtain ⟨hloop, hassignments⟩ := Block.isAmong_of_mem_counting _ p hp
  exact ⟨haccounted.identifiers, hcounters _ hloop, hseparates.stops _ hloop,
    fun a ha => ⟨hrooted a (hassignments ha), hseparates.places a (hassignments ha)⟩⟩

/-- The counting loops of an accepted kernel are run for the ranges of the host, but for ranges with the
greatest number of the type: the code for those has no end. -/
theorem runsFor_of_body {kernel source : String} {catalog : Catalog} {body : CheckedBody}
    (hbody : CheckedBody.of kernel source catalog = .ok body) {b : Body}
    (hb : Body.of body .hlsl = .ok b) : ∃ bounds, ∀ p ∈ body.closure.body.counting,
      ∃ c id l, Emits (Context.of body .hlsl) body.catalog b.statics bounds p c id l ∧
        CountsIn l c.loop.type ∧ Within c.code b.code ∧
        (p.2.jumps = [] → ∀ {Value Memory : Type} (M : Machine Value Memory) (s : State Value Memory),
          (p.1.inclusive → c.number M s c.stop = greatest c.loop.type →
            ∀ values t o, ¬ c.Traverses M s values t o) ∧
          (¬ (p.1.inclusive ∧ c.number M s c.stop = greatest c.loop.type) → c.RunsFor M s
            (rangeOf p.1.inclusive (c.number M s c.start) (c.number M s c.stop)))) := by
  obtain ⟨bounds, hcode⟩ := orderly_of_bind hbody hb
  refine ⟨bounds, fun p hp => ?_⟩
  obtain ⟨horderly, c, id, l, hemits, hapart, hwithin⟩ := hcode p hp
  refine ⟨c, id, l, hemits, ?_, hwithin, fun hjumps _ _ M s => ?_⟩
  · exact hemits.type ▸ countsIn_of_isInteger (hemits.counts horderly).2 rfl
  have hsteady := hemits.steady hapart horderly hjumps
  obtain ⟨s₀, henters, hcounter, hlimit⟩ := hemits.exists_entry hapart horderly M s hjumps
  have hle : c.number M s c.stop ≤ greatest c.loop.type := read_le_greatest _ _
  have hrange := behind_le_greatest_iff c.loop.inclusive hle
  rw [← hlimit] at hrange
  rw [← hemits.inclusive]
  refine ⟨fun hinclusive hgreatest values t o ⟨s', hs', hpasses⟩ => ?_, fun hnot => ⟨?_, ?_⟩⟩
  · obtain rfl := (henters s').mp hs'
    refine not_runs_of_greatest hsteady (Int.lt_of_not_ge fun h => ?_) hpasses
    exact hrange.mp h ⟨hinclusive, hgreatest⟩
  · rintro values t o ⟨s', hs', hpasses⟩
    obtain rfl := (henters s').mp hs'
    have hvalues := Runs.values_eq hsteady (hrange.mpr hnot) hpasses
    rwa [hcounter, hlimit] at hvalues
  · intro hends
    have hentry := (henters s₀).mpr rfl
    obtain ⟨values, t, hpasses⟩ := exists_runs_passes hsteady (hrange.mpr hnot)
      fun s' hreaches htests => hends s₀ s' hentry hreaches htests
    exact ⟨values, t, s₀, hentry, hpasses⟩

/-! ### A machine of words -/

/-- What an expression comes to in words, as far as it is a number, a variable or a sum. -/
def Expr.sum (vars : String → BitVec 32) : Expr → BitVec 32
  | .literal text => Nat.ofDigitChars 10 (text.toList.takeWhile Text.isDigit) 0
  | .var x => vars x
  | .paren e => e.sum vars
  | .binary .add l r => l.sum vars + r.sum vars
  | _ => 0

theorem Expr.sum_congr {vars vars' : String → BitVec 32} :
    ∀ e : Expr, (∀ x ∈ e.variables, vars x = vars' x) → e.sum vars = e.sum vars'
  | .literal _, _ => rfl
  | .var _, h => h _ (List.mem_singleton_self _)
  | .paren e, h => Expr.sum_congr e h
  | .binary op l r, h => by
    obtain ⟨hl, hr⟩ := List.forall_mem_append.mp h
    cases op with
    | add => exact congrArg₂ (· + ·) (Expr.sum_congr l hl) (Expr.sum_congr r hr)
    | _ => rfl
  | .unary .., _ | .cast .., _ | .member .., _ | .index .., _ | .call .., _ | .choice .., _ => rfl

theorem Lowers.eq_literal {span : Span} {v : Literal} {d : Expr}
    (h : Lowers ctx catalog statics (.expr (.literal span v) d)) : d = .literal v.hlsl := by
  cases h
  rfl

theorem LowersStmt.eq_assign {span span' : Span} {op : Option BinaryOp}
    {place value : ComputeKernel.Expr}
    (h : LowersStmt ctx catalog statics (.block ⟨span, [.assign span' op place value]⟩) code bounds) :
    ∃ d e, code = [.assign d op e] := by
  cases h with
  | block h =>
    cases h with
    | cons hfirst hrest =>
      cases hfirst
      cases hrest
      exact ⟨_, _, rfl⟩

/-- A machine of which all values are words, and that assigns to variables. -/
def words : Machine (BitVec 32) Unit where
  eval s e := e.sum s.vars
  store s target op v :=
    match target with
    | .var x => s.set x (if op = some .add then s.vars x + v else v)
    | _ => s
  isTrue v := v ≠ 0
  word w := w
  ofWord w := w
  eval_var _ _ := rfl
  eval_paren _ _ := rfl
  eval_congr _ _ e h _ := e.sum_congr h
  vars_store s target op v x hx := by
    cases target with
    | var y => exact State.vars_set_of_ne (List.ne_of_not_mem_cons hx) _
    | _ => rfl
  word_ofWord _ := rfl

theorem number_words (c : CountingCode) (s : State (BitVec 32) Unit) {e : Expr} {n : Nat} (hn : n ≤ 2147483647)
    (he : e.sum s.vars = BitVec.ofNat 32 n) : c.number words s e = n := by
  have hword : c.number words s e = read c.loop.type (BitVec.ofNat 32 n) := congrArg (read _) he
  rw [hword, read]
  split
  · rw [BitVec.toNat_ofNat]
    omega
  · rw [BitVec.toInt_eq_toNat_of_lt (by rw [BitVec.toNat_ofNat]; omega), BitVec.toNat_ofNat]
    omega

/-- A kernel that adds up a range. -/
def addUp : String := "|ids| \x7b let mut total = 0; for i in 1..=3 \x7b total += i; \x7d \x7d"

def addUpLoop : Loop × Block :=
  (⟨⟨"i", ⟨31, 32⟩⟩, .literal ⟨36, 37⟩ (.integer "1" none), .literal ⟨40, 41⟩ (.integer "3" none),
      true⟩,
    ⟨⟨42, 57⟩, [.assign ⟨44, 54⟩ (some .add) (.name ⟨44, 49⟩ "total") (.name ⟨53, 54⟩ "i")]⟩)

def addUpClosure : Closure :=
  ⟨⟨"ids", ⟨1, 4⟩⟩, none, ⟨⟨6, 59⟩,
    [.let ⟨8, 26⟩ true ⟨"total", ⟨16, 21⟩⟩ none (some (.literal ⟨24, 25⟩ (.integer "0" none))),
      .for ⟨27, 57⟩ addUpLoop.1.counter addUpLoop.1.start addUpLoop.1.stop true addUpLoop.2]⟩⟩

theorem runsFor_of_body_addUp :
    ∃ body b, ∃ c : CountingCode, CheckedBody.of "AddUp" addUp {} = .ok body ∧ Body.of body .hlsl = .ok b ∧
      addUpLoop ∈ body.closure.body.counting ∧ Within c.code b.code ∧
      ∀ s, c.RunsFor words s [1, 2, 3] ∧
        ∃ values t, c.Traverses words s values t none ∧ values.map (read c.loop.type) = [1, 2, 3] := by
  have hparse : Closure.parse addUp = .ok addUpClosure := rfl
  have hrun : ((addUpClosure.bind {}).toOption.any fun m =>
      (Body.of ⟨"AddUp", addUp, addUpClosure, m, {}⟩ .hlsl).isOk) = true := by
    decide +kernel
  obtain ⟨m, hm, hok⟩ := (Option.any_eq_true _ _).mp hrun
  obtain ⟨b, hb⟩ := exists_of_isOk hok
  have hof : CheckedBody.of "AddUp" addUp {} = .ok ⟨"AddUp", addUp, addUpClosure, m, {}⟩ := by
    simp only [CheckedBody.of, hparse, eq_ok_of_toOption hm]
  have hmem : addUpLoop ∈ addUpClosure.body.counting := List.mem_singleton_self _
  obtain ⟨bounds, hloops⟩ := runsFor_of_body hof hb
  obtain ⟨c, id, l, hemits, htype, hwithin, hcounts⟩ := hloops addUpLoop hmem
  refine ⟨_, b, c, hof, hb, hmem, hwithin, fun s => ?_⟩
  have hstart : c.number words s c.start = 1 :=
    number_words c s (by decide) (hemits.start.eq_literal ▸ rfl)
  have hstop : c.number words s c.stop = 3 :=
    number_words c s (by decide) (hemits.stop.eq_literal ▸ rfl)
  have hnot : ¬ (addUpLoop.1.inclusive ∧ c.number words s c.stop = greatest c.loop.type) := by
    rw [hstop]
    rcases htype with ⟨_, heq⟩ | ⟨_, heq⟩ <;> rw [heq] <;> decide
  have hfor := (hcounts rfl words s).2 hnot
  rw [hstart, hstop] at hfor
  refine ⟨hfor, ?_⟩
  -- The body is one assignment, so it ends wherever it is run.
  have hends : ∀ s', ∃ t o, Runs words s' (.stmts c.loop.body) t o := by
    obtain ⟨bounds', hblock⟩ := hemits.body
    obtain ⟨d, e, hbody⟩ := hblock.eq_assign
    rw [hbody]
    exact fun s' => ⟨_, none, .cons .assign .nil⟩
  obtain ⟨values, t, htraverses⟩ := hfor.ends fun _ s' _ _ _ => hends s'
  exact ⟨values, t, htraverses, (hfor.values htraverses).2⟩

/-- The code for all numbers of a type. -/
def whole : CountingLoop := ⟨"uint", "i", true, .literal "4294967295u", []⟩

/-- A loop over all numbers of its type is accepted, and its code has no end. -/
theorem CountingLoop.has_no_end_whole :
    ((CheckedBody.of "Whole" "|ids| \x7b for i in 0u..=4294967295u \x7b \x7d \x7d" {}).map
        fun body => (Body.of body .hlsl).map (·.code)) =
      .ok (.ok [.count "uint" "i" (.literal "0u") true (.literal "4294967295u") []]) ∧
    (rangeOf true 0 4294967295).length = 4294967296 ∧
    ∀ s t o, ¬ Runs words s
      (.stmt (.count "uint" "i" (.literal "0u") true (.literal "4294967295u") [])) t o := by
  refine ⟨rfl, ?_, fun s t o hruns => ?_⟩
  · simp [rangeOf, behind, Int.range]
  · have hsteady : whole.Steady := ⟨List.not_mem_nil, List.forall_mem_nil _, rfl, rfl⟩
    have hlimit : ∀ s, whole.limit words s = 4294967296 := fun _ => rfl
    cases hruns with
    | count hpasses => exact not_runs_of_greatest hsteady (hlimit _ ▸ by decide) hpasses

end ComputeKernel.Shader
