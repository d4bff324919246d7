import ComputeKernel.Proofs.Shader.Bounds
import ComputeKernel.Proofs.Shader.Changes
import ComputeKernel.Proofs.Shader.Counting

/-!
Code of counting loops. Each counting loop of an accepted kernel has its code, and if there are no jumps in
its body, the code of the body leaves the counter and what the counter is tested against alone.
-/

namespace ComputeKernel

mutual

/-- The counting loops in a statement, with their bodies. -/
def Stmt.counting : Stmt → List (Loop × Block)
  | .let .. | .assign .. | .jump .. | .eval .. => []
  | .if _ _ body none => body.counting
  | .if _ _ body (some otherwise) => body.counting ++ otherwise.counting
  | .for _ counter start stop inclusive body =>
    (⟨counter, start, stop, inclusive⟩, body) :: body.counting
  | .while _ _ body | .loop _ body | .nested _ body => body.counting

def Block.counting : Block → List (Loop × Block)
  | ⟨_, stmts⟩ => Stmt.allCounting stmts

def Stmt.allCounting : List Stmt → List (Loop × Block)
  | [] => []
  | s :: ss => s.counting ++ Stmt.allCounting ss

end

def Check.StmtJudgment.counting : StmtJudgment → List (Loop × Block)
  | .stmt s => s.counting
  | .stmts ss => Stmt.allCounting ss
  | .block b => b.counting

/-- Whether a loop is among the loops, and the assignments in its body among the assignments. -/
def Loop.IsAmong (loops : List Loop) (assignments : List (Option BinaryOp × Expr))
    (p : Loop × Block) : Prop :=
  p.1 ∈ loops ∧ p.2.assignments ⊆ assignments

theorem Loop.IsAmong.mono {loops loops' : List Loop}
    {assignments assignments' : List (Option BinaryOp × Expr)} {p : Loop × Block}
    (h : IsAmong loops assignments p) (hloops : loops ⊆ loops')
    (hassignments : assignments ⊆ assignments') : IsAmong loops' assignments' p :=
  ⟨hloops h.1, List.Subset.trans h.2 hassignments⟩

theorem Loop.isAmong_append {loops loops' : List Loop}
    {assignments assignments' : List (Option BinaryOp × Expr)} {ps ps' : List (Loop × Block)}
    (h : ∀ p ∈ ps, IsAmong loops assignments p) (h' : ∀ p ∈ ps', IsAmong loops' assignments' p) :
    ∀ p ∈ ps ++ ps', IsAmong (loops ++ loops') (assignments ++ assignments') p :=
  List.forall_mem_append.mpr
    ⟨fun p hp => (h p hp).mono (List.subset_append_left _ _) (List.subset_append_left _ _),
      fun p hp => (h' p hp).mono (List.subset_append_right _ _) (List.subset_append_right _ _)⟩

mutual

theorem Stmt.isAmong_of_mem_counting : ∀ st : Stmt, ∀ p ∈ st.counting,
    Loop.IsAmong st.loops st.assignments p
  | .let .. | .assign .. | .jump .. | .eval .. => nofun
  | .if _ _ body none | .while _ _ body | .loop _ body | .nested _ body =>
    Block.isAmong_of_mem_counting body
  | .if _ _ body (some otherwise) =>
    Loop.isAmong_append (Block.isAmong_of_mem_counting body) (Block.isAmong_of_mem_counting otherwise)
  | .for _ _ _ _ _ body => List.forall_mem_cons.mpr
    ⟨⟨List.mem_cons_self, List.Subset.refl _⟩, fun p hp =>
      (Block.isAmong_of_mem_counting body p hp).mono (List.subset_cons_self _ _) (List.Subset.refl _)⟩

theorem Block.isAmong_of_mem_counting : ∀ b : Block, ∀ p ∈ b.counting,
    Loop.IsAmong b.loops b.assignments p
  | ⟨_, stmts⟩ => Stmt.isAmong_of_mem_allCounting stmts

theorem Stmt.isAmong_of_mem_allCounting : ∀ sts : List Stmt, ∀ p ∈ Stmt.allCounting sts,
    Loop.IsAmong (Stmt.allLoops sts) (Stmt.allAssignments sts) p
  | [] => nofun
  | st :: sts =>
    Loop.isAmong_append (Stmt.isAmong_of_mem_counting st) (Stmt.isAmong_of_mem_allCounting sts)

end

namespace Shader

open Check (StmtJudgment ResolvesStmt)
open Lower (nameOf isInvariant)

/-! ### Code of counting loops -/

/-- The code of a counting loop: what stands in front of it, its start, the end of its range and the
loop itself. -/
structure CountingCode where
  front : List Stmt
  start : Expr
  stop : Expr
  loop : CountingLoop

def CountingCode.code (c : CountingCode) : List Stmt :=
  c.front ++
    [.count c.loop.type c.loop.counter c.start c.loop.inclusive c.loop.bound c.loop.body]

/-- How the end of a range is tested: as it stands, or behind a variable that was set to it in front of
the loop. -/
inductive TestsEnd (ctx : Context) (bounds : List (Nat × String)) (stop : ComputeKernel.Expr) (id : Nat)
    (c : CountingCode) : Prop where
  | plain : isInvariant ctx.model stop → c.front = [] →
      c.loop.bound = c.stop.atLeast (relationalRank + 1) → TestsEnd ctx bounds stop id c
  | hoisted {bound} : (id, bound) ∈ bounds → c.front = [.declare c.loop.type bound (some c.stop)] →
      c.loop.bound = .var bound → TestsEnd ctx bounds stop id c

/-- Whether code is that of a counting loop of the closure, of which the local is the counter. -/
structure Emits (ctx : Context) (catalog : Catalog) (statics : List StaticUse)
    (bounds : List (Nat × String)) (p : Loop × Block) (c : CountingCode) (id : Nat) (l : Local) :
    Prop where
  counter : ctx.Declares p.1.counter id l c.loop.counter
  type : c.loop.type = nameOf ctx l.type.toHost
  inclusive : c.loop.inclusive = p.1.inclusive
  start : Lowers ctx catalog statics (.expr p.1.start c.start)
  stop : Lowers ctx catalog statics (.expr p.1.stop c.stop)
  test : TestsEnd ctx bounds p.1.stop id c
  body : ∃ bounds', LowersStmt ctx catalog statics (.block p.2) c.loop.body bounds'

variable {ctx : Context} {catalog : Catalog} {statics : List StaticUse}
  {bounds bounds' : List (Nat × String)} {code : List Stmt} {j : StmtJudgment} {p : Loop × Block}
  {c : CountingCode} {id : Nat} {l : Local}

/-- What the rest of a kernel has to do with a counting loop. The end mentions only locals that were
declared before the counter, and the body sets no others than those declared behind it or mutable ones. -/
structure Apart (ctx : Context) (catalog : Catalog) (statics : List StaticUse)
    (bounds : List (Nat × String)) (p : Loop × Block) (c : CountingCode) (id : Nat) : Prop where
  stop : ∀ x ∈ p.1.stop.mentions, ∀ n, ctx.model.referent? x.span = some (.local n) → n < id
  body : Assigned catalog ctx.model p.2.assignments →
    ∃ hi, ∀ x ∈ Stmt.allChanged c.loop.body, Names.Changed ctx catalog statics bounds (id + 1) hi x

/-- The local that is declared next has a number that none in scope has. -/
theorem ids_lt_of_resolves {m : Model} {scopes scopes' : Scopes} {next next' : Nat}
    (h : ResolvesStmt m scopes next j scopes' next') (hscopes : ∀ x ∈ scopes.ids, x < next) :
    ∀ x ∈ scopes'.ids, x < next' := by
  induction h with
  | «let» =>
    intro x hx
    rcases ids_declare hx with rfl | hx
    · exact Nat.lt_succ_self _
    · exact Nat.lt_succ_of_lt (hscopes x hx)
  | assign | jump | eval | nil => exact hscopes
  | ifOnly _ hb | «while» _ hb | loop hb | nested hb =>
    exact fun x hx => Nat.lt_of_lt_of_le (hscopes x hx) hb.le
  | ifElse _ hb ho => exact fun x hx => Nat.lt_of_lt_of_le (hscopes x hx) (Nat.le_trans hb.le ho.le)
  | «for» _ _ _ hb =>
    exact fun x hx => Nat.lt_of_lt_of_le (hscopes x hx) (Nat.le_trans (Nat.le_succ _) hb.le)
  | cons _ _ ihFirst ihRest => exact ihRest (ihFirst hscopes)
  | block hsts => exact fun x hx => Nat.lt_of_lt_of_le (hscopes x hx) hsts.le

theorem ids_lt_counter {scopes : Scopes} {name : String} (hscopes : ∀ x ∈ scopes.ids, x < id) :
    ∀ x ∈ Scopes.ids ([(name, id)] :: scopes), x < id + 1 := by
  simp only [Scopes.ids, List.flatMap_cons, List.map_cons, List.map_nil, List.singleton_append]
  exact List.forall_mem_cons.mpr ⟨Nat.lt_succ_self _, fun x hx => Nat.lt_succ_of_lt (hscopes x hx)⟩

/-- Whether a counting loop has its code among some statements. -/
def HasCode (ctx : Context) (catalog : Catalog) (statics : List StaticUse)
    (bounds : List (Nat × String)) (code : List Stmt) (p : Loop × Block) : Prop :=
  ∃ c id l, Emits ctx catalog statics bounds p c id l ∧ Apart ctx catalog statics bounds p c id ∧
    Within c.code code

theorem HasCode.within {code' : List Stmt} (h : HasCode ctx catalog statics bounds code p)
    (hcode : ∀ {part}, Within part code → Within part code') :
    HasCode ctx catalog statics bounds code' p := by
  obtain ⟨c, id, l, hemits, hapart, hwithin⟩ := h
  exact ⟨c, id, l, hemits, hapart, hcode hwithin⟩

theorem hasCode_of_for {span : Span} {counter : Name} {start stop : ComputeKernel.Expr}
    {inclusive : Bool} {body : Block} {c : CountingCode} {scopes : Scopes} {next' : Nat}
    (hemits : Emits ctx catalog statics bounds' (⟨counter, start, stop, inclusive⟩, body) c id l)
    (hbody : LowersStmt ctx catalog statics (.block body) c.loop.body bounds)
    (hbounds : bounds ⊆ bounds') (hscopes : ∀ x ∈ scopes.ids, x < id)
    (hres : ResolvesStmt ctx.model scopes id (.stmt (.for span counter start stop inclusive body))
      scopes next') :
    HasCode ctx catalog statics bounds' c.code (⟨counter, start, stop, inclusive⟩, body) := by
  cases hres with
  | «for» _ hh _ hb =>
    refine ⟨c, id, l, hemits, ⟨fun x hx n hn => hscopes n (hh.mem_ids hx hn), fun hassigned => ?_⟩,
      .here (List.infix_refl _)⟩
    exact ⟨next', hbody.changed hb hassigned hbounds⟩

/-- The counting loops of resolved statements have their code in that of the statements. -/
theorem LowersStmt.hasCode (h : LowersStmt ctx catalog statics j code bounds)
    {scopes scopes' : Scopes} {next next' : Nat} (hres : ResolvesStmt ctx.model scopes next j scopes' next')
    (hscopes : ∀ x ∈ scopes.ids, x < next) (hbounds : bounds ⊆ bounds') :
    ∀ p ∈ j.counting, HasCode ctx catalog statics bounds' code p := by
  induction h generalizing scopes scopes' next next' with
  | declare | set | assign | jump | eval | nil => exact nofun
  | ifOnly _ _ ih =>
    cases hres with
    | ifOnly _ hb =>
      exact fun p hp => (ih hb hscopes hbounds p hp).within fun h => h.of_block List.mem_cons_self
  | ifElse _ _ _ ihBody ihOtherwise =>
    cases hres with
    | ifElse _ hb ho =>
      obtain ⟨hfirst, hrest⟩ := List.append_subset.mp hbounds
      refine List.forall_mem_append.mpr ⟨fun p hp => ?_, fun p hp => ?_⟩
      · exact (ihBody hb hscopes hfirst p hp).within fun h => h.of_block List.mem_cons_self
      · have hscopes' := fun x hx => Nat.lt_of_lt_of_le (hscopes x hx) hb.le
        exact (ihOtherwise ho hscopes' hrest p hp).within
          fun h => h.of_block (List.mem_cons_of_mem _ List.mem_cons_self)
  | «for» hdeclares hlo hhi hinvariant hbody ih =>
    have hres' := hres
    cases hres with
    | «for» _ _ hname hb =>
      cases hdeclares.referent.symm.trans hname
      refine List.forall_mem_cons.mpr ⟨?_, fun p hp => ?_⟩
      · exact hasCode_of_for (c := ⟨[], _, _, ⟨_, _, _, _, _⟩⟩)
          ⟨hdeclares, rfl, rfl, hlo, hhi, .plain hinvariant rfl rfl, _, hbody⟩ hbody hbounds hscopes
          hres'
      · exact (ih hb (ids_lt_counter hscopes) hbounds p hp).within
          fun h => h.of_block List.mem_cons_self
  | hoisted hdeclares hlo hhi _ _ hbody ih =>
    have hres' := hres
    cases hres with
    | «for» _ _ hname hb =>
      cases hdeclares.referent.symm.trans hname
      obtain ⟨hbound, hrest⟩ := List.cons_subset.mp hbounds
      refine List.forall_mem_cons.mpr ⟨?_, fun p hp => ?_⟩
      · exact hasCode_of_for (c := ⟨[_], _, _, ⟨_, _, _, _, _⟩⟩)
          ⟨hdeclares, rfl, rfl, hlo, hhi, .hoisted hbound rfl rfl, _, hbody⟩ hbody hrest hscopes
          hres'
      · exact (ih hb (ids_lt_counter hscopes) hrest p hp).within
          fun h => (h.of_block List.mem_cons_self).append_left [_]
  | «while» _ _ ih =>
    cases hres with
    | «while» _ hb =>
      exact fun p hp => (ih hb hscopes hbounds p hp).within fun h => h.of_block List.mem_cons_self
  | loop _ ih =>
    cases hres with
    | loop hb =>
      exact fun p hp => (ih hb hscopes hbounds p hp).within fun h => h.of_block List.mem_cons_self
  | nested _ ih =>
    cases hres with
    | nested hb =>
      exact fun p hp => (ih hb hscopes hbounds p hp).within fun h => h.of_block List.mem_cons_self
  | cons _ _ ihFirst ihRest =>
    cases hres with
    | cons hst hsts =>
      obtain ⟨hfirst, hrest⟩ := List.append_subset.mp hbounds
      refine List.forall_mem_append.mpr ⟨fun p hp => ?_, fun p hp => ?_⟩
      · exact (ihFirst hst hscopes hfirst p hp).within fun h => h.append_right _
      · exact (ihRest hsts (ids_lt_of_resolves hst hscopes) hrest p hp).within
          fun h => h.append_left _
  | block _ ih =>
    cases hres with
    | block hsts => exact ih hsts hscopes hbounds

/-! ### Steady loops -/

section

variable (hnames : ((ctx.names statics bounds).map (·.2)).Nodup)

include hnames

theorem entity_eq_of_mem_names {x : String} {entity entity' : Entity}
    (h : (entity, x) ∈ ctx.names statics bounds) (h' : (entity', x) ∈ ctx.names statics bounds) :
    entity = entity' :=
  congrArg Prod.fst (List.inj_on_of_nodup_map hnames h h' rfl)

/-- A variable of an entity that is not changed is not set. -/
theorem not_changed {x : String} {entity : Entity} (h : (entity, x) ∈ ctx.names statics bounds)
    {lo hi : Nat} (hfixed : ¬ entity.Changed catalog ctx.model lo hi) :
    ¬ Names.Changed ctx catalog statics bounds lo hi x := by
  rintro ⟨entity', h', hchanged⟩
  exact hfixed (entity_eq_of_mem_names hnames h h' ▸ hchanged)

end

/-- What is fixed and was declared before a number is not changed from that number on. -/
theorem not_changed_of_isFixed {m : Model} {r : Referent} {lo hi : Nat} (hfixed : IsFixed m r)
    (hplain : ¬ r.IsBuffer catalog) (hlt : ∀ n, r = .local n → n < lo) :
    ¬ (Entity.referent r).Changed catalog m lo hi := by
  cases r with
  | «local» n =>
    obtain ⟨l, hl, himmutable⟩ := hfixed
    rintro (⟨hle, _⟩ | ⟨l', hl', hmutable⟩)
    · exact absurd (hlt n rfl) (Nat.not_lt.mpr hle)
    · obtain rfl := Option.some.inj (hl.symm.trans hl')
      rw [himmutable] at hmutable
      cases hmutable
  | capture | static => exact hplain

/-- The variables of an expression stand for what it refers to. -/
theorem Lowers.exists_mention (bounds : List (Nat × String)) {e : ComputeKernel.Expr} {d : Expr}
    (h : Lowers ctx catalog statics (.expr e d)) {x : String} (hx : x ∈ d.variables) :
    ∃ y ∈ e.mentions, ∃ r, ctx.model.referent? y.span = some r ∧
      (.referent r, x) ∈ ctx.names statics bounds := by
  have hnamed : Outcome.Named ctx.model (ctx.names statics bounds) (.expr e d) := h.named
  obtain ⟨y, hy, entity, hentity, hname⟩ := exists_of_forall₂ hnamed hx
  obtain ⟨r, hr, rfl⟩ := Option.map_eq_some_iff.mp hentity
  exact ⟨y, hy, r, hr, hname⟩

/-- What is known of a counting loop of an accepted kernel. -/
structure Orderly (ctx : Context) (catalog : Catalog) (statics : List StaticUse)
    (bounds : List (Nat × String)) (p : Loop × Block) : Prop where
  names : ((ctx.names statics bounds).map (·.2)).Nodup
  counter : p.1.counter.Counts ctx.model
  stop : p.1.stop.indexed = [] → ∀ x ∈ p.1.stop.mentions, ∀ r,
    ctx.model.referent? x.span = some r → ¬ r.IsBuffer catalog
  body : Assigned catalog ctx.model p.2.assignments

section

variable (hemits : Emits ctx catalog statics bounds p c id l)
  (hapart : Apart ctx catalog statics bounds p c id) (horderly : Orderly ctx catalog statics bounds p)

include hemits horderly

theorem Emits.counts : l.mutable = false ∧ l.type.isInteger := by
  obtain ⟨id', l', hreferent, hl', himmutable, hinteger⟩ := horderly.counter
  cases hemits.counter.referent.symm.trans hreferent
  obtain rfl := Option.some.inj (hemits.counter.local?.symm.trans hl')
  exact ⟨himmutable, hinteger⟩

include hapart

theorem Emits.counter_not_mem_changed : c.loop.counter ∉ Stmt.allChanged c.loop.body := by
  obtain ⟨hi, hchanged⟩ := hapart.body horderly.body
  intro hmem
  refine not_changed horderly.names (ctx.mem_names_of_identifies (.local hemits.counter.ident)) ?_
    (hchanged _ hmem)
  exact not_changed_of_isFixed ⟨l, hemits.counter.local?, (hemits.counts horderly).1⟩ not_false
    fun n hn => Referent.local.inj hn ▸ Nat.lt_succ_self _

/-- A variable of an end that is tested as it stands is not set in the loop. -/
theorem Emits.stop_not_mem_changed (hinvariant : isInvariant ctx.model p.1.stop) {x : String}
    (hx : x ∈ c.stop.variables) : x ∉ c.loop.counter :: Stmt.allChanged c.loop.body := by
  obtain ⟨hi, hchanged⟩ := hapart.body horderly.body
  obtain ⟨y, hy, r, hr, hname⟩ := hemits.stop.exists_mention bounds hx
  obtain ⟨r', hr', hfixed⟩ := mentions_of_isInvariant hinvariant y hy
  obtain rfl := Option.some.inj (hr.symm.trans hr')
  have hlt : ∀ n, r = .local n → n < id := fun n hn => hapart.stop y hy n (hn ▸ hr)
  refine List.not_mem_cons_of_ne_of_not_mem ?_ fun hmem => ?_
  · rintro rfl
    have hsame := entity_eq_of_mem_names horderly.names hname
      (ctx.mem_names_of_identifies (.local hemits.counter.ident))
    exact absurd (hlt id (Entity.referent.inj hsame)) (Nat.lt_irrefl _)
  · refine not_changed horderly.names hname ?_ (hchanged _ hmem)
    exact not_changed_of_isFixed hfixed (horderly.stop (indexed_of_isInvariant hinvariant) y hy r hr)
      fun n hn => Nat.lt_succ_of_lt (hlt n hn)

/-- The variable that is set in front of a loop is not set in it, and the start does not have it. -/
theorem Emits.bound_not_mem_changed {bound : String} (hbound : (id, bound) ∈ bounds) :
    bound ∉ c.loop.counter :: Stmt.allChanged c.loop.body ∧ bound ∉ c.start.variables := by
  obtain ⟨hi, hchanged⟩ := hapart.body horderly.body
  have hname : (.bound id, bound) ∈ ctx.names statics bounds := ctx.mem_names_of_bound hbound
  refine ⟨List.not_mem_cons_of_ne_of_not_mem ?_ fun hmem => ?_, fun hmem => ?_⟩
  · rintro rfl
    cases entity_eq_of_mem_names horderly.names hname
      (ctx.mem_names_of_identifies (.local hemits.counter.ident))
  · exact not_changed horderly.names hname (fun h => absurd h.1 (Nat.not_succ_le_self _))
      (hchanged _ hmem)
  · obtain ⟨_, _, r, _, hreferent⟩ := hemits.start.exists_mention bounds hmem
    cases entity_eq_of_mem_names horderly.names hname hreferent

/-- The code of a loop whose body has no jumps leaves its counter and its bound alone. -/
theorem Emits.steady (hjumps : p.2.jumps = []) : c.loop.Steady := by
  obtain ⟨bounds', hbody⟩ := hemits.body
  have hnone : Stmt.allJumps c.loop.body = [] := hbody.jumps.trans hjumps
  have hcounter := hemits.counter_not_mem_changed hapart horderly
  cases hemits.test with
  | plain hinvariant _ hbound =>
    refine ⟨hcounter, fun x hx => ?_, ?_, hnone⟩
    · rw [hbound, Expr.variables_atLeast] at hx
      exact hemits.stop_not_mem_changed hapart horderly hinvariant hx
    · rw [hbound, Expr.takesElements_atLeast]
      exact hemits.stop.keepsOut (indexed_of_isInvariant hinvariant)
  | hoisted hmem _ hbound =>
    refine ⟨hcounter, fun x hx => ?_, hbound ▸ rfl, hnone⟩
    rw [hbound] at hx
    exact List.mem_singleton.mp hx ▸ (hemits.bound_not_mem_changed hapart horderly hmem).1

end

end Shader

end ComputeKernel
