import Mathlib.Data.List.Induction
import ComputeKernel.Proofs.Parsing.Ranges
import ComputeKernel.Proofs.Shader.Hygiene
import ComputeKernel.Proofs.Shader.References

/-!
The statics that a shader body asks for. They are the ones that the model binds somewhere in the closure,
each once, in the order in which the source comes to them, and each reference has the one identifier of
its static.
-/

namespace ComputeKernel

open ComputeKernel.Span (Row)

/-! ### Mentions in the order of the source -/

theorem Span.Row.pairwise {α : Type} {lo hi : Nat} {f : α → Span} {xs : List α}
    (h : Row lo hi (xs.map f)) : xs.Pairwise fun x y => (f x).start < (f y).start := by
  have hbetween := h.between
  rw [List.forall_mem_map] at hbetween
  refine (List.pairwise_map.mp h.before).imp_of_mem fun hx _ hbefore => ?_
  obtain ⟨_, hproper, _⟩ := hbetween _ hx
  exact Nat.lt_of_lt_of_le hproper hbefore

/-- Rows in the ranges of a row are a row. -/
theorem Span.Row.flatMap {α : Type} {f : α → Span} {g : α → List Span} {lo hi : Nat} {xs : List α}
    (h : Row lo hi (xs.map f)) (hg : ∀ x ∈ xs, Row (f x).start (f x).stop (g x)) :
    Row lo hi (xs.flatMap g) := by
  induction xs generalizing lo with
  | nil => exact h
  | cons x xs ih =>
    obtain ⟨hlo, _, hxs⟩ := h
    obtain ⟨hx, hrest⟩ := List.forall_mem_cons.mp hg
    exact (hx.mono hlo (Nat.le_refl _)).append (ih hxs hrest)

theorem Expr.allMentions_eq_flatMap (es : List Expr) :
    Expr.allMentions es = es.flatMap Expr.mentions := by
  induction es with
  | nil => rfl
  | cons e es ih => rw [Expr.allMentions, ih, List.flatMap_cons]

theorem Expr.map_span_allMentions (es : List Expr) : (Expr.allMentions es).map Mention.span =
    es.flatMap fun e => e.mentions.map Mention.span := by
  rw [Expr.allMentions_eq_flatMap, List.map_flatMap]

/-- The mentions of an expression stand one behind the other. -/
theorem Expr.Laid.mentions_row {e : Expr} (h : e.Laid) :
    Row e.span.start e.span.stop (e.mentions.map Mention.span) := by
  induction e using Expr.induction_on_children with
  | h e ih =>
    obtain ⟨hchildren, hrow⟩ := h.row
    have hproper := h.start_lt_stop
    have hmentions : Row e.span.start e.span.stop
        ((Expr.allMentions e.children).map Mention.span) := by
      rw [Expr.map_span_allMentions]
      exact hrow.flatMap fun x hx => ih x hx (hchildren x hx)
    cases e with
    | name | path => exact ⟨Nat.le_refl _, hproper, Nat.le_refl _⟩
    | literal | tuple => exact Nat.le_of_lt hproper
    | unary | cast | field | paren | binary | index | choice =>
      simpa only [Expr.children, Expr.allMentions, Expr.mentions, List.append_nil] using hmentions
    | method | call => exact hmentions

mutual

theorem Stmt.mentions_eq : ∀ s : Stmt, s.mentions = Expr.allMentions s.exprs
  | .let _ _ _ _ none | .jump .. => rfl
  | .let _ _ _ _ (some _) | .eval .. => (List.append_nil _).symm
  | .assign _ _ place value => by
    rw [Stmt.mentions, Stmt.exprs, Expr.allMentions, Expr.allMentions, Expr.allMentions,
      List.append_nil]
  | .if _ _ body none | .while _ _ body => by
    rw [Stmt.mentions, Stmt.exprs, Expr.allMentions, body.mentions_eq]
  | .if _ _ body (some otherwise) => by
    rw [Stmt.mentions, Stmt.exprs, Expr.allMentions, body.mentions_eq, otherwise.mentions_eq,
      Expr.allMentions_eq_flatMap (_ ++ _), List.flatMap_append, ← Expr.allMentions_eq_flatMap,
      ← Expr.allMentions_eq_flatMap]
  | .for _ _ _ _ _ body => by
    rw [Stmt.mentions, Stmt.exprs, Expr.allMentions, Expr.allMentions, body.mentions_eq]
  | .loop _ body | .nested _ body => body.mentions_eq

theorem Block.mentions_eq : ∀ b : Block, b.mentions = Expr.allMentions b.exprs
  | ⟨_, stmts⟩ => Stmt.allMentions_eq stmts

theorem Stmt.allMentions_eq :
    ∀ stmts : List Stmt, Stmt.allMentions stmts = Expr.allMentions (Stmt.allExprs stmts)
  | [] => rfl
  | s :: stmts => by
    rw [Stmt.allMentions, Stmt.allExprs, s.mentions_eq, Stmt.allMentions_eq stmts,
      Expr.allMentions_eq_flatMap (_ ++ _), List.flatMap_append, ← Expr.allMentions_eq_flatMap,
      ← Expr.allMentions_eq_flatMap]

end

/-- The mentions of an accepted closure are in the order of the source. -/
theorem Block.Laid.mentions_pairwise {b : Block} (h : b.Laid) :
    b.mentions.Pairwise fun x y => x.span.start < y.span.start := by
  obtain ⟨hlaid, hrow⟩ := h.row
  have hmentions : Row b.span.start b.span.stop (b.mentions.map Mention.span) := by
    rw [b.mentions_eq, Expr.map_span_allMentions]
    exact hrow.flatMap fun e he => (hlaid e he).mentions_row
  exact hmentions.pairwise

/-! ### Statics of a model -/

namespace Check

variable {catalog : Catalog} {s s₁ s' : Checking} {xs ys : List Mention}

/-- Whether the statics that are bound between two states are bound to mentions. -/
def BindsStatics (xs : List Mention) (s s' : Checking) : Prop :=
  ∀ span index, s'.model.referent? span = some (.static index) →
    s.model.referent? span = some (.static index) ∨ ∃ x ∈ xs, x.span = span

namespace BindsStatics

theorem of_referents (h : s'.model.referents = s.model.referents) : BindsStatics xs s s' := by
  intro span index hspan
  rw [Model.referent?, h] at hspan
  exact .inl hspan

theorem trans (h : BindsStatics xs s s₁) (h' : BindsStatics ys s₁ s') :
    BindsStatics (xs ++ ys) s s' := by
  intro span index hspan
  rcases h' span index hspan with hspan | ⟨y, hy, hspan⟩
  · rcases h span index hspan with hspan | ⟨x, hx, hspan⟩
    · exact .inl hspan
    · exact .inr ⟨x, List.mem_append_left _ hx, hspan⟩
  · exact .inr ⟨y, List.mem_append_right _ hy, hspan⟩

/-- A step that binds nothing, at the end. -/
theorem before (h : BindsStatics xs s s₁) (h' : s'.model.referents = s₁.model.referents) :
    BindsStatics xs s s' := by
  have hnone : BindsStatics [] s₁ s' := of_referents h'
  have hboth := h.trans hnone
  rwa [List.append_nil] at hboth

/-- A step that binds nothing, in front. -/
theorem behind (h' : s₁.model.referents = s.model.referents) (h : BindsStatics xs s₁ s') :
    BindsStatics xs s s' := by
  have hnone : BindsStatics [] s s₁ := of_referents h'
  exact hnone.trans h

theorem noteReferent {x : Mention} {t : Ty} (r : Referent) :
    BindsStatics [x] s ((s.noteReferent x.span r).noteType x.span t) := by
  intro span index hspan
  by_cases heq : span = x.span
  · exact .inr ⟨x, List.mem_cons_self, heq.symm⟩
  · exact .inl ((SpanMap.get?_insert_of_ne _ _ heq).symm.trans hspan)

/-- A declaration binds a local. -/
theorem declare (h : BindsStatics xs s s₁) (name : Name) (t : Ty) (mutable : Bool)
    (family : Option LiteralFamily) : BindsStatics xs s (s₁.declare name t mutable family) := by
  intro span index hspan
  by_cases heq : span = name.span
  · subst heq
    have hlocal : (s₁.declare name t mutable family).model.referent? name.span = some (.local _) :=
      SpanMap.get?_insert_self _ _ _
    cases hlocal.symm.trans hspan
  · exact h span index ((SpanMap.get?_insert_of_ne _ _ heq).symm.trans hspan)

end BindsStatics

theorem Selects.referents_eq {rows columns : Nat} {items : List Expr}
    (h : Selects rows columns items s s') : s'.model.referents = s.model.referents := by
  induction h with
  | nil => rfl
  | cons _ _ _ _ ih => exact ih

/-- Statics are bound where an expression mentions them. -/
theorem Checks.bindsStatics {j : Judgment} (h : Checks catalog s j s') :
    BindsStatics j.mentions s s' := by
  induction h with
  | literal | nil => exact .of_referents rfl
  | @«local» _ span text => exact .noteReferent (x := .name span text) _
  | @capture _ span text => exact .noteReferent (x := .name span text) _
  | @static _ span text => exact .noteReferent (x := .name span text) _
  | @path _ span p => exact .noteReferent (x := .path span p) _
  | unary _ _ ih | cast _ _ ih | field _ _ ih | paren _ ih => exact ih.before rfl
  | binary _ _ hop ihLeft ihRight => exact (ihLeft.trans ihRight).before hop.settles.referents
  | method _ _ hmethod ih ihArgs => exact (ih.trans ihArgs).before hmethod.settles.referents
  | call _ hcall ihArgs => exact ihArgs.before hcall.settles.referents
  | element _ _ _ _ _ ihBase ihIndex => exact (ihBase.trans ihIndex).before rfl
  | swizzle _ _ _ _ hselects ih => exact ih.trans (.of_referents hselects.referents_eq)
  | choice _ _ _ _ hunify ihCondition ihYes ihNo =>
    exact (ihCondition.trans (ihYes.trans ihNo)).before hunify.settles.referents
  | cons _ _ ihFirst ihRest => exact ihFirst.trans ihRest

open Shader.Lower (mentionsOf)

/-- Statics are bound where a statement mentions them. -/
theorem ChecksStmt.bindsStatics {j : StmtJudgment} (h : ChecksStmt catalog s j s') :
    BindsStatics (mentionsOf j) s s' := by
  induction h with
  | declare => exact (BindsStatics.of_referents rfl).declare _ _ _ _
  | annotated he _ _ =>
    exact (he.bindsStatics.before (Checking.Settles.settle _ _ _).referents).declare _ _ _ _
  | inferred he _ => exact he.bindsStatics.declare _ _ _ _
  | assign hplace hvalue _ hassigns =>
    exact (hplace.bindsStatics.trans hvalue.bindsStatics).before hassigns.settles.referents
  | ifOnly hcondition _ _ ih => exact hcondition.bindsStatics.trans ih
  | ifElse hcondition _ _ _ ihBody ihOtherwise =>
    exact hcondition.bindsStatics.trans (ihBody.trans ihOtherwise)
  | @«for» s _ _ s₃ _ _ counter _ _ _ _ _ _ t hstart hstop hunify _ _ ih =>
    have hbounds := hstart.bindsStatics.trans (hstop.bindsStatics.before hunify.settles.referents)
    have hopened : BindsStatics _ s s₃.openScope := hbounds.before rfl
    have hall := (hopened.declare counter t.type false t.family).trans (ih.behind rfl)
    rw [List.append_assoc] at hall
    exact hall.before rfl
  | «while» hcondition _ _ ih => exact (hcondition.bindsStatics.trans (ih.behind rfl)).before rfl
  | loop _ ih => exact (ih.behind rfl).before rfl
  | nested _ ih => exact ih
  | block _ ih => exact (ih.behind rfl).before rfl
  | jump | nil => exact .of_referents rfl
  | eval he => exact he.bindsStatics
  | cons _ _ ihFirst ihRest => exact ihFirst.trans ihRest

end Check

/-- The model of an accepted closure binds statics where the closure mentions them only. -/
theorem Closure.mentioned_of_static {c : Closure} {catalog : Catalog} {m : Model} {span : Span}
    {index : Nat} (h : c.bind catalog = .ok m) (hspan : m.referent? span = some (.static index)) :
    ∃ x ∈ c.body.mentions, x.span = span := by
  obtain ⟨s, hchecks, rfl⟩ := c.checks_of_bind h
  cases hchecks with
  | mk _ hbody =>
    have hinitial : Check.BindsStatics [] {} ((({} : Checking).openScope).declare c.param .threadIds
        false none) := (Check.BindsStatics.of_referents rfl).declare _ _ _ _
    rcases hinitial.trans hbody.bindsStatics span index hspan with hnone | hmentioned
    · cases hnone
    · exact hmentioned

theorem Mention.static?_eq_some {m : Model} {x : Mention} {index : Nat} :
    x.static? m = some index ↔ m.referent? x.span = some (.static index) := by
  unfold Mention.static?
  split
  · rename_i heq
    rw [heq]
    simp
  · rename_i hnone
    exact iff_of_false nofun (hnone index)

/-! ### First references -/

section

variable {α : Type} {lt : α → α → Prop} {f : α → Option Nat} {xs : List α} {last : α} {i j : Nat}

/-- Whether something in a list has the number `i` and is less than all that have the number `j`. -/
def ComesFirst (lt : α → α → Prop) (f : α → Option Nat) (xs : List α) (i j : Nat) : Prop :=
  ∃ x ∈ xs, f x = some i ∧ ∀ y ∈ xs, f y = some j → lt x y

theorem ComesFirst.append (h : ComesFirst lt f xs i j) (hlast : ∀ x ∈ xs, lt x last) :
    ComesFirst lt f (xs ++ [last]) i j := by
  obtain ⟨x, hx, hi, hfirst⟩ := h
  refine ⟨x, List.mem_append_left _ hx, hi, List.forall_mem_append.mpr ⟨hfirst, ?_⟩⟩
  exact List.forall_mem_singleton.mpr fun _ => hlast x hx

/-- A number that only the last one has comes behind all others. -/
theorem comesFirst_of_new (hi : i ∈ xs.filterMap f) (hnew : j ∉ xs.filterMap f)
    (hlast : ∀ x ∈ xs, lt x last) : ComesFirst lt f (xs ++ [last]) i j := by
  obtain ⟨x, hx, hi⟩ := List.mem_filterMap.mp hi
  refine ⟨x, List.mem_append_left _ hx, hi, List.forall_mem_append.mpr ⟨fun y hy hj => ?_, ?_⟩⟩
  · exact (hnew (List.mem_filterMap.mpr ⟨y, hy, hj⟩)).elim
  · exact List.forall_mem_singleton.mpr fun _ => hlast x hx

/-- The numbers of a sorted list, each once, are in the order of what has them first. -/
theorem pairwise_eraseDups (h : xs.Pairwise lt) :
    (xs.filterMap f).eraseDups.Pairwise (ComesFirst lt f xs) := by
  induction xs using List.reverseRecOn with
  | nil => exact .nil
  | append_singleton xs last ih =>
    obtain ⟨hxs, -, hbefore⟩ := List.pairwise_append.mp h
    have hlast : ∀ x ∈ xs, lt x last := fun x hx => hbefore x hx last List.mem_cons_self
    have hold := (ih hxs).imp fun h => ComesFirst.append h hlast
    rw [List.filterMap_append]
    cases hindex : f last with
    | none =>
      rw [show [last].filterMap f = [] by simp [hindex], List.append_nil]
      exact hold
    | some k =>
      rw [show [last].filterMap f = [k] by simp [hindex], Shader.eraseDups_append_singleton]
      split
      · exact hold
      · rename_i hnew
        refine List.pairwise_append.mpr ⟨hold, List.pairwise_singleton _ _, fun i hi j hj => ?_⟩
        obtain rfl := List.mem_singleton.mp hj
        exact comesFirst_of_new (List.mem_eraseDups.mp hi) hnew hlast

end

namespace CheckedBody

variable {body : CheckedBody}

theorem mem_staticIndexes {index : Nat} : index ∈ body.staticIndexes ↔
    ∃ x ∈ body.closure.body.mentions, body.model.referent? x.span = some (.static index) := by
  simp only [staticIndexes, List.mem_eraseDups, List.mem_filterMap, Mention.static?_eq_some]

/-- Of two statics the first one is mentioned in front of all mentions of the other one. -/
theorem pairwise_staticIndexes {hi : Nat} (hlaid : body.closure.Laid hi) :
    body.staticIndexes.Pairwise fun i j => ∃ x ∈ body.closure.body.mentions,
      body.model.referent? x.span = some (.static i) ∧ ∀ y ∈ body.closure.body.mentions,
        body.model.referent? y.span = some (.static j) → x.span.start < y.span.start := by
  have hfirst := pairwise_eraseDups (f := (·.static? body.model))
    (Block.Laid.mentions_pairwise hlaid.2.2.2.1)
  refine hfirst.imp fun ⟨x, hx, hi, hbefore⟩ => ⟨x, hx, Mention.static?_eq_some.mp hi, ?_⟩
  exact fun y hy hj => hbefore y hy (Mention.static?_eq_some.mpr hj)

theorem nodup_staticIndexes {hi : Nat} (hlaid : body.closure.Laid hi) :
    body.staticIndexes.Nodup := by
  refine (pairwise_staticIndexes hlaid).imp fun {i j} ⟨x, hx, hi, hfirst⟩ heq => ?_
  exact Nat.lt_irrefl _ (hfirst x hx (heq ▸ hi))

end CheckedBody

namespace Shader

/-- Whether the statics of a shader body are those of its closure. -/
structure Body.Harvests (body : CheckedBody) (b : Body) : Prop where
  /-- No static is listed again. -/
  nodup : (b.statics.map (·.index)).Nodup
  /-- The statics are those that the model binds somewhere. -/
  bound : ∀ index, index ∈ b.statics.map (·.index) ↔
    ∃ span, body.model.referent? span = some (.static index)
  /-- They are bound where the closure mentions them. -/
  mentioned : ∀ span index, body.model.referent? span = some (.static index) →
    ∃ x ∈ body.closure.body.mentions, x.span = span
  decls : ∀ u ∈ b.statics, body.catalog.statics[u.index]? = some u.decl
  /-- Of two statics the first one has a reference in front of all those of the other one. -/
  order : b.statics.Pairwise fun u v => ∃ s, body.model.referent? s = some (.static u.index) ∧
    ∀ t, body.model.referent? t = some (.static v.index) → s.start < t.start
  names : (b.statics.map (·.name)).Nodup
  /-- An identifier of the code is that of a static where it stands for a reference to the static, and
  only there. -/
  references : List.Forall₂
    (fun x ident => ∀ u ∈ b.statics,
      x.entity? body.model = some (.referent (.static u.index)) ↔ ident = u.name)
    (Place.ofBlock body.model body.closure.body) (Stmt.allIdentifiers b.code)

variable {kernel source : String} {catalog : Catalog} {body : CheckedBody} {table : TypeTable}
  {b : Body}

/-- Where no two entities share an identifier, a place has the identifier of an entity only if it stands
for this entity. -/
theorem Place.Names.entity?_eq_some {m : Model} {names : List (Entity × String)} {x : Place}
    {ident name : String} {entity : Entity} (h : Place.Names m names x ident)
    (hentities : (names.map (·.1)).Nodup) (hidentifiers : (names.map (·.2)).Nodup)
    (hname : (entity, name) ∈ names) : x.entity? m = some entity ↔ ident = name := by
  obtain ⟨found, hfound, hident⟩ := h
  constructor
  · intro hx
    obtain rfl := Option.some.inj (hfound.symm.trans hx)
    exact congrArg Prod.snd (List.inj_on_of_nodup_map hentities hident hname rfl)
  · rintro rfl
    have hsame := congrArg Prod.fst (List.inj_on_of_nodup_map hidentifiers hident hname rfl)
    exact hfound.trans (congrArg some hsame)

/-- The identifiers of a body are those of the entities of its places, which have different ones. -/
theorem exists_names (hbody : CheckedBody.of kernel source catalog = .ok body)
    (hb : Body.of body table = .ok b) :
    ∃ names : List (Entity × String),
      List.Forall₂ (Place.Names body.model names) (Place.ofBlock body.model body.closure.body)
        (Stmt.allIdentifiers b.code) ∧
      (names.map (·.1)).Nodup ∧ (names.map (·.2)).Nodup ∧
      (b.statics.map (·.name)).Sublist (names.map (·.2)) ∧
      ∀ u ∈ b.statics, (.referent (.static u.index), u.name) ∈ names ∧
        body.catalog.statics[u.index]? = some u.decl := by
  obtain ⟨bounds, haccounted⟩ := exists_accounted hbody hb
  refine ⟨(Context.of body table).names b.statics bounds,
    haccounted.lowers.places (List.Subset.refl _), haccounted.entities, haccounted.identifiers, ?_,
    fun u hu => ⟨?_, (haccounted.named u hu).1⟩⟩
  · rw [map_snd_names]
    exact ((List.sublist_append_left _ _).trans (List.sublist_append_right _ _)).trans
      (List.sublist_append_right _ _)
  · refine List.mem_append_right _ (List.mem_append_right _ (List.mem_append_left _ ?_))
    exact List.mem_map_of_mem (f := fun u : StaticUse => (Entity.referent (.static u.index), u.name)) hu

/-- The statics of a shader body are exactly those that the model binds in the closure. -/
theorem harvests_of_body (hbody : CheckedBody.of kernel source catalog = .ok body)
    (hb : Body.of body table = .ok b) : b.Harvests body := by
  obtain ⟨_, hparse, hbind⟩ := CheckedBody.read_and_bound hbody
  obtain ⟨hi, hlaid⟩ := Closure.laid_of_parse hparse
  obtain ⟨names, hplaces, hentities, hidentifiers, hsublist, hstatics⟩ := exists_names hbody hb
  have hindexes := (statics_of_body hbody hb).1
  have hmentioned : ∀ span index, body.model.referent? span = some (.static index) →
      ∃ x ∈ body.closure.body.mentions, x.span = span := fun _ _ => Closure.mentioned_of_static hbind
  refine
    { nodup := hindexes ▸ CheckedBody.nodup_staticIndexes hlaid
      bound := fun index => ?_
      mentioned := hmentioned
      decls := fun u hu => (hstatics u hu).2
      order := ?_
      names := hidentifiers.sublist hsublist
      references := hplaces.imp fun x ident hx u hu =>
        hx.entity?_eq_some hentities hidentifiers (hstatics u hu).1 }
  · rw [hindexes, CheckedBody.mem_staticIndexes]
    constructor
    · rintro ⟨x, -, hx⟩
      exact ⟨x.span, hx⟩
    · rintro ⟨span, hspan⟩
      obtain ⟨x, hx, rfl⟩ := hmentioned span index hspan
      exact ⟨x, hx, hspan⟩
  · have hordered := CheckedBody.pairwise_staticIndexes hlaid
    rw [← hindexes, List.pairwise_map] at hordered
    refine hordered.imp ?_
    rintro u v ⟨x, -, hu, hfirst⟩
    refine ⟨x.span, hu, fun t ht => ?_⟩
    obtain ⟨y, hy, rfl⟩ := hmentioned t _ ht
    exact hfirst y hy ht

/-- A kernel with a bound that is set apart, a chain of conditions and a local that has the name of a
static. -/
def gather : String :=
  "|ids| \x7b let mut n = 4u32; for i in first..n + last \x7b let gain = gain; "
    ++ "if gain > 1.0 \x7b out[i] = gain; \x7d else if gain > limit \x7b out[i] = Params::gain; \x7d "
    ++ "n += last; \x7d \x7d"

def gatherCatalog : Catalog where
  fields := [⟨"out", "ReadWriteBuffer<f32>", false⟩]
  statics := [{ path := "app::limit", type := "f32" }, { path := "app::unused", type := "f32" },
    { path := "tuning::Params::gain", type := "f32" }, { path := "app::last", type := "u32" },
    { path := "app::first", type := "u32" }]

theorem harvests_of_body_gather :
    ∃ body b, CheckedBody.of "Gather" gather gatherCatalog = .ok body ∧ Body.of body .hlsl = .ok b ∧
      b.statics.map (fun u => (u.index, u.name)) =
        [(4, "first"), (3, "last"), (2, "gain_1"), (0, "limit")] ∧ b.Harvests body := by
  have hrun : ((CheckedBody.of "Gather" gather gatherCatalog).toOption.any fun body =>
      (Body.of body .hlsl).toOption.any fun b =>
        b.statics.map (fun u => (u.index, u.name)) =
          [(4, "first"), (3, "last"), (2, "gain_1"), (0, "limit")]) = true := by
    decide +kernel
  obtain ⟨body, hbody, hrun⟩ := (Option.any_eq_true _ _).mp hrun
  obtain ⟨b, hb, hstatics⟩ := (Option.any_eq_true _ _).mp hrun
  have hbody' := eq_ok_of_toOption hbody
  have hb' := eq_ok_of_toOption hb
  exact ⟨body, b, hbody', hb', of_decide_eq_true hstatics, harvests_of_body hbody' hb'⟩

end Shader

end ComputeKernel
