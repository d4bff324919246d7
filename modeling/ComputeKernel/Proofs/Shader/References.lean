import ComputeKernel.Proofs.Shader.Body
import ComputeKernel.Proofs.Typing.Scoping

/-!
Statics of a body. The statics that the code of a checked closure uses are those that the closure refers
to, each once, in the order of the first references in the text.
-/

namespace ComputeKernel

/-! ### References -/

mutual

/-- What a statement mentions, in the order of the text. -/
def Stmt.mentions : Stmt → List Mention
  | .let _ _ _ _ none | .jump .. => []
  | .let _ _ _ _ (some value) | .eval _ value => value.mentions
  | .assign _ _ place value => place.mentions ++ value.mentions
  | .if _ condition body none => condition.mentions ++ body.mentions
  | .if _ condition body (some otherwise) =>
    condition.mentions ++ (body.mentions ++ otherwise.mentions)
  | .for _ _ start stop _ body => start.mentions ++ (stop.mentions ++ body.mentions)
  | .while _ condition body => condition.mentions ++ body.mentions
  | .loop _ body | .nested _ body => body.mentions

def Block.mentions : Block → List Mention
  | ⟨_, stmts⟩ => Stmt.allMentions stmts

def Stmt.allMentions : List Stmt → List Mention
  | [] => []
  | s :: ss => s.mentions ++ Stmt.allMentions ss

end

def Mention.static? (m : Model) (x : Mention) : Option Nat :=
  match m.referent? x.span with
  | some (.static index) => some index
  | _ => none

/-- The statics that a closure refers to, by their places in the catalog, in the order of the first
references. -/
def CheckedBody.staticIndexes (body : CheckedBody) : List Nat :=
  (body.closure.body.mentions.filterMap (·.static? body.model)).eraseDups

def CheckedBody.statics (body : CheckedBody) : List StaticDecl :=
  body.staticIndexes.filterMap (body.catalog.statics[·]?)

namespace Shader

open Check (Covers Covered CoversStmt StmtJudgment)

/-- Whether the statics that were met are those that were referred to, in the order of the first
references. -/
def Progress.Met (seen : List Nat) (s : Progress) : Prop :=
  s.statics.map (·.index) = seen.eraseDups

theorem eraseDups_append_singleton (seen : List Nat) (index : Nat) :
    (seen ++ [index]).eraseDups =
      if index ∈ seen then seen.eraseDups else seen.eraseDups ++ [index] := by
  rw [List.eraseDups_append]
  split
  · rename_i hmem
    have hnone : List.removeAll [index] seen = [] := by simp [List.removeAll, hmem]
    rw [hnone, List.eraseDups_nil, List.append_nil]
  · rename_i hmem
    have hone : List.removeAll [index] seen = [index] := by simp [List.removeAll, hmem]
    rw [hone]
    rfl

namespace Lower

variable {α β : Type}

/-- Whether a run that succeeds meets the statics that `mentions` refer to, in this order. -/
def Meets (m : Model) (mentions : List Mention) (p : Lower α) : Prop :=
  ∀ s a s', p.run s = .ok (a, s') →
    ∀ seen, s.Met seen → s'.Met (seen ++ mentions.filterMap (·.static? m))

namespace Meets

variable {m : Model} {xs ys : List Mention} {p : Lower α} {f : α → Lower β}

theorem of_preserves (h : ∀ seen, Preserves (Progress.Met seen) p) : Meets m [] p := by
  intro s a s' hrun seen hs
  rw [List.filterMap_nil, List.append_nil]
  exact h seen s a s' hrun hs

theorem pure {a : α} : Meets m [] (Pure.pure a : Lower α) := of_preserves fun _ => .pure

theorem bind (hp : Meets m xs p) (hf : ∀ a, Meets m ys (f a)) : Meets m (xs ++ ys) (p >>= f) := by
  intro s b s' hrun seen hs
  rw [StateT.run_bind] at hrun
  cases hfirst : p.run s with
  | error d =>
    rw [hfirst] at hrun
    cases hrun
  | ok result =>
    rw [hfirst] at hrun
    rw [List.filterMap_append, ← List.append_assoc]
    exact hf _ _ _ _ hrun _ (hp _ _ _ hfirst seen hs)

/-- A step that meets no statics, in front. -/
theorem behind (hp : ∀ seen, Preserves (Progress.Met seen) p) (hf : ∀ a, Meets m ys (f a)) :
    Meets m ys (p >>= f) := (of_preserves hp).bind hf

/-- A step that meets no statics, at the end. -/
theorem before (hp : Meets m xs p) (hf : ∀ a seen, Preserves (Progress.Met seen) (f a)) :
    Meets m xs (p >>= f) := by
  have hboth := hp.bind fun a => of_preserves (m := m) (hf a)
  rwa [List.append_nil] at hboth

end Meets

variable {ctx : Context} {catalog : Catalog}

/-! ### Steps -/

theorem met_of_diagnostics (seen : List Nat) (s : Progress) (diagnostics : List Diagnostic)
    (h : s.Met seen) : Progress.Met seen { s with diagnostics } := h

theorem staticName_meets (index : Nat) (span : Span) (s : Progress) (name : String) (s' : Progress)
    (hrun : (staticName ctx index span).run s = .ok (name, s')) (seen : List Nat)
    (hs : s.Met seen) : s'.Met (seen ++ [index]) := by
  have hmet : (∃ u ∈ s.statics, u.index = index) ↔ index ∈ seen := by
    rw [← List.mem_eraseDups, ← hs, List.mem_map]
  rw [Progress.Met, eraseDups_append_singleton]
  obtain ⟨u, hu, hindex, _, rfl⟩ | ⟨hnew, decl, _, _, rfl⟩ := staticName_cases hrun
  · rw [if_pos (hmet.mp ⟨u, hu, hindex⟩)]
    exact hs
  · rw [if_neg fun hseen => ?_, List.map_append, List.map_singleton, hs]
    obtain ⟨u, hu, hindex⟩ := hmet.mpr hseen
    exact hnew u hu hindex

theorem referentName_meets (x : Mention) : Meets ctx.model [x] (referentName ctx x.span) := by
  intro s name s' hrun seen hs
  unfold referentName at hrun
  cases hreferent : ctx.model.referent? x.span with
  | none =>
    rw [hreferent] at hrun
    cases hrun
  | some r =>
    rw [hreferent] at hrun
    cases r with
    | «local» id =>
      have hnone : [x].filterMap (·.static? ctx.model) = [] := by simp [Mention.static?, hreferent]
      rw [hnone, List.append_nil]
      exact Preserves.require _ _ s name s' hrun hs
    | capture field =>
      have hnone : [x].filterMap (·.static? ctx.model) = [] := by simp [Mention.static?, hreferent]
      rw [hnone, List.append_nil]
      exact Preserves.require _ _ s name s' hrun hs
    | static index =>
      have hone : [x].filterMap (·.static? ctx.model) = [index] := by
        simp [Mention.static?, hreferent]
      rw [hone]
      exact staticName_meets index x.span s name s' hrun seen hs

/-! ### Expressions -/

theorem receiverAt_eq_pure {span : Span} {t : Ty} {r : Receiver} (ht : ctx.model.type? span = some t)
    (hr : Receiver.of? t = some r) : receiverAt ctx span = pure r := by
  unfold receiverAt typeAt
  rw [ht]
  show (pure t >>= fun type => require (.noReceiver type) (Receiver.of? type)) = pure r
  rw [pure_bind, hr]
  rfl

/-- What the translation of something covered by the model meets. -/
def CoveredMeets (ctx : Context) : Covered → Prop
  | .expr e _ => Meets ctx.model e.mentions (expr ctx e)
  | .exprs es => Meets ctx.model (ComputeKernel.Expr.allMentions es) (exprs ctx es)

/-- The arguments of a swizzle are none, and the selectors of a matrix swizzle refer to nothing; that is
why the expression has to be one that the model covers. -/
theorem meets_of_covers {covered : Covered} (h : Covers catalog ctx.model covered) :
    CoveredMeets ctx covered := by
  induction h with
  | literal _ => exact .pure
  | @name span text _ _ _ _ _ =>
    exact (referentName_meets (.name span text)).before fun _ _ => .pure
  | @path span p _ _ _ _ _ =>
    exact (referentName_meets (.path span p)).before fun _ _ => .pure
  | unary _ _ _ ih =>
    exact .behind (fun _ => typeAt_preserves _) fun _ => ih.before fun _ _ => unary_preserves _ _ _
  | binary _ _ _ _ ihLeft ihRight =>
    exact .behind (fun _ => checkOperator_preserves _ _ _) fun _ =>
      ihLeft.bind fun _ => ihRight.before fun _ _ => .pure
  | cast _ _ _ ih =>
    exact .behind (fun seen => typeName_preserves (met_of_diagnostics seen) _ _) fun _ =>
      ih.before fun _ _ => .pure
  | field _ _ _ ih =>
    exact .behind (fun _ => receiverAt_preserves _) fun _ =>
      ih.before fun _ _ => apply_preserves _ _ _ _
  | swizzle he _ _ ih | element he _ _ _ _ ih =>
    rw [CoveredMeets, expr, receiverAt_eq_pure he.type? rfl, pure_bind, ComputeKernel.Expr.mentions,
      ComputeKernel.Expr.allMentions, List.append_nil]
    exact ih.before fun _ _ => select_preserves _ _ _
  | method he _ _ _ _ ih ihArgs =>
    rw [CoveredMeets, expr, receiverAt_eq_pure he.type? rfl, pure_bind]
    exact ih.bind fun _ => .behind (fun _ => .require _ _) fun _ =>
      ihArgs.before fun _ _ => apply_preserves _ _ _ _
  | intrinsic _ _ _ _ _ ihArgs | new _ _ _ _ _ _ ihArgs | splat _ _ _ _ _ _ ihArgs =>
    exact ihArgs.before fun _ seen => call_preserves (met_of_diagnostics seen) _ _ _ _
  | index _ hi _ _ _ ihBase ihIndex =>
    refine .behind (fun _ => receiverAt_preserves _) fun _ => ihBase.bind fun _ => ?_
    split
    · exact (index_ne_tuple hi _ _ rfl).elim
    · exact ihIndex.before fun _ _ => apply_preserves _ _ _ _
  | matrixSwizzle hb _ _ _ ih =>
    rw [CoveredMeets, expr, receiverAt_eq_pure hb.type? rfl, pure_bind, ComputeKernel.Expr.mentions,
      ComputeKernel.Expr.mentions, List.append_nil]
    exact ih.before fun _ _ => (selectors_preserves _).bind fun _ => apply_preserves _ _ _ _
  | paren _ _ ih => exact ih.before fun _ _ => .pure
  | choice _ _ _ _ ihCondition ihYes ihNo =>
    exact ihCondition.bind fun _ => ihYes.bind fun _ => ihNo.before fun _ _ => .pure
  | nil => exact .pure
  | cons _ _ ihFirst ihRest => exact ihFirst.bind fun _ => ihRest.before fun _ _ => .pure

/-! ### Statements -/

theorem declared_preserves {I : Progress → Prop} (span : Span) : Preserves I (declared ctx span) := by
  unfold declared
  split
  · exact (Preserves.require _ _).bind fun _ => (Preserves.require _ _).bind fun _ => .pure
  · exact .defect _

theorem allocate_met (base : String) (seen : List Nat) :
    Preserves (Progress.Met seen) (allocate base) := by
  rintro s _ _ ⟨⟩ hs
  exact hs

def mentionsOf : StmtJudgment → List Mention
  | .stmt st => st.mentions
  | .stmts sts => ComputeKernel.Stmt.allMentions sts
  | .block b => b.mentions

theorem code_meets_of_covers {j : StmtJudgment} (h : CoversStmt catalog ctx.model j) :
    Meets ctx.model (mentionsOf j) (code ctx j) := by
  have htype : ∀ {type span} seen, Preserves (Progress.Met seen) (typeName ctx type span) :=
    fun seen => typeName_preserves (met_of_diagnostics seen) _ _
  induction h with
  | @«let» _ _ _ _ value _ hvalue =>
    refine .behind (fun _ => declared_preserves _) fun _ => .behind htype fun _ => ?_
    cases value with
    | none => exact .pure
    | some e =>
      obtain ⟨t, he⟩ := hvalue e rfl
      exact ((meets_of_covers he).before fun _ _ => .pure).before fun _ _ => .pure
  | @assign _ op _ _ _ _ hplace hvalue _ =>
    have hrest := (meets_of_covers hplace).bind fun target =>
      (meets_of_covers hvalue).before (f := fun v => pure [Stmt.assign target op v]) fun _ _ => .pure
    cases op with
    | none => exact hrest
    | some op => exact .behind (fun _ => checkOperator_preserves _ _ _) fun _ => hrest
  | @«if» _ _ _ otherwise _ hcondition _ _ ihBody ihOtherwise =>
    cases otherwise with
    | none =>
      exact (meets_of_covers hcondition).bind fun _ =>
        ihBody.before fun _ _ => Preserves.pure.bind fun _ => .pure
    | some b =>
      exact (meets_of_covers hcondition).bind fun _ => ihBody.bind fun _ =>
        ((ihOtherwise b rfl).before fun _ _ => .pure).before fun _ _ => .pure
  | «for» _ hstart hstop _ ihBody =>
    refine .behind (fun _ => declared_preserves _) fun _ => .behind htype fun _ => ?_
    refine (meets_of_covers hstart).bind fun _ => (meets_of_covers hstop).bind fun _ => ?_
    split
    · exact ihBody.before fun _ _ => .pure
    · exact .behind (allocate_met _) fun _ => ihBody.before fun _ _ => .pure
  | «while» hcondition _ ihBody =>
    exact (meets_of_covers hcondition).bind fun _ => ihBody.before fun _ _ => .pure
  | loop _ ihBody | nested _ ihBody => exact ihBody.before fun _ _ => .pure
  | jump => exact .pure
  | eval he => exact (meets_of_covers he).before fun _ _ => .pure
  | nil => exact .pure
  | cons _ _ ihFirst ihRest => exact ihFirst.bind fun _ => ihRest.before fun _ _ => .pure
  | block _ ih => exact ih

end Lower

/-- The statics of a shader body are those that the closure refers to, in the order of the first
references. -/
theorem statics_of_body {kernel source : String} {catalog : Catalog} {body : CheckedBody}
    (hbody : CheckedBody.of kernel source catalog = .ok body) {table : TypeTable} {b : Body}
    (hb : Body.of body table = .ok b) :
    b.statics.map (·.index) = body.staticIndexes ∧ b.statics.map (·.decl) = body.statics := by
  have hcomplete := CheckedBody.complete hbody
  obtain ⟨code, s, threadIds, hrun, hadvances, hthreads⟩ := lowers_of_checked hbody table
  rw [Body.of_eq body table hrun hthreads] at hb
  split at hb
  · cases hb
    have hmeets : Lower.Meets (Context.of body table).model _ (Lower.code (Context.of body table) _) :=
      Lower.code_meets_of_covers hcomplete.body
    have hindexes : s.statics.map (·.index) = body.staticIndexes := hmeets _ _ _ hrun [] rfl
    refine ⟨hindexes, ?_⟩
    have hnamed : ∀ u ∈ s.statics, body.catalog.statics[u.index]? = some u.decl := fun u hu =>
      (hadvances.named nofun u hu).1
    show s.statics.map (·.decl) = _
    rw [CheckedBody.statics, ← hindexes, List.filterMap_map, ← List.filterMap_eq_map]
    exact List.filterMap_congr fun u hu => (hnamed u hu).symm
  · cases hb

end Shader

end ComputeKernel
