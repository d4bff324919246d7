import ComputeKernel.Proofs.Shader.Identifiers

/-!
Closed code. Every variable of the code of a resolved body is a declaration of an open block, the
counter of a loop around it, or one of the identifiers that the code is given from outside.
-/

namespace ComputeKernel.Shader

open Check (StmtJudgment ResolvesStmt)

/-! ### Declarations in reach -/

/-- What a statement declares for the statements behind it. -/
def Stmt.declared : Stmt → List String
  | .declare _ name _ => [name]
  | _ => []

mutual

/-- Whether the variables of a statement are among `known` or declared in front of them in a block
that is still open. -/
def Stmt.Closed (known : List String) : Stmt → Prop
  | .declare _ _ none | .jump _ => True
  | .declare _ _ (some value) | .eval value => value.variables ⊆ known
  | .assign target _ value => target.variables ⊆ known ∧ value.variables ⊆ known
  | .branch condition body none => condition.variables ⊆ known ∧ Stmt.AllClosed known body
  | .branch condition body (some otherwise) =>
    condition.variables ⊆ known ∧ Stmt.AllClosed known body ∧ Stmt.AllClosed known otherwise
  | .count _ counter start _ bound body =>
    start.variables ⊆ known ∧ bound.variables ⊆ counter :: known ∧
      Stmt.AllClosed (counter :: known) body
  | .while condition body => condition.variables ⊆ known ∧ Stmt.AllClosed known body
  | .nested body => Stmt.AllClosed known body

def Stmt.AllClosed (known : List String) : List Stmt → Prop
  | [] => True
  | s :: ss => s.Closed known ∧ Stmt.AllClosed (s.declared ++ known) ss

end

/-- What statements declare for those behind them. -/
def Stmt.allDeclared (ss : List Stmt) : List String := ss.flatMap Stmt.declared

mutual

theorem Stmt.Closed.mono {known known' : List String} (hknown : known ⊆ known') :
    ∀ s : Stmt, s.Closed known → s.Closed known'
  | .declare _ _ none, _ | .jump _, _ => trivial
  | .declare _ _ (some _), h | .eval _, h => List.Subset.trans h hknown
  | .assign .., ⟨htarget, hvalue⟩ =>
    ⟨List.Subset.trans htarget hknown, List.Subset.trans hvalue hknown⟩
  | .branch _ body none, ⟨hcondition, hbody⟩ =>
    ⟨List.Subset.trans hcondition hknown, Stmt.AllClosed.mono hknown body hbody⟩
  | .branch _ body (some otherwise), ⟨hcondition, hbody, hotherwise⟩ =>
    ⟨List.Subset.trans hcondition hknown, Stmt.AllClosed.mono hknown body hbody,
      Stmt.AllClosed.mono hknown otherwise hotherwise⟩
  | .count _ counter _ _ _ body, ⟨hstart, hbound, hbody⟩ =>
    have hcons := List.cons_subset_cons counter hknown
    ⟨List.Subset.trans hstart hknown, List.Subset.trans hbound hcons,
      Stmt.AllClosed.mono hcons body hbody⟩
  | .while _ body, ⟨hcondition, hbody⟩ =>
    ⟨List.Subset.trans hcondition hknown, Stmt.AllClosed.mono hknown body hbody⟩
  | .nested body, h => Stmt.AllClosed.mono hknown body h

theorem Stmt.AllClosed.mono {known known' : List String} (hknown : known ⊆ known') :
    ∀ ss : List Stmt, Stmt.AllClosed known ss → Stmt.AllClosed known' ss
  | [], _ => trivial
  | s :: ss, ⟨hfirst, hrest⟩ =>
    ⟨Stmt.Closed.mono hknown s hfirst,
      Stmt.AllClosed.mono (List.append_subset.mpr ⟨List.subset_append_left _ _,
        List.Subset.trans hknown (List.subset_append_right _ _)⟩) ss hrest⟩

end

theorem Stmt.AllClosed.append {known : List String} {ss ts : List Stmt}
    (hfirst : Stmt.AllClosed known ss) (hrest : Stmt.AllClosed (Stmt.allDeclared ss ++ known) ts) :
    Stmt.AllClosed known (ss ++ ts) := by
  induction ss generalizing known with
  | nil => exact hrest
  | cons s ss ih =>
    refine ⟨hfirst.1, ih hfirst.2 (Stmt.AllClosed.mono ?_ ts hrest)⟩
    intro name hname
    simp only [Stmt.allDeclared, List.flatMap_cons, List.mem_append] at hname ⊢
    tauto

theorem Stmt.AllClosed.singleton {known : List String} {s : Stmt} (h : s.Closed known) :
    Stmt.AllClosed known [s] := ⟨h, trivial⟩

/-! ### Entities in reach -/

/-- Whether an entity can be used where the scopes are open. -/
def Entity.InScope (scopes : Scopes) : Entity → Prop
  | .referent (.local id) => id ∈ scopes.ids
  | .referent _ => True
  | .bound _ => False

/-- Whether the identifier of each entity that can be used is known. -/
def Reaches (names : List (Entity × String)) (scopes : Scopes) (known : List String) : Prop :=
  ∀ p ∈ names, p.1.InScope scopes → p.2 ∈ known

variable {ctx : Context} {catalog : Catalog} {statics : List StaticUse}
  {bounds bounds' : List (Nat × String)} {scopes scopes' : Scopes} {next next' : Nat}
  {known : List String}

theorem Reaches.mono {names : List (Entity × String)} {known' : List String}
    (h : Reaches names scopes known) (hknown : known ⊆ known') : Reaches names scopes known' :=
  fun p hp hin => hknown (h p hp hin)

theorem ident_of_mem_names {id : Nat} {ident : String}
    (h : (.referent (.local id), ident) ∈ ctx.names statics bounds) :
    ctx.localNames[id]? = some ident := by
  simp only [Context.names, List.mem_append, List.mem_map] at h
  rcases h with ⟨_, _, h⟩ | ⟨p, hp, h⟩ | ⟨_, _, h⟩ | ⟨_, _, h⟩
  · cases h
  · cases h
    exact List.mem_zipIdx_iff_getElem?.mp hp
  · cases h
  · cases h

/-- A local that comes into scope is in reach behind its declaration. -/
theorem Reaches.declare {id : Nat} {ident : String}
    (h : Reaches (ctx.names statics bounds) scopes known) (hid : ctx.localNames[id]? = some ident)
    (hscopes : ∀ x ∈ scopes'.ids, x = id ∨ x ∈ scopes.ids) :
    Reaches (ctx.names statics bounds) scopes' (ident :: known) := by
  rintro ⟨entity, name⟩ hp hin
  match entity with
  | .referent (.local x) =>
    rcases hscopes x hin with rfl | hx
    · obtain rfl := Option.some.inj ((ident_of_mem_names hp).symm.trans hid)
      exact List.mem_cons_self
    · exact List.mem_cons_of_mem _ (h _ hp hx)
  | .referent (.capture _) => exact List.mem_cons_of_mem _ (h _ hp trivial)
  | .referent (.static _) => exact List.mem_cons_of_mem _ (h _ hp trivial)

theorem ids_declare {name : String} {id x : Nat} (hx : x ∈ (scopes.declare name id).ids) :
    x = id ∨ x ∈ scopes.ids := by
  cases scopes with
  | nil => exact .inr hx
  | cons scope outer => simpa [Scopes.declare, Scopes.ids] using hx

/-- The counter of a loop has a scope of its own. -/
theorem Reaches.counter {name : String} {id : Nat} {ident : String}
    (h : Reaches (ctx.names statics bounds) scopes known) (hid : ctx.localNames[id]? = some ident) :
    Reaches (ctx.names statics bounds) ([(name, id)] :: scopes) (ident :: known) :=
  h.declare hid fun x hx => by simpa [Scopes.ids] using hx

/-! ### Code -/

theorem exists_of_forall₂ {α β : Type} {R : α → β → Prop} {as : List α} {bs : List β}
    (h : List.Forall₂ R as bs) {b : β} (hb : b ∈ bs) : ∃ a ∈ as, R a b := by
  induction h with
  | nil => cases hb
  | cons hR _ ih =>
    rcases List.mem_cons.mp hb with rfl | hb
    · exact ⟨_, List.mem_cons_self, hR⟩
    · obtain ⟨a, ha, hab⟩ := ih hb
      exact ⟨a, List.mem_cons_of_mem _ ha, hab⟩

/-- The variables of a resolved expression are known. -/
theorem Lowers.variables_subset {e : ComputeKernel.Expr} {c : Expr}
    (h : Lowers ctx catalog statics (.expr e c)) (he : e.Resolved ctx.model scopes)
    (hknown : Reaches (ctx.names statics bounds) scopes known) : c.variables ⊆ known := by
  intro ident hident
  have hnamed : Outcome.Named ctx.model (ctx.names statics bounds) (.expr e c) := h.named
  obtain ⟨x, hx, entity, hentity, hname⟩ := exists_of_forall₂ hnamed hident
  refine hknown _ hname ?_
  obtain ⟨r, hr, rfl⟩ := Option.map_eq_some_iff.mp hentity
  cases r with
  | «local» id => exact he.mem_ids hx hr
  | capture => trivial
  | static => trivial

/-- The code of resolved statements is closed, and what they declare is in reach behind them. -/
theorem LowersStmt.closed {j : StmtJudgment} {code : List Stmt}
    (h : LowersStmt ctx catalog statics j code bounds)
    (hres : ResolvesStmt ctx.model scopes next j scopes' next')
    (hknown : Reaches (ctx.names statics bounds') scopes known) :
    Stmt.AllClosed known code ∧
      Reaches (ctx.names statics bounds') scopes' (Stmt.allDeclared code ++ known) := by
  induction h generalizing scopes scopes' next next' known with
  | declare hdeclares =>
    cases hres with
    | «let» _ hname =>
      cases hdeclares.referent.symm.trans hname
      exact ⟨⟨trivial, trivial⟩, hknown.declare hdeclares.ident fun x => ids_declare⟩
  | set hdeclares he =>
    cases hres with
    | «let» hvalue hname =>
      cases hdeclares.referent.symm.trans hname
      exact ⟨.singleton (he.variables_subset (hvalue _ rfl) hknown),
        hknown.declare hdeclares.ident fun x => ids_declare⟩
  | assign hplace hvalue =>
    cases hres with
    | assign hp hv =>
      exact ⟨.singleton ⟨hplace.variables_subset hp hknown, hvalue.variables_subset hv hknown⟩,
        hknown⟩
  | ifOnly hcondition _ ih =>
    cases hres with
    | ifOnly hc hb =>
      exact ⟨.singleton ⟨hcondition.variables_subset hc hknown, (ih hb hknown).1⟩, hknown⟩
  | ifElse hcondition _ _ ihBody ihOtherwise =>
    cases hres with
    | ifElse hc hb ho =>
      exact ⟨.singleton ⟨hcondition.variables_subset hc hknown, (ihBody hb hknown).1,
        (ihOtherwise ho hknown).1⟩, hknown⟩
  | «for» hdeclares hstart hstop _ _ ih =>
    cases hres with
    | «for» hl hh hname hb =>
      cases hdeclares.referent.symm.trans hname
      refine ⟨.singleton ⟨hstart.variables_subset hl hknown, ?_,
        (ih hb (hknown.counter hdeclares.ident)).1⟩, hknown⟩
      rw [Expr.variables_atLeast]
      exact List.Subset.trans (hstop.variables_subset hh hknown) (List.subset_cons_self _ _)
  | @hoisted _ _ _ _ _ _ _ _ _ bound _ _ _ _ hdeclares hstart hstop _ _ _ ih =>
    cases hres with
    | «for» hl hh hname hb =>
      cases hdeclares.referent.symm.trans hname
      have hbehind := hknown.mono (List.subset_cons_self bound known)
      refine ⟨⟨hstop.variables_subset hh hknown, .singleton ⟨hstart.variables_subset hl hbehind, ?_,
        (ih hb (hbehind.counter hdeclares.ident)).1⟩⟩, hbehind⟩
      intro ident hident
      rw [List.mem_singleton.mp hident]
      exact List.mem_cons_of_mem _ List.mem_cons_self
  | «while» hcondition _ ih =>
    cases hres with
    | «while» hc hb =>
      exact ⟨.singleton ⟨hcondition.variables_subset hc hknown, (ih hb hknown).1⟩, hknown⟩
  | loop _ ih =>
    cases hres with
    | loop hb => exact ⟨.singleton ⟨nofun, (ih hb hknown).1⟩, hknown⟩
  | jump =>
    cases hres
    exact ⟨.singleton trivial, hknown⟩
  | eval he =>
    cases hres with
    | eval hv => exact ⟨.singleton (he.variables_subset hv hknown), hknown⟩
  | nested _ ih =>
    cases hres with
    | nested hb => exact ⟨.singleton (ih hb hknown).1, hknown⟩
  | nil =>
    cases hres
    exact ⟨trivial, hknown⟩
  | cons _ _ ihFirst ihRest =>
    cases hres with
    | cons hst hsts =>
      obtain ⟨hfirst, hreach⟩ := ihFirst hst hknown
      obtain ⟨hrest, hreach'⟩ := ihRest hsts hreach
      refine ⟨hfirst.append hrest, hreach'.mono fun name hname => ?_⟩
      simp only [Stmt.allDeclared, List.flatMap_append, List.mem_append] at hname ⊢
      tauto
  | block _ ih =>
    cases hres with
    | block hsts =>
      have hinner : Reaches (ctx.names statics bounds') ([] :: scopes) known := hknown
      exact ⟨(ih hsts hinner).1, hknown.mono (List.subset_append_right _ _)⟩

end ComputeKernel.Shader
