import ComputeKernel.Shader.Lower.Statements
import ComputeKernel.Typing.Statements

/-!
Runs of the translation. A run that succeeds gives its value and its state to what comes behind it.
Each step adds to the statics that were met and names them as the pool does, and where the type table
has a name for the type of every local it reports nothing.
-/

namespace ComputeKernel

/-- Whether a type table has a name for each host type that a local can have. -/
def TypeTable.NamesLocals (table : TypeTable) : Prop :=
  ∀ host t, Ty.ofHost? host = some t → Check.isLocalType t → (table.shaderName? host).isSome

namespace Shader

/-- A static of the context under a name that some pool gave out for it. -/
def StaticUse.Named (ctx : Context) (u : StaticUse) : Prop :=
  ctx.statics[u.index]? = some u.decl ∧ ∃ pool : NamePool, u.name = (pool.allocate u.decl.name).1

/-- What a step of the translation does to the state. -/
structure Advances (ctx : Context) (s s' : Progress) : Prop where
  statics : s.statics <+: s'.statics
  named : (∀ u ∈ s.statics, u.Named ctx) → ∀ u ∈ s'.statics, u.Named ctx
  diagnostics : ctx.table.NamesLocals → s'.diagnostics = s.diagnostics

namespace Advances

variable {ctx : Context} {s s₁ s' : Progress}

theorem refl (s : Progress) : Advances ctx s s := ⟨List.prefix_refl _, id, fun _ => rfl⟩

theorem trans (h : Advances ctx s s₁) (h' : Advances ctx s₁ s') : Advances ctx s s' :=
  ⟨h.statics.trans h'.statics, fun hs => h'.named (h.named hs),
    fun htable => (h'.diagnostics htable).trans (h.diagnostics htable)⟩

end Advances

namespace Lower

variable {α β : Type}

/-- Whether a run from `s` succeeds and ends with what `Q` says. -/
def Yields (p : Lower α) (s : Progress) (Q : α → Progress → Prop) : Prop :=
  ∃ a s', p.run s = .ok (a, s') ∧ Q a s'

namespace Yields

variable {p : Lower α} {f : α → Lower β} {s : Progress}

theorem mono {Q R : α → Progress → Prop} (h : Yields p s Q) (hQR : ∀ a s', Q a s' → R a s') :
    Yields p s R := by
  obtain ⟨a, s', hrun, hQ⟩ := h
  exact ⟨a, s', hrun, hQR a s' hQ⟩

theorem pure {a : α} {Q : α → Progress → Prop} (h : Q a s) : Yields (Pure.pure a) s Q :=
  ⟨a, s, rfl, h⟩

theorem bind {R : β → Progress → Prop} (h : Yields p s fun a s' => Yields (f a) s' R) :
    Yields (p >>= f) s R := by
  obtain ⟨a, s', hrun, b, s'', hrest, hR⟩ := h
  refine ⟨b, s'', ?_, hR⟩
  rw [StateT.run_bind, hrun]
  exact hrest

theorem require {a : Option α} {v : α} {d : Defect} {Q : α → Progress → Prop} (ha : a = some v)
    (h : Q v s) : Yields (require d a) s Q := by
  subst ha
  exact .pure h

end Yields

/-! ### Names -/

/-- The identifier of a referent, once the statics of a body have been met. -/
inductive Identifies (ctx : Context) (statics : List StaticUse) : Referent → String → Prop where
  | local {id ident} : ctx.localNames[id]? = some ident →
      Identifies ctx statics (.local id) ident
  | capture {field ident} : ctx.captureNames[field]? = some ident →
      Identifies ctx statics (.capture field) ident
  | static {u} : statics.find? (fun v => v.index == u.index) = some u →
      Identifies ctx statics (.static u.index) u.name

theorem allocate_yields (base : String) (s : Progress) :
    Yields (allocate base) s fun name s' => name = (s.pool.allocate base).1 ∧
      s' = { s with pool := (s.pool.allocate base).2 } := ⟨_, _, rfl, rfl, rfl⟩

/-- A static that was met keeps its name. -/
theorem find?_of_extends {statics statics' : List StaticUse} (h : statics <+: statics')
    {p : StaticUse → Bool} {u : StaticUse} (hu : statics.find? p = some u) :
    statics'.find? p = some u := by
  obtain ⟨rest, rfl⟩ := h
  rw [List.find?_append, hu]
  rfl

/-- A static that was met keeps its name, and one that was not gets a name and counts as met. -/
theorem staticName_cases {ctx : Context} {index : Nat} {span : Span} {s s' : Progress} {name : String}
    (hrun : (staticName ctx index span).run s = .ok (name, s')) :
    (∃ u ∈ s.statics, u.index = index ∧ name = u.name ∧ s' = s) ∨
    (∀ u ∈ s.statics, u.index ≠ index) ∧ ∃ decl, ctx.statics[index]? = some decl ∧
      name = (s.pool.allocate decl.name).1 ∧ s' = { s with
        pool := (s.pool.allocate decl.name).2, statics := s.statics ++ [⟨index, decl, name⟩] } := by
  cases hfind : s.statics.find? fun u => u.index == index with
  | some u =>
    have hindex : u.index = index := by simpa using List.find?_some hfind
    simp only [staticName, StateT.run_bind, StateT.run_get, pure_bind, hfind] at hrun
    cases hrun
    exact .inl ⟨u, List.mem_of_find?_eq_some hfind, hindex, rfl, rfl⟩
  | none =>
    simp only [staticName, StateT.run_bind, StateT.run_get, pure_bind, hfind] at hrun
    refine .inr ⟨fun u hu => by simpa using List.find?_eq_none.mp hfind u hu, ?_⟩
    cases hdecl : ctx.statics[index]? with
    | none =>
      rw [hdecl] at hrun
      cases hrun
    | some decl =>
      rw [hdecl] at hrun
      cases hrun
      exact ⟨decl, rfl, rfl, rfl⟩

theorem staticName_yields {ctx : Context} {index : Nat} {decl : StaticDecl}
    (hdecl : ctx.statics[index]? = some decl) (span : Span) (s : Progress) :
    Yields (staticName ctx index span) s fun name s' => Advances ctx s s' ∧
      ∀ statics, s'.statics <+: statics → Identifies ctx statics (.static index) name := by
  cases hfind : s.statics.find? fun u => u.index == index with
  | some u =>
    have hindex : u.index = index := by simpa using List.find?_some hfind
    subst hindex
    refine ⟨u.name, s, ?_, .refl s, fun statics hgrows => ?_⟩
    · simp only [staticName, StateT.run_bind, StateT.run_get, pure_bind, hfind]
      rfl
    · exact .static (find?_of_extends hgrows hfind)
  | none =>
    let use : StaticUse := ⟨index, decl, (s.pool.allocate decl.name).1⟩
    refine ⟨use.name, { s with
      pool := (s.pool.allocate decl.name).2, statics := s.statics ++ [use] }, ?_,
      ⟨List.prefix_append _ _, fun hnamed u hu => ?_, fun _ => rfl⟩, fun statics hgrows => ?_⟩
    · simp only [staticName, StateT.run_bind, StateT.run_get, pure_bind, hfind, hdecl]
      rfl
    · rcases List.mem_append.mp hu with hu | hu
      · exact hnamed u hu
      · obtain rfl := List.mem_singleton.mp hu
        exact ⟨hdecl, s.pool, rfl⟩
    · refine Identifies.static (u := use) (find?_of_extends hgrows ?_)
      rw [List.find?_append, hfind]
      simp [use]

/-- Whether the referent is one of the locals, captures and statics of the context. -/
def Known (ctx : Context) : Referent → Prop
  | .local id => id < ctx.localNames.length
  | .capture field => field < ctx.captureNames.length
  | .static index => index < ctx.statics.length

theorem referentName_yields {ctx : Context} {span : Span} {r : Referent}
    (hr : ctx.model.referent? span = some r) (hknown : Known ctx r) (s : Progress) :
    Yields (referentName ctx span) s fun name s' => Advances ctx s s' ∧
      ∀ statics, s'.statics <+: statics → Identifies ctx statics r name := by
  unfold referentName
  rw [hr]
  cases r with
  | «local» id =>
    have hid := List.getElem?_eq_getElem hknown
    exact .require hid ⟨.refl s, fun _ _ => .local hid⟩
  | capture field =>
    have hfield := List.getElem?_eq_getElem hknown
    exact .require hfield ⟨.refl s, fun _ _ => .capture hfield⟩
  | static index => exact staticName_yields (List.getElem?_eq_getElem hknown) span s

/-! ### Types -/

/-- The name of a type in the shading language, or its makeshift. -/
def nameOf (ctx : Context) (type : HostType) : String :=
  (ctx.table.shaderName? type).getD type.base

theorem typeName_yields (ctx : Context) (type : HostType) {t : Ty} (htype : Ty.ofHost? type = some t)
    (ht : Check.isLocalType t) (span : Span) (s : Progress) :
    Yields (typeName ctx type span) s fun name s' => Advances ctx s s' ∧ name = nameOf ctx type := by
  unfold typeName nameOf
  cases hname : ctx.table.shaderName? type with
  | some name => exact .pure ⟨.refl s, rfl⟩
  | none =>
    refine ⟨type.base, _, rfl, ⟨List.prefix_refl _, id, fun htable => ?_⟩, rfl⟩
    have := htable type t htype ht
    rw [hname] at this
    cases this

theorem typeAt_yields {ctx : Context} {span : Span} {t : Ty} (ht : ctx.model.type? span = some t)
    {s : Progress} {Q : Ty → Progress → Prop} (h : Q t s) : Yields (typeAt ctx span) s Q :=
  .require ht h

theorem receiverAt_yields {ctx : Context} {span : Span} {t : Ty} {r : Receiver}
    (ht : ctx.model.type? span = some t) (hr : Receiver.of? t = some r) {s : Progress}
    {Q : Receiver → Progress → Prop} (h : Q r s) : Yields (receiverAt ctx span) s Q :=
  (typeAt_yields ht (.require hr h)).bind

/-! ### Rules -/

theorem apply_yields {receiver : Receiver} {member : Member} (rule : Rule) {text : String}
    {operands : List Expr} {c : Expr} (hrule : rule? receiver member = some rule)
    (hbuild : rule.form.build? text operands = some c) {s : Progress}
    {Q : Expr → Progress → Prop} (h : Q c s) : Yields (apply receiver member text operands) s Q :=
  (Yields.require hrule (Yields.require hbuild h)).bind

end Lower

end Shader

end ComputeKernel
