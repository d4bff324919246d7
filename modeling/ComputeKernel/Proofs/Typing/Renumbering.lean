import Mathlib.Logic.Equiv.Basic
import ComputeKernel.Proofs.Typing.Completeness
import ComputeKernel.Proofs.Typing.Resolution

/-!
Catalogs that list the same statics in different orders. What is checked with one of them is checked with
the other one in the same way, and the models differ in the numbers of the statics only.
-/

namespace ComputeKernel

/-! ### Numbers of the entries of a list -/

/-- The permutation that keeps the first number and permutes those behind it as `f` says. -/
def keepFirst (f : Equiv.Perm Nat) : Equiv.Perm Nat where
  toFun i := i.casesOn 0 fun i => f i + 1
  invFun i := i.casesOn 0 fun i => f.symm i + 1
  left_inv i := by
    cases i with
    | zero => rfl
    | succ i => exact congrArg (· + 1) (f.symm_apply_apply i)
  right_inv i := by
    cases i with
    | zero => rfl
    | succ i => exact congrArg (· + 1) (f.apply_symm_apply i)

/-- The entries of a list and of a permutation of it are in one-to-one correspondence. -/
theorem exists_equiv_of_perm {α : Type} {l l' : List α} (h : l.Perm l') :
    ∃ f : Equiv.Perm Nat, ∀ i, l'[f i]? = l[i]? := by
  induction h with
  | nil => exact ⟨.refl _, fun _ => rfl⟩
  | cons a _ ih =>
    obtain ⟨f, hf⟩ := ih
    refine ⟨keepFirst f, fun i => ?_⟩
    cases i with
    | zero => rfl
    | succ i => exact hf i
  | swap a b l =>
    refine ⟨.swap 0 1, fun i => ?_⟩
    rcases i with _ | _ | i
    · rfl
    · rfl
    · rw [Equiv.swap_apply_of_ne_of_ne (by omega) (by omega)]
      rfl
  | trans _ _ ih ih' =>
    obtain ⟨f, hf⟩ := ih
    obtain ⟨g, hg⟩ := ih'
    exact ⟨f.trans g, fun i => (hg (f i)).trans (hf i)⟩

/-- Whether a catalog has the fields of another one, and its statics where `f` says. -/
structure Catalog.Reorders (f : Equiv.Perm Nat) (catalog catalog' : Catalog) : Prop where
  fields : catalog'.fields = catalog.fields
  statics : ∀ i, catalog'.statics[f i]? = catalog.statics[i]?

theorem Catalog.exists_reorders (fields : List FieldDecl) {statics statics' : List StaticDecl}
    (h : statics.Perm statics') :
    ∃ f, Catalog.Reorders f ⟨fields, statics⟩ ⟨fields, statics'⟩ :=
  (exists_equiv_of_perm h).imp fun _ hf => ⟨rfl, hf⟩

/-- A path that only one static ends with names this static wherever it is listed. -/
theorem Catalog.Reorders.onlyStatic {f : Equiv.Perm Nat} {catalog catalog' : Catalog}
    (hr : catalog.Reorders f catalog') {path : Path} {index : Nat}
    (h : catalog.OnlyStatic path index) : catalog'.OnlyStatic path (f index) := by
  obtain ⟨⟨decl, hdecl, hends⟩, hunique⟩ := h
  refine ⟨⟨decl, (hr.statics index).trans hdecl, hends⟩, fun i decl' hdecl' hends' => ?_⟩
  have hi : catalog.statics[f.symm i]? = some decl' := by
    rw [← hr.statics, Equiv.apply_symm_apply, hdecl']
  rw [← hunique _ decl' hi hends', Equiv.apply_symm_apply]

/-! ### Models -/

def Referent.renumber (f : Nat → Nat) : Referent → Referent
  | .local id => .local id
  | .capture field => .capture field
  | .static index => .static (f index)

namespace SpanMap

variable {α β : Type}

def map (g : α → β) (m : SpanMap α) : SpanMap β := ⟨m.entries.map fun p => (p.1, g p.2)⟩

theorem get?_map (g : α → β) (m : SpanMap α) (s : Span) : (m.map g).get? s = (m.get? s).map g := by
  obtain ⟨entries⟩ := m
  show (entries.map fun p => (p.1, g p.2)).lookup s = (entries.lookup s).map g
  induction entries with
  | nil => rfl
  | cons p entries ih =>
    rw [List.map_cons, List.lookup_cons, List.lookup_cons, ih]
    split <;> rfl

end SpanMap

/-- A model with other numbers for the statics. -/
def Model.renumber (f : Nat → Nat) (m : Model) : Model :=
  { m with referents := m.referents.map (Referent.renumber f) }

theorem Model.referent?_renumber (f : Nat → Nat) (m : Model) (s : Span) :
    (m.renumber f).referent? s = (m.referent? s).map (Referent.renumber f) :=
  SpanMap.get?_map _ _ _

/-- A checking state with other numbers for the statics. -/
def Checking.renumber (f : Nat → Nat) (s : Checking) : Checking :=
  { s with model := s.model.renumber f }

theorem Checking.renumber_settle (f : Nat → Nat) (s : Checking) (t : Typed) (target : Ty) :
    (s.settle t target).renumber f = (s.renumber f).settle t target := by
  unfold settle
  cases t.origin <;> rfl

theorem Checking.renumber_declare (f : Nat → Nat) (s : Checking) (name : Name) (t : Ty)
    (mutable : Bool) (family : Option LiteralFamily) :
    (s.declare name t mutable family).renumber f =
      (s.renumber f).declare name t mutable family := rfl

namespace Check

open Checking (renumber_settle)

variable {f : Nat → Nat} {s s' : Checking}

/-! ### Operators and calls -/

theorem Unifies.renumber {a b t : Typed} (h : Unifies a b s t s') :
    Unifies a b (s.renumber f) t (s'.renumber f) := by
  cases h with
  | settled ha hb htype => exact .settled ha hb htype
  | left ha hb hfits => exact renumber_settle f s a _ ▸ .left ha hb hfits
  | right ha hb hfits => exact renumber_settle f s b _ ▸ .right ha hb hfits
  | «open» ha hb htype => exact .open ha hb htype

theorem Matches.renumber {v : ValueType} {other : Typed} (h : Matches v other s s') :
    Matches v other (s.renumber f) (s'.renumber f) := by
  unfold Matches at h ⊢
  split at h
  · rename_i haggregate
    obtain ⟨htype, rfl⟩ := h
    rw [if_pos haggregate]
    exact ⟨htype, rfl⟩
  · rename_i hscalar
    obtain ⟨hfits, rfl⟩ := h
    rw [if_neg hscalar]
    exact ⟨hfits, renumber_settle _ _ _ _⟩

theorem Operates.renumber {op : BinaryOp} {l r t : Typed} (h : Operates op l r s t s') :
    Operates op l r (s.renumber f) t (s'.renumber f) := by
  cases h with
  | logical hop hl hr => exact .logical hop hl hr
  | shift hop hshift hl hr hk hk' => exact .shift hop hshift hl hr hk hk'
  | comparison hop hshift hcomparison hl hr hunify hkind hhas =>
    exact .comparison hop hshift hcomparison hl hr hunify.renumber hkind hhas
  | scalar hop hshift hcomparison hl hr hunify hkind hhas =>
    exact .scalar hop hshift hcomparison hl hr hunify.renumber hkind hhas
  | aggregate hop hreceiver hmember hrule hmain hmatches hhas =>
    exact .aggregate hop hreceiver hmember hrule hmain hmatches.renumber hhas

theorem CoercesAll.renumber {type : Ty} {args : List Argument} (h : CoercesAll type args s s') :
    CoercesAll type args (s.renumber f) (s'.renumber f) := by
  induction h with
  | nil => exact .nil
  | cons hfits _ ih => exact .cons hfits (renumber_settle f .. ▸ ih)

theorem IntrinsicArguments.renumber {kind : ScalarKind} {common : ValueType} {args : List Argument}
    (h : IntrinsicArguments kind common args s s') :
    IntrinsicArguments kind common args (s.renumber f) (s'.renumber f) := by
  induction h with
  | nil => exact .nil
  | cons hfits _ ih => exact .cons hfits (renumber_settle f .. ▸ ih)

theorem IntrinsicResult.renumber {i : Shader.Intrinsic} {args : List Argument} {t : Ty}
    (h : IntrinsicResult i args s t s') : IntrinsicResult i args (s.renumber f) t (s'.renumber f) := by
  cases h with
  | operands hresult ha hkind hall => exact .operands hresult ha hkind hall.renumber
  | component hresult ha hkind hall => exact .component hresult ha hkind hall.renumber
  | bool hresult => exact .bool hresult
  | product hresult htwo ha hb hp => exact .product hresult htwo ha hb hp

theorem Supplies.renumber {built : ValueType} {args : List Argument} {count : UInt8}
    (h : Supplies built args s count s') :
    Supplies built args (s.renumber f) count (s'.renumber f) := by
  induction h with
  | nil => exact .nil
  | vector htype _ ih => exact .vector htype ih
  | scalar htype hfits _ ih => exact .scalar htype hfits (renumber_settle f .. ▸ ih)

theorem Calls.renumber {callee : Path} {args : List Argument} {t : Ty}
    (h : Calls callee args s t s') : Calls callee args (s.renumber f) t (s'.renumber f) := by
  cases h with
  | intrinsic howner hi hcount hvalues hresult =>
    exact .intrinsic howner hi hcount hvalues hresult.renumber
  | new howner hne hlast hv hscalar hsupplies =>
    exact .new howner hne hlast hv hscalar hsupplies.renumber
  | splat howner hne hlast hv hscalar hone hfits =>
    exact renumber_settle f .. ▸ .splat howner hne hlast hv hscalar hone hfits

theorem HasMethod.renumber {r : Typed} {member : Name} {args : List Argument} {t : Ty}
    (h : HasMethod r member args s t s') :
    HasMethod r member args (s.renumber f) t (s'.renumber f) := by
  cases h with
  | swizzle hr hnone hswizzle => exact .swizzle hr hnone hswizzle
  | element hr hnone hposition hrow hcolumn => exact .element hr hnone hposition hrow hcolumn
  | scalar hr hk hm hkind hcount hall =>
    exact .scalar hr hk hm hkind hcount (renumber_settle f .. ▸ hall.renumber)

theorem Selects.renumber {rows columns : Nat} {items : List Expr}
    (h : Selects rows columns items s s') :
    Selects rows columns items (s.renumber f) (s'.renumber f) := by
  induction h with
  | nil => exact .nil
  | cons hposition hrow hcolumn _ ih => exact .cons hposition hrow hcolumn ih

/-! ### Expressions -/

variable {f : Equiv.Perm Nat} {catalog catalog' : Catalog}

theorem NamesStatic.renumber (hr : catalog.Reorders f catalog') {path : Path} {index : Nat} {t : Ty}
    (h : NamesStatic catalog path index t) : NamesStatic catalog' path (f index) t := by
  obtain ⟨honly, decl, hdecl, htype⟩ := h
  exact ⟨onlyStatic_iff.mpr (hr.onlyStatic (onlyStatic_iff.mp honly)), decl,
    (hr.statics index).trans hdecl, htype⟩

theorem NamesCapture.renumber (hr : catalog.Reorders f catalog') {text : String} {index : Nat} {t : Ty}
    (h : NamesCapture catalog text index t) : NamesCapture catalog' text index t := by
  unfold NamesCapture
  rw [hr.fields]
  exact h

/-- An expression is found to have the same type where the statics are in another order. -/
theorem Checks.renumber (hr : catalog.Reorders f catalog') {j : Judgment}
    (h : Checks catalog s j s') : Checks catalog' (s.renumber f) j (s'.renumber f) := by
  induction h with
  | literal => exact .literal
  | «local» hfind hl => exact .local hfind hl
  | capture hnone hcapture => exact .capture hnone (hcapture.renumber hr)
  | static hnone hfield hstatic =>
    exact .static hnone (hr.fields ▸ hfield) (hstatic.renumber hr)
  | path howner hstatic => exact .path howner (hstatic.renumber hr)
  | unary _ hop ih => exact .unary ih hop
  | binary _ _ hop ihLeft ihRight => exact .binary ihLeft ihRight hop.renumber
  | cast _ hcasts ih => exact .cast ih hcasts
  | field _ hcomponent ih => exact .field ih hcomponent
  | method _ _ hmethod ih ihArgs => exact .method ih ihArgs hmethod.renumber
  | call _ hcall ihArgs => exact .call ihArgs hcall.renumber
  | element _ hnot _ hinteger helement ihBase ihIndex =>
    exact .element ihBase hnot ihIndex hinteger helement
  | swizzle _ hmatrix hlo hhi hselects ih => exact .swizzle ih hmatrix hlo hhi hselects.renumber
  | paren _ ih => exact .paren ih
  | choice _ hbool _ _ hunify ihCondition ihYes ihNo =>
    exact .choice ihCondition hbool ihYes ihNo hunify.renumber
  | nil => exact .nil
  | cons _ _ ihFirst ihRest => exact .cons ihFirst ihRest

/-! ### Statements -/

theorem nameAssignable_renumber {m : Model} {span : Span} :
    NameAssignable (m.renumber f) span ↔ NameAssignable m span := by
  unfold NameAssignable
  rw [Model.referent?_renumber]
  cases m.referent? span with
  | none => rfl
  | some r => cases r <;> rfl

theorem Assignable.renumber {m : Model} {place : Expr} (h : Assignable m place) :
    Assignable (m.renumber f) place := by
  induction h with
  | name hname => exact .name (nameAssignable_renumber.mpr hname)
  | element htype => exact .element htype
  | index hbuffer _ ih => exact .index hbuffer ih
  | field _ ih => exact .field ih
  | paren _ ih => exact .paren ih

theorem Agrees.renumber {target value : Typed} (h : Agrees target value s s') :
    Agrees target value (s.renumber f) (s'.renumber f) := by
  cases h with
  | value hfits => exact renumber_settle f .. ▸ .value hfits
  | target hnot hfits => exact renumber_settle f .. ▸ .target hnot hfits

theorem Assigns.renumber {target value : Typed} {op : Option BinaryOp}
    (h : Assigns target value s op s') : Assigns target value (s.renumber f) op (s'.renumber f) := by
  cases h with
  | plain hagrees => exact .plain hagrees.renumber
  | compound hop hfits => exact renumber_settle f .. ▸ .compound hop.renumber hfits

theorem ChecksStmt.renumber (hr : catalog.Reorders f catalog') {j : StmtJudgment}
    (h : ChecksStmt catalog s j s') : ChecksStmt catalog' (s.renumber f) j (s'.renumber f) := by
  induction h with
  | declare hdeclares => exact .declare hdeclares
  | @annotated _ _ _ _ _ _ t _ v he hdeclares hfits =>
    rw [Checking.renumber_declare, renumber_settle]
    exact .annotated (he.renumber hr) hdeclares hfits
  | inferred he hlocal => exact .inferred (he.renumber hr) hlocal
  | assign hplace hvalue hassignable hassigns =>
    exact .assign (hplace.renumber hr) (hvalue.renumber hr) hassignable.renumber hassigns.renumber
  | ifOnly hcondition hbool _ ih => exact .ifOnly (hcondition.renumber hr) hbool ih
  | ifElse hcondition hbool _ _ ihBody ihOtherwise =>
    exact .ifElse (hcondition.renumber hr) hbool ihBody ihOtherwise
  | «for» hstart hstop hunify hinteger _ ih =>
    exact .for (hstart.renumber hr) (hstop.renumber hr) hunify.renumber hinteger ih
  | «while» hcondition hbool _ ih => exact .while (hcondition.renumber hr) hbool ih
  | @loop s _ _ _ _ ih => exact .loop (s := s.renumber f) ih
  | jump hkind => exact .jump hkind
  | eval he => exact .eval (he.renumber hr)
  | nested _ ih => exact .nested ih
  | nil => exact .nil
  | cons _ _ ihFirst ihRest => exact .cons ihFirst ihRest
  | @block s _ _ _ _ ih => exact .block (s := s.renumber f) ih

theorem ChecksClosure.renumber (hr : catalog.Reorders f catalog') {c : Closure}
    (h : ChecksClosure catalog c s) : ChecksClosure catalog' c (s.renumber f) := by
  cases h with
  | mk htype hbody => exact .mk htype (hbody.renumber hr)

end Check

/-- A closure that is accepted is accepted with the statics in another order, and its models differ in the
numbers of the statics only. -/
theorem Closure.bind_of_reorders {f : Equiv.Perm Nat} {catalog catalog' : Catalog}
    (hr : catalog.Reorders f catalog') {c : Closure} {m : Model} (h : c.bind catalog = .ok m) :
    c.bind catalog' = .ok (m.renumber f) := by
  obtain ⟨s, hchecks, rfl⟩ := c.checks_of_bind h
  exact Closure.bind_eq_ok_iff.mpr ⟨s.renumber f, hchecks.renumber hr, rfl⟩

end ComputeKernel
