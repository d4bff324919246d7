import ComputeKernel.Proofs.Spacing.Typing
import ComputeKernel.Proofs.Typing.Completeness
import ComputeKernel.Proofs.Typing.Places

/-!
Checks that differ in their ranges only, one rule at a time. What an expression is found to be depends
on the locals and the scopes, and on nothing that was noted on the way. So an expression that differs
from another in its ranges only has the same type in a state with the same locals and scopes, and it is
a place that can be assigned where the other one is.
-/

namespace ComputeKernel

/-- What a checking state says but for its notes: the locals without their ranges, the scopes and the
number of open loops. -/
structure Outline where
  locals : List Local
  scopes : List (List (String × Nat))
  loops : Nat

namespace Outline

def settle (o : Outline) (t : Typed) (target : Ty) : Outline :=
  match t.origin with
  | some id =>
    { o with locals := o.locals.modify id fun l => { l with type := target, family := none } }
  | none => o

def declare (o : Outline) (name : String) (type : Ty) (mutable : Bool)
    (family : Option LiteralFamily) : Outline :=
  { o with
    locals := o.locals ++ [{ name, type, mutable, span := ⟨0, 0⟩, family }]
    scopes := match o.scopes with
      | scope :: outer => ((name, o.locals.length) :: scope) :: outer
      | [] => [] }

end Outline

namespace Checking

variable {s u : Checking}

def outline (s : Checking) : Outline := ⟨s.model.locals.map Local.bare, s.scopes, s.loops⟩

@[simp] theorem outline_noteType (s : Checking) (span : Span) (t : Ty) :
    (s.noteType span t).outline = s.outline := rfl

@[simp] theorem outline_noteReferent (s : Checking) (span : Span) (r : Referent) :
    (s.noteReferent span r).outline = s.outline := rfl

@[simp] theorem outline_settle (s : Checking) (t : Typed) (target : Ty) :
    (s.settle t target).outline = s.outline.settle t target := by
  obtain ⟨type, family, origin⟩ := t
  cases origin with
  | none => rfl
  | some id =>
    simp only [outline, Checking.settle, Outline.settle, Outline.mk.injEq, and_true]
    apply List.ext_getElem?
    intro i
    simp only [List.getElem?_map, List.getElem?_modify]
    by_cases h : id = i
    · cases s.model.locals[i]? <;> simp [h, Local.bare]
    · simp [h]

@[simp] theorem outline_declare (s : Checking) (name : Name) (type : Ty) (mutable : Bool)
    (family : Option LiteralFamily) :
    (s.declare name type mutable family).outline =
      s.outline.declare name.text type mutable family := by
  cases h : s.scopes <;> simp [outline, Checking.declare, Outline.declare, Local.bare, h]

theorem find?_of_outline (h : s.outline = u.outline) (name : String) :
    s.find? name = u.find? name := by
  have hscopes : s.scopes = u.scopes := congrArg Outline.scopes h
  unfold find?
  rw [hscopes]

/-- A local is known in both states, as it is but for its range. -/
theorem local?_of_outline (h : s.outline = u.outline) {id : Nat} {l : Local}
    (hl : s.model.local? id = some l) : ∃ l', u.model.local? id = some l' ∧ l'.bare = l.bare := by
  have hlocals : s.model.locals.map Local.bare = u.model.locals.map Local.bare :=
    congrArg Outline.locals h
  have hbare := congrArg (fun ls : List Local => ls[id]?) hlocals
  simp only [List.getElem?_map] at hbare
  rw [show s.model.locals[id]? = some l from hl] at hbare
  exact Option.map_eq_some_iff.mp hbare.symm

end Checking

/-- The same settles in two states that differ in their notes only. -/
theorem Checking.settle_outline {s u : Checking} (h : s.outline = u.outline) (t : Typed)
    (target : Ty) : (s.settle t target).outline = (u.settle t target).outline := by
  rw [outline_settle, outline_settle, h]

namespace Check

variable {s s' u : Checking}

/-! ### Operators -/

theorem Unifies.carry {a b t : Typed} (h : Unifies a b s t s') (ho : s.outline = u.outline) :
    ∃ u', Unifies a b u t u' ∧ s'.outline = u'.outline := by
  cases h with
  | settled ha hb htype => exact ⟨u, .settled ha hb htype, ho⟩
  | left ha hb hfits => exact ⟨_, .left ha hb hfits, Checking.settle_outline ho _ _⟩
  | right ha hb hfits => exact ⟨_, .right ha hb hfits, Checking.settle_outline ho _ _⟩
  | «open» ha hb htype => exact ⟨u, .open ha hb htype, ho⟩

theorem Matches.carry {v : ValueType} {other : Typed} (h : Matches v other s s')
    (ho : s.outline = u.outline) : ∃ u', Matches v other u u' ∧ s'.outline = u'.outline := by
  unfold Matches at h ⊢
  by_cases haggregate : other.type.isAggregate
  · simp only [if_pos haggregate] at h ⊢
    obtain ⟨htype, rfl⟩ := h
    exact ⟨u, ⟨htype, rfl⟩, ho⟩
  · simp only [if_neg haggregate] at h ⊢
    obtain ⟨hfits, rfl⟩ := h
    exact ⟨_, ⟨hfits, rfl⟩, Checking.settle_outline ho _ _⟩

theorem Operates.carry {op : BinaryOp} {l r t : Typed} (h : Operates op l r s t s')
    (ho : s.outline = u.outline) : ∃ u', Operates op l r u t u' ∧ s'.outline = u'.outline := by
  cases h with
  | logical hop hl hr => exact ⟨u, .logical hop hl hr, ho⟩
  | shift hop hshift hl hr hk hk' => exact ⟨u, .shift hop hshift hl hr hk hk', ho⟩
  | comparison hop hshift hcomparison hl hr hunify hkind hhas =>
    obtain ⟨u', hunify', ho'⟩ := hunify.carry ho
    exact ⟨u', .comparison hop hshift hcomparison hl hr hunify' hkind hhas, ho'⟩
  | scalar hop hshift hcomparison hl hr hunify hkind hhas =>
    obtain ⟨u', hunify', ho'⟩ := hunify.carry ho
    exact ⟨u', .scalar hop hshift hcomparison hl hr hunify' hkind hhas, ho'⟩
  | aggregate hop hreceiver hmember hrule hmain hmatches hhas =>
    obtain ⟨u', hmatches', ho'⟩ := hmatches.carry ho
    exact ⟨u', .aggregate hop hreceiver hmember hrule hmain hmatches' hhas, ho'⟩

/-! ### Calls -/

variable {args args' : List Argument}

theorem CoercesAll.carry {type : Ty} (h : CoercesAll type args s s')
    (hargs : SameArguments args args') (ho : s.outline = u.outline) :
    ∃ u', CoercesAll type args' u u' ∧ s'.outline = u'.outline := by
  induction h generalizing args' u with
  | nil =>
    obtain rfl := List.map_eq_nil_iff.mp hargs.symm
    exact ⟨u, .nil, ho⟩
  | cons hfits _ ih =>
    obtain ⟨arg', rest', rfl, harg, hrest⟩ := List.map_eq_cons_iff.mp hargs.symm
    rw [← harg] at hfits ih
    obtain ⟨u', hrest', ho'⟩ := ih hrest.symm (Checking.settle_outline ho _ _)
    exact ⟨u', .cons hfits hrest', ho'⟩

theorem IntrinsicArguments.carry {kind : ScalarKind} {common : ValueType}
    (h : IntrinsicArguments kind common args s s') (hargs : SameArguments args args')
    (ho : s.outline = u.outline) :
    ∃ u', IntrinsicArguments kind common args' u u' ∧ s'.outline = u'.outline := by
  induction h generalizing args' u with
  | nil =>
    obtain rfl := List.map_eq_nil_iff.mp hargs.symm
    exact ⟨u, .nil, ho⟩
  | cons hfits _ ih =>
    obtain ⟨arg', rest', rfl, harg, hrest⟩ := List.map_eq_cons_iff.mp hargs.symm
    rw [← harg] at hfits ih
    obtain ⟨u', hrest', ho'⟩ := ih hrest.symm (Checking.settle_outline ho _ _)
    exact ⟨u', .cons hfits hrest', ho'⟩

theorem SameArguments.commonShape_eq (h : SameArguments args args') (kind : ScalarKind) :
    commonShape kind args = commonShape kind args' := by
  unfold commonShape
  rw [h.shape]

/-- The component type of the arguments of an intrinsic, taken from other arguments. -/
theorem SameArguments.exists_anchor (h : SameArguments args args') {a : Argument}
    {kind : ScalarKind} (ha : anchor? args = some a) (hkind : a.typed.type.kind? = some kind) :
    ∃ a', anchor? args' = some a' ∧ a'.typed.type.kind? = some kind := by
  have hanchor := h.anchor
  rw [show ((args.find? fun a => a.typed.family.isNone) <|> args.head?) = some a from ha,
    Option.bind_some, hkind] at hanchor
  exact Option.bind_eq_some_iff.mp hanchor.symm

theorem IntrinsicResult.carry {i : Shader.Intrinsic} {type : Ty}
    (h : IntrinsicResult i args s type s') (hargs : SameArguments args args')
    (ho : s.outline = u.outline) :
    ∃ u', IntrinsicResult i args' u type u' ∧ s'.outline = u'.outline := by
  cases h with
  | operands hresult ha hkind hall =>
    obtain ⟨a', ha', hkind'⟩ := hargs.exists_anchor ha hkind
    obtain ⟨u', hall', ho'⟩ := hall.carry hargs ho
    rw [hargs.commonShape_eq] at hall' ⊢
    exact ⟨u', .operands hresult ha' hkind' hall', ho'⟩
  | component hresult ha hkind hall =>
    obtain ⟨a', ha', hkind'⟩ := hargs.exists_anchor ha hkind
    obtain ⟨u', hall', ho'⟩ := hall.carry hargs ho
    rw [hargs.commonShape_eq] at hall' ⊢
    exact ⟨u', .component hresult ha' hkind' hall', ho'⟩
  | bool hresult => exact ⟨u, .bool hresult, ho⟩
  | product hresult htwo ha hb hp =>
    subst htwo
    obtain ⟨a', b', rfl, ha', hb'⟩ := hargs.pair
    rw [ha'] at ha
    rw [hb'] at hb
    exact ⟨u, .product hresult rfl ha hb hp, ho⟩

theorem Supplies.carry {built : ValueType} {count : UInt8} (h : Supplies built args s count s')
    (hargs : SameArguments args args') (ho : s.outline = u.outline) :
    ∃ u', Supplies built args' u count u' ∧ s'.outline = u'.outline := by
  induction h generalizing args' u with
  | nil =>
    obtain rfl := List.map_eq_nil_iff.mp hargs.symm
    exact ⟨u, .nil, ho⟩
  | vector htype _ ih =>
    obtain ⟨arg', rest', rfl, harg, hrest⟩ := List.map_eq_cons_iff.mp hargs.symm
    rw [← harg] at htype
    obtain ⟨u', hrest', ho'⟩ := ih hrest.symm ho
    exact ⟨u', .vector htype hrest', ho'⟩
  | scalar htype hfits _ ih =>
    obtain ⟨arg', rest', rfl, harg, hrest⟩ := List.map_eq_cons_iff.mp hargs.symm
    rw [← harg] at htype hfits ih
    obtain ⟨u', hrest', ho'⟩ := ih hrest.symm (Checking.settle_outline ho _ _)
    exact ⟨u', .scalar htype hfits hrest', ho'⟩

theorem Calls.carry {callee : Path} {type : Ty} (h : Calls callee args s type s')
    (hargs : SameArguments args args') (ho : s.outline = u.outline) :
    ∃ u', Calls callee args' u type u' ∧ s'.outline = u'.outline := by
  cases h with
  | intrinsic howner hi hcount hvalues hresult =>
    obtain ⟨u', hresult', ho'⟩ := hresult.carry hargs ho
    have hlength : args.length = args'.length := by simpa using congrArg List.length hargs
    have hvalues' : ∀ a ∈ args', a.typed.type.isValue := by
      intro a ha
      have hmem : a.typed ∈ args.map Argument.typed := by
        rw [hargs]
        exact List.mem_map_of_mem ha
      obtain ⟨b, hb, heq⟩ := List.mem_map.mp hmem
      rw [← heq]
      exact hvalues b hb
    exact ⟨u', .intrinsic howner hi (hlength ▸ hcount) hvalues' hresult', ho'⟩
  | new howner hne hlast hv hscalar hsupplies =>
    obtain ⟨u', hsupplies', ho'⟩ := hsupplies.carry hargs ho
    exact ⟨u', .new howner hne hlast hv hscalar hsupplies', ho'⟩
  | splat howner hne hlast hv hscalar hone hfits =>
    subst hone
    obtain ⟨arg', rfl, harg⟩ := hargs.single
    rw [harg] at hfits ⊢
    exact ⟨_, .splat howner hne hlast hv hscalar rfl hfits, Checking.settle_outline ho _ _⟩

theorem HasMethod.carry {r : Typed} {member member' : Name} {type : Ty}
    (h : HasMethod r member args s type s') (hmember : member.text = member'.text)
    (hargs : SameArguments args args') (ho : s.outline = u.outline) :
    ∃ u', HasMethod r member' args' u type u' ∧ s'.outline = u'.outline := by
  cases h with
  | swizzle hr hnone hswizzle =>
    subst hnone
    obtain rfl := List.map_eq_nil_iff.mp hargs.symm
    rw [hmember] at hswizzle ⊢
    exact ⟨u, .swizzle hr rfl hswizzle, ho⟩
  | element hr hnone hposition hrow hcolumn =>
    subst hnone
    obtain rfl := List.map_eq_nil_iff.mp hargs.symm
    rw [hmember] at hposition
    exact ⟨u, .element hr rfl hposition hrow hcolumn, ho⟩
  | scalar hr hk hm hkind hcount hall =>
    rw [hmember] at hm
    have hlength : args.length = args'.length := by simpa using congrArg List.length hargs
    obtain ⟨u', hall', ho'⟩ := hall.carry hargs (Checking.settle_outline ho _ _)
    exact ⟨u', .scalar hr hk hm hkind (hlength ▸ hcount) hall', ho'⟩

theorem Selects.carry {rows columns : Nat} {items items' : List Expr}
    (h : Selects rows columns items s s') (hitems : Expr.AllAlike items items')
    (ho : s.outline = u.outline) :
    ∃ u', Selects rows columns items' u u' ∧ s'.outline = u'.outline := by
  induction h generalizing items' u with
  | nil =>
    cases hitems
    exact ⟨u, .nil, ho⟩
  | cons hposition hrow hcolumn _ ih =>
    cases hitems with
    | moreExprs hitem hrest =>
      cases hitem with
      | @path _ span' _ _ =>
        obtain ⟨u', hrest', ho'⟩ := ih (u := u.noteType span' .matrixIndex) hrest ho
        exact ⟨u', .cons hposition hrow hcolumn hrest', ho'⟩

/-! ### Expressions -/

variable {catalog : Catalog} {m m' : Model} {e e' : Expr} {t : Typed}

/-- Whether a place can be assigned where another one can, in models in which the same locals are
mutable. -/
def AssignedAlike (e e' : Expr) (s u : Checking) : Prop :=
  ∀ m m', e.Kept s m → e'.Kept u m' → m.locals.map Local.mutable = m'.locals.map Local.mutable →
    Assignable m e → Assignable m' e'

/-- The notes for a name say whether it can be assigned. -/
theorem assignedAlike_name {span span' : Span} {text : String} {r : Referent} {t : Ty} :
    AssignedAlike (.name span text) (.name span' text)
      ((s.noteReferent span r).noteType span t) ((u.noteReferent span' r).noteType span' t) := by
  intro m m' hm hm' hlocals h
  cases h with
  | name hname =>
    have hr : m.referent? span = some r := Expr.Kept.referent?_noted hm
    have hr' : m'.referent? span' = some r := Expr.Kept.referent?_noted hm'
    refine .name ?_
    unfold NameAssignable at hname ⊢
    rw [hr] at hname
    rw [hr']
    cases r with
    | «local» id =>
      intro l' hl'
      have hmutable := congrArg (fun ms : List Bool => ms[id]?) hlocals
      simp only [List.getElem?_map] at hmutable
      rw [show m'.locals[id]? = some l' from hl'] at hmutable
      obtain ⟨l, hl, heq⟩ := Option.map_eq_some_iff.mp hmutable
      exact heq.symm.trans (hname l hl)
    | capture | static => exact hname

/-- An element can be assigned where the place that it is taken of has the same type and can be. -/
theorem assignable_index {span span' : Span} {base base' index index' : Expr}
    (h : Assignable m (.index span base index)) (htypes : m.type? base.span = m'.type? base'.span)
    (hbase : Assignable m base → Assignable m' base') :
    Assignable m' (.index span' base' index') := by
  cases h with
  | element hbuffer => exact .element (htypes ▸ hbuffer)
  | index hno hplace => exact .index (htypes ▸ hno) (hbase hplace)

/-- What a derivation for an expression says of the expressions that differ in their ranges only. -/
def Judgment.Carried (catalog : Catalog) (s s' : Checking) : Judgment → Prop
  | .expr e t => ∀ e' u, Expr.Alike e e' → s.outline = u.outline →
    ∃ u', Checks catalog u (.expr e' t) u' ∧ s'.outline = u'.outline ∧ AssignedAlike e e' s' u'
  | .args es ts => ∀ es' u, Expr.AllAlike es es' → s.outline = u.outline →
    ∃ u', Checks catalog u (.args es' ts) u' ∧ s'.outline = u'.outline

theorem sameArguments_of_alike {es es' : List Expr} (h : Expr.AllAlike es es') (ts : List Typed) :
    SameArguments (arguments es ts) (arguments es' ts) := by
  induction es generalizing es' ts with
  | nil =>
    cases h
    rfl
  | cons e es ih =>
    cases h with
    | moreExprs _ hes =>
      cases ts with
      | nil => rfl
      | cons t ts => exact congrArg (t :: ·) (ih hes ts)

theorem Checks.carried {j : Judgment} (h : Checks catalog s j s') : j.Carried catalog s s' := by
  induction h with
  | literal =>
    intro e' u he ho
    cases he with
    | literal _ => exact ⟨_, .literal, ho, fun _ _ _ _ _ h => nomatch h⟩
  | @«local» _ _ _ id l hfind hl =>
    intro e' u he ho
    cases he with
    | name _ =>
      obtain ⟨l', hl', hbare⟩ := Checking.local?_of_outline ho hl
      rw [Checking.find?_of_outline ho] at hfind
      have htype : l'.bare.type = l.bare.type := congrArg Local.type hbare
      have huse : useOf id l'.bare = useOf id l.bare := congrArg (useOf id) hbare
      rw [show useOf id l = useOf id l' from huse.symm, show l.type = l'.type from htype.symm]
      exact ⟨_, .local hfind hl', ho, assignedAlike_name⟩
  | capture hnone hcapture =>
    intro e' u he ho
    cases he with
    | name _ =>
      rw [Checking.find?_of_outline ho] at hnone
      exact ⟨_, .capture hnone hcapture, ho, assignedAlike_name⟩
  | static hnone hfield hstatic =>
    intro e' u he ho
    cases he with
    | name _ =>
      rw [Checking.find?_of_outline ho] at hnone
      exact ⟨_, .static hnone hfield hstatic, ho, assignedAlike_name⟩
  | path howner hstatic =>
    intro e' u he ho
    cases he with
    | path _ => exact ⟨_, .path howner hstatic, ho, fun _ _ _ _ _ h => nomatch h⟩
  | unary _ hop ih =>
    intro e' u he ho
    cases he with
    | unary _ he =>
      obtain ⟨u', h', ho', _⟩ := ih _ _ he ho
      exact ⟨_, .unary h' hop, ho', fun _ _ _ _ _ h => nomatch h⟩
  | binary _ _ hop ihl ihr =>
    intro e' u he ho
    cases he with
    | binary _ hl hr =>
      obtain ⟨u₁, hl', ho₁, _⟩ := ihl _ _ hl ho
      obtain ⟨u₂, hr', ho₂, _⟩ := ihr _ _ hr ho₁
      obtain ⟨u', hop', ho'⟩ := hop.carry ho₂
      exact ⟨_, .binary hl' hr' hop', ho', fun _ _ _ _ _ h => nomatch h⟩
  | cast _ hcasts ih =>
    intro e' u he ho
    cases he with
    | cast _ he htype =>
      obtain ⟨u', h', ho', _⟩ := ih _ _ he ho
      have hcasts' := hcasts
      unfold Casts at hcasts'
      rw [htype] at hcasts'
      exact ⟨_, .cast h' hcasts', ho', fun _ _ _ _ _ h => nomatch h⟩
  | field hreceiver htype ih =>
    intro e' u he ho
    cases he with
    | field _ he hmember =>
      obtain ⟨u', h', ho', hassigned⟩ := ih _ _ he ho
      rw [hmember] at htype
      refine ⟨_, .field h' htype, ho', fun m m' hm hm' hlocals h => ?_⟩
      cases h with
      | field hplace =>
        exact .field (hassigned m m' (Expr.Kept.field hm) (Expr.Kept.field hm') hlocals hplace)
  | method _ hargs hmethod ih ihargs =>
    intro e' u he ho
    cases he with
    | method _ he hmember hes =>
      obtain ⟨u₁, h', ho₁, _⟩ := ih _ _ he ho
      obtain ⟨u₂, hargs', ho₂⟩ := ihargs _ _ hes ho₁
      obtain ⟨u', hmethod', ho'⟩ :=
        hmethod.carry hmember (sameArguments_of_alike hes _) ho₂
      exact ⟨_, .method h' hargs' hmethod', ho', fun _ _ _ _ _ h => nomatch h⟩
  | call _ hcalls ih =>
    intro e' u he ho
    cases he with
    | call _ hes =>
      obtain ⟨u₁, hargs', ho₁⟩ := ih _ _ hes ho
      obtain ⟨u', hcalls', ho'⟩ := hcalls.carry (sameArguments_of_alike hes _) ho₁
      exact ⟨_, .call hargs' hcalls', ho', fun _ _ _ _ _ h => nomatch h⟩
  | element hbase hnot hindex hinteger htype ihbase ih =>
    intro e' u he ho
    cases he with
    | index _ hb hi =>
      obtain ⟨u₁, hbase', ho₁, hassigned⟩ := ihbase _ _ hb ho
      obtain ⟨u', hindex', ho', _⟩ := ih _ _ hi ho₁
      have hnot' := ((swizzleItems?_alike _ hi).resolve_right fun ⟨_, _, _, _, _, hsome, _⟩ =>
        nomatch hnot.symm.trans hsome).2
      refine ⟨_, .element hbase' hnot' hindex' hinteger htype, ho', fun m m' hm hm' hlocals h => ?_⟩
      obtain ⟨hkept, _⟩ := Expr.Kept.index hm hindex
      obtain ⟨hkept', _⟩ := Expr.Kept.index hm' hindex'
      exact assignable_index h ((hbase.type?_eq hkept).trans (hbase'.type?_eq hkept').symm)
        (hassigned m m' hkept hkept' hlocals)
  | swizzle hbase hmatrix hlo hhi hselects ih =>
    intro e' u he ho
    cases he with
    | index _ hb hi =>
      cases hi with
      | tuple _ hitems =>
        obtain ⟨u₁, hbase', ho₁, hassigned⟩ := ih _ _ hb ho
        obtain ⟨u', hselects', ho'⟩ := hselects.carry hitems ho₁
        have hlength := hitems.exprs_length
        rw [hlength] at hlo hhi ⊢
        refine ⟨_, .swizzle hbase' hmatrix hlo hhi hselects', ho', fun m m' hm hm' hlocals h => ?_⟩
        have hkept := Expr.Kept.swizzle hm hselects
        have hkept' := Expr.Kept.swizzle hm' hselects'
        exact assignable_index h ((hbase.type?_eq hkept).trans (hbase'.type?_eq hkept').symm)
          (hassigned m m' hkept hkept' hlocals)
  | paren _ ih =>
    intro e' u he ho
    cases he with
    | paren _ he =>
      obtain ⟨u', h', ho', hassigned⟩ := ih _ _ he ho
      refine ⟨_, .paren h', ho', fun m m' hm hm' hlocals h => ?_⟩
      cases h with
      | paren hplace =>
        exact .paren (hassigned m m' (Expr.Kept.paren hm) (Expr.Kept.paren hm') hlocals hplace)
  | choice _ hbool _ _ hunify ihc ihy ihn =>
    intro e' u he ho
    cases he with
    | choice _ hc hy hn =>
      obtain ⟨u₁, hc', ho₁, _⟩ := ihc _ _ hc ho
      obtain ⟨u₂, hy', ho₂, _⟩ := ihy _ _ hy ho₁
      obtain ⟨u₃, hn', ho₃, _⟩ := ihn _ _ hn ho₂
      obtain ⟨u', hunify', ho'⟩ := hunify.carry ho₃
      exact ⟨_, .choice hc' hbool hy' hn' hunify', ho', fun _ _ _ _ _ h => nomatch h⟩
  | nil =>
    intro es' u hes ho
    cases hes
    exact ⟨u, .nil, ho⟩
  | cons _ _ ih ihs =>
    intro es' u hes ho
    cases hes with
    | moreExprs he hrest =>
      obtain ⟨u₁, h', ho₁, _⟩ := ih _ _ he ho
      obtain ⟨u', hrest', ho'⟩ := ihs _ _ hrest ho₁
      exact ⟨u', .cons h' hrest', ho'⟩

end Check

end ComputeKernel
