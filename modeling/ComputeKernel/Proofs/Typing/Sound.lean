import ComputeKernel.Proofs.Typing.Rules
import ComputeKernel.Proofs.Typing.Shape

/-!
Sound checking states. A name in scope is one of the locals, a local has the type of a value or is
the index of a thread, and what is open about a type is a scalar that literals can have. Every rule
keeps this; it is why a check that reports nothing finds a type.
-/

namespace ComputeKernel

/-- Whether what is open about a type is a scalar that literals can have. -/
def Ty.OpenTo (family : Option LiteralFamily) (t : Ty) : Prop :=
  ∀ f, family = some f → ∃ k, t = .scalar k ∧ f.accepts k

structure Typed.Sound (t : Typed) : Prop where
  shaped : t.type.Shaped
  openTo : t.type.OpenTo t.family
  origin : ∀ id, t.origin = some id → ∃ f, t.family = some f

structure Local.Sound (l : Local) : Prop where
  shaped : l.type.Shaped
  isLocal : Check.isLocalType l.type
  openTo : l.type.OpenTo l.family

structure Checking.Sound (s : Checking) : Prop where
  locals : ∀ l ∈ s.model.locals, l.Sound
  scopes : ∀ scope ∈ s.scopes, ∀ p ∈ scope, p.2 < s.model.locals.length

namespace Typed.Sound

theorem of_shaped {t : Ty} (h : t.Shaped) : Typed.Sound { type := t } := ⟨h, nofun, nofun⟩

theorem detached {t : Typed} (h : t.Sound) : t.detached.Sound := ⟨h.shaped, h.openTo, nofun⟩

end Typed.Sound

theorem Check.isLocalType_scalar (k : ScalarKind) : Check.isLocalType (.scalar k) := rfl

namespace Checking.Sound

variable {s : Checking}

theorem noteType (h : s.Sound) (span : Span) (t : Ty) : (s.noteType span t).Sound :=
  ⟨h.locals, h.scopes⟩

theorem noteReferent (h : s.Sound) (span : Span) (r : Referent) : (s.noteReferent span r).Sound :=
  ⟨h.locals, h.scopes⟩

/-- Settling gives a local a scalar type, or the type that it has. -/
theorem settle {t : Typed} {target : Ty} (h : s.Sound) (ht : t.Sound) (hfits : t.Fits target) :
    (s.settle t target).Sound := by
  unfold Checking.settle
  split
  · rename_i id hid
    obtain ⟨f, hf⟩ := ht.origin id hid
    obtain ⟨k, hk, _⟩ := ht.openTo f hf
    have htarget : ∃ k, target = .scalar k := by
      rcases hfits with heq | ⟨_, k', _, heq, _⟩
      · exact ⟨k, heq ▸ hk⟩
      · exact ⟨k', heq⟩
    obtain ⟨k', rfl⟩ := htarget
    refine ⟨fun l hl => ?_, fun scope hscope p hp => ?_⟩
    · obtain ⟨i, hi, rfl⟩ := List.getElem_of_mem hl
      simp only [List.getElem_modify]
      split
      · exact ⟨trivial, rfl, nofun⟩
      · exact h.locals _ (List.getElem_mem _)
    · simp only [List.length_modify]
      exact h.scopes scope hscope p hp
  · exact h

theorem declare {name : Name} {type : Ty} {mutable : Bool} {family : Option LiteralFamily}
    (h : s.Sound) (hshaped : type.Shaped) (hlocal : Check.isLocalType type)
    (hopen : type.OpenTo family) : (s.declare name type mutable family).Sound := by
  refine ⟨fun l hl => ?_, fun scope hscope p hp => ?_⟩
  · simp only [Checking.declare, List.mem_append, List.mem_singleton] at hl
    rcases hl with hl | rfl
    · exact h.locals l hl
    · exact ⟨hshaped, hlocal, hopen⟩
  · simp only [Checking.declare] at hscope
    simp only [Checking.declare, List.length_append, List.length_singleton]
    cases hscopes : s.scopes with
    | nil =>
      rw [hscopes] at hscope
      cases hscope
    | cons inner outer =>
      rw [hscopes] at hscope
      have hold := fun scope hscope => h.scopes scope (hscopes ▸ hscope)
      rcases List.mem_cons.mp hscope with rfl | hscope
      · rcases List.mem_cons.mp hp with rfl | hp
        · exact Nat.lt_succ_self _
        · exact Nat.lt_succ_of_lt (hold inner List.mem_cons_self p hp)
      · exact Nat.lt_succ_of_lt (hold scope (List.mem_cons_of_mem inner hscope) p hp)

theorem openScope (h : s.Sound) : s.openScope.Sound := by
  refine ⟨h.locals, fun scope hscope p hp => ?_⟩
  rcases List.mem_cons.mp hscope with rfl | hscope
  · cases hp
  · exact h.scopes scope hscope p hp

theorem closeScope (h : s.Sound) : s.closeScope.Sound :=
  ⟨h.locals, fun scope hscope => h.scopes scope (List.mem_of_mem_drop hscope)⟩

theorem enterLoop (h : s.Sound) : s.enterLoop.Sound := ⟨h.locals, h.scopes⟩

theorem leaveLoop (h : s.Sound) : s.leaveLoop.Sound := ⟨h.locals, h.scopes⟩

/-- A name in scope is a local. -/
theorem local_of_find? (h : s.Sound) {name : String} {id : Nat} (hid : s.find? name = some id) :
    ∃ l, s.model.local? id = some l ∧ l.Sound := by
  obtain ⟨scope, hscope, hlookup⟩ := List.exists_of_findSome?_eq_some hid
  have hmem : (name, id) ∈ scope := List.lookup_eq_some_iff.mp hlookup |> fun ⟨_, _, h, _⟩ => by
    simp [h]
  have hlt := h.scopes scope hscope _ hmem
  exact ⟨s.model.locals[id], List.getElem?_eq_getElem hlt, h.locals _ (List.getElem_mem _)⟩

end Checking.Sound

namespace Check

variable {s s' : Checking}

/-! ### Rules -/

theorem literal_sound (v : Literal) : (literal v).Sound := by
  cases v with
  | bool _ => exact .of_shaped trivial
  | integer digits suffix =>
    cases suffix with
    | none =>
      refine ⟨trivial, fun f hf => ?_, nofun⟩
      obtain rfl := Option.some.inj hf
      exact ⟨.int, rfl, rfl⟩
    | some s => exact .of_shaped trivial
  | float digits suffix =>
    cases suffix with
    | none =>
      refine ⟨trivial, fun f hf => ?_, nofun⟩
      obtain rfl := Option.some.inj hf
      exact ⟨.float, rfl, rfl⟩
    | some s => exact .of_shaped trivial

theorem useOf_sound {id : Nat} {l : Local} (h : l.Sound) : (useOf id l).Sound := by
  refine ⟨h.shaped, h.openTo, fun i hi => ?_⟩
  simp only [useOf, Option.map_eq_some_iff] at hi
  obtain ⟨f, hf, _⟩ := hi
  exact ⟨f, hf⟩

theorem Unifies.sound {a b t : Typed} (h : Unifies a b s t s') (hs : s.Sound) (ha : a.Sound)
    (hb : b.Sound) : t.Sound ∧ s'.Sound := by
  cases h with
  | settled _ _ _ => exact ⟨ha, hs⟩
  | left _ _ hfits => exact ⟨hb, hs.settle ha hfits⟩
  | right _ _ hfits => exact ⟨ha, hs.settle hb hfits⟩
  | «open» hf _ _ =>
    refine ⟨⟨ha.shaped, ?_, nofun⟩, hs⟩
    intro g hg
    exact ha.openTo g (hf.trans hg)

theorem Matches.sound {v : ValueType} {other : Typed} (h : Matches v other s s') (hs : s.Sound)
    (hother : other.Sound) : s'.Sound := by
  unfold Matches at h
  split at h
  · exact h.2 ▸ hs
  · exact h.2 ▸ hs.settle hother h.1

theorem Operates.sound {op : BinaryOp} {l r t : Typed} (h : Operates op l r s t s') (hs : s.Sound)
    (hl : l.Sound) (hr : r.Sound) : t.Sound ∧ s'.Sound := by
  cases h with
  | logical _ _ _ => exact ⟨.of_shaped trivial, hs⟩
  | shift _ _ _ _ _ _ => exact ⟨hl.detached, hs⟩
  | comparison _ _ _ _ _ hunify _ _ => exact ⟨.of_shaped trivial, (hunify.sound hs hl hr).2⟩
  | scalar _ _ _ _ _ hunify _ _ =>
    obtain ⟨hcommon, hs'⟩ := hunify.sound hs hl hr
    exact ⟨hcommon.detached, hs'⟩
  | aggregate _ _ _ _ hmain hmatches _ =>
    have hmainSound : (mainOperand l r).1.Sound ∧ (mainOperand l r).2.Sound := by
      unfold mainOperand
      split
      · exact ⟨hl, hr⟩
      · exact ⟨hr, hl⟩
    refine ⟨.of_shaped ?_, hmatches.sound hs hmainSound.2⟩
    have hshaped := hmainSound.1.shaped
    rw [hmain] at hshaped
    split
    · exact ValueType.Shaped.withKind hshaped .bool
    · exact hshaped

theorem CoercesAll.sound {type : Ty} {args : List Argument} (h : CoercesAll type args s s')
    (hs : s.Sound) (hargs : ∀ a ∈ args, a.typed.Sound) : s'.Sound := by
  induction h with
  | nil => exact hs
  | cons hfits _ ih =>
    rw [List.forall_mem_cons] at hargs
    exact ih (hs.settle hargs.1 hfits) hargs.2

theorem IntrinsicArguments.sound {kind : ScalarKind} {common : ValueType} {args : List Argument}
    (h : IntrinsicArguments kind common args s s') (hs : s.Sound)
    (hargs : ∀ a ∈ args, a.typed.Sound) : s'.Sound := by
  induction h with
  | nil => exact hs
  | cons hfits _ ih =>
    rw [List.forall_mem_cons] at hargs
    exact ih (hs.settle hargs.1 hfits) hargs.2

theorem commonShape_shaped {kind : ScalarKind} {args : List Argument}
    (hargs : ∀ a ∈ args, a.typed.Sound) : (commonShape kind args).Shaped := by
  unfold commonShape
  split
  · rename_i v hv
    obtain ⟨a, ha, hfilter⟩ := List.exists_of_findSome?_eq_some hv
    rw [Option.filter_eq_some_iff] at hfilter
    have hshaped := (hargs a ha).shaped
    cases htype : a.typed.type with
    | value w =>
      rw [htype] at hfilter hshaped
      obtain rfl := Option.some.inj hfilter.1
      exact ValueType.Shaped.withKind hshaped kind
    | _ => simp [htype, Ty.value?] at hfilter
  · trivial

theorem shaped_of_productType? {a b p : ValueType} (h : productType? a b = some p)
    (ha : a.Shaped) (hb : b.Shaped) : p.Shaped := by
  unfold productType? at h
  split at h
  · cases h
  split at h
  · obtain rfl := Option.some.inj h
    exact hb
  · obtain rfl := Option.some.inj h
    exact ha
  · split at h
    · obtain rfl := Option.some.inj h
      trivial
    · cases h
  · split at h
    · obtain rfl := Option.some.inj h
      exact ValueType.shaped_row hb.2.2.1 hb.2.2.2
    · cases h
  · split at h
    · obtain rfl := Option.some.inj h
      exact ValueType.shaped_row ha.1 ha.2.1
    · cases h
  · split at h
    · obtain rfl := Option.some.inj h
      exact ⟨ha.1, ha.2.1, hb.2.2.1, hb.2.2.2⟩
    · cases h

theorem IntrinsicResult.sound {i : Shader.Intrinsic} {args : List Argument} {t : Ty}
    (h : IntrinsicResult i args s t s') (hs : s.Sound) (hargs : ∀ a ∈ args, a.typed.Sound) :
    t.Shaped ∧ s'.Sound := by
  cases h with
  | operands _ _ _ hall => exact ⟨commonShape_shaped hargs, hall.sound hs hargs⟩
  | component _ _ _ hall => exact ⟨trivial, hall.sound hs hargs⟩
  | bool _ => exact ⟨trivial, hs⟩
  | product _ hpair ha hb hp =>
    subst hpair
    rw [List.forall_mem_cons, List.forall_mem_cons] at hargs
    have hshapedA := hargs.1.shaped
    have hshapedB := hargs.2.1.shaped
    rw [ha] at hshapedA
    rw [hb] at hshapedB
    exact ⟨shaped_of_productType? hp hshapedA hshapedB, hs⟩

theorem Supplies.sound {built : ValueType} {args : List Argument} {n : UInt8}
    (h : Supplies built args s n s') (hs : s.Sound) (hargs : ∀ a ∈ args, a.typed.Sound) :
    s'.Sound := by
  induction h with
  | nil => exact hs
  | vector _ _ ih => exact ih hs (List.forall_mem_cons.mp hargs).2
  | scalar _ hfits _ ih =>
    rw [List.forall_mem_cons] at hargs
    exact ih (hs.settle hargs.1 hfits) hargs.2

theorem Calls.sound {callee : Path} {args : List Argument} {t : Ty}
    (h : Calls callee args s t s') (hs : s.Sound) (hargs : ∀ a ∈ args, a.typed.Sound) :
    t.Shaped ∧ s'.Sound := by
  cases h with
  | intrinsic _ _ _ _ hresult => exact hresult.sound hs hargs
  | new _ _ _ hbuilt _ hsupplies =>
    exact ⟨Ty.shaped_of_ofHost? (t := .value _) hbuilt, hsupplies.sound hs hargs⟩
  | splat _ _ _ hbuilt _ hone hfits =>
    subst hone
    exact ⟨Ty.shaped_of_ofHost? (t := .value _) hbuilt,
      hs.settle (hargs _ (List.mem_singleton_self _)) hfits⟩

theorem HasMethod.sound {r : Typed} {member : Name} {args : List Argument} {t : Ty}
    (h : HasMethod r member args s t s') (hs : s.Sound) (hr : r.Sound)
    (hargs : ∀ a ∈ args, a.typed.Sound) : t.Shaped ∧ s'.Sound := by
  cases h with
  | swizzle _ _ hswizzle =>
    refine ⟨?_, hs⟩
    simp only [isSwizzle, Bool.and_eq_true, decide_eq_true_eq, String.length_toList] at hswizzle
    exact ⟨hswizzle.1.1, hswizzle.1.2⟩
  | element _ _ _ _ _ => exact ⟨trivial, hs⟩
  | scalar hk _ _ _ _ hall => exact ⟨trivial, hall.sound (hs.settle hr (Or.inl hk)) hargs⟩

theorem Selects.sound {rows columns : Nat} {items : List Expr}
    (h : Selects rows columns items s s') (hs : s.Sound) : s'.Sound := by
  induction h with
  | nil => exact hs
  | cons _ _ _ _ ih => exact ih (hs.noteType _ _)

theorem shaped_of_componentType? {t type : Ty} {name : String}
    (h : componentType? t name = some type) : type.Shaped := by
  unfold componentType? at h
  split at h
  · split at h
    · obtain rfl := Option.some.inj h
      trivial
    · cases h
  · split at h
    · obtain rfl := Option.some.inj h
      trivial
    · cases h
  · cases h

theorem shaped_of_elementType? {t type : Ty} (h : elementType? t = some type) (ht : t.Shaped) :
    type.Shaped := by
  unfold elementType? at h
  split at h
  · obtain rfl := Option.some.inj h
    exact ht
  · obtain rfl := Option.some.inj h
    trivial
  · obtain rfl := Option.some.inj h
    exact ValueType.shaped_row (k := _) ht.2.2.1 ht.2.2.2
  · cases h

theorem isLocalType_of_isInteger {t : Typed} (h : t.isInteger) : isLocalType t.type := by
  unfold Typed.isInteger Ty.isInteger at h
  split at h
  · rename_i htype
    rw [htype]
    rfl
  · cases h

theorem arguments_sound {es : List Expr} {ts : List Typed} (h : ∀ t ∈ ts, t.Sound) :
    ∀ a ∈ arguments es ts, a.typed.Sound := by
  intro a ha
  simp only [arguments, List.mem_map] at ha
  obtain ⟨p, hp, rfl⟩ := ha
  exact h _ (List.of_mem_zip hp).2

/-- What a judgment says of the types that it finds. -/
def Judgment.Sound : Judgment → Prop
  | .expr _ t => t.Sound
  | .args _ ts => ∀ t ∈ ts, t.Sound

/-- Every rule for expressions keeps the state sound and finds a sound type. -/
theorem Checks.sound {catalog : Catalog} {j : Judgment} (h : Checks catalog s j s')
    (hs : s.Sound) : j.Sound ∧ s'.Sound := by
  induction h with
  | literal => exact ⟨literal_sound _, hs.noteType _ _⟩
  | «local» hid hl =>
    obtain ⟨l', hl', hsound⟩ := hs.local_of_find? hid
    obtain rfl := Option.some.inj (hl.symm.trans hl')
    exact ⟨useOf_sound hsound, (hs.noteReferent _ _).noteType _ _⟩
  | capture _ hcapture =>
    obtain ⟨_, f, _, ht⟩ := hcapture
    exact ⟨.of_shaped (Ty.shaped_of_ofText? ht), (hs.noteReferent _ _).noteType _ _⟩
  | static _ _ hstatic | path _ hstatic =>
    obtain ⟨_, decl, _, ht⟩ := hstatic
    exact ⟨.of_shaped (Ty.shaped_of_ofText? ht), (hs.noteReferent _ _).noteType _ _⟩
  | unary _ _ ih =>
    obtain ⟨ht, hs'⟩ := ih hs
    exact ⟨ht.detached, hs'.noteType _ _⟩
  | binary _ _ hop ihLeft ihRight =>
    obtain ⟨hl, hs₁⟩ := ihLeft hs
    obtain ⟨hr, hs₂⟩ := ihRight hs₁
    obtain ⟨ht, hs'⟩ := hop.sound hs₂ hl hr
    exact ⟨ht, hs'.noteType _ _⟩
  | cast _ _ ih => exact ⟨.of_shaped trivial, (ih hs).2.noteType _ _⟩
  | field _ htype ih =>
    exact ⟨.of_shaped (shaped_of_componentType? htype), (ih hs).2.noteType _ _⟩
  | method _ _ hmethod ihReceiver ihArgs =>
    obtain ⟨hr, hs₁⟩ := ihReceiver hs
    obtain ⟨hts, hs₂⟩ := ihArgs hs₁
    obtain ⟨ht, hs'⟩ := hmethod.sound hs₂ hr (arguments_sound hts)
    exact ⟨.of_shaped ht, hs'.noteType _ _⟩
  | call _ hcall ihArgs =>
    obtain ⟨hts, hs₁⟩ := ihArgs hs
    obtain ⟨ht, hs'⟩ := hcall.sound hs₁ (arguments_sound hts)
    exact ⟨.of_shaped ht, hs'.noteType _ _⟩
  | element _ _ _ _ helement ihBase ihIndex =>
    obtain ⟨hb, hs₁⟩ := ihBase hs
    obtain ⟨_, hs'⟩ := ihIndex hs₁
    exact ⟨.of_shaped (shaped_of_elementType? helement hb.shaped), hs'.noteType _ _⟩
  | swizzle _ _ hlo hhi hselects ih =>
    have hs' := hselects.sound (ih hs).2
    exact ⟨.of_shaped ⟨hlo, hhi⟩, (hs'.noteType _ _).noteType _ _⟩
  | paren _ ih =>
    obtain ⟨ht, hs'⟩ := ih hs
    exact ⟨ht, hs'.noteType _ _⟩
  | choice _ _ _ _ hunify ihCondition ihYes ihNo =>
    obtain ⟨_, hs₁⟩ := ihCondition hs
    obtain ⟨hy, hs₂⟩ := ihYes hs₁
    obtain ⟨hn, hs₃⟩ := ihNo hs₂
    obtain ⟨ht, hs'⟩ := hunify.sound hs₃ hy hn
    exact ⟨ht, hs'.noteType _ _⟩
  | nil => exact ⟨nofun, hs⟩
  | cons _ _ ihFirst ihRest =>
    obtain ⟨ht, hs₁⟩ := ihFirst hs
    obtain ⟨hts, hs'⟩ := ihRest hs₁
    exact ⟨List.forall_mem_cons.mpr ⟨ht, hts⟩, hs'⟩

theorem Agrees.sound {target value : Typed} (h : Agrees target value s s') (hs : s.Sound)
    (htarget : target.Sound) (hvalue : value.Sound) : s'.Sound := by
  cases h with
  | value hfits => exact hs.settle hvalue hfits
  | target _ hfits => exact hs.settle htarget hfits

theorem Assigns.sound {target value : Typed} {op : Option BinaryOp} (h : Assigns target value s op s')
    (hs : s.Sound) (htarget : target.Sound) (hvalue : value.Sound) : s'.Sound := by
  cases h with
  | plain hagrees => exact hagrees.sound hs htarget hvalue
  | compound hop hfits =>
    obtain ⟨hresult, hs₁⟩ := hop.sound hs htarget hvalue
    exact hs₁.settle hresult hfits

/-- The body of a counting loop is checked in a sound state. -/
theorem sound_counted {catalog : Catalog} {s₁ s₂ s₃ : Checking} {start stop : Expr} {lo hi t : Typed}
    (hstart : Checks catalog s (.expr start lo) s₁) (hstop : Checks catalog s₁ (.expr stop hi) s₂)
    (hunify : Unifies lo hi s₂ t s₃) (hinteger : t.isInteger) (hs : s.Sound) (counter : Name) :
    t.Sound ∧ (s₃.openScope.declare counter t.type false t.family).enterLoop.Sound := by
  obtain ⟨hlo, hs₁⟩ := hstart.sound hs
  obtain ⟨hhi, hs₂⟩ := hstop.sound hs₁
  obtain ⟨ht, hs₃⟩ := hunify.sound hs₂ hlo hhi
  exact ⟨ht, (hs₃.openScope.declare ht.shaped (isLocalType_of_isInteger hinteger)
    ht.openTo).enterLoop⟩

/-- Every rule for statements keeps the state sound. -/
theorem ChecksStmt.sound {catalog : Catalog} {j : StmtJudgment} (h : ChecksStmt catalog s j s')
    (hs : s.Sound) : s'.Sound := by
  induction h with
  | declare hdeclares =>
    exact hs.declare (Ty.shaped_of_ofHost? hdeclares.1) hdeclares.2 nofun
  | annotated he hdeclares hfits =>
    obtain ⟨hv, hs₁⟩ := he.sound hs
    exact (hs₁.settle hv hfits).declare (Ty.shaped_of_ofHost? hdeclares.1) hdeclares.2 nofun
  | inferred he hlocal =>
    obtain ⟨hv, hs₁⟩ := he.sound hs
    exact hs₁.declare hv.shaped hlocal hv.openTo
  | assign hplace hvalue _ hassigns =>
    obtain ⟨htarget, hs₁⟩ := hplace.sound hs
    obtain ⟨hfound, hs₂⟩ := hvalue.sound hs₁
    exact hassigns.sound hs₂ htarget hfound
  | ifOnly hcondition _ _ ih => exact ih (hcondition.sound hs).2
  | ifElse hcondition _ _ _ ihBody ihOtherwise =>
    exact ihOtherwise (ihBody (hcondition.sound hs).2)
  | «for» hstart hstop hunify hinteger _ ih =>
    have hbody := ih (sound_counted hstart hstop hunify hinteger hs _).2
    exact hbody.leaveLoop.closeScope
  | «while» hcondition _ _ ih => exact (ih (hcondition.sound hs).2.enterLoop).leaveLoop
  | loop _ ih => exact (ih hs.enterLoop).leaveLoop
  | jump _ => exact hs
  | eval he => exact (he.sound hs).2
  | nested _ ih => exact ih hs
  | nil => exact hs
  | cons _ _ ihFirst ihRest => exact ihRest (ihFirst hs)
  | block _ ih => exact (ih hs.openScope).closeScope

theorem sound_initial (c : Closure) :
    ((({} : Checking).openScope).declare c.param .threadIds false none).Sound :=
  (Checking.Sound.openScope ⟨fun _ hl => (List.not_mem_nil hl).elim,
    fun _ hscope => (List.not_mem_nil hscope).elim⟩).declare trivial rfl nofun

theorem ChecksClosure.sound {catalog : Catalog} {c : Closure} (h : ChecksClosure catalog c s) :
    s.Sound := by
  cases h with
  | mk _ hbody => exact (hbody.sound (sound_initial c)).closeScope

end Check

end ComputeKernel
