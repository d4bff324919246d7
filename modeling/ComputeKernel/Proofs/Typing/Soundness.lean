import ComputeKernel.Proofs.Typing.Acceptance
import ComputeKernel.Proofs.Typing.WellTyped

/-!
Accepted closures are well typed. Statements are taken in the order of the text, together with the
environments between them; each is well typed against every model in which the locals end up as the
check leaves them behind, and the model of the closure is one.
-/

namespace ComputeKernel

namespace Check

open Checking
open Shader (Receiver)

variable {catalog : Catalog} {m : Model} {W : Leeway} {Γ Γ₁ Γ' : Env} {s s₁ s' : Checking}

/-! ### Environments -/

/-- Whether an environment describes what comes of a state that another one describes, and locals of
that state end up as those of this one do. -/
structure Env.Leads (Γ : Env) (s : Checking) (Γ' : Env) (s' : Checking) : Prop where
  describes : Γ'.Describes s'
  settled : ∀ {final}, Settled Γ'.opens s'.model.locals final → Settled Γ.opens s.model.locals final

namespace Env.Leads

theorem refl (h : Γ.Describes s) : Γ.Leads s Γ s := ⟨h, id⟩

theorem trans (h : Γ.Leads s Γ₁ s₁) (h' : Γ₁.Leads s₁ Γ' s') : Γ.Leads s Γ' s' :=
  ⟨h'.describes, fun hfinal => h.settled (h'.settled hfinal)⟩

theorem of_checks {j : Judgment} (h : Checks catalog s j s') (hΓ : Γ.Describes s) :
    Γ.Leads s Γ s' := by
  obtain ⟨_, hΓ', hevolves⟩ := h.describes hΓ
  exact ⟨hΓ', hevolves.settled⟩

theorem of_settling {ts : List Typed} (h : Settling ts s s') (hs' : s'.Sound) (hΓ : Γ.Describes s)
    (hts : ∀ t ∈ ts, t.Grounded Γ.opens) : Γ.Leads s Γ s' := by
  have hevolves := evolves_of_settling h hΓ.respected hts
  exact ⟨⟨hs', h.scopes_eq.trans hΓ.scopes_eq, hevolves.respected⟩, hevolves.settled⟩

theorem of_settle {t : Typed} {target : Ty} (hΓ : Γ.Describes s) (ht : t.Grounded Γ.opens)
    (hfits : t.Fits target) : Γ.Leads s Γ (s.settle t target) :=
  of_settling (.single (List.mem_singleton_self t) hfits) (hΓ.sound.settle ht.sound hfits) hΓ
    (List.forall_mem_singleton.mpr ht)

end Env.Leads

namespace Env.Describes

theorem openScope (h : Γ.Describes s) : Γ.openScope.Describes s.openScope :=
  ⟨h.sound.openScope, congrArg _ h.scopes_eq, h.respected⟩

theorem enterLoop (h : Γ.Describes s) : Γ.Describes s.enterLoop :=
  ⟨h.sound.enterLoop, h.scopes_eq, h.respected⟩

theorem leaveLoop (h : Γ.Describes s) : Γ.Describes s.leaveLoop :=
  ⟨h.sound.leaveLoop, h.scopes_eq, h.respected⟩

/-- Behind a block the scopes are those in front of it. -/
theorem leaveTo (h : Γ'.Describes s') (hscopes : s'.scopes.drop 1 = Γ.scopes) :
    (Γ'.leaveTo Γ).Describes s'.closeScope :=
  ⟨h.sound.closeScope, hscopes, h.respected⟩

end Env.Describes

theorem Respected.concat {opens : List (Option LiteralFamily)} {locals : List Local} {l : Local}
    {family : Option LiteralFamily} (h : Respected opens locals) (hl : l.Respects family) :
    Respected (opens ++ [family]) (locals ++ [l]) := by
  refine ⟨by simp [h.length_eq], fun {id l' family'} hl' hfamily => ?_⟩
  rcases Nat.lt_trichotomy id locals.length with hlt | rfl | hgt
  · rw [List.getElem?_append_left hlt] at hl'
    rw [List.getElem?_append_left (h.length_eq ▸ hlt)] at hfamily
    exact h.respects hl' hfamily
  · rw [List.getElem?_concat_length] at hl'
    rw [← h.length_eq, List.getElem?_concat_length] at hfamily
    obtain rfl := Option.some.inj hl'
    obtain rfl := Option.some.inj hfamily
    exact hl
  · rw [List.getElem?_eq_none (by simp; omega)] at hl'
    cases hl'

/-- What is said of the locals in front of a declaration is part of what is said behind it. -/
theorem Settled.of_concat {opens : List (Option LiteralFamily)} {locals final : List Local} {l : Local}
    {family : Option LiteralFamily} (h : Settled (opens ++ [family]) (locals ++ [l]) final) :
    Settled opens locals final := by
  intro id l' family' hl' hfamily
  obtain ⟨hlt, _⟩ := List.getElem?_eq_some_iff.mp hl'
  obtain ⟨hlt', _⟩ := List.getElem?_eq_some_iff.mp hfamily
  exact h id l' family' ((List.getElem?_append_left hlt).trans hl')
    ((List.getElem?_append_left hlt').trans hfamily)

section Declaration

variable {t : Ty} {family : Option LiteralFamily}

theorem Env.Describes.declare (h : Γ.Describes s) (name : Name) (mutable : Bool)
    (hshaped : t.Shaped) (hlocal : isLocalType t) (hopen : t.OpenTo family) :
    (Γ.declare name.text family).Describes (s.declare name t mutable family) := by
  refine ⟨h.sound.declare hshaped hlocal hopen, ?_, h.respected.concat ⟨hopen, fun _ hf => hf⟩⟩
  rw [scopes_declare, h.scopes_eq, ← h.respected.length_eq]
  rfl

theorem Env.Leads.declare (h : Γ.Leads s Γ₁ s₁) (name : Name) (mutable : Bool)
    (hshaped : t.Shaped) (hlocal : isLocalType t) (hopen : t.OpenTo family) :
    Γ.Leads s (Γ₁.declare name.text family) (s₁.declare name t mutable family) :=
  h.trans ⟨h.describes.declare name mutable hshaped hlocal hopen, Settled.of_concat⟩

/-- The type that a declared local ends up with. -/
theorem exists_introduces {name : Name} {mutable : Bool} (h : Γ.Describes s)
    (hm : Settled (Γ.declare name.text family).opens (s.declare name t mutable family).model.locals
      m.locals) :
    ∃ t', Introduces m Γ t' ∧ t'.OpenTo family ∧ (family = none → t' = t) := by
  have hopens : (Γ.declare name.text family).opens[Γ.opens.length]? = some family :=
    List.getElem?_concat_length ..
  have hlocals : (s.declare name t mutable family).model.locals[Γ.opens.length]? =
      some ⟨name.text, t, mutable, name.span, family⟩ := by
    rw [h.respected.length_eq]
    exact List.getElem?_concat_length ..
  obtain ⟨l', hl', hopen, htype⟩ := hm _ _ _ hlocals hopens
  exact ⟨l'.type, ⟨l', hl', rfl⟩, hopen, htype⟩

/-- A settled local that is declared rests on its type, as it ends with it. -/
theorem Rested.declare {name : Name} {mutable : Bool} (h : Rested m W s) (hΓ : Γ.Describes s)
    (hm : Settled (Γ.declare name.text none).opens (s.declare name t mutable none).model.locals
      m.locals) : Rested m W (s.declare name t mutable none) := by
  intro id l hl hfamily
  rcases Nat.lt_trichotomy id s.model.locals.length with hlt | rfl | hgt
  · exact h id l ((List.getElem?_append_left hlt).symm.trans hl) hfamily
  · obtain ⟨t', ⟨l', hl', rfl⟩, _, htype⟩ := exists_introduces hΓ hm
    obtain rfl := Option.some.inj ((List.getElem?_concat_length ..).symm.trans hl)
    exact .inl ⟨l', hΓ.respected.length_eq ▸ hl', htype rfl⟩
  · have hnone : (s.declare name t mutable none).model.local? id = none :=
      List.getElem?_eq_none (by rw [length_locals_declare]; omega)
    cases hnone.symm.trans hl

/-- What is said of the locals behind a declaration holds in front of it. -/
theorem Rested.of_declare {name : Name} {mutable : Bool}
    (h : Rested m W (s.declare name t mutable family)) : Rested m W s := by
  intro id l hl
  exact h id l ((List.getElem?_append_left (List.getElem?_eq_some_iff.mp hl).1).trans hl)

/-- A local that is set from a value has a type that the value fits. -/
theorem fits_of_openTo {v : Typed} {t' : Ty} (hopen : t'.OpenTo v.family)
    (htype : v.family = none → t' = v.type) : v.Fits t' := by
  cases hfamily : v.family with
  | none => exact .inl (htype hfamily).symm
  | some f =>
    obtain ⟨k, hk, haccepts⟩ := hopen f hfamily
    exact .inr ⟨f, k, hfamily, hk, haccepts⟩

end Declaration

/-! ### Statements -/

/-- A vector or a matrix is an operand of every operator on them. -/
theorem not_isScalar_of_ofOperands? {L R : Ty} {receiver : Receiver} {v : ValueType}
    (h : Receiver.ofOperands? L R = some receiver)
    (horder : L = .value v ∧ (R = .value v ∨ R = .scalar v.kind) ∨ L = .scalar v.kind ∧ R = .value v) :
    ¬ v.isScalar := by
  cases v with
  | scalar k =>
    rcases horder with ⟨rfl, rfl | rfl⟩ | ⟨rfl, rfl⟩ <;> cases h
  | vector | matrix => exact nofun

/-- An operator that gives an open type has it from its left operand. -/
theorem Combines.left_eq {op : BinaryOp} {t : Typed} {L R : Ty} (h : Combines op L R t.type)
    (ht : t.Sound) (hL : t.Fits L) : L = t.type := by
  rcases hL with hL | ⟨f, k, hf, rfl, haccepts⟩
  · exact hL.symm
  obtain ⟨k₀, hk₀, haccepts₀⟩ := ht.openTo f hf
  generalize t.type = T at h hk₀ ⊢
  cases h with
  | logical | shift | scalar => rfl
  | comparison =>
    obtain rfl : ScalarKind.bool = k₀ := by simpa using hk₀
    exact absurd rfl (ne_bool_of_accepts haccepts₀)
  | @aggregate _ _ _ _ v _ hreceiver _ _ horder =>
    have hscalar : ¬ v.isScalar := not_isScalar_of_ofOperands? hreceiver horder
    cases v with
    | scalar => exact absurd rfl hscalar
    | vector | matrix => split at hk₀ <;> cases hk₀

theorem LiteralFamily.eq_of_accepts {f g : LiteralFamily} {k : ScalarKind} (hf : f.accepts k)
    (hg : g.accepts k) : f = g := by
  cases f <;> cases g <;> cases k <;>
    first | rfl | exact absurd hf (by decide) | exact absurd hg (by decide)

/-- Of two open values of which one settles on the type of the other, that one settles on its type. -/
theorem closed_of_not_fits {target value : Typed} (htarget : target.Sound) (hvalue : value.Sound)
    (hnot : ¬ value.Fits target.type) (hfits : target.Fits value.type) : value.family = none := by
  refine Option.eq_none_iff_forall_ne_some.mpr fun g hg => hnot ?_
  rcases hfits with heq | ⟨f, k, hf, hk, haccepts⟩
  · exact .inl heq.symm
  · obtain ⟨k₀, hk₀, haccepts₀⟩ := htarget.openTo f hf
    obtain ⟨k', hk', haccepts'⟩ := hvalue.openTo g hg
    obtain rfl : k' = k := by simpa using hk'.symm.trans hk
    obtain rfl := LiteralFamily.eq_of_accepts haccepts haccepts'
    exact .inr ⟨f, k₀, hg, hk₀, haccepts₀⟩

/-- An assignment goes between values of one type, which a compound one has behind its operator. -/
theorem Assigns.wellTyped {opens : List (Option LiteralFamily)} {op : Option BinaryOp} {span : Span}
    {s₀ : Checking} {place value : Expr} {target found : Typed} (h : Assigns target found s op s')
    (hs : s.Sound) (hr : Respected opens s.model.locals)
    (hplace : Holds catalog m W Γ place target) (hvalue : Holds catalog m W Γ value found)
    (htarget : target.Grounded opens) (hfound : found.Grounded opens)
    (hwithin : Applied.Within m W ⟨.assign op (.of s₀ place target) (.of s₀ value found), s'⟩) :
    WellTyped catalog m W Γ (.stmt (.assign span op place value)) Γ := by
  obtain ⟨hcopies, hs'⟩ := hwithin
  cases h with
  | plain hagrees =>
    cases hagrees with
    | value hfits =>
      rw [copies_assign (.of s₀ place target) (.of s₀ value found) hfits] at hcopies
      have hcopied : Copied W place target := copied_of_use hcopies
      exact .assign (hplace.of_copied hcopied (.inl rfl))
        (hvalue.hasType _ (suits_of_settle _ hs' hr hfound hfits))
    | target hnot hfits =>
      have hclosed := closed_of_not_fits htarget.sound hfound.sound hnot hfits
      exact .assign (hplace.hasType _ (suits_of_settle _ hs' hr htarget hfits))
        (hvalue.of_closed_value hfound.sound hclosed)
  | @compound _ result s₁ hop hfits =>
    have hs₁ : Rested m W s₁ := hop.settle_eq s₁ target.type ▸ hs'
    have hbinary : (Operation.binary _ (.of s₀ place target) (.of s₀ value found)).copies ⊆ W.copies :=
      hcopies
    obtain ⟨L, R, hL, hR, hcombines⟩ :=
      hop.combines hs hr htarget hfound hbinary hs₁ hvalue.exists_suits hfits
    obtain rfl := hcombines.left_eq htarget.sound hL.fits
    exact .compound (hplace.hasType _ hL) (hvalue.hasType _ hR) hcombines

/-- What is checked in an environment is well typed, and leaves behind an environment of the locals
and scopes that the check comes to. -/
theorem ChecksStmt.wellTyped {j : StmtJudgment} (h : ChecksStmt catalog s j s')
    (hΓ : Γ.Describes s) : ∃ Γ', Γ.Leads s Γ' s' ∧ ∀ (m : Model) (W : Leeway),
      Settled Γ'.opens s'.model.locals m.locals → Rested m W s →
        (∀ x ∈ j.steps catalog s, x.Within m W) → WellTyped catalog m W Γ j Γ' ∧ Rested m W s' := by
  induction h generalizing Γ with
  | declare hdeclares =>
    have hshaped := Ty.shaped_of_ofHost? hdeclares.1
    refine ⟨_, (Env.Leads.refl hΓ).declare _ _ hshaped hdeclares.2 nofun, fun m W hm hs _ => ?_⟩
    obtain ⟨t', hintroduces, _, htype⟩ := exists_introduces hΓ hm
    obtain rfl := htype rfl
    exact ⟨.declare hdeclares hintroduces, hs.declare hΓ hm⟩
  | annotated he hdeclares hfits =>
    have hshaped := Ty.shaped_of_ofHost? hdeclares.1
    obtain ⟨hgrounded, _, _⟩ := he.describes hΓ
    have hfirst := Env.Leads.of_checks he hΓ
    have hsecond := Env.Leads.of_settle hfirst.describes hgrounded hfits
    refine ⟨_, (hfirst.trans hsecond).declare _ _ hshaped hdeclares.2 nofun, fun m W hm hs hP => ?_⟩
    obtain ⟨hPe, _, hs'⟩ :=
      forall_annotated he hdeclares (.annotated he hdeclares hfits) hΓ.sound hP
    obtain ⟨t', hintroduces, _, htype⟩ := exists_introduces hsecond.describes hm
    obtain rfl := htype rfl
    obtain ⟨hvalue, _⟩ := he.holds hΓ (hsecond.settled (Settled.of_concat hm)) hs hPe
    have hr := hfirst.describes.respected
    exact ⟨.annotated hdeclares
      (hvalue.hasType _ (suits_of_settle _ hs'.of_declare hr hgrounded hfits)) hintroduces, hs'⟩
  | inferred he hlocal =>
    obtain ⟨hgrounded, _, _⟩ := he.describes hΓ
    have hfirst := Env.Leads.of_checks he hΓ
    have hsound := hgrounded.sound
    refine ⟨_, hfirst.declare _ _ hsound.shaped hlocal hsound.openTo, fun m W hm hs hP => ?_⟩
    obtain ⟨hPe, hcopies, hs'⟩ := forall_inferred he (.inferred he hlocal) hΓ.sound hP
    obtain ⟨t', hintroduces, hopen, htype⟩ := exists_introduces hfirst.describes hm
    have hfits := fits_of_openTo hopen htype
    obtain ⟨hvalue, _⟩ := he.holds hΓ (Settled.of_concat hm) hs hPe
    have hcopied := copied_of_use hcopies
    refine ⟨.inferred (hvalue.of_copied hcopied hfits) ?_ hopen
      (fun f hf => hvalue.staysOpen f hf hcopied) hintroduces, hs'⟩
    rcases hfits with rfl | ⟨_, k, _, rfl, _⟩
    · exact hlocal
    · exact isLocalType_scalar k
  | assign hplace hvalue hassignable hassigns =>
    obtain ⟨hgt, _, _⟩ := hplace.describes hΓ
    have hfirst := Env.Leads.of_checks hplace hΓ
    obtain ⟨hgv, _, _⟩ := hvalue.describes hfirst.describes
    have hsecond := Env.Leads.of_checks hvalue hfirst.describes
    have hthird := Env.Leads.of_settling hassigns.settling
      (hassigns.sound hsecond.describes.sound hgt.sound hgv.sound) hsecond.describes
      (List.forall_mem_cons.mpr ⟨hgt, List.forall_mem_singleton.mpr hgv⟩)
    refine ⟨Γ, (hfirst.trans hsecond).trans hthird, fun m W hm hs hP => ?_⟩
    obtain ⟨hPp, hPv, hwithin⟩ := forall_assign hplace hvalue
      (.assign hplace hvalue hassignable hassigns) hΓ.sound hP
    have hm₂ := hthird.settled hm
    obtain ⟨hp, hs₁⟩ := hplace.holds hΓ (hsecond.settled hm₂) hs hPp
    obtain ⟨hv, _⟩ := hvalue.holds hfirst.describes hm₂ hs₁ hPv
    exact ⟨hassigns.wellTyped hsecond.describes.sound hsecond.describes.respected hp hv hgt hgv hwithin,
      hwithin.2⟩
  | ifOnly hcondition hbool hbody ih =>
    obtain ⟨hgc, _, _⟩ := hcondition.describes hΓ
    have hfirst := Env.Leads.of_checks hcondition hΓ
    obtain ⟨Γ', hleads, htyped⟩ := ih hfirst.describes
    refine ⟨Γ', hfirst.trans hleads, fun m W hm hs hP => ?_⟩
    obtain ⟨hPc, hPb, _⟩ := forall_if hcondition hbool hbody hΓ.sound hP
    obtain ⟨hc, hs₁⟩ := hcondition.holds hΓ (hleads.settled hm) hs hPc
    exact (htyped m W hm hs₁ hPb).imp_left (.ifOnly (hc.of_bool hgc.sound hbool))
  | ifElse hcondition hbool hbody _ ihBody ihOtherwise =>
    obtain ⟨hgc, _, _⟩ := hcondition.describes hΓ
    have hfirst := Env.Leads.of_checks hcondition hΓ
    obtain ⟨Γ₁, hleads, hbodyTyped⟩ := ihBody hfirst.describes
    obtain ⟨Γ', hotherwise, htyped⟩ := ihOtherwise hleads.describes
    refine ⟨Γ', (hfirst.trans hleads).trans hotherwise, fun m W hm hs hP => ?_⟩
    obtain ⟨hPc, hPb, hPo⟩ := forall_if hcondition hbool hbody hΓ.sound hP
    have hm₂ := hotherwise.settled hm
    obtain ⟨hc, hs₁⟩ := hcondition.holds hΓ (hleads.settled hm₂) hs hPc
    obtain ⟨hb, hs₂⟩ := hbodyTyped m W hm₂ hs₁ hPb
    exact (htyped m W hm hs₂ hPo).imp_left (.ifElse (hc.of_bool hgc.sound hbool) hb)
  | @«for» _ _ _ _ _ _ counter _ _ _ _ _ _ _ hstart hstop hunify hinteger hbody ih =>
    obtain ⟨hgl, _, _⟩ := hstart.describes hΓ
    have hfirst := Env.Leads.of_checks hstart hΓ
    obtain ⟨hgh, _, _⟩ := hstop.describes hfirst.describes
    have hsecond := Env.Leads.of_checks hstop hfirst.describes
    obtain ⟨ht, hs₃⟩ := hunify.sound hsecond.describes.sound hgl.sound hgh.sound
    have hthird := Env.Leads.of_settling hunify.settling hs₃ hsecond.describes
      (List.forall_mem_cons.mpr ⟨hgl, List.forall_mem_singleton.mpr hgh⟩)
    have hopened := hthird.describes.openScope
    have hentered := (Env.Leads.refl hopened).declare counter false ht.shaped
      (isLocalType_of_isInteger hinteger) ht.openTo
    obtain ⟨Γ', hloop, htyped⟩ := ih hentered.describes.enterLoop
    have hscopes := congrArg (List.drop 1)
      ((hbody.restores : _ = _).trans hentered.describes.enterLoop.scopes_eq)
    refine ⟨Γ'.leaveTo Γ, ⟨hloop.describes.leaveLoop.leaveTo hscopes, fun hfinal =>
      hfirst.settled (hsecond.settled (hthird.settled (hentered.settled (hloop.settled hfinal))))⟩,
      fun m W hm hs hP => ?_⟩
    obtain ⟨hPl, hPh, ⟨hcopies, hs₄⟩, hPb⟩ :=
      forall_for hstart hstop hunify hinteger hΓ.sound hP
    have hm₄ := hloop.settled hm
    have hm₂ := hthird.settled (hentered.settled hm₄)
    obtain ⟨t', hintroduces, hopen, htype⟩ := exists_introduces hopened hm₄
    have hfits := fits_of_openTo hopen htype
    obtain ⟨hl, hs₁⟩ := hstart.holds hΓ (hsecond.settled hm₂) hs hPl
    obtain ⟨hh, _⟩ := hstop.holds hfirst.describes hm₂ hs₁ hPh
    have hcounted : Rested m W _ := Rested.of_declare (s := Checking.openScope _) hs₄
    obtain ⟨hsl, hsh⟩ :=
      hunify.suits hsecond.describes.respected hgl hgh hcopies hcounted hfits
    refine (htyped m W hm hs₄ hPb).imp_left (.for (hl.hasType _ hsl) (hh.hasType _ hsh)
      (isInteger_of_fits ht hinteger hfits) hopen (fun f hf => ?_) hintroduces)
    obtain ⟨hfl, hfh⟩ := hunify.family hf
    obtain ⟨hcl, hch⟩ := copied_of_copiesOf hcopies (by simp [hfl]) (by simp [hfh])
    exact ⟨hl.staysOpen f hfl hcl, hh.staysOpen f hfh hch⟩
  | «while» hcondition hbool _ ih =>
    obtain ⟨hgc, _, _⟩ := hcondition.describes hΓ
    have hfirst := Env.Leads.of_checks hcondition hΓ
    obtain ⟨Γ', hbody, htyped⟩ := ih hfirst.describes.enterLoop
    refine ⟨Γ', hfirst.trans ⟨hbody.describes.leaveLoop, hbody.settled⟩, fun m W hm hs hP => ?_⟩
    obtain ⟨hPc, hPb⟩ := forall_while hcondition hbool hΓ.sound hP
    obtain ⟨hc, hs₁⟩ := hcondition.holds hΓ (hbody.settled hm) hs hPc
    exact (htyped m W hm hs₁ hPb).imp_left (.while (hc.of_bool hgc.sound hbool))
  | loop _ ih =>
    obtain ⟨Γ', hbody, htyped⟩ := ih hΓ.enterLoop
    exact ⟨Γ', ⟨hbody.describes.leaveLoop, hbody.settled⟩, fun m W hm hs hP =>
      (htyped m W hm hs hP).imp_left .loop⟩
  | jump _ => exact ⟨Γ, .refl hΓ, fun _ _ _ hs _ => ⟨.jump, hs⟩⟩
  | eval he =>
    refine ⟨Γ, .of_checks he hΓ, fun m W hm hs hP => ?_⟩
    obtain ⟨hvalue, hs'⟩ := he.holds hΓ hm hs hP
    obtain ⟨T, hT⟩ := hvalue.exists_suits
    exact ⟨.eval (hvalue.hasType T hT), hs'⟩
  | nested _ ih =>
    obtain ⟨Γ', hbody, htyped⟩ := ih hΓ
    exact ⟨Γ', hbody, fun m W hm hs hP => (htyped m W hm hs hP).imp_left .nested⟩
  | nil => exact ⟨Γ, .refl hΓ, fun _ _ _ hs _ => ⟨.nil, hs⟩⟩
  | cons hfirst _ ihFirst ihRest =>
    obtain ⟨Γ₁, hleads, hfirstTyped⟩ := ihFirst hΓ
    obtain ⟨Γ', hrest, htyped⟩ := ihRest hleads.describes
    refine ⟨Γ', hleads.trans hrest, fun m W hm hs hP => ?_⟩
    obtain ⟨hPf, hPr⟩ := forall_stmts hfirst hΓ.sound hP
    obtain ⟨hst, hs₁⟩ := hfirstTyped m W (hrest.settled hm) hs hPf
    exact (htyped m W hm hs₁ hPr).imp_left (.cons hst)
  | block hstmts ih =>
    obtain ⟨Γ', hbody, htyped⟩ := ih hΓ.openScope
    have hscopes := (hstmts.restores : _ = _).trans (congrArg (List.drop 1) hΓ.openScope.scopes_eq)
    exact ⟨Γ'.leaveTo Γ, ⟨hbody.describes.leaveTo hscopes, hbody.settled⟩, fun m W hm hs hP =>
      (htyped m W hm hs hP).imp_left .block⟩

end Check

open Check in
/-- What the operations of a closure copy and settle is within the leeway of the closure. -/
theorem Closure.within_leeway (c : Closure) (catalog : Catalog) (m : Model) :
    ∀ step ∈ c.steps catalog, step.Within m (c.leeway catalog m) := by
  refine fun step hstep => ⟨fun _ hspan => List.mem_flatMap.mpr ⟨step, hstep, hspan⟩,
    fun id l hl hfamily => ?_⟩
  by_cases hfinal : ∃ final, m.local? id = some final ∧ final.type = l.type
  · exact .inl hfinal
  · exact .inr ⟨step, hstep, l, hl, hfamily, rfl, fun final hm htype => hfinal ⟨final, hm, htype⟩⟩

open Check in
/-- Accepted closures are well typed. -/
theorem Closure.wellTyped_of_bind {c : Closure} {catalog : Catalog} {m : Model}
    (h : c.bind catalog = .ok m) : c.WellTyped catalog m := by
  obtain ⟨s, hchecks, rfl⟩ := c.checks_of_bind h
  cases hchecks with
  | @mk s hparam hbody =>
    have hempty : Env.Describes {} ({} : Checking) := ⟨⟨nofun, nofun⟩, rfl, ⟨rfl, nofun⟩⟩
    have hstart := (Env.Leads.refl hempty.openScope).declare (t := .threadIds) c.param false
      trivial rfl (nofun : Ty.OpenTo none _)
    obtain ⟨Γ, hleads, htyped⟩ := hbody.wellTyped hstart.describes
    have hm := hleads.describes.respected.settled
    obtain ⟨t', ⟨l, hl, rfl⟩, _, htype⟩ := exists_introduces hempty.openScope (hleads.settled hm)
    have hnone : Rested s.model (c.leeway catalog s.model) ({} : Checking).openScope :=
      fun _ _ hl => nomatch hl
    have hwithin := c.within_leeway catalog s.model
    rw [c.steps_eq hparam] at hwithin
    obtain ⟨hbody, _⟩ := htyped s.model _ hm (hnone.declare hempty.openScope (hleads.settled hm)) hwithin
    exact ⟨hparam, ⟨l, hl, htype rfl⟩, Γ, hbody, hleads.describes.respected.length_eq⟩

/-- A kernel in which literals and locals without a type of their own get one where they are used. -/
def blend : String :=
  "|ids| \x7b let mut n = 0; let half = 0.5; for i in 0..count \x7b if i > n \x7b n = i; \x7d \x7d "
    ++ "let v = -offset * half; let w = if n == 3 \x7b v.x \x7d else \x7b 1.0 \x7d; "
    ++ "o[ids.x] += Hlsl::max(0.0, w) * (n as f32).sqrt(); \x7d"

def blendCatalog : Catalog :=
  { fields := [⟨"count", "u32", false⟩, ⟨"offset", "Float4", false⟩,
      ⟨"o", "ReadWriteBuffer<f32>", false⟩] }

/-- Each of its locals is settled where it is used, so no copy is taken of an open one. -/
theorem Closure.wellTyped_of_bind_blend :
    ∃ c m, Closure.parse blend = .ok c ∧ c.bind blendCatalog = .ok m ∧
      (c.leeway blendCatalog m).copies = [] ∧ c.WellTyped blendCatalog m := by
  have hrun : ((Closure.parse blend).toOption.any fun c => (c.bind blendCatalog).isOk &&
      ((c.steps blendCatalog).flatMap fun step => step.operation.copies).isEmpty) = true := by
    decide +kernel
  obtain ⟨c, hc, hfacts⟩ := (Option.any_eq_true _ _).mp hrun
  obtain ⟨hbound, hcopies⟩ := Bool.and_eq_true_iff.mp hfacts
  obtain ⟨m, hm⟩ := exists_of_isOk hbound
  exact ⟨c, m, eq_ok_of_toOption hc, hm, List.isEmpty_iff.mp hcopies, c.wellTyped_of_bind hm⟩

/-! ### Types that do not agree -/

/-- A kernel that negates an unsigned matrix. -/
def flip : Closure :=
  ⟨⟨"ids", ⟨1, 4⟩⟩, none, ⟨⟨6, 21⟩, [.let ⟨8, 19⟩ false ⟨"a", ⟨12, 13⟩⟩ none
    (some (.unary ⟨16, 18⟩ .neg (.name ⟨17, 18⟩ "t")))]⟩⟩

def flipCatalog : Catalog := { fields := [⟨"t", "UInt2x2", false⟩] }

/-- A kernel that sets one local from another, and gives only the copy a type. -/
def copy : Closure :=
  ⟨⟨"ids", ⟨1, 4⟩⟩, none, ⟨⟨6, 47⟩,
    [.let ⟨8, 18⟩ false ⟨"x", ⟨12, 13⟩⟩ none (some (.literal ⟨16, 17⟩ (.integer "1" none))),
      .let ⟨19, 29⟩ false ⟨"y", ⟨23, 24⟩⟩ none (some (.name ⟨27, 28⟩ "x")),
      .let ⟨30, 45⟩ false ⟨"z", ⟨34, 35⟩⟩ (some ⟨.named "u32", ⟨37, 40⟩⟩)
        (some (.name ⟨43, 44⟩ "y"))]⟩⟩

open Check in
/-- In every typing of an accepted kernel unary minus is applied to an unsigned matrix; and in the model
of another one a local of type `i32` is what a local of type `u32` is set from. -/
theorem Closure.negates_unsigned_flip :
    (∃ m, Closure.parse "|ids| \x7b let a = -t; \x7d" = .ok flip ∧ flip.bind flipCatalog = .ok m ∧
      ∀ (W : Leeway) (Γ : Env), Γ.scopes.find? "t" = none → ∀ T,
        HasType flipCatalog m W Γ (.name ⟨17, 18⟩ "t") T → T = .value (.matrix .uint 2 2)) ∧
    ∃ m, Closure.parse "|ids| \x7b let x = 1; let y = x; let z: u32 = y; \x7d" = .ok copy ∧
      copy.bind {} = .ok m ∧
      m.locals.map (fun l => (l.name, l.type)) =
        [("ids", .threadIds), ("x", .scalar .int), ("y", .scalar .uint), ("z", .scalar .uint)] := by
  constructor
  · obtain ⟨m, hm⟩ := exists_of_isOk (x := flip.bind flipCatalog) (by decide +kernel)
    refine ⟨m, rfl, hm, fun W Γ hΓ T hT => ?_⟩
    have hfields : (flipCatalog.fields.findIdx? fun f => f.name == "t") = some 0 := by decide +kernel
    have htype : Ty.ofText? "UInt2x2" = some (.value (.matrix .uint 2 2)) := by decide +kernel
    cases hT with
    | «local» hfind | copied hfind | relapsed hfind => cases hΓ.symm.trans hfind
    | static _ hnone => cases hfields.symm.trans hnone
    | capture _ hcapture =>
      obtain ⟨hindex, f, hf, hT⟩ := hcapture
      obtain rfl := Option.some.inj (hfields.symm.trans hindex)
      obtain rfl : ⟨"t", "UInt2x2", false⟩ = f := Option.some.inj hf
      exact Option.some.inj (hT.symm.trans htype)
  · have hrun : ((copy.bind {}).toOption.map fun m => m.locals.map fun l => (l.name, l.type)) =
        some [("ids", .threadIds), ("x", .scalar .int), ("y", .scalar .uint), ("z", .scalar .uint)] := by
      decide +kernel
    obtain ⟨m, hm, hlocals⟩ := Option.map_eq_some_iff.mp hrun
    exact ⟨m, rfl, eq_ok_of_toOption hm, hlocals⟩

end ComputeKernel
