import ComputeKernel.Proofs.Typing.Following
import ComputeKernel.Proofs.Typing.Naming
import ComputeKernel.Proofs.Shader.Statements

/-!
Closures with the final types of their locals written out. The check of such a closure follows that of
the closure without the annotations, statement by statement, as long as the locals that were open where
they were read end with the types that the values made of them meet; so it is bound as well, to a model
with the same locals.
-/

namespace ComputeKernel

open Checking Check

variable {catalog : Catalog} {m : Model} {s s₁ s' v v' : Checking} {T : Ty} {t u : Typed}

/-! ### Final types -/

/-- Whether each local ends up in a model with a type that it can have in the end. -/
def Checking.Ends (s : Checking) (m : Model) : Prop :=
  ∀ id l, s.model.local? id = some l →
    ∃ final, m.local? id = some final ∧ (useOf id l).Fits final.type

namespace Checking

theorem Follows.ends (h : s.Follows m v) : s.Ends m := by
  intro id l hl
  obtain ⟨final, _, hfinal, _, hfits, _⟩ := h.locals hl
  exact ⟨final, hfinal, hfits⟩

/-- A sound check ends with its own locals. -/
theorem ends_self (s : Checking) : s.Ends s.model := fun _ l hl => ⟨l, hl, .inl rfl⟩

/-- A value that settles a local for good settles it on the final type. -/
theorem Ends.eq_of_settle {target : Ty} (h : (s.settle t target).Ends m) (ht : t.Narrows m v T u)
    {id : Nat} {l : Local} (hid : t.origin = some id) (hl : s.model.local? id = some l) :
    target = T := by
  obtain ⟨final, hfinal, hfits⟩ := h _ _ (local?_settle_of_origin hl hid)
  obtain ⟨l', hl', rfl⟩ := ht.origin id hid
  obtain rfl := Option.some.inj (hfinal.symm.trans hl')
  exact (eq_of_fits hfits rfl).symm

/-- The final type of the local that a check declares last. -/
theorem Ends.exists_declared {name : Name} {type : Ty} {mutable : Bool}
    {family : Option LiteralFamily} (h : (s.declare name type mutable family).Ends m) :
    ∃ final, m.local? s.model.locals.length = some final ∧
      Typed.Fits { type, family } final.type := by
  obtain ⟨final, hfinal, hfits⟩ := h _ _ (List.getElem?_concat_length ..)
  exact ⟨final, hfinal, hfits⟩

/-- An environment for the locals of a state as they are. -/
def env (s : Checking) : Env := ⟨s.scopes, s.model.locals.map Local.family⟩

theorem family?_env {id : Nat} {l : Local} (hl : s.model.local? id = some l) :
    s.env.opens[id]? = some l.family :=
  (List.getElem?_map ..).trans (congrArg (Option.map Local.family) hl)

theorem describes_env (h : s.Sound) : s.env.Describes s := by
  refine ⟨h, rfl, List.length_map _, fun {id l family} hl hfamily => ?_⟩
  obtain rfl := Option.some.inj ((family?_env hl).symm.trans hfamily)
  exact ⟨(h.locals l (List.mem_of_getElem? hl)).openTo, fun _ hf => hf⟩

theorem Ends.settled {Γ : Env} (h : s.Ends m) (hΓ : Γ.Describes s) :
    Settled Γ.opens s.model.locals m.locals := by
  intro id l family hl hfamily
  obtain ⟨final, hfinal, hfits⟩ := h id l hl
  have hsound : (useOf id l).Sound := useOf_sound (hΓ.sound.locals l (List.mem_of_getElem? hl))
  obtain ⟨hopen, hrespects⟩ := hΓ.respected.respects hl hfamily
  have hclosed (hnone : l.family = none) : final.type = l.type :=
    eq_of_fits (t := useOf id l) hfits hnone
  refine ⟨final, hfinal, fun f hf => ?_, fun hnone => hclosed ?_⟩
  · cases hlf : l.family with
    | none => exact hclosed hlf ▸ hopen f hf
    | some g =>
      obtain rfl := Option.some.inj (hf.symm.trans (hrespects g hlf))
      exact openTo_of_fits hsound hfits f hlf
  · exact Option.eq_none_iff_forall_ne_some.mpr fun f hf =>
      nomatch hnone.symm.trans (hrespects f hf)

theorem ends_of_settled (h : Settled s.env.opens s.model.locals m.locals) : s.Ends m := by
  intro id l hl
  obtain ⟨final, hfinal, hopen, htype⟩ := h id l l.family hl (family?_env hl)
  exact ⟨final, hfinal, fits_of_openTo (v := useOf id l) hopen htype⟩

end Checking

/-- What locals end up with in the end was in store for them before. -/
theorem Check.ChecksStmt.ends {j : StmtJudgment} (h : ChecksStmt catalog s j s') (hs : s.Sound)
    (hends : s'.Ends m) : s.Ends m := by
  obtain ⟨_, hleads, _⟩ := h.wellTyped (describes_env hs)
  exact ends_of_settled (hleads.settled (hends.settled hleads.describes))

/-! ### Declarations -/

namespace Checking.Follows

variable (h : Follows m s v)

include h

theorem openScope : Follows m s.openScope v.openScope :=
  ⟨h.sound.openScope, congrArg (List.cons []) h.scopes, h.loops, h.referents, h.types, h.length_eq,
    h.locals⟩

theorem closeScope : Follows m s.closeScope v.closeScope :=
  ⟨h.sound.closeScope, congrArg (List.drop 1) h.scopes, h.loops, h.referents, h.types, h.length_eq,
    h.locals⟩

theorem enterLoop : Follows m s.enterLoop v.enterLoop :=
  ⟨h.sound.enterLoop, h.scopes, congrArg (· + 1) h.loops, h.referents, h.types, h.length_eq, h.locals⟩

theorem leaveLoop : Follows m s.leaveLoop v.leaveLoop :=
  ⟨h.sound.leaveLoop, h.scopes, congrArg (· - 1) h.loops, h.referents, h.types, h.length_eq, h.locals⟩

/-- The locals of the second check are those of the first one. -/
theorem exists_local {id : Nat} {l' : Local} (hl' : v.model.local? id = some l') :
    ∃ l final, s.model.local? id = some l ∧ m.local? id = some final ∧ l.Narrows final.type l' := by
  have hlt : id < s.model.locals.length := h.length_eq ▸ (List.getElem?_eq_some_iff.mp hl').1
  obtain ⟨final, l₀, hfinal, hl₀, _, hnarrows⟩ := h.locals (List.getElem?_eq_getElem hlt)
  obtain rfl := Option.some.inj (hl'.symm.trans hl₀)
  exact ⟨_, final, List.getElem?_eq_getElem hlt, hfinal, hnarrows⟩

/-- A local that can be assigned is settled in the second check. -/
theorem shut_of_mutable {id : Nat} {l' : Local} (hl' : v.model.local? id = some l')
    (hmutable : l'.mutable) : l'.family = none := by
  obtain ⟨_, _, _, _, rfl | ⟨rfl, hnot⟩⟩ := h.exists_local hl'
  · rfl
  · exact (hnot hmutable).elim

/-- A local that both checks declare. The second one may declare it with its final type, and must, if
it can be assigned. -/
theorem declare (name : Name) {type type' : Ty} {mutable : Bool}
    {family family' : Option LiteralFamily} {final : Local} (hshaped : type.Shaped)
    (hlocal : isLocalType type) (hopen : type.OpenTo family)
    (hfinal : m.local? s.model.locals.length = some final)
    (hfits : Typed.Fits { type, family } final.type)
    (heq : type' = final.type ∧ family' = none ∨ (type' = type ∧ family' = family) ∧ ¬ mutable) :
    Follows m (s.declare name type mutable family) (v.declare name type' mutable family') := by
  refine ⟨h.sound.declare hshaped hlocal hopen, ?_, h.loops, fun x => ?_, h.types, ?_,
    fun {id l} hl => ?_⟩
  · rw [scopes_declare, scopes_declare, h.scopes, h.length_eq]
  · by_cases hx : x = name.span
    · subst hx
      simp only [Model.referent?, Checking.declare, SpanMap.get?_insert_self, h.length_eq]
    · simp only [Model.referent?, Checking.declare, SpanMap.get?_insert_of_ne _ _ hx]
      exact h.referents x
  · rw [length_locals_declare, length_locals_declare, h.length_eq]
  · have hlt := (List.getElem?_eq_some_iff.mp hl).1
    rw [length_locals_declare] at hlt
    by_cases hlast : id = s.model.locals.length
    · subst hlast
      obtain rfl := Option.some.inj ((List.getElem?_concat_length ..).symm.trans hl)
      refine ⟨final, _, hfinal, h.length_eq ▸ List.getElem?_concat_length .., hfits, ?_⟩
      rcases heq with ⟨rfl, rfl⟩ | ⟨⟨rfl, rfl⟩, hnot⟩
      · exact .inl rfl
      · exact .inr ⟨rfl, hnot⟩
    · have hlt' : id < s.model.locals.length := by omega
      obtain ⟨final', l', hfinal', hl', hrest⟩ :=
        h.locals ((List.getElem?_append_left hlt').symm.trans hl)
      exact ⟨final', l', hfinal',
        (List.getElem?_append_left (h.length_eq ▸ hlt')).trans hl', hrest⟩

end Checking.Follows

/-! ### Places -/

namespace Ty.NotedKin

theorem eq_of_left {a : Ty} {b : Option Ty} (h : NotedKin (Option.some a) b)
    (ha : ∀ k, a ≠ .scalar k) : b = Option.some a := by
  cases h with
  | some hkin => rw [hkin.eq_of_left ha]

theorem eq_of_right {a : Option Ty} {b : Ty} (h : NotedKin a (Option.some b))
    (hb : ∀ k, b ≠ .scalar k) : a = Option.some b := by
  cases h with
  | some hkin => rw [hkin.eq_of_right hb]

end Ty.NotedKin

namespace Check

variable {place e : Expr}

/-- What can be assigned in one of two checks can be in the other. -/
theorem Assignable.followed (h : Assignable s.model e) (hf : s.Follows m v) :
    Assignable v.model e := by
  induction h with
  | name hname =>
    refine .name ?_
    unfold NameAssignable at hname ⊢
    rw [hf.referents]
    split at hname
    · intro l' hl'
      obtain ⟨l, _, hl, _, rfl | ⟨rfl, _⟩⟩ := hf.exists_local hl'
      · exact hname l hl
      · exact hname _ hl
    · exact hname.elim
    · exact hname.elim
    · trivial
  | element htype => exact .element ((htype ▸ hf.types _).eq_of_left nofun)
  | index hnot _ ih =>
    exact .index (fun access t ht => hnot access t ((ht ▸ hf.types _).eq_of_right nofun)) ih
  | field _ ih => exact .field ih
  | paren _ ih => exact .paren ih

/-- A place is settled, if locals that can be assigned are. -/
theorem Assignable.settled {target : Typed} (h : Assignable m place)
    (hplace : Checks catalog v (.expr place target) v') (hkept : place.Kept v' m)
    (hmutable : ∀ {id l}, v.model.local? id = some l → l.mutable → l.family = none) :
    target.family = none := by
  induction h generalizing target v' with
  | @name span _ hname =>
    cases hplace with
    | «local» _ hl =>
      have hreferent : m.referent? span = _ := Expr.Kept.referent?_noted hkept
      rw [NameAssignable, hreferent] at hname
      obtain ⟨l', hl', hhead⟩ := hkept.2.local? hl
      have hsame : l'.mutable = _ := congrArg Prod.snd hhead
      exact hmutable hl (hsame.symm.trans (hname l' hl'))
    | capture | static => rfl
  | element | index => cases hplace <;> rfl
  | field =>
    cases hplace
    rfl
  | paren _ ih =>
    cases hplace with
    | paren he => exact ih he (Expr.Kept.paren hkept)

end Check

/-! ### Assignments -/

namespace Check

variable {target value : Operand} {target' value' : Typed}

theorem Agrees.fits_or {target value : Typed} (h : Agrees target value s s') :
    target.Fits value.type ∨ value.Fits target.type := by
  cases h with
  | value hfits => exact .inr hfits
  | target _ hfits => exact .inl hfits

/-- An assignment between values that agree. The place is settled in the second check. -/
theorem Agrees.followed (h : Agrees target.value value.value s s') (hf : s.Follows m v)
    (hends : s'.Ends m) (htarget : target.Found m v target') (hvalue : value.Found m v value')
    (hmeets : Meets m target value) (hclosed : target'.family = none) :
    ∃ v', Agrees target' value' v v' ∧ s'.Follows m v' := by
  obtain ⟨T, ⟨htarget, _⟩, hvalue, _⟩ := hmeets.exists_type htarget hvalue h.fits_or
  have htype : target'.type = T := (eq_of_fits htarget.fits_right hclosed).symm
  refine ⟨_, .value (htype ▸ hvalue.fits_right), ?_⟩
  rw [htype]
  cases h with
  | value hfits => exact hf.settle_to hvalue hfits fun _ _ => hends.eq_of_settle hvalue
  | target _ hfits =>
    have hshut (id : Nat) (hid : target.value.origin = some id) : v.Shut id := by
      rcases htarget.eq_or with rfl | ⟨_, hshut⟩
      · obtain ⟨f, hopen⟩ := htarget.sound.origin id hid
        cases hclosed.symm.trans hopen
      · exact hshut id hid
    exact (hf.settle_right hvalue).settle_left (htarget.mono fun _ hid => hid.settle _ _) hfits
      (fun id hid => (hshut id hid).settle _ _) fun _ _ => hends.eq_of_settle htarget

/-- An operator that assigns gives a value of the type of the place. -/
theorem Assigns.followed {op : Option BinaryOp} (h : Assigns target.value value.value s op s')
    (hf : s.Follows m v) (hends : s'.Ends m) (htarget : target.Found m v target')
    (hvalue : value.Found m v value') (hagrees : (Operation.assign op target value).Agrees m)
    (hclosed : target'.family = none) : ∃ v', Assigns target' value' v op v' ∧ s'.Follows m v' := by
  cases h with
  | plain h =>
    obtain ⟨v', h', hf'⟩ := h.followed hf hends htarget hvalue hagrees hclosed
    exact ⟨v', .plain h', hf'⟩
  | compound hop hfits =>
    obtain ⟨result', v', hop', hf', _, hfits'⟩ := hop.found hf htarget hvalue hagrees
    rw [hop.settle_eq]
    refine ⟨_, .compound hop' (hfits' hclosed hfits), ?_⟩
    rw [hop'.settle_eq]
    exact hf'

end Check

/-! ### Statements -/

def Check.StmtJudgment.annotated (m : Model) : StmtJudgment → StmtJudgment
  | .stmt st => .stmt (st.annotated m)
  | .stmts sts => .stmts (Stmt.allAnnotated m sts)
  | .block b => .block (b.annotated m)

/-- The annotation that a declaration gets is the final type of the local. -/
theorem Model.annotation?_eq {name : Name} {id : Nat} {l : Local}
    (hreferent : m.referent? name.span = some (.local id)) (hl : m.local? id = some l) :
    m.annotation? name = some ⟨l.type.toHost, name.span⟩ := by
  simp [Model.annotation?, hreferent, hl]

theorem Check.declares_toHost {l : Local} (h : l.Sound) (span : Span) :
    Declares ⟨l.type.toHost, span⟩ l.type :=
  ⟨Shader.Lower.ofHost?_toHost_of_sound h, h.isLocal⟩

namespace Check

open Stmt (Kept)

/-- Statements with their annotations are checked as those without are. -/
theorem ChecksStmt.followed {j : StmtJudgment} (h : ChecksStmt catalog s j s') (hm : j.Kept s' m)
    (hlocals : ∀ l ∈ m.locals, l.Sound) (hends : s'.Ends m) (hf : s.Follows m v)
    (hP : ∀ x ∈ j.steps catalog s, x.operation.Agrees m) :
    ∃ v', ChecksStmt catalog v (j.annotated m) v' ∧ s'.Follows m v' := by
  induction h generalizing v with
  | declare hdeclares =>
    obtain ⟨final, hfinal, hfits⟩ := hends.exists_declared
    have htype := eq_of_fits hfits rfl
    exact ⟨_, .declare hdeclares, hf.declare _ (Ty.shaped_of_ofHost? hdeclares.1) hdeclares.2 nofun
      hfinal hfits (.inl ⟨htype.symm, rfl⟩)⟩
  | @annotated s s₁ span mutable name type t e value he hdeclares hfits =>
    obtain ⟨hP, hagrees⟩ := forall_annotated he hdeclares (.annotated he hdeclares hfits) hf.sound hP
    obtain ⟨final, hfinal, hfinalFits⟩ := hends.exists_declared
    have htype : final.type = t := eq_of_fits hfinalFits rfl
    obtain ⟨u, v₁, he', hf₁, hfound⟩ := he.followed hf hP
    obtain ⟨hnarrows, _⟩ := hfound.narrows hfits fun _ => hagrees
    exact ⟨_, .annotated he' hdeclares hnarrows.fits_right, (hf₁.settle hnarrows).declare
      name (Ty.shaped_of_ofHost? hdeclares.1) hdeclares.2 nofun hfinal hfinalFits
      (.inl ⟨htype.symm, rfl⟩)⟩
  | @inferred s s₁ span mutable name e value he hlocal =>
    obtain ⟨hP, hagrees⟩ := forall_inferred he (.inferred he hlocal) hf.sound hP
    obtain ⟨hreferent, _⟩ := Stmt.Kept.let hm
    obtain ⟨l, hl, hfits⟩ := hends.exists_declared
    have hsound := hlocals l (List.mem_of_getElem? hl)
    obtain ⟨u, v₁, he', hf₁, hfound⟩ := he.followed hf hP
    have hkind : m.kind? s.model.locals.length = l.type.kind? :=
      Model.kind?_eq (he.length_locals_eq ▸ hl)
    obtain ⟨hnarrows, _⟩ := hfound.narrows hfits fun _ => hkind ▸ hagrees
    refine ⟨_, ?_, (hf₁.settle_right hnarrows).declare name hnarrows.sound.shaped hlocal
      hnarrows.sound.openTo hl hnarrows.fits (.inl ⟨rfl, rfl⟩)⟩
    simp only [StmtJudgment.annotated, Stmt.annotated, Model.annotation?_eq hreferent hl]
    exact .annotated he' (declares_toHost hsound _) hnarrows.fits_right
  | @assign s s₁ s₂ s' span op place value target found hp hv hassignable hassigns =>
    obtain ⟨hPp, hPv, hagrees⟩ :=
      forall_assign hp hv (.assign hp hv hassignable hassigns) hf.sound hP
    obtain ⟨target', v₁, hp', hf₁, htarget⟩ := hp.followed hf hPp
    obtain ⟨found', v₂, hv', hf₂, hfound⟩ := hv.followed hf₁ hPv
    rw [Operand.of_congr hp.scopes_eq] at hfound
    -- The second check finds the place settled, since its root can be assigned.
    have hclosed : target'.family = none :=
      (hassignable.followed hf₂).settled hp' (kept_place hm.1.1 hv') hf.shut_of_mutable
    have hoperands : Assigns (Operand.of s place target).value (Operand.of s value found).value s₂ op
        s' := hassigns
    obtain ⟨v', hassigns', hf'⟩ := hoperands.followed hf₂ hends (htarget.mono fun _ => hv'.shut)
      hfound hagrees hclosed
    exact ⟨v', .assign hp' hv' (hassignable.followed hf₂) hassigns', hf'⟩
  | ifOnly hcondition hbool hbody ih =>
    obtain ⟨hPc, hPb, _⟩ := forall_if hcondition hbool hbody hf.sound hP
    obtain ⟨_, hkeptBody⟩ := Stmt.Kept.ifOnly hm hbody
    obtain ⟨c', v₁, hcondition', hf₁, hfound⟩ := hcondition.followed hf hPc
    obtain ⟨v', hbody', hf'⟩ := ih hkeptBody hends hf₁ hPb
    exact ⟨v', .ifOnly hcondition' (hfound.bool hbool) hbody', hf'⟩
  | ifElse hcondition hbool hbody hotherwise ihBody ihOtherwise =>
    obtain ⟨hPc, hPb, hPo⟩ := forall_if hcondition hbool hbody hf.sound hP
    obtain ⟨_, hkeptBody, hkeptOtherwise⟩ := Stmt.Kept.ifElse hm hbody hotherwise
    obtain ⟨c', v₁, hcondition', hf₁, hfound⟩ := hcondition.followed hf hPc
    have hends₁ := hotherwise.ends (hbody.sound hf₁.sound) hends
    obtain ⟨v₂, hbody', hf₂⟩ := ihBody hkeptBody hends₁ hf₁ hPb
    obtain ⟨v', hotherwise', hf'⟩ := ihOtherwise hkeptOtherwise hends hf₂ hPo
    exact ⟨v', .ifElse hcondition' (hfound.bool hbool) hbody' hotherwise', hf'⟩
  | @«for» s _ _ s₃ _ _ counter _ _ _ _ _ _ t hstart hstop hunify hinteger hbody ih =>
    obtain ⟨hPlo, hPhi, ⟨hendsLo, hendsHi⟩, hPb⟩ :=
      forall_for hstart hstop hunify hinteger hf.sound hP
    obtain ⟨_, _, _, hkeptBody⟩ := Stmt.Kept.for hm hstop hunify.settles hbody
    obtain ⟨lo', v₁, hstart', hf₁, hlo⟩ := hstart.followed hf hPlo
    obtain ⟨hi', v₂, hstop', hf₂, hhi⟩ := hstop.followed hf₁ hPhi
    rw [Operand.of_congr hstart.scopes_eq] at hhi
    obtain ⟨l, hl, hfits⟩ := Ends.exists_declared (s := Checking.openScope _) <|
      hbody.ends (sound_counted hstart hstop hunify hinteger hf.sound counter).2 hends
    have hlength := hunify.settling.length_locals_eq.trans
      (hstop.length_locals_eq.trans hstart.length_locals_eq)
    have hkind : m.kind? s.model.locals.length = l.type.kind? := Model.kind?_eq (hlength ▸ hl)
    obtain ⟨hfitsLo, hfitsHi⟩ := hunify.fits hfits
    obtain ⟨hnarrowsLo, _⟩ := (hlo.mono fun _ => hstop'.shut).narrows hfitsLo fun _ => hkind ▸ hendsLo
    obtain ⟨hnarrowsHi, _⟩ := hhi.narrows hfitsHi fun _ => hkind ▸ hendsHi
    obtain ⟨t', v₃, hunify', hf₃, ht⟩ := hunify.followed hf₂ hnarrowsLo hnarrowsHi
    have hcounter : t'.type = l.type ∧ t'.family = none ∨
        (t'.type = t.type ∧ t'.family = t.family) ∧ ¬ (false : Bool) := by
      rcases ht.eq_or with rfl | ⟨rfl, _⟩
      · exact .inr ⟨⟨rfl, rfl⟩, nofun⟩
      · exact .inl ⟨rfl, rfl⟩
    have hdeclared := hf₃.openScope.declare counter ht.sound.shaped
      (isLocalType_of_isInteger hinteger) ht.sound.openTo hl ht.fits hcounter
    obtain ⟨v', hbody', hf'⟩ := ih hkeptBody hends hdeclared.enterLoop hPb
    exact ⟨_, .for hstart' hstop' hunify' (isInteger_of_narrows ht hinteger) hbody',
      hf'.leaveLoop.closeScope⟩
  | «while» hcondition hbool hbody ih =>
    obtain ⟨hPc, hPb⟩ := forall_while hcondition hbool hf.sound hP
    obtain ⟨_, hkeptBody⟩ := Stmt.Kept.while hm hbody
    obtain ⟨c', v₁, hcondition', hf₁, hfound⟩ := hcondition.followed hf hPc
    obtain ⟨v', hbody', hf'⟩ := ih hkeptBody hends hf₁.enterLoop hPb
    exact ⟨_, .while hcondition' (hfound.bool hbool) hbody', hf'.leaveLoop⟩
  | loop hbody ih =>
    obtain ⟨v', hbody', hf'⟩ := ih (Stmt.Kept.loop hm) hends hf.enterLoop hP
    exact ⟨_, .loop hbody', hf'.leaveLoop⟩
  | jump hloops => exact ⟨v, .jump (hf.loops ▸ hloops), hf⟩
  | eval he =>
    obtain ⟨_, v', he', hf', _⟩ := he.followed hf hP
    exact ⟨v', .eval he', hf'⟩
  | nested _ ih =>
    obtain ⟨v', hbody', hf'⟩ := ih (Stmt.Kept.nested hm) hends hf hP
    exact ⟨v', .nested hbody', hf'⟩
  | nil => exact ⟨v, .nil, hf⟩
  | cons hfirst hrest ihFirst ihRest =>
    obtain ⟨hPf, hPr⟩ := forall_stmts hfirst hf.sound hP
    obtain ⟨hkeptFirst, hkeptRest⟩ := Stmt.AllKept.cons hm hrest
    have hends₁ := hrest.ends (hfirst.sound hf.sound) hends
    obtain ⟨v₁, hfirst', hf₁⟩ := ihFirst hkeptFirst hends₁ hf hPf
    obtain ⟨v', hrest', hf'⟩ := ihRest hkeptRest hends hf₁ hPr
    exact ⟨v', .cons hfirst' hrest', hf'⟩
  | block _ ih =>
    obtain ⟨v', hstmts', hf'⟩ := ih (Block.Kept.stmts hm) hends hf.openScope hP
    exact ⟨_, .block hstmts', hf'.closeScope⟩

end Check

/-! ### Closures -/

/-- The local without the family that its type is open to. -/
def Local.closed (l : Local) : Local := { l with family := none }

/-- Whether two models resolve the same names, have the same locals, and types that are kin. -/
structure Model.Kin (m m' : Model) : Prop where
  referents : ∀ span, m'.referent? span = m.referent? span
  types : ∀ span, Ty.NotedKin (m.type? span) (m'.type? span)
  locals : m'.locals.map Local.closed = m.locals.map Local.closed

theorem Model.Kin.names_eq {m m' : Model} (h : m.Kin m') :
    m'.locals.map Local.name = m.locals.map Local.name := by
  have hnames := congrArg (List.map Local.name) h.locals
  rw [List.map_map, List.map_map] at hnames
  exact hnames

/-- Checks that end with the same locals have models that are kin. -/
theorem Checking.Follows.kin (h : s.Follows s.model v) : s.model.Kin v.model := by
  refine ⟨h.referents, h.types, List.ext_getElem? fun id => ?_⟩
  rw [List.getElem?_map, List.getElem?_map]
  cases hl : s.model.locals[id]? with
  | none =>
    rw [List.getElem?_eq_none_iff] at hl
    rw [List.getElem?_eq_none (h.length_eq ▸ hl)]
  | some l =>
    obtain ⟨final, l', hfinal, hl', _, hnarrows⟩ := h.locals hl
    obtain rfl := Option.some.inj (hl.symm.trans hfinal)
    rw [show v.model.locals[id]? = some l' from hl']
    rcases hnarrows with rfl | ⟨rfl, _⟩ <;> rfl

/-- A closure of which the open locals agree is bound with the final types of its locals written out,
too. -/
theorem Closure.bind_annotated {c : Closure} {hi : Nat} (hlaid : c.Laid hi)
    (h : c.bind catalog = .ok m) (hc : c.OpensAgree catalog m) :
    ∃ m', (c.annotated m).bind catalog = .ok m' ∧ m.Kin m' := by
  obtain ⟨s, hchecks, rfl⟩ := c.checks_of_bind h
  have hsound := hchecks.sound
  cases hchecks with
  | @mk s hparam hbody =>
    have hkept := hlaid.2.2.2.1.kept s
    have hends : s.Ends s.closeScope.model := s.ends_self
    obtain ⟨final, hfinal, hfits⟩ :=
      Ends.exists_declared (s := ({} : Checking).openScope) (hbody.ends (sound_initial c) hends)
    have hempty : ({} : Checking).openScope.Follows s.closeScope.model ({} : Checking).openScope :=
      ⟨Checking.Sound.openScope ⟨nofun, nofun⟩, rfl, rfl, fun _ => rfl, fun _ => .none, rfl,
        fun hl => nomatch hl⟩
    have hstart : Checking.Follows s.closeScope.model
        (({} : Checking).openScope.declare c.param .threadIds false none)
        (({} : Checking).openScope.declare c.param .threadIds false none) :=
      hempty.declare c.param trivial rfl nofun hfinal hfits
        (.inl ⟨(eq_of_fits hfits rfl).symm, rfl⟩)
    have hagree : ∀ x ∈ c.steps catalog, x.operation.Agrees s.closeScope.model := hc
    rw [c.steps_eq hparam] at hagree
    obtain ⟨v, hbody', hfollows⟩ :=
      hbody.followed hkept (fun l hl => hsound.locals l hl) hends hstart hagree
    exact ⟨_, Check.ChecksClosure.bind (.mk hparam hbody'), hfollows.closeScope.kin⟩

end ComputeKernel
