import ComputeKernel.Proofs.Typing.Judgments
import ComputeKernel.Proofs.Typing.Sound

/-!
How open types develop. A local whose declaration left its type open keeps a type that literals of its
family have, through every step of a check; the type of any other local never changes again.
-/

namespace ComputeKernel

/-- Whether a local is as its declaration left it: open at most to the family it was left open to, of
which it has a type. -/
def Local.Respects (family : Option LiteralFamily) (l : Local) : Prop :=
  l.type.OpenTo family ∧ ∀ f, l.family = some f → family = some f

/-- Whether a local ends up with the type it has, or one of the family that its type was left open to. -/
def Local.Becomes (family : Option LiteralFamily) (l l' : Local) : Prop :=
  l'.type.OpenTo family ∧ (family = none → l'.type = l.type)

/-- A sound type. If it comes from a local, then that was left open to the same family. -/
structure Typed.Grounded (opens : List (Option LiteralFamily)) (t : Typed) : Prop where
  sound : t.Sound
  origin : ∀ id, t.origin = some id → opens[id]? = some t.family

namespace Check

/-- Whether all locals are as their declarations left them. -/
structure Respected (opens : List (Option LiteralFamily)) (locals : List Local) : Prop where
  length_eq : opens.length = locals.length
  respects : ∀ {id : Nat} {l : Local} {family}, locals[id]? = some l → opens[id]? = some family → l.Respects family

def Settled (opens : List (Option LiteralFamily)) (locals final : List Local) : Prop :=
  ∀ (id : Nat) (l : Local) (family), locals[id]? = some l → opens[id]? = some family →
    ∃ l', final[id]? = some l' ∧ l.Becomes family l'

/-- Steps of a check that keep locals as their declarations left them. -/
structure Evolves (opens : List (Option LiteralFamily)) (locals locals' : List Local) : Prop where
  respected : Respected opens locals'
  settled : ∀ {final}, Settled opens locals' final → Settled opens locals final

variable {opens : List (Option LiteralFamily)} {locals locals₁ locals' final : List Local}
  {s s' : Checking}

namespace Evolves

theorem refl (h : Respected opens locals) : Evolves opens locals locals := ⟨h, id⟩

theorem trans (h : Evolves opens locals locals₁) (h' : Evolves opens locals₁ locals') :
    Evolves opens locals locals' :=
  ⟨h'.respected, h.settled ∘ h'.settled⟩

end Evolves

namespace Respected

theorem exists_family (h : Respected opens locals) {id : Nat} {l : Local}
    (hl : locals[id]? = some l) : ∃ family, opens[id]? = some family ∧ l.Respects family := by
  obtain ⟨hlt, _⟩ := List.getElem?_eq_some_iff.mp hl
  have hfamily := List.getElem?_eq_getElem (h.length_eq ▸ hlt)
  exact ⟨_, hfamily, h.respects hl hfamily⟩

/-- A local that is still open is one of those that were left open. -/
theorem getElem?_of_open (h : Respected opens locals) {id : Nat} {l : Local} {f : LiteralFamily}
    (hl : locals[id]? = some l) (hf : l.family = some f) : opens[id]? = some (some f) := by
  obtain ⟨family, hfamily, _, hrespects⟩ := h.exists_family hl
  exact hfamily.trans (congrArg some (hrespects f hf))

end Respected

theorem Respected.settled (h : Respected opens locals) : Settled opens locals locals :=
  fun _ l _ hl hfamily => ⟨l, hl, (h.respects hl hfamily).1, fun _ => rfl⟩

/-! ### Steps -/

/-- A type that a value fits is open to the family of the value. -/
theorem openTo_of_fits {t : Typed} {target : Ty} (ht : t.Sound) (hfits : t.Fits target) :
    target.OpenTo t.family := by
  intro f hf
  rcases hfits with rfl | ⟨g, k, hg, rfl, haccepts⟩
  · exact ht.openTo f hf
  · obtain rfl := Option.some.inj (hf.symm.trans hg)
    exact ⟨k, rfl, haccepts⟩

/-- A local that was left open may get any type of the family. -/
theorem Respected.modify (h : Respected opens locals) {id : Nat} {f : LiteralFamily} {target : Ty}
    (hid : opens[id]? = some (some f)) (htarget : target.OpenTo (some f)) :
    Evolves opens locals
      (locals.modify id fun l => { l with type := target, family := none }) := by
  refine ⟨⟨by simpa using h.length_eq, fun {i l family} hl hfamily => ?_⟩,
    fun {final} hfinal i l family hl hfamily => ?_⟩
  · rw [List.getElem?_modify] at hl
    obtain ⟨l₀, hl₀, rfl⟩ := Option.map_eq_some_iff.mp hl
    by_cases heq : id = i
    · obtain rfl := Option.some.inj (hid.symm.trans (heq ▸ hfamily))
      simp only [heq, if_true]
      exact ⟨htarget, nofun⟩
    · simp only [heq, if_false]
      exact h.respects hl₀ hfamily
  · obtain ⟨l', hl', hopen, htype⟩ := hfinal i _ family
      ((List.getElem?_modify _ _ _ _).trans (congrArg _ hl)) hfamily
    refine ⟨l', hl', hopen, fun hnone => ?_⟩
    have hne : id ≠ i := by
      rintro rfl
      cases hnone ▸ hid.symm.trans hfamily
    simpa [hne] using htype hnone

/-- Settling a value changes at most a local that was left open. -/
theorem evolves_settle {t : Typed} {target : Ty} (h : Respected opens s.model.locals)
    (ht : t.Grounded opens) (hfits : t.Fits target) :
    Evolves opens s.model.locals (s.settle t target).model.locals := by
  unfold Checking.settle
  cases horigin : t.origin with
  | none => exact .refl h
  | some id =>
    obtain ⟨f, hf⟩ := ht.sound.origin id horigin
    exact h.modify (hf ▸ ht.origin id horigin) (hf ▸ openTo_of_fits ht.sound hfits)


theorem evolves_of_settling {ts : List Typed} (h : Checking.Settling ts s s')
    (hr : Respected opens s.model.locals) (hts : ∀ t ∈ ts, t.Grounded opens) :
    Evolves opens s.model.locals s'.model.locals := by
  induction h with
  | refl => exact .refl hr
  | step ht hfits _ ih =>
    have hfirst := evolves_settle hr (hts _ ht) hfits
    exact hfirst.trans (ih hfirst.respected)

theorem evolves_of_pair {a b : Typed} (h : Checking.Settling [a, b] s s')
    (hr : Respected opens s.model.locals) (ha : a.Grounded opens) (hb : b.Grounded opens) :
    Evolves opens s.model.locals s'.model.locals :=
  evolves_of_settling h hr (List.forall_mem_cons.mpr ⟨ha, List.forall_mem_singleton.mpr hb⟩)

theorem Selects.locals_eq {rows columns : Nat} {items : List Expr}
    (h : Selects rows columns items s s') : s'.model.locals = s.model.locals := by
  induction h with
  | nil => rfl
  | cons _ _ _ _ ih => exact ih

/-! ### Expressions -/

theorem grounded_of_origin {t : Typed} (ht : t.Sound) (h : t.origin = none) : t.Grounded opens :=
  ⟨ht, fun _ hid => by cases h.symm.trans hid⟩

theorem origin_literal (v : Literal) : (literal v).origin = none := by
  rcases v with _ | ⟨_, _ | _⟩ | ⟨_, _ | _⟩ <;> rfl

theorem useOf_grounded (h : Respected opens locals) {id : Nat} {l : Local}
    (hl : locals[id]? = some l) (hsound : (useOf id l).Sound) : (useOf id l).Grounded opens := by
  refine ⟨hsound, fun i hi => ?_⟩
  obtain ⟨f, hf, rfl⟩ := Option.map_eq_some_iff.mp hi
  exact (h.getElem?_of_open hl hf).trans (congrArg some hf.symm)

theorem Unifies.grounded {a b t : Typed} (h : Unifies a b s t s') (ht : t.Sound)
    (ha : a.Grounded opens) (hb : b.Grounded opens) : t.Grounded opens := by
  cases h with
  | settled | right => exact ha
  | left => exact hb
  | «open» => exact grounded_of_origin ht rfl

def Judgment.Grounded (opens : List (Option LiteralFamily)) : Judgment → Prop
  | .expr _ t => t.Grounded opens
  | .args _ ts => ∀ t ∈ ts, t.Grounded opens

theorem arguments_grounded {es : List Expr} {ts : List Typed} (h : ∀ t ∈ ts, t.Grounded opens) :
    ∀ t ∈ (arguments es ts).map (·.typed), t.Grounded opens := by
  intro t ht
  simp only [arguments, List.map_map, List.mem_map] at ht
  obtain ⟨p, hp, rfl⟩ := ht
  exact h _ (List.of_mem_zip hp).2

/-- Every rule for expressions keeps locals as their declarations left them. -/
theorem Checks.evolves {catalog : Catalog} {j : Judgment} (h : Checks catalog s j s') (hs : s.Sound)
    (hr : Respected opens s.model.locals) :
    j.Grounded opens ∧ Evolves opens s.model.locals s'.model.locals := by
  have hsound := (h.sound hs).1
  induction h with
  | literal => exact ⟨grounded_of_origin hsound (origin_literal _), .refl hr⟩
  | «local» _ hl => exact ⟨useOf_grounded hr hl hsound, .refl hr⟩
  | capture | static | path => exact ⟨grounded_of_origin hsound rfl, .refl hr⟩
  | unary he _ ih => exact ⟨grounded_of_origin hsound rfl, (ih hs hr (he.sound hs).1).2⟩
  | binary hleft hright hop ihLeft ihRight =>
    obtain ⟨hl, hs₁⟩ := hleft.sound hs
    obtain ⟨hgl, hel⟩ := ihLeft hs hr hl
    obtain ⟨hgr, her⟩ := ihRight hs₁ hel.respected (hright.sound hs₁).1
    have hresult := evolves_of_pair hop.settling her.respected hgl hgr
    exact ⟨grounded_of_origin hsound hop.origin_eq_none, (hel.trans her).trans hresult⟩
  | cast he _ ih | field he _ ih =>
    exact ⟨grounded_of_origin hsound rfl, (ih hs hr (he.sound hs).1).2⟩
  | method hreceiver hargs hmethod ihReceiver ihArgs =>
    obtain ⟨hr', hs₁⟩ := hreceiver.sound hs
    obtain ⟨hgr, her⟩ := ihReceiver hs hr hr'
    obtain ⟨hga, hea⟩ := ihArgs hs₁ her.respected (hargs.sound hs₁).1
    have hresult := evolves_of_settling hmethod.settling hea.respected
      (List.forall_mem_cons.mpr ⟨hgr, arguments_grounded hga⟩)
    exact ⟨grounded_of_origin hsound rfl, (her.trans hea).trans hresult⟩
  | call hargs hcall ihArgs =>
    obtain ⟨hga, hea⟩ := ihArgs hs hr (hargs.sound hs).1
    have hresult := evolves_of_settling hcall.settling hea.respected (arguments_grounded hga)
    exact ⟨grounded_of_origin hsound rfl, hea.trans hresult⟩
  | element hbase _ hindex _ _ ihBase ihIndex =>
    obtain ⟨hb, hs₁⟩ := hbase.sound hs
    obtain ⟨_, heb⟩ := ihBase hs hr hb
    obtain ⟨_, hei⟩ := ihIndex hs₁ heb.respected (hindex.sound hs₁).1
    exact ⟨grounded_of_origin hsound rfl, heb.trans hei⟩
  | swizzle hbase _ _ _ hselects ih =>
    refine ⟨grounded_of_origin hsound rfl, ?_⟩
    simpa [Checking.noteType, hselects.locals_eq] using (ih hs hr (hbase.sound hs).1).2
  | paren _ ih => exact ih hs hr hsound
  | choice hcondition _ hyes hno hunify ihCondition ihYes ihNo =>
    obtain ⟨hc, hs₁⟩ := hcondition.sound hs
    obtain ⟨hy, hs₂⟩ := hyes.sound hs₁
    obtain ⟨_, hec⟩ := ihCondition hs hr hc
    obtain ⟨hgy, hey⟩ := ihYes hs₁ hec.respected hy
    obtain ⟨hgn, hen⟩ := ihNo hs₂ hey.respected (hno.sound hs₂).1
    have hresult := evolves_of_pair hunify.settling hen.respected hgy hgn
    exact ⟨hunify.grounded hsound hgy hgn, ((hec.trans hey).trans hen).trans hresult⟩
  | nil => exact ⟨nofun, .refl hr⟩
  | cons hfirst hrest ihFirst ihRest =>
    obtain ⟨ht, hs₁⟩ := hfirst.sound hs
    obtain ⟨hgt, het⟩ := ihFirst hs hr ht
    obtain ⟨hgts, hes⟩ := ihRest hs₁ het.respected (hrest.sound hs₁).1
    exact ⟨List.forall_mem_cons.mpr ⟨hgt, hgts⟩, het.trans hes⟩

/-! ### Environments -/

/-- An environment of the locals and the scopes that a check has come to. -/
structure Env.Describes (Γ : Env) (s : Checking) : Prop where
  sound : s.Sound
  scopes_eq : s.scopes = Γ.scopes
  respected : Respected Γ.opens s.model.locals

/-- An expression is checked within one environment. -/
theorem Checks.describes {catalog : Catalog} {j : Judgment} {Γ : Env} (h : Checks catalog s j s')
    (hΓ : Γ.Describes s) : j.Grounded Γ.opens ∧ Γ.Describes s' ∧
      Evolves Γ.opens s.model.locals s'.model.locals := by
  obtain ⟨hgrounded, hevolves⟩ := h.evolves hΓ.sound hΓ.respected
  exact ⟨hgrounded, ⟨(h.sound hΓ.sound).2, h.scopes_eq.trans hΓ.scopes_eq, hevolves.respected⟩,
    hevolves⟩

end Check

end ComputeKernel
