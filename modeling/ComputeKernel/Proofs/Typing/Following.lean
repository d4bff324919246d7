import ComputeKernel.Proofs.Typing.Kinship
import ComputeKernel.Proofs.Typing.Outline

/-!
Expressions that are checked once more with the final types of locals known. Every rule of the first
check has one in the second, which finds types that are kin and leaves the locals as they are to be
left, as long as the locals that were open end with the types that the values made of them meet.
-/

namespace ComputeKernel

open Checking

variable {m : Model} {s v v' : Checking} {T : Ty} {t u : Typed}

namespace Check

open Shader (Receiver Member hasRule)

variable {s' : Checking}

/-! ### Operators -/

theorem Unifies.followed {a b c a' b' : Typed} (h : Unifies a b s c s') (hf : s.Follows m v)
    (ha : a.Narrows m v T a') (hb : b.Narrows m v T b') :
    ∃ c' v', Unifies a' b' v c' v' ∧ s'.Follows m v' ∧ c.Narrows m v' T c' := by
  have hsound := (h.sound hf.sound ha.sound hb.sound).1
  cases h with
  | settled hclosedA hclosedB htype =>
    obtain ⟨_, hta, hfa⟩ := ha.type_eq_of_closed hclosedA
    obtain ⟨_, htb, hfb⟩ := hb.type_eq_of_closed hclosedB
    exact ⟨a', v, .settled hfa hfb (hta.trans (htype.trans htb.symm)), hf, ha⟩
  | left hopen hclosed hfits =>
    obtain ⟨rfl, htb, hfb⟩ := hb.type_eq_of_closed hclosed
    have hsettled := hf.settle ha
    rcases ha.eq_or with rfl | ⟨rfl, _⟩
    · refine ⟨b', _, .left hopen hfb (htb ▸ hfits), ?_, hb.mono fun id hid => hid.settle _ _⟩
      rw [htb]
      exact hsettled
    · exact ⟨_, v, .settled rfl hfb htb.symm, hsettled, hb.settled hclosed⟩
  | right hclosed hopen hfits =>
    obtain ⟨rfl, hta, hfa⟩ := ha.type_eq_of_closed hclosed
    have hsettled := hf.settle hb
    rcases hb.eq_or with rfl | ⟨rfl, _⟩
    · refine ⟨a', _, .right hfa hopen (hta ▸ hfits), ?_, ha.mono fun id hid => hid.settle _ _⟩
      rw [hta]
      exact hsettled
    · exact ⟨a', v, .settled hfa rfl hta, hsettled, ha⟩
  | @«open» f hopenA hopenB htype =>
    have hfits : Typed.Fits { type := a.type, family := some f } T :=
      ha.fits.imp_right fun ⟨g, k, hg, hk⟩ => ⟨g, k, hopenA ▸ hg, hk⟩
    have hsettled : Typed.Narrows m v T { type := a.type, family := some f } { type := T } :=
      ⟨hsound, hfits, nofun, .inr ⟨rfl, nofun⟩⟩
    -- If one of the two is settled in the second check, the other one settles on its type.
    rcases ha.eq_or with rfl | ⟨rfl, _⟩ <;> rcases hb.eq_or with rfl | ⟨rfl, _⟩
    · exact ⟨_, v, .open hopenA hopenB htype, hf, ⟨hsound, hfits, nofun, .inl rfl⟩⟩
    · exact ⟨_, _, .left hopenA rfl ha.fits, hf.settle_right ha,
        hsettled.mono fun id hid => hid.settle _ _⟩
    · exact ⟨_, _, .right rfl hopenB hb.fits, hf.settle_right hb,
        hsettled.mono fun id hid => hid.settle _ _⟩
    · exact ⟨_, v, .settled rfl rfl rfl, hf, hsettled⟩

theorem Unifies.fits_or {a b c : Typed} (h : Unifies a b s c s') :
    a.Fits b.type ∨ b.Fits a.type := by
  cases h with
  | settled _ _ htype | «open» _ _ htype => exact .inl (.inl htype)
  | left _ _ hfits => exact .inl hfits
  | right _ _ hfits => exact .inr hfits

/-- A value that is settled has the type that it has in common with another one. -/
theorem Unifies.type_eq_left {a b c : Typed} (h : Unifies a b s c s') (ha : a.family = none) :
    c.type = a.type := by
  cases h with
  | settled | right | «open» => rfl
  | left hopen => cases ha.symm.trans hopen

/-- Open values of which one fits the type of the other are open to the same types. -/
theorem family_eq_of_fits {a b : Typed} {f g : LiteralFamily} (ha : a.Sound) (hb : b.Sound)
    (hf : a.family = some f) (hg : b.family = some g) (h : a.Fits b.type) : f = g := by
  obtain ⟨k, hk, haccepts⟩ := openTo_of_fits ha h f hf
  obtain ⟨k', hk', haccepts'⟩ := hb.openTo g hg
  obtain rfl : k = k' := by simpa using hk.symm.trans hk'
  exact LiteralFamily.eq_of_accepts haccepts haccepts'

theorem fits_of_family {a b : Typed} {f : LiteralFamily} (ha : a.Sound) (hf : a.family = some f)
    (hg : b.family = some f) (h : a.Fits T) : b.Fits T := by
  obtain ⟨k, rfl, haccepts⟩ := openTo_of_fits ha h f hf
  exact .inr ⟨f, k, hg, rfl, haccepts⟩

/-- Whether a value is found with the final type `T`, with which also the locals in it end. -/
def Operand.NarrowsTo (m : Model) (v : Checking) (T : Ty) (o : Operand) (u : Typed) : Prop :=
  o.value.Narrows m v T u ∧ ∀ id ∈ o.locals, ∃ l, m.local? id = some l ∧ l.type = T

/-- Whether what an operand was is found once more. -/
def Operand.Found (m : Model) (v : Checking) (o : Operand) (u : Typed) : Prop :=
  o.value.Found m v o.locals u

/-- Values that agree have one final type. -/
theorem Meets.exists_type {a b : Operand} {a' b' : Typed} (h : Meets m a b) (ha : a.Found m v a')
    (hb : b.Found m v b') (hfits : a.value.Fits b.value.type ∨ b.value.Fits a.value.type) :
    ∃ T, a.NarrowsTo m v T a' ∧ b.NarrowsTo m v T b' := by
  obtain ⟨hclosedB, hclosedA, hpairs⟩ := h
  by_cases hb₀ : b.value.family = none
  · have hab : a.value.Fits b.value.type := hfits.elim id fun h => .inl (eq_of_fits h hb₀)
    exact ⟨_, ha.narrows hab fun _ => hclosedB hb₀, hb.narrows (.inl rfl) fun hopen => (hopen hb₀).elim⟩
  by_cases ha₀ : a.value.family = none
  · have hba : b.value.Fits a.value.type := hfits.elim (fun h => .inl (eq_of_fits h ha₀)) id
    exact ⟨_, ha.narrows (.inl rfl) fun hopen => (hopen ha₀).elim, hb.narrows hba fun _ => hclosedA ha₀⟩
  obtain ⟨f, hf⟩ := Option.ne_none_iff_exists'.mp ha₀
  obtain ⟨g, hg⟩ := Option.ne_none_iff_exists'.mp hb₀
  have hsa : a.value.Sound := ha.sound
  have hsb : b.value.Sound := hb.sound
  obtain rfl : f = g := hfits.elim (family_eq_of_fits hsa hsb hf hg)
    fun h => (family_eq_of_fits hsb hsa hg hf h).symm
  -- Both take the final type of a local in one of them, and the type that they have if there is none.
  cases ha with
  | ends hnarrows htypes hclosed =>
    obtain ⟨i, hi⟩ := List.exists_mem_of_ne_nil a.locals fun hids => ha₀ (hclosed hids)
    obtain ⟨l, hl, rfl⟩ := htypes i hi
    refine ⟨_, ⟨hnarrows, htypes⟩, hb.narrows (fits_of_family hsa hf hg hnarrows.fits) fun _ j hj => ?_⟩
    exact (hpairs i hi j hj).symm.trans (Model.kind?_eq hl)
  | same _ horigin hids =>
    have hends {T : Ty} : ∀ id ∈ a.locals, m.kind? id = T.kind? := by simp [hids]
    have hsame : a.Found m v a.value := .same hsa horigin hids
    cases hb with
    | ends hnarrows htypes =>
      exact ⟨_, hsame.narrows (fits_of_family hsb hg hf hnarrows.fits) fun _ => hends, hnarrows, htypes⟩
    | same _ horigin' hids' =>
      have hfound : b.Found m v b.value := .same hsb horigin' hids'
      exact ⟨_, hsame.narrows (.inl rfl) fun _ => hends,
        hfound.narrows (fits_of_family hsa hf hg (.inl rfl)) (by simp [hids'])⟩

/-- The common type of values that agree is found once more. -/
theorem Unifies.found {a b : Operand} {c a' b' : Typed} (h : Unifies a.value b.value s c s')
    (hf : s.Follows m v) (ha : a.Found m v a') (hb : b.Found m v b') (hmeets : Meets m a b) :
    ∃ c' v', Unifies a' b' v c' v' ∧ s'.Follows m v' ∧
      c.Found m v' (if c.family.isSome then a.locals ++ b.locals else []) c' := by
  obtain ⟨T, ⟨hnarrowsA, htypesA⟩, hnarrowsB, htypesB⟩ := hmeets.exists_type ha hb h.fits_or
  have hsound := (h.sound hf.sound hnarrowsA.sound hnarrowsB.sound).1
  by_cases hsame : c.family ≠ none ∧ a.locals ++ b.locals = []
  · obtain ⟨hopen, hids⟩ := hsame
    obtain ⟨hidsA, hidsB⟩ := List.append_eq_nil_iff.mp hids
    cases h with
    | settled hclosed | right hclosed | left _ hclosed => exact (hopen hclosed).elim
    | «open» hopenA hopenB htype =>
      obtain rfl := ha.eq_of_open hidsA (by simp [hopenA])
      obtain rfl := hb.eq_of_open hidsB (by simp [hopenB])
      exact ⟨_, v, .open hopenA hopenB htype, hf, .same hsound rfl (by simp [hids])⟩
  · obtain ⟨c', v', hunify', hf', hnarrows⟩ := h.followed hf hnarrowsA hnarrowsB
    refine ⟨c', v', hunify', hf', .ends hnarrows ?_ fun hids => ?_⟩
    · split
      · exact List.forall_mem_append.mpr ⟨htypesA, htypesB⟩
      · exact nofun
    · by_contra hopen
      rw [if_pos (Option.isSome_iff_ne_none.mpr hopen)] at hids
      exact hsame ⟨hopen, hids⟩

/-! ### Operators -/

section Operators

variable {op : BinaryOp} {k k' : ScalarKind}

theorem isInteger_of_narrows (h : t.Narrows m v T u) (ht : t.isInteger) : u.isInteger := by
  rcases h.eq_or with rfl | ⟨rfl, _⟩
  · exact ht
  · exact isInteger_of_fits h.sound ht h.fits

/-- A scalar is found to be one once more, with what holds of all types that a literal can have. -/
theorem exists_scalar_of_narrows {P : ScalarKind → Prop} (h : t.Narrows m v T u)
    (ht : t.type = .scalar k) (hk : P k)
    (hP : ∀ {f : LiteralFamily} {k l}, f.accepts k → f.accepts l → P k → P l) :
    ∃ l, u.type = .scalar l ∧ P l := by
  rcases h.eq_or with rfl | ⟨rfl, _⟩
  · exact ⟨k, ht, hk⟩
  · obtain ⟨l, rfl, rfl | ⟨f, _, haccepts, haccepts'⟩⟩ := fits_scalar h.sound ht h.fits
    · exact ⟨l, rfl, hk⟩
    · exact ⟨l, rfl, hP haccepts haccepts' hk⟩

theorem exists_scalar (h : t.Narrows m v T u) (ht : t.type = .scalar k) : ∃ l, u.type = .scalar l :=
  (exists_scalar_of_narrows (P := fun _ => True) h ht trivial fun _ _ => id).imp fun _ h => h.1

theorem isAggregate_eq_of_kin {t u : Ty} (h : t.Kin u) : u.isAggregate = t.isAggregate := by
  rcases h with rfl | ⟨_, _, _, rfl, rfl, _⟩ <;> rfl

theorem ofOperands?_eq_of_kin {l l' r r' : Ty} (hl : l.Kin l') (hr : r.Kin r') :
    Receiver.ofOperands? l' r' = Receiver.ofOperands? l r := by
  have hright : Receiver.ofOperands? l' r' = Receiver.ofOperands? l' r := by
    rcases hr with rfl | ⟨_, _, l₀, rfl, rfl, _⟩
    · rfl
    · exact ofOperands?_scalar_right (by nofun) l₀
  have hleft : Receiver.ofOperands? l' r = Receiver.ofOperands? l r := by
    rcases hl with rfl | ⟨_, _, l₀, rfl, rfl, _⟩
    · rfl
    · exact ofOperands?_scalar_left (by nofun) l₀
  exact hright.trans hleft

/-- Vectors and matrices are settled. -/
theorem family_eq_none_of_isAggregate (ht : t.Sound) (h : t.type.isAggregate) : t.family = none :=
  family_eq_none_of_ne_scalar ht fun k hk => by
    rw [hk] at h
    cases h

/-- The operand with a shape is a vector or a matrix. -/
theorem mainOperand_isAggregate {l r : Typed} {receiver : Receiver}
    (h : Receiver.ofOperands? l.type r.type = some receiver) : (mainOperand l r).1.type.isAggregate := by
  unfold mainOperand
  split
  · assumption
  · exact (isAggregate_of_ofOperands? h).resolve_left ‹_›

theorem ne_scalar_of_isAggregate {w : ValueType} (h : (Ty.value w).isAggregate) (k : ScalarKind) :
    Ty.value (if op.isComparison then w.withKind .bool else w) ≠ .scalar k := by
  cases w with
  | scalar => cases h
  | vector | matrix => split <;> nofun

theorem not_shiftsScalar {l r : Operand} {receiver : Receiver}
    (h : Receiver.ofOperands? l.value.type r.value.type = some receiver) : ¬ shiftsScalar op l r := by
  rcases isAggregate_of_ofOperands? h with h | h <;> simp [shiftsScalar, h]

/-- The operand that goes with a vector or a matrix, where it agrees with it. -/
theorem Matches.found {w : ValueType} {o : Operand} (h : Matches w o.value s s') (hf : s.Follows m v)
    (ho : o.Found m v u) (hends : o.EndsAs m w.kind) : ∃ v', Matches w u v v' ∧ s'.Follows m v' := by
  have haggregate := isAggregate_eq_of_kin ho.kin
  unfold Matches at h ⊢
  rw [haggregate]
  by_cases hagg : o.value.type.isAggregate
  · simp only [if_pos hagg] at h ⊢
    obtain ⟨htype, rfl⟩ := h
    have heq := ho.type_eq fun k hk => by
      rw [hk] at hagg
      cases hagg
    exact ⟨v, ⟨heq.trans htype, rfl⟩, hf⟩
  · simp only [if_neg hagg] at h ⊢
    obtain ⟨hfits, rfl⟩ := h
    obtain ⟨hnarrows, _⟩ := ho.narrows hfits fun _ => hends
    exact ⟨_, ⟨hnarrows.fits_right, rfl⟩, hf.settle hnarrows⟩

/-- The result of an operator is found once more, where the operands agree. It fits the left operand if
that is settled, where it did before. -/
theorem Operates.found {l r : Operand} {c l' r' : Typed} (h : Operates op l.value r.value s c s')
    (hf : s.Follows m v) (hl : l.Found m v l') (hr : r.Found m v r')
    (hagrees : (Operation.binary op l r).Agrees m) :
    ∃ c' v', Operates op l' r' v c' v' ∧ s'.Follows m v' ∧
      c.Found m v' (if c.family.isSome then if op.isShift then l.locals else l.locals ++ r.locals
        else []) c' ∧
      (l'.family = none → c.Fits l.value.type → c'.Fits l'.type) := by
  obtain ⟨L, hnarrowsLeft⟩ := hl.exists_narrows
  obtain ⟨R, hnarrowsRight⟩ := hr.exists_narrows
  have hsound := (h.sound hf.sound hnarrowsLeft.sound hnarrowsRight.sound).1
  cases h with
  | logical hop htl htr =>
    have htl' := hl.bool htl
    exact ⟨_, v, .logical hop htl' (hr.bool htr), hf, .of_closed hsound.shaped,
      fun _ _ => .inl htl'.symm⟩
  | shift hlogical hshift htl htr hk hk' =>
    obtain ⟨_, htl', hk⟩ := exists_scalar_of_narrows hnarrowsLeft htl hk isInteger_of_accepts
    obtain ⟨_, htr', hk'⟩ := exists_scalar_of_narrows hnarrowsRight htr hk' isInteger_of_accepts
    have hresult := hl.detached.of_isSome
    refine ⟨_, v, .shift hlogical hshift htl' htr' hk hk', hf, ?_, fun _ _ => .inl rfl⟩
    rw [if_pos hshift]
    exact hresult
  | comparison hlogical hshift hcomparison htl htr hunify hcommon hhas =>
    obtain ⟨_, htl'⟩ := exists_scalar hnarrowsLeft htl
    obtain ⟨_, htr'⟩ := exists_scalar hnarrowsRight htr
    obtain ⟨c', v', hunify', hf', hcommon'⟩ :=
      hunify.found hf hl hr (hagrees (hshift ∘ isShift_of_shiftsScalar))
    obtain ⟨_, hnarrows⟩ := hcommon'.exists_narrows
    obtain ⟨_, htc', hhas⟩ := exists_scalar_of_narrows hnarrows hcommon hhas hasScalar_of_accepts
    exact ⟨_, v', .comparison hlogical hshift hcomparison htl' htr' hunify' htc' hhas, hf',
      .of_closed hsound.shaped,
      fun _ hfits => .inl (hl.bool (eq_of_fits hfits rfl)).symm⟩
  | scalar hlogical hshift hcomparison htl htr hunify hcommon hhas =>
    obtain ⟨_, htl'⟩ := exists_scalar hnarrowsLeft htl
    obtain ⟨_, htr'⟩ := exists_scalar hnarrowsRight htr
    obtain ⟨c', v', hunify', hf', hcommon'⟩ :=
      hunify.found hf hl hr (hagrees (hshift ∘ isShift_of_shiftsScalar))
    obtain ⟨_, hnarrows⟩ := hcommon'.exists_narrows
    obtain ⟨_, htc', hhas⟩ := exists_scalar_of_narrows hnarrows hcommon hhas hasScalar_of_accepts
    refine ⟨_, v', .scalar hlogical hshift hcomparison htl' htr' hunify' htc' hhas, hf', ?_,
      fun hclosed _ => .inl (hunify'.type_eq_left hclosed)⟩
    rw [if_neg hshift]
    exact hcommon'.detached
  | @aggregate receiver _ w _ hlogical hreceiver hmember hrule hmain hmatches hhas =>
    obtain ⟨hclosedRight, hclosedLeft, _⟩ := hagrees (not_shiftsScalar hreceiver)
    have hreceiver' := (ofOperands?_eq_of_kin hl.kin hr.kin).trans hreceiver
    have hagg' := isAggregate_eq_of_kin hl.kin
    have hmainAgg := mainOperand_isAggregate hreceiver
    -- The main operand is settled, so the other one settles on its component type both times.
    have hother : ∃ v', Operates op l' r' v
        { type := .value (if op.isComparison then w.withKind .bool else w) } v' ∧ s'.Follows m v' := by
      by_cases hagg : l.value.type.isAggregate
      · rw [show mainOperand l.value r.value = (l.value, r.value) from if_pos hagg] at hmain hmatches
        have hclosed := family_eq_none_of_isAggregate hnarrowsLeft.sound hagg
        obtain ⟨_, htl', _⟩ := hnarrowsLeft.type_eq_of_closed hclosed
        have hends := hclosedLeft hclosed
        rw [hmain] at hends
        obtain ⟨v', hmatches', hf'⟩ := hmatches.found hf hr hends
        have hmain' : mainOperand l' r' = (l', r') := if_pos (hagg'.trans hagg)
        exact ⟨v', .aggregate hlogical hreceiver' hmember hrule (hmain' ▸ htl'.trans hmain)
          (hmain' ▸ hmatches') hhas, hf'⟩
      · rw [show mainOperand l.value r.value = (r.value, l.value) from if_neg hagg]
          at hmain hmatches hmainAgg
        have hclosed := family_eq_none_of_isAggregate hnarrowsRight.sound hmainAgg
        obtain ⟨_, htr', _⟩ := hnarrowsRight.type_eq_of_closed hclosed
        have hends := hclosedRight hclosed
        rw [hmain] at hends
        obtain ⟨v', hmatches', hf'⟩ := hmatches.found hf hl hends
        have hmain' : mainOperand l' r' = (r', l') := if_neg (by rwa [hagg'])
        exact ⟨v', .aggregate hlogical hreceiver' hmember hrule (hmain' ▸ htr'.trans hmain)
          (hmain' ▸ hmatches') hhas, hf'⟩
    obtain ⟨v', hop', hf'⟩ := hother
    refine ⟨_, v', hop', hf', .of_closed hsound.shaped, fun _ hfits => .inl ?_⟩
    have htype := eq_of_fits hfits rfl
    rw [hmain] at hmainAgg
    exact htype.symm.trans (hl.type_eq fun k hk =>
      ne_scalar_of_isAggregate hmainAgg k (htype.symm.trans hk)).symm

end Operators

/-! ### Arguments -/

/-- Whether arguments, found from a state, are found once more. -/
inductive FoundArguments (m : Model) (v s : Checking) : List Expr → List Typed → List Typed → Prop where
  | nil : FoundArguments m v s [] [] []
  | cons {e es t ts u us} : (Operand.of s e t).Found m v u → FoundArguments m v s es ts us →
      FoundArguments m v s (e :: es) (t :: ts) (u :: us)

/-- Whether arguments are found with final types. -/
def NarrowAll (m : Model) (v : Checking) (final : Typed → Ty) (args args' : List Argument) : Prop :=
  List.Forall₂ (fun a a' => a.typed.Narrows m v (final a.typed) a'.typed) args args'

section Arguments

variable {es : List Expr} {ts us : List Typed} {args args' : List Argument} {k kind : ScalarKind}
  {common : ValueType} {final : Typed → Ty} {s₀ : Checking}

namespace FoundArguments

theorem congr (h : FoundArguments m v s es ts us) (hscopes : s.scopes = s₀.scopes) :
    FoundArguments m v s₀ es ts us := by
  induction h with
  | nil => exact .nil
  | cons ht _ ih => exact .cons (Operand.of_congr hscopes _ _ ▸ ht) ih

theorem kin (h : FoundArguments m v s es ts us) :
    List.Forall₂ (fun a a' => a.typed.type.Kin a'.typed.type) (arguments es ts) (arguments es us) := by
  induction h with
  | nil => exact .nil
  | cons ht _ ih => exact .cons ht.kin ih

/-- Arguments narrow to types that they fit, if the open ones settle on the component type of a type
that the locals in them end with. -/
theorem narrowAll (h : FoundArguments m v s es ts us)
    (hfits : ∀ a ∈ arguments es ts, a.typed.Fits (final a.typed))
    (hkind : ∀ a ∈ arguments es ts, ∀ k, a.typed.type = .scalar k → (final a.typed).kind? = T.kind?)
    (hends : T ≠ .bool → ∀ o ∈ operandsOf s es ts, o.EndsAs m T.kind?) :
    NarrowAll m v final (arguments es ts) (arguments es us) := by
  induction h with
  | nil => exact .nil
  | @cons e es t ts u us ht _ ih =>
    obtain ⟨hfits, hfitsRest⟩ := List.forall_mem_cons.mp hfits
    obtain ⟨hkind, hkindRest⟩ := List.forall_mem_cons.mp hkind
    refine .cons (ht.narrows hfits fun hopen => ?_).1
      (ih hfitsRest hkindRest fun hne => (List.forall_mem_cons.mp (hends hne)).2)
    obtain ⟨f, hf⟩ := Option.ne_none_iff_exists'.mp hopen
    obtain ⟨k₀, hk₀, _⟩ := ht.sound.openTo f hf
    obtain ⟨k, hk, haccepts⟩ := openTo_of_fits ht.sound hfits f hf
    have htarget := hkind k₀ hk₀
    have hne : T ≠ .bool := by
      rintro rfl
      rw [hk] at htarget
      exact ne_bool_of_accepts haccepts (Option.some.inj htarget)
    rw [htarget]
    exact (List.forall_mem_cons.mp (hends hne)).1

end FoundArguments

namespace NarrowAll

theorem mono (h : NarrowAll m v final args args') (hshut : ∀ id, v.Shut id → v'.Shut id) :
    NarrowAll m v' final args args' :=
  List.Forall₂.imp (fun _ _ ha => ha.mono hshut) h

theorem exists_of_mem (h : NarrowAll m v final args args') {a' : Argument} (ha' : a' ∈ args') :
    ∃ a ∈ args, a.typed.Narrows m v (final a.typed) a'.typed := by
  induction h with
  | nil => cases ha'
  | cons ha _ ih =>
    rcases List.mem_cons.mp ha' with rfl | ha'
    · exact ⟨_, List.mem_cons_self, ha⟩
    · obtain ⟨a, hmem, hnarrows⟩ := ih ha'
      exact ⟨a, List.mem_cons_of_mem _ hmem, hnarrows⟩

/-- Arguments that are all open once more have been found as they were. -/
theorem same_of_open (h : NarrowAll m v final args args')
    (hopen : ∀ a' ∈ args', a'.typed.family ≠ none) : SameArguments args args' := by
  induction h with
  | nil => rfl
  | cons ha _ ih =>
    obtain ⟨hfirst, hrest⟩ := List.forall_mem_cons.mp hopen
    have hsame := ha.eq_or.resolve_right fun ⟨hu, _⟩ => hfirst (by rw [hu])
    exact List.cons_eq_cons.mpr ⟨hsame.symm, ih hrest⟩

end NarrowAll

theorem CoercesAll.fits {type : Ty} (h : CoercesAll type args s s') :
    ∀ a ∈ args, a.typed.Fits type := by
  induction h with
  | nil => exact nofun
  | cons hfits _ ih => exact List.forall_mem_cons.mpr ⟨hfits, ih⟩

theorem CoercesAll.followed {type : Ty} (h : CoercesAll type args s s') (hf : s.Follows m v)
    (ha : NarrowAll m v (fun _ => type) args args') :
    ∃ v', CoercesAll type args' v v' ∧ s'.Follows m v' := by
  induction h generalizing v args' with
  | nil =>
    cases ha
    exact ⟨v, .nil, hf⟩
  | cons _ _ ih =>
    cases ha with
    | cons hfirst hrest =>
      obtain ⟨v', hrest', hf'⟩ :=
        ih (hf.settle hfirst) (NarrowAll.mono hrest fun id hid => hid.settle _ _)
      exact ⟨v', .cons hfirst.fits_right hrest', hf'⟩

theorem intrinsicTarget_eq_of_kin (kind : ScalarKind) (common : ValueType) (h : t.type.Kin u.type) :
    intrinsicTarget kind common u = intrinsicTarget kind common t := by
  unfold intrinsicTarget
  rcases h with heq | ⟨_, k₁, l₁, ht, hu, _⟩
  · rw [heq]
  · rw [ht, hu]

theorem IntrinsicArguments.followed (h : IntrinsicArguments kind common args s s')
    (hf : s.Follows m v) (ha : NarrowAll m v (intrinsicTarget kind common) args args') :
    ∃ v', IntrinsicArguments kind common args' v v' ∧ s'.Follows m v' := by
  induction h generalizing v args' with
  | nil =>
    cases ha
    exact ⟨v, .nil, hf⟩
  | cons _ _ ih =>
    cases ha with
    | cons hfirst hrest =>
      obtain ⟨v', hrest', hf'⟩ :=
        ih (hf.settle hfirst) (NarrowAll.mono hrest fun id hid => hid.settle _ _)
      have htarget := intrinsicTarget_eq_of_kin kind common hfirst.kin
      refine ⟨v', .cons ?_ ?_, hf'⟩ <;> rw [htarget]
      · exact hfirst.fits_right
      · exact hrest'

theorem Supplies.followed {built : ValueType} {n : UInt8} (h : Supplies built args s n s')
    (hf : s.Follows m v) (ha : NarrowAll m v (suppliedType built) args args') :
    ∃ v', Supplies built args' v n v' ∧ s'.Follows m v' := by
  induction h generalizing v args' with
  | nil =>
    cases ha
    exact ⟨v, .nil, hf⟩
  | vector htype _ ih =>
    cases ha with
    | cons hfirst hrest =>
      obtain ⟨v', hrest', hf'⟩ := ih hf hrest
      have htype' := hfirst.type_eq fun k hk => by cases htype.symm.trans hk
      exact ⟨v', .vector (htype'.trans htype) hrest', hf'⟩
  | @scalar arg _ _ _ _ _ htype _ _ ih =>
    cases ha with
    | cons hfirst hrest =>
      rw [show suppliedType built arg.typed = .scalar built.kind by rw [suppliedType, htype]] at hfirst
      obtain ⟨v', hrest', hf'⟩ :=
        ih (hf.settle hfirst) (NarrowAll.mono hrest fun id hid => hid.settle _ _)
      obtain ⟨_, htype'⟩ := exists_scalar hfirst htype
      exact ⟨v', .scalar htype' hfirst.fits_right hrest', hf'⟩

end Arguments

/-! ### Calls -/

section Calls

variable {es : List Expr} {ts us : List Typed} {args args' : List Argument} {kind : ScalarKind}
  {s₀ : Checking} {callee : Path}

theorem commonShape_eq_of_kin
    (h : List.Forall₂ (fun a a' => a.typed.type.Kin a'.typed.type) args args') (kind : ScalarKind) :
    commonShape kind args' = commonShape kind args := by
  have hshape {t u : Ty} (hkin : t.Kin u) : (u.value?.filter fun v => ! v.isScalar) =
      t.value?.filter fun v => ! v.isScalar := by
    rcases hkin with rfl | ⟨_, _, _, rfl, rfl, _⟩ <;> rfl
  suffices hfind : (args'.findSome? fun a => a.typed.type.value?.filter fun v => ! v.isScalar) =
      args.findSome? fun a => a.typed.type.value?.filter fun v => ! v.isScalar by
    unfold commonShape
    rw [hfind]
  induction h with
  | nil => rfl
  | cons ha _ ih => rw [List.findSome?_cons, List.findSome?_cons, hshape ha, ih]

theorem forall_isValue_of_kin
    (h : List.Forall₂ (fun a a' => a.typed.type.Kin a'.typed.type) args args')
    (hvalues : ∀ a ∈ args, a.typed.type.isValue) : ∀ a ∈ args', a.typed.type.isValue := by
  induction h with
  | nil => exact nofun
  | cons ha _ ih =>
    obtain ⟨hfirst, hrest⟩ := List.forall_mem_cons.mp hvalues
    refine List.forall_mem_cons.mpr ⟨?_, ih hrest⟩
    rcases ha with heq | ⟨_, _, _, _, hscalar, _⟩
    · exact heq ▸ hfirst
    · rw [hscalar]
      rfl

theorem kind?_intrinsicTarget (kind : ScalarKind) (args : List Argument) (t : Typed) :
    (intrinsicTarget kind (commonShape kind args) t).kind? = some kind := by
  rcases intrinsicTarget_eq_or kind (commonShape kind args) t with heq | heq <;> rw [heq]
  · rfl
  · exact congrArg some (kind_commonShape kind args)

/-- The component type of the arguments of an intrinsic is found once more: every argument that is
settled in the second check has it, and if none is, the arguments are as they were. -/
theorem NarrowAll.exists_anchor
    (h : NarrowAll m v (intrinsicTarget kind (commonShape kind args)) args args') {a : Argument}
    (ha : anchor? args = some a) (hkind : a.typed.type.kind? = some kind) :
    ∃ a', anchor? args' = some a' ∧ a'.typed.type.kind? = some kind := by
  cases hfind : args'.find? fun a => a.typed.family.isNone with
  | some b' =>
    refine ⟨b', by rw [anchor?, hfind]; rfl, ?_⟩
    obtain ⟨b, _, hnarrows⟩ := h.exists_of_mem (List.mem_of_find?_eq_some hfind)
    have hclosed : b'.typed.family = none := by simpa using List.find?_some hfind
    rw [← eq_of_fits hnarrows.fits_right hclosed]
    exact kind?_intrinsicTarget kind args b.typed
  | none =>
    refine (h.same_of_open fun a' ha' hnone => ?_).exists_anchor ha hkind
    simpa [hnone] using List.find?_eq_none.mp hfind a' ha'

theorem kind_productType? {a b p : ValueType} (h : productType? a b = some p) :
    a.kind = p.kind ∧ b.kind = p.kind := by
  have hrow (k : ScalarKind) (n : Nat) : (ValueType.row k n).kind = k := by
    unfold ValueType.row
    split <;> rfl
  unfold productType? at h
  split at h
  · cases h
  rename_i hkinds
  have hkinds : a.kind = b.kind := Decidable.not_not.mp hkinds
  suffices hp : a.kind = p.kind by exact ⟨hp, hkinds.symm.trans hp⟩
  split at h
  · obtain rfl := Option.some.inj h
    exact hkinds
  · obtain rfl := Option.some.inj h
    rfl
  all_goals
    split at h
    · obtain rfl := Option.some.inj h
      first | rfl | exact (hrow _ _).symm
    · cases h

/-- Arguments of an intrinsic that settle on the component type of its result are found once more. -/
theorem IntrinsicArguments.found (h : IntrinsicArguments kind (commonShape kind (arguments es ts))
      (arguments es ts) s s') (hf : s.Follows m v) (ha : FoundArguments m v s₀ es ts us)
    (hkind : T.kind? = some kind)
    (hends : T ≠ .bool → ∀ o ∈ operandsOf s₀ es ts, o.EndsAs m T.kind?) {a : Argument}
    (hanchor : anchor? (arguments es ts) = some a) (hanchorKind : a.typed.type.kind? = some kind) :
    ∃ a' v', anchor? (arguments es us) = some a' ∧ a'.typed.type.kind? = some kind ∧
      IntrinsicArguments kind (commonShape kind (arguments es us)) (arguments es us) v v' ∧
      s'.Follows m v' := by
  have hnarrow : NarrowAll m v (intrinsicTarget kind (commonShape kind (arguments es ts)))
      (arguments es ts) (arguments es us) :=
    ha.narrowAll h.fits (fun a _ _ _ => (kind?_intrinsicTarget kind _ a.typed).trans hkind.symm) hends
  obtain ⟨a', hanchor', hkind'⟩ := hnarrow.exists_anchor hanchor hanchorKind
  obtain ⟨v', hall, hf'⟩ := h.followed hf hnarrow
  rw [← commonShape_eq_of_kin ha.kin] at hall
  exact ⟨a', v', hanchor', hkind', hall, hf'⟩

theorem IntrinsicResult.found {i : Shader.Intrinsic} (h : IntrinsicResult i (arguments es ts) s T s')
    (hf : s.Follows m v) (ha : FoundArguments m v s₀ es ts us)
    (hends : T ≠ .bool → ∀ o ∈ operandsOf s₀ es ts, o.EndsAs m T.kind?) :
    ∃ v', IntrinsicResult i (arguments es us) v T v' ∧ s'.Follows m v' := by
  have hshape (kind : ScalarKind) : (Ty.value (commonShape kind (arguments es ts))).kind? = some kind :=
    congrArg some (kind_commonShape kind _)
  cases h with
  | operands hresult hanchor hkind hall =>
    obtain ⟨a', v', hanchor', hkind', hall', hf'⟩ :=
      hall.found hf ha (hshape _) hends hanchor hkind
    rw [← commonShape_eq_of_kin ha.kin]
    exact ⟨v', .operands hresult hanchor' hkind' hall', hf'⟩
  | component hresult hanchor hkind hall =>
    obtain ⟨a', v', hanchor', hkind', hall', hf'⟩ :=
      hall.found (T := .scalar _) hf ha (hshape _) hends hanchor hkind
    rw [← commonShape_eq_of_kin ha.kin]
    exact ⟨v', .component hresult hanchor' hkind' hall', hf'⟩
  | bool hresult => exact ⟨v, .bool hresult, hf⟩
  | @product a b w w' p hresult htwo hv hw hp =>
    obtain ⟨hkindA, hkindB⟩ := kind_productType? hp
    have hnarrow : NarrowAll m v Typed.type (arguments es ts) (arguments es us) := by
      refine ha.narrowAll (fun _ _ => .inl rfl) (fun a' ha' _ _ => ?_) hends
      rw [htwo] at ha'
      simp only [List.mem_cons, List.not_mem_nil, or_false] at ha'
      rcases ha' with rfl | rfl
      · exact (congrArg Ty.kind? hv).trans (congrArg some hkindA)
      · exact (congrArg Ty.kind? hw).trans (congrArg some hkindB)
    have htype {t u : Typed} (h : t.Narrows m v t.type u) : u.type = t.type :=
      h.eq_or.elim (fun heq => heq ▸ rfl) fun heq => heq.1 ▸ rfl
    rw [htwo] at hnarrow
    generalize arguments es us = args' at hnarrow ⊢
    rcases hnarrow with _ | ⟨hfirst, _ | ⟨hsecond, _ | _⟩⟩
    exact ⟨v, .product hresult rfl ((htype hfirst).trans hv) ((htype hsecond).trans hw) hp, hf⟩

theorem Calls.found (h : Calls callee (arguments es ts) s T s') (hf : s.Follows m v)
    (ha : FoundArguments m v s₀ es ts us)
    (hagrees : (Operation.call callee (operandsOf s₀ es ts) T).Agrees m) :
    ∃ v', Calls callee (arguments es us) v T v' ∧ s'.Follows m v' := by
  cases h with
  | intrinsic howner hi hcount hvalues hresult =>
    obtain ⟨v', hresult', hf'⟩ := hresult.found hf ha hagrees
    exact ⟨v', .intrinsic howner hi (ha.kin.length_eq.symm.trans hcount)
      (forall_isValue_of_kin ha.kin hvalues) hresult', hf'⟩
  | @new owner w _ howner hne hlast hv hscalar hsupplies =>
    have hnarrow : NarrowAll m v (suppliedType w) (arguments es ts) (arguments es us) :=
      ha.narrowAll hsupplies.fills.1 (fun a _ k hk => by rw [suppliedType, hk]; rfl) hagrees
    obtain ⟨v', hsupplies', hf'⟩ := hsupplies.followed hf hnarrow
    exact ⟨v', .new howner hne hlast hv hscalar hsupplies', hf'⟩
  | @splat owner w arg howner hne hlast hv hscalar hone hfits =>
    have hnarrow : NarrowAll m v (fun _ => .scalar w.kind) (arguments es ts) (arguments es us) := by
      refine ha.narrowAll (T := .value w) (fun a ha => ?_) (fun _ _ _ _ => rfl) hagrees
      rw [hone] at ha
      exact List.mem_singleton.mp ha ▸ hfits
    rw [hone] at hnarrow
    generalize arguments es us = args' at hnarrow ⊢
    rcases hnarrow with _ | ⟨hfirst, _ | _⟩
    exact ⟨_, .splat howner hne hlast hv hscalar rfl hfirst.fits_right, hf.settle hfirst⟩

theorem HasMethod.found {r : Operand} {r' : Typed} {member : Name}
    (h : HasMethod r.value member (arguments es ts) s T s') (hf : s.Follows m v) (hr : r.Found m v r')
    (ha : FoundArguments m v s₀ es ts us)
    (hagrees : (Operation.method r (operandsOf s₀ es ts) T).Agrees m) :
    ∃ v', HasMethod r' member (arguments es us) v T v' ∧ s'.Follows m v' := by
  obtain ⟨hendsReceiver, hends⟩ := List.forall_mem_cons.mp hagrees
  have hnone (h : arguments es ts = []) : arguments es us = [] :=
    List.forall₂_nil_left_iff.mp (h ▸ ha.kin)
  cases h with
  | swizzle htype hempty hswizzle =>
    have htype' := hr.type_eq fun k hk => by cases htype.symm.trans hk
    exact ⟨v, .swizzle (htype'.trans htype) (hnone hempty) hswizzle, hf⟩
  | element htype hempty hposition hrow hcolumn =>
    have htype' := hr.type_eq fun k hk => by cases htype.symm.trans hk
    exact ⟨v, .element (htype'.trans htype) (hnone hempty) hposition hrow hcolumn, hf⟩
  | scalar htype hbool hmethod hkinds hcount hall =>
    obtain ⟨hnarrows, _⟩ := hr.narrows (.inl htype) fun _ => hendsReceiver
    have hnarrow : NarrowAll m v (fun _ => .scalar _) (arguments es ts) (arguments es us) :=
      ha.narrowAll hall.fits (fun _ _ _ _ => rfl) fun _ => hends
    obtain ⟨v', hall', hf'⟩ := hall.followed (hf.settle hnarrows)
      (hnarrow.mono fun id hid => hid.settle _ _)
    have htype' : r'.type = .scalar _ :=
      hnarrows.eq_or.elim (fun heq => heq ▸ htype) fun heq => heq.1 ▸ rfl
    exact ⟨v', .scalar htype' hbool hmethod hkinds (ha.kin.length_eq.symm.trans hcount) hall', hf'⟩

end Calls

theorem Selects.followed {rows columns : Nat} {items : List Expr}
    (h : Selects rows columns items s s') (hf : s.Follows m v) :
    ∃ v', Selects rows columns items v v' ∧ s'.Follows m v' := by
  induction h generalizing v with
  | nil => exact ⟨v, .nil, hf⟩
  | cons hposition hrow hcolumn _ ih =>
    obtain ⟨v', hrest, hf'⟩ := ih (hf.noteType _ (.refl _))
    exact ⟨v', .cons hposition hrow hcolumn hrest, hf'⟩

/-! ### Expressions -/

variable {catalog : Catalog}

theorem Selects.shut {rows columns : Nat} {items : List Expr} {id : Nat}
    (h : Selects rows columns items s s') (hid : s.Shut id) : s'.Shut id := by
  rw [Shut, Model.local?, h.locals_eq]
  exact hid

/-- No local is opened by a check. -/
theorem Checks.shut {j : Judgment} (h : Checks catalog s j s') {id : Nat} (hid : s.Shut id) :
    s'.Shut id := by
  induction h with
  | literal | «local» | capture | static | path | nil => exact hid
  | unary _ _ ih | cast _ _ ih | field _ _ ih | paren _ ih => exact ih hid
  | binary _ _ hop ihl ihr => exact hop.settling.shut (ihr (ihl hid))
  | method _ _ hmethod ih ihargs => exact hmethod.settling.shut (ihargs (ih hid))
  | call _ hcall ihargs => exact hcall.settling.shut (ihargs hid)
  | element _ _ _ _ _ ihbase ih => exact ih (ihbase hid)
  | swizzle _ _ _ _ hselects ih => exact hselects.shut (ih hid)
  | choice _ _ _ _ hunify ihc ihy ihn => exact hunify.settling.shut (ihn (ihy (ihc hid)))
  | cons _ _ ih ihs => exact ihs (ih hid)

section Sources

variable {span : Span} {op : BinaryOp} {l r c : Expr} {tl tr : Typed}

/-- The locals that the result of an operator has its type from. -/
theorem Operates.locals_eq (h : Operates op tl tr s t s') (s₀ : Checking) :
    (Operand.of s₀ (.binary span op l r) t).locals =
      if t.family.isSome then
        if op.isShift then (Operand.of s₀ l tl).locals
        else (Operand.of s₀ l tl).locals ++ (Operand.of s₀ r tr).locals
      else [] := by
  by_cases hopen : t.family.isSome
  · simp only [Operand.of, Expr.sources, if_pos hopen]
    cases h with
    | logical | comparison | aggregate => cases hopen
    | shift _ hshift =>
      rw [if_pos hshift, if_pos hshift]
      exact (if_pos hopen).symm
    | scalar _ hshift _ _ _ hunify =>
      obtain ⟨f, hf⟩ := Option.isSome_iff_exists.mp hopen
      obtain ⟨hfl, hfr⟩ := hunify.family hf
      rw [if_neg hshift, if_neg hshift, if_pos (by simp [hfl]), if_pos (by simp [hfr]),
        List.filterMap_append]
  · simp only [Operand.of, if_neg hopen]

/-- The locals that the value of a conditional has its type from. -/
theorem Unifies.locals_eq (h : Unifies tl tr s t s') (s₀ : Checking) :
    (Operand.of s₀ (.choice span c l r) t).locals =
      if t.family.isSome then (Operand.of s₀ l tl).locals ++ (Operand.of s₀ r tr).locals
      else [] := by
  by_cases hopen : t.family.isSome
  · obtain ⟨f, hf⟩ := Option.isSome_iff_exists.mp hopen
    obtain ⟨hfl, hfr⟩ := h.family hf
    simp only [Operand.of, Expr.sources, if_pos hopen]
    rw [if_pos (by simp [hfl]), if_pos (by simp [hfr]), List.filterMap_append]
  · simp only [Operand.of, if_neg hopen]

end Sources

/-- A local is found as it was, if it is a counter that is open still, or with its final type. -/
theorem local_found {span : Span} {text : String} {id : Nat} {l : Local} (hf : s.Follows m v)
    (hfind : s.find? text = some id) (hl : s.model.local? id = some l) :
    ∃ l', v.find? text = some id ∧ v.model.local? id = some l' ∧
      (Operand.of s (.name span text) (useOf id l)).Found m v (useOf id l') := by
  obtain ⟨final, l', hfinal, hl', hfits, hnarrows⟩ := hf.locals hl
  have horigin {i : Nat} (hi : (useOf id l).origin = some i) : i = id := by
    obtain ⟨_, _, rfl⟩ := Option.map_eq_some_iff.mp hi
    rfl
  have hlocals : (Operand.of s (.name span text) (useOf id l)).locals =
      if l.family.isSome then [id] else [] := by
    simp only [Operand.of, Expr.sources, List.filterMap_cons, hfind, List.filterMap_nil]
    rfl
  refine ⟨l', (hf.find?_eq text).trans hfind, hl', .ends (T := final.type) ⟨?_, hfits, fun i hi => ?_, ?_⟩
    (fun i hi => ?_) fun hids => ?_⟩
  · exact useOf_sound (hf.sound.locals l (List.mem_of_getElem? hl))
  · exact ⟨final, horigin hi ▸ hfinal, rfl⟩
  · rcases hnarrows with rfl | ⟨rfl, _⟩
    · refine .inr ⟨rfl, fun i hi l'' hl'' => ?_⟩
      rw [horigin hi] at hl''
      rw [Option.some.inj (hl''.symm.trans hl')]
    · exact .inl rfl
  · rw [hlocals] at hi
    split at hi
    · exact ⟨final, List.mem_singleton.mp hi ▸ hfinal, rfl⟩
    · cases hi
  · show l.family = none
    by_contra hopen
    rw [hlocals, if_pos (Option.isSome_iff_ne_none.mpr hopen)] at hids
    cases hids

/-- A unary operator goes with what its operand is found to be once more. -/
theorem hasUnary_of_found {op : UnaryOp} {o : Operand} (h : o.Found m v u)
    (hop : hasUnary op o.value.type) (hagrees : (Operation.unary op o).Agrees m) :
    hasUnary op u.type := by
  cases h with
  | same => exact hop
  | @ends T _ hnarrows htypes hclosed =>
    rcases hnarrows.eq_or with rfl | ⟨rfl, _⟩
    · exact hop
    cases op with
    | not => exact hasUnary_not_of_fits hnarrows.sound hop hnarrows.fits
    | neg =>
      rcases hnarrows.fits with heq | ⟨f, k, hf, rfl, haccepts⟩
      · exact heq ▸ hop
      · obtain ⟨id, hid⟩ := List.exists_mem_of_ne_nil o.locals fun hids => by
          cases hf.symm.trans (hclosed hids)
        obtain ⟨l, hl, htype⟩ := htypes id hid
        have hkind : m.kind? id = some k := (Model.kind?_eq hl).trans (congrArg Ty.kind? htype)
        have huint : k ≠ .uint := fun h => hagrees rfl id hid (hkind.trans (congrArg some h))
        simp [hasUnary, ne_bool_of_accepts haccepts, huint]

/-- What is said of a check of an expression and of one that follows it. -/
def Judgment.Followed (catalog : Catalog) (m : Model) (s s' v : Checking) : Judgment → Prop
  | .expr e t => ∃ u v', Checks catalog v (.expr e u) v' ∧ s'.Follows m v' ∧
      (Operand.of s e t).Found m v' u
  | .args es ts => ∃ us v', Checks catalog v (.args es us) v' ∧ s'.Follows m v' ∧
      FoundArguments m v' s es ts us

theorem Checks.followed {j : Judgment} (h : Checks catalog s j s') (hf : s.Follows m v)
    (hP : ∀ x ∈ j.steps catalog s, x.operation.Agrees m) : j.Followed catalog m s s' v := by
  have hsound := (h.sound hf.sound).1
  induction h generalizing v with
  | @literal s span value =>
    have hnone : (Operand.of s (.literal span value) (Check.literal value)).locals = [] := ite_self _
    exact ⟨_, _, .literal, hf.noteType _ (.refl _),
      .same (literal_sound value) (origin_literal value) hnone⟩
  | «local» hfind hl =>
    obtain ⟨l', hfind', hl', hfound⟩ := local_found hf hfind hl
    exact ⟨_, _, .local hfind' hl', (hf.noteReferent _ _).noteType _ hfound.kin, hfound.mono fun _ => id⟩
  | capture hnone hcapture =>
    have hnone' := (hf.find?_eq _).trans hnone
    exact ⟨_, _, .capture hnone' hcapture, (hf.noteReferent _ _).noteType _ (.refl _),
      .of_closed hsound.shaped⟩
  | static hnone hfield hstatic =>
    have hnone' := (hf.find?_eq _).trans hnone
    exact ⟨_, _, .static hnone' hfield hstatic, (hf.noteReferent _ _).noteType _ (.refl _),
      .of_closed hsound.shaped⟩
  | path howner hstatic =>
    exact ⟨_, _, .path howner hstatic, (hf.noteReferent _ _).noteType _ (.refl _),
      .of_closed hsound.shaped⟩
  | unary he hop ih =>
    obtain ⟨hP, hagrees⟩ := forall_unary he (.unary he hop) hf.sound hP
    obtain ⟨u, v', he', hf', hfound⟩ := ih hf hP (he.sound hf.sound).1
    exact ⟨_, _, .unary he' (hasUnary_of_found hfound hop hagrees), hf'.noteType _ hfound.kin,
      hfound.detached.mono fun _ => id⟩
  | binary hleft hright hop ihl ihr =>
    obtain ⟨hPl, hPr, hagrees⟩ := forall_binary hleft hright (.binary hleft hright hop) hf.sound hP
    obtain ⟨l', v₁, hleft', hf₁, hfoundLeft⟩ := ihl hf hPl (hleft.sound hf.sound).1
    obtain ⟨r', v₂, hright', hf₂, hfoundRight⟩ := ihr hf₁ hPr (hright.sound hf₁.sound).1
    rw [Operand.of_congr hleft.scopes_eq] at hfoundRight
    obtain ⟨c', v', hop', hf', hfound, _⟩ := hop.found (l := .of _ _ _) (r := .of _ _ _) hf₂
      (hfoundLeft.mono fun _ => hright'.shut) hfoundRight hagrees
    rw [← hop.locals_eq] at hfound
    exact ⟨_, _, .binary hleft' hright' hop', hf'.noteType _ hfound.kin, hfound.mono fun _ => id⟩
  | cast he hcasts ih =>
    obtain ⟨u, v', he', hf', hfound⟩ := ih hf hP (he.sound hf.sound).1
    refine ⟨_, _, .cast he' ?_, hf'.noteType _ (.refl _), .of_closed trivial⟩
    obtain ⟨htarget, hl, k, hk, hbool⟩ := hcasts
    refine ⟨htarget, hl, ?_⟩
    rcases hfound.kin with heq | ⟨f, _, k', _, hk', _, haccepts⟩
    · exact ⟨k, heq ▸ hk, hbool⟩
    · exact ⟨k', hk', fun h => ne_bool_of_accepts haccepts h.1⟩
  | @field _ _ _ _ t _ _ he htype ih =>
    obtain ⟨u, v', he', hf', hfound⟩ := ih hf hP (he.sound hf.sound).1
    have heq : u.type = t.type := hfound.type_eq fun k (hk : t.type = .scalar k) => by
      rw [hk] at htype
      cases htype
    exact ⟨_, _, .field he' (heq ▸ htype), hf'.noteType _ (.refl _), .of_closed hsound.shaped⟩
  | method hreceiver hargs hmethod ih ihargs =>
    obtain ⟨hPr, hPa, hagrees⟩ :=
      forall_method hreceiver hargs (.method hreceiver hargs hmethod) hf.sound hP
    obtain ⟨r', v₁, hreceiver', hf₁, hfound⟩ := ih hf hPr (hreceiver.sound hf.sound).1
    obtain ⟨us, v₂, hargs', hf₂, hall⟩ := ihargs hf₁ hPa (hargs.sound hf₁.sound).1
    obtain ⟨v', hmethod', hf'⟩ := hmethod.found (r := .of _ _ _) hf₂
      (hfound.mono fun _ => hargs'.shut) (hall.congr hreceiver.scopes_eq) hagrees
    exact ⟨_, _, .method hreceiver' hargs' hmethod', hf'.noteType _ (.refl _), .of_closed hsound.shaped⟩
  | call hargs hcall ihargs =>
    obtain ⟨hPa, hagrees⟩ := forall_call hargs (.call hargs hcall) hf.sound hP
    obtain ⟨us, v₁, hargs', hf₁, hall⟩ := ihargs hf hPa (hargs.sound hf.sound).1
    obtain ⟨v', hcall', hf'⟩ := hcall.found hf₁ hall hagrees
    exact ⟨_, _, .call hargs' hcall', hf'.noteType _ (.refl _), .of_closed hsound.shaped⟩
  | @element _ _ _ _ _ _ b _ _ hbase hitems hindex hinteger htype ihbase ih =>
    obtain ⟨hPb, hPi⟩ := forall_index hbase hf.sound hP
    obtain ⟨b', v₁, hbase', hf₁, hfoundBase⟩ := ihbase hf hPb (hbase.sound hf.sound).1
    obtain ⟨i', v', hindex', hf', hfound⟩ := ih hf₁ hPi (hindex.sound hf₁.sound).1
    obtain ⟨_, hnarrows⟩ := hfound.exists_narrows
    have heq : b'.type = b.type := hfoundBase.type_eq fun k (hk : b.type = .scalar k) => by
      rw [hk] at htype
      cases htype
    exact ⟨_, _, .element hbase' (heq ▸ hitems) hindex' (isInteger_of_narrows hnarrows hinteger)
      (heq ▸ htype), hf'.noteType _ (.refl _), .of_closed hsound.shaped⟩
  | swizzle hbase hmatrix hlo hhi hselects ih =>
    obtain ⟨hPb, _⟩ := forall_index hbase hf.sound hP
    obtain ⟨b', v₁, hbase', hf₁, hfound⟩ := ih hf hPb (hbase.sound hf.sound).1
    have heq := hfound.type_eq fun k hk => by cases hmatrix.symm.trans hk
    obtain ⟨v', hselects', hf'⟩ := hselects.followed hf₁
    exact ⟨_, _, .swizzle hbase' (heq.trans hmatrix) hlo hhi hselects',
      (hf'.noteType _ (.refl _)).noteType _ (.refl _), .of_closed hsound.shaped⟩
  | paren he ih =>
    obtain ⟨u, v', he', hf', hfound⟩ := ih hf hP (he.sound hf.sound).1
    exact ⟨_, _, .paren he', hf'.noteType _ hfound.kin, hfound.mono fun _ => id⟩
  | choice hcondition hbool hyes hno hunify ihc ihy ihn =>
    obtain ⟨hPc, hPy, hPn, hagrees⟩ := forall_choice hcondition hbool hyes hno
      (.choice hcondition hbool hyes hno hunify) hf.sound hP
    obtain ⟨c', v₁, hc', hf₁, hfoundCondition⟩ := ihc hf hPc (hcondition.sound hf.sound).1
    obtain ⟨y', v₂, hy', hf₂, hfoundYes⟩ := ihy hf₁ hPy (hyes.sound hf₁.sound).1
    obtain ⟨n', v₃, hn', hf₃, hfoundNo⟩ := ihn hf₂ hPn (hno.sound hf₂.sound).1
    rw [Operand.of_congr hcondition.scopes_eq] at hfoundYes
    rw [Operand.of_congr (hyes.scopes_eq.trans hcondition.scopes_eq)] at hfoundNo
    obtain ⟨t', v', hunify', hf', hfound⟩ := hunify.found (a := .of _ _ _) (b := .of _ _ _) hf₃
      (hfoundYes.mono fun _ => hn'.shut) hfoundNo hagrees
    rw [← hunify.locals_eq] at hfound
    exact ⟨_, _, .choice hc' (hfoundCondition.bool hbool) hy' hn' hunify', hf'.noteType _ hfound.kin,
      hfound.mono fun _ => id⟩
  | nil => exact ⟨[], v, .nil, hf, .nil⟩
  | cons hfirst hrest ih ihs =>
    obtain ⟨hPf, hPr⟩ := forall_args hfirst hf.sound hP
    obtain ⟨u, v₁, he', hf₁, hfound⟩ := ih hf hPf (hfirst.sound hf.sound).1
    obtain ⟨us, v', hrest', hf', hall⟩ := ihs hf₁ hPr (hrest.sound hf₁.sound).1
    exact ⟨u :: us, v', .cons he' hrest', hf',
      .cons (hfound.mono fun _ => hrest'.shut) (hall.congr hfirst.scopes_eq)⟩

end Check

end ComputeKernel
