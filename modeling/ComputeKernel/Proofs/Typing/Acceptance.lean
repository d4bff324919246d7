import ComputeKernel.Proofs.Typing.Extraction

/-!
Accepted closures follow the rules. A check of a statement that reports nothing, from a sound state,
goes by a rule for the statement; a closure that is bound has a derivation.
-/

namespace ComputeKernel

namespace Check

/-! ### Declarations -/

theorem declaredType_quiet (type : TypeRef) (value : Option (Typed × Span)) :
    Quiet (declaredType type value) fun s t s' => Declares type t ∧
      (∀ v span, value = some (v, span) → v.Fits t ∧ s' = s.settle v t) ∧
        (value = none → s' = s) := by
  unfold declaredType
  split
  · rename_i t htype
    have hdeclares : Declares type t := by
      rw [Option.filter_eq_some_iff] at htype
      exact htype
    cases value with
    | none => exact Quiet.pure fun s => ⟨hdeclares, nofun, fun _ => rfl⟩
    | some value =>
      obtain ⟨v, span⟩ := value
      refine (coerce_quiet v t).bind fun done => ?_
      cases done with
      | true =>
        refine Quiet.pure fun s' s h => ⟨hdeclares, ?_, nofun⟩
        rintro w _ ⟨⟩
        rcases h with ⟨_, hfits, hs'⟩ | ⟨hfalse, _⟩
        · exact ⟨hfits, hs'⟩
        · cases hfalse
      | false => exact (error_quiet _ _).abort fun _ => Quiet.pure fun _ => trivial
  · exact (error_quiet _ _).abort fun _ => Quiet.pure fun _ => trivial

theorem inferredType_quiet (v : Typed) (span : Span) :
    Quiet (inferredType v span) fun s found s' =>
      found = (v.type, v.family) ∧ isLocalType v.type ∧ s' = s := by
  unfold inferredType
  split
  · rename_i hlocal
    exact Quiet.pure fun s => ⟨rfl, hlocal, rfl⟩
  · exact (errorWithHelp_quiet _ _ _).abort fun _ => Quiet.pure fun _ => trivial

/-- What a quiet check of a statement is, from a sound state. -/
def Follows (catalog : Catalog) (j : StmtJudgment) (s s' : Checking) : Prop :=
  s.Sound → ChecksStmt catalog s j s'

theorem letStmt_quiet (catalog : Catalog) (span : Span) (mutable : Bool) (name : Name)
    (type : Option TypeRef) (value : Option Expr) :
    Quiet (letStmt catalog mutable name type value) fun s _ s' =>
      Follows catalog (.stmt (.let span mutable name type value)) s s' := by
  cases value with
  | none =>
    cases type with
    | none => exact (errorWithHelp_quiet _ _ _).abort fun _ =>
        (declare_quiet name .unknown mutable none).mono fun _ _ _ _ => trivial
    | some type =>
      refine (declaredType_quiet type none).bind fun t =>
        (declare_quiet name t mutable none).mono fun s₁ _ s' hs' s h _ => ?_
      obtain ⟨hdeclares, _, hkept⟩ := h
      obtain rfl := hkept rfl
      exact hs' ▸ .declare hdeclares
  | some e =>
    refine Quiet.bind (R := fun s found s' => s.Sound → ∃ v, found = some (v, e.span) ∧
        Checks catalog s (.expr e v) s') ((expr_quiet catalog e).bind fun t =>
          Quiet.pure fun s' s h hs => ?_) fun found => ?_
    · obtain ⟨v, rfl, hchecks⟩ := h hs
      exact ⟨v, rfl, hchecks⟩
    cases type with
    | some type =>
      refine (declaredType_quiet type found).bind fun t =>
        (declare_quiet name t mutable none).mono fun s₂ _ s' hs' s₁ h s he hs => ?_
      obtain ⟨v, rfl, hchecks⟩ := he hs
      obtain ⟨hdeclares, hset, _⟩ := h
      obtain ⟨hfits, rfl⟩ := hset v e.span rfl
      exact hs' ▸ .annotated hchecks hdeclares hfits
    | none =>
      cases found with
      | none =>
        refine (declare_quiet name .unknown mutable none).mono fun s₁ _ s' _ s he hs => ?_
        obtain ⟨_, hv, _⟩ := he hs
        cases hv
      | some found =>
        obtain ⟨v, span⟩ := found
        refine (inferredType_quiet v span).bind fun inferred =>
          (declare_quiet name inferred.1 mutable inferred.2).mono fun s₂ _ s' hs' s₁ h s he hs => ?_
        obtain ⟨_, ⟨⟩, hchecks⟩ := he hs
        obtain ⟨rfl, hlocal, rfl⟩ := h
        exact hs' ▸ .inferred hchecks hlocal

theorem counterType_quiet (lo hi : Option Typed) (span : Span) :
    Quiet (counterType lo hi span) fun s t s' => ∀ l h, lo = some l → hi = some h →
      ∃ v, t = some v ∧ Unifies l h s v s' ∧ v.isInteger := by
  unfold counterType
  split
  · rename_i lo hi
    refine (unify_quiet lo hi).bind fun common => ?_
    cases common with
    | none => exact fail_quiet _ _
    | some v =>
      simp only
      split
      · rename_i hinteger
        refine Quiet.pure fun s' s hunify l h hl hh => ?_
        obtain rfl := Option.some.inj hl
        obtain rfl := Option.some.inj hh
        exact ⟨v, rfl, hunify v rfl, hinteger⟩
      · exact fail_quiet _ _
  · rename_i hnot
    exact Quiet.pure fun s l h hl hh => (hnot l h hl hh).elim

/-! ### Assignments -/

theorem get_quiet : Quiet (get : Check Checking) fun s d s' => d = s ∧ s' = s :=
  Quiet.get fun _ => ⟨rfl, rfl⟩

theorem assignableName_quiet (text : String) (span : Span) :
    Quiet (assignableName text span) fun s _ s' => NameAssignable s.model span ∧ s' = s := by
  refine get_quiet.bind fun d => ?_
  split
  · rename_i id hreferent
    split
    · exact errorWithHelp_quiet _ _ _
    · rename_i hmutable
      refine Quiet.pure fun s' s ⟨hd, hs'⟩ => ⟨?_, hs'⟩
      rw [← hd, NameAssignable, hreferent]
      intro l hl
      simpa [hl] using hmutable
  · exact report_quiet _
  · exact error_quiet _ _
  · rename_i hreferent
    refine Quiet.pure fun s' s ⟨hd, hs'⟩ => ⟨?_, hs'⟩
    rw [← hd, NameAssignable, hreferent]
    trivial

theorem assignable_quiet : ∀ e,
    Quiet (assignable e) fun s _ s' => Assignable s.model e ∧ s' = s
  | .name span text => (assignableName_quiet text span).mono fun _ _ _ h => ⟨.name h.1, h.2⟩
  | .path span p => error_quiet _ _
  | .index span base index => by
    refine get_quiet.bind fun d => ?_
    split
    · rename_i t htype
      refine Quiet.pure fun s' s ⟨hd, hs'⟩ => ⟨.element (t := t) ?_, hs'⟩
      exact hd ▸ htype
    · exact errorWithHelp_quiet _ _ _
    · rename_i hnot
      refine (assignable_quiet base).mono fun s₁ _ s' h s ⟨hd, hs₁⟩ => ?_
      subst hs₁
      exact ⟨.index (fun access t htype => hnot access t (hd ▸ htype)) h.1, h.2⟩
  | .field span receiver member => (assignable_quiet receiver).mono fun _ _ _ h => ⟨.field h.1, h.2⟩
  | .paren span inner => (assignable_quiet inner).mono fun _ _ _ h => ⟨.paren h.1, h.2⟩
  | .literal .. | .unary .. | .binary .. | .cast .. | .method .. | .call .. | .tuple ..
  | .choice .. => error_quiet _ _

theorem fits_quiet (op : Option BinaryOp) (target value : Typed) (span : Span) :
    Quiet (fits op target value span) fun s found s' =>
      found = some false ∨ Assigns target value s op s' := by
  cases op with
  | none =>
    refine (coerce_quiet value target.type).bind fun done => ?_
    cases done with
    | true =>
      refine Quiet.pure fun s' s h => Or.inr ?_
      rcases h with ⟨_, hfits, rfl⟩ | ⟨hfalse, _⟩
      · exact .plain (.value hfits)
      · cases hfalse
    | false =>
      refine (coerce_quiet target value.type).bind fun done => Quiet.pure fun s' s₁ h s hfirst => ?_
      rcases hfirst with ⟨htrue, _⟩ | ⟨_, hnot, rfl⟩
      · cases htrue
      rcases h with ⟨_, hfits, rfl⟩ | ⟨rfl, _⟩
      · exact Or.inr (.plain (.target hnot hfits))
      · exact Or.inl rfl
  | some op =>
    refine (binary_quiet op target value span).bind fun result => ?_
    cases result with
    | none => exact Quiet.pure fun s' s ⟨_, hv, _⟩ => nomatch hv
    | some result =>
      refine (coerce_quiet result target.type).bind fun done => Quiet.pure fun s' s₁ h s hop => ?_
      obtain ⟨_, ⟨⟩, hop⟩ := hop
      rcases h with ⟨_, hfits, rfl⟩ | ⟨rfl, _⟩
      · exact Or.inr (.compound hop hfits)
      · exact Or.inl rfl

theorem assign_quiet (catalog : Catalog) (op : Option BinaryOp) (place value : Expr)
    (span : Span) :
    Quiet (assign catalog op place value span) fun s _ s' =>
      Follows catalog (.stmt (.assign span op place value)) s s' := by
  refine bind_found (expr_quiet catalog place) ?_ fun target =>
    bind_found (expr_quiet catalog value) ?_ fun found => (assignable_quiet place).bind fun _ =>
      (fits_quiet op target found span).bind fun fit => ?_
  · exact (expr_quiet catalog value).bind fun _ => Quiet.pure fun _ _ _ => trivial
  · exact (assignable_quiet place).bind fun _ => Quiet.pure fun _ _ _ => trivial
  · split
    · exact error_quiet _ _
    · rename_i hfit
      refine Quiet.pure fun s' s₃ hassigns s₂ hassignable _ s₁ hvalue s hplace => ?_
      obtain ⟨hassignable, rfl⟩ := hassignable
      exact .assign hplace hvalue hassignable (hassigns.resolve_left hfit)

/-! ### Control flow -/

theorem jump_quiet (kind : Jump) (span : Span) :
    Quiet (jump kind span) fun s _ s' => (kind = .return ∨ s.loops ≠ 0) ∧ s' = s := by
  refine get_quiet.bind fun d => ?_
  cases kind with
  | «return» => exact Quiet.pure fun s' s ⟨_, hs'⟩ => ⟨Or.inl rfl, hs'⟩
  | «break» | «continue» =>
    simp only
    split
    · exact error_quiet _ _
    · rename_i hloops
      exact Quiet.pure fun s' s ⟨hd, hs'⟩ => ⟨Or.inr (hd ▸ hloops), hs'⟩

theorem openScope_quiet : Quiet openScope fun s _ s' => s' = s.openScope :=
  Quiet.of_keeps (fun _ => rfl) fun _ => rfl

theorem closeScope_quiet : Quiet closeScope fun s _ s' => s' = s.closeScope :=
  Quiet.of_keeps (fun _ => rfl) fun _ => rfl

theorem enterLoop_quiet : Quiet enterLoop fun s _ s' => s' = s.enterLoop :=
  Quiet.of_keeps (fun _ => rfl) fun _ => rfl

theorem leaveLoop_quiet : Quiet leaveLoop fun s _ s' => s' = s.leaveLoop :=
  Quiet.of_keeps (fun _ => rfl) fun _ => rfl

mutual

theorem stmt_quiet (catalog : Catalog) : ∀ st,
    Quiet (stmt catalog st) fun s _ s' => Follows catalog (.stmt st) s s'
  | .let span mutable name type value => letStmt_quiet catalog span mutable name type value
  | .assign span op place value => assign_quiet catalog op place value span
  | .if span condition body none => by
    refine bind_condition (expr_quiet catalog condition) ((block_quiet catalog body).bind fun _ =>
      Quiet.pure fun s' s₁ hbody hs₁ s c hc hcondition => ?_)
    exact .ifOnly hcondition hc (hbody hs₁)
  | .if span condition body (some otherwise) => by
    refine bind_condition (expr_quiet catalog condition) ((block_quiet catalog body).bind fun _ =>
      (block_quiet catalog otherwise).mono
        fun s₂ _ s' hotherwise s₁ hbody hs₁ s c hc hcondition => ?_)
    have hthen := hbody hs₁
    exact .ifElse hcondition hc hthen (hotherwise (hthen.sound hs₁))
  | .for span counter start stop inclusive body => by
    refine (expr_quiet catalog start).bind fun lo => (expr_quiet catalog stop).bind fun hi =>
      (counterType_quiet lo hi _).bind fun found => openScope_quiet.bind fun _ => ?_
    -- Where the bounds give no type the check goes on with an unknown one, but not quietly.
    cases found with
    | none =>
      refine (declare_quiet counter .unknown false none).bind fun _ => enterLoop_quiet.bind fun _ =>
        (block_quiet catalog body).bind fun _ => leaveLoop_quiet.bind fun _ =>
          closeScope_quiet.mono fun _ _ _ _ _ _ _ _ _ _ _ _ _ _ s₂ hcounter s₁ hhi s hlo hs => ?_
      obtain ⟨l, rfl, hstart⟩ := hlo hs
      obtain ⟨h, rfl, hstop⟩ := hhi (hstart.sound hs).2
      obtain ⟨_, hv, _⟩ := hcounter l h rfl rfl
      cases hv
    | some t =>
      refine (declare_quiet counter t.type false t.family).bind fun _ =>
        enterLoop_quiet.bind fun _ => (block_quiet catalog body).bind fun _ =>
          leaveLoop_quiet.bind fun _ => closeScope_quiet.mono
            fun s₇ _ s₈ hs₈ s₆ hs₇ s₅ hbody s₄ hs₅ s₃ hs₄ s₂' hs₃ s₂ hcounter s₁ hhi s hlo hs => ?_
      subst hs₈ hs₇ hs₅ hs₄ hs₃
      obtain ⟨l, rfl, hstart⟩ := hlo hs
      obtain ⟨h, rfl, hstop⟩ := hhi (hstart.sound hs).2
      obtain ⟨_, ⟨⟩, hunify, hinteger⟩ := hcounter l h rfl rfl
      have hs₆ := (sound_counted hstart hstop hunify hinteger hs counter).2
      exact .for hstart hstop hunify hinteger (hbody hs₆)
  | .while span condition body => by
    refine bind_condition (expr_quiet catalog condition) (enterLoop_quiet.bind fun _ =>
      (block_quiet catalog body).bind fun _ => leaveLoop_quiet.mono
        fun s₃ _ s' hs' s₂ hbody s₁ hs₂ hs₁ s c hc hcondition => ?_)
    subst hs' hs₂
    exact .while hcondition hc (hbody hs₁.enterLoop)
  | .loop span body => by
    refine enterLoop_quiet.bind fun _ => (block_quiet catalog body).bind fun _ =>
      leaveLoop_quiet.mono fun s₂ _ s' hs' s₁ hbody s hs₁ hs => ?_
    subst hs₁ hs'
    exact .loop (hbody hs.enterLoop)
  | .jump span kind => (jump_quiet kind span).mono fun s _ s' h _ => by
      obtain ⟨hjump, rfl⟩ := h
      exact .jump hjump
  | .eval span value => Quiet.discard
      (S := fun s _ s' => Follows catalog (.stmt (.eval span value)) s s')
      ((expr_quiet catalog value).mono fun s _ s' h hs => by
        obtain ⟨_, _, hchecks⟩ := h hs
        exact .eval hchecks)
  | .nested span body => (block_quiet catalog body).mono fun s _ s' h hs => .nested (h hs)

theorem block_quiet (catalog : Catalog) : ∀ b,
    Quiet (block catalog b) fun s _ s' => Follows catalog (.block b) s s'
  | ⟨_, body⟩ => by
    refine openScope_quiet.bind fun _ => (stmts_quiet catalog body).bind fun _ =>
      closeScope_quiet.mono fun s₂ _ s' hs' s₁ hbody s hs₁ hs => ?_
    subst hs₁ hs'
    exact .block (hbody hs.openScope)

theorem stmts_quiet (catalog : Catalog) : ∀ ss,
    Quiet (stmts catalog ss) fun s _ s' => Follows catalog (.stmts ss) s s'
  | [] => Quiet.pure fun s _ => .nil
  | st :: ss => by
    refine (stmt_quiet catalog st).bind fun _ => (stmts_quiet catalog ss).mono
      fun s₁ _ s' hrest s hfirst hs => ?_
    have hstmt := hfirst hs
    exact .cons hstmt (hrest (hstmt.sound hs))

end

/-! ### Closures -/

theorem closure_quiet (catalog : Catalog) (c : Closure) :
    Quiet (closure catalog c) fun s _ s' => s = {} → ChecksClosure catalog c s' := by
  have hrest : Quiet (do
      openScope
      declare c.param .threadIds false none
      block catalog c.body
      closeScope : Check Unit) fun s _ s' => s = {} →
        (∀ type ∈ c.paramType, Ty.ofHost? type.type = some .threadIds) →
        ChecksClosure catalog c s' := by
    refine openScope_quiet.bind fun _ => (declare_quiet c.param .threadIds false none).bind fun _ =>
      (block_quiet catalog c.body).bind fun _ => closeScope_quiet.mono
        fun s₃ _ s' hs' s₂ hbody s₁ hs₂ s hs₁ hs hparam => ?_
    subst hs' hs₂ hs₁ hs
    exact .mk hparam (hbody (sound_initial c))
  unfold closure
  split
  · rename_i type htype
    split
    · exact (errorWithHelp_quiet _ _ _).abort fun _ => hrest.mono fun _ _ _ _ => trivial
    · rename_i hthreads
      refine hrest.mono fun s _ s' h hs => h hs fun type' htype' => ?_
      rw [htype, Option.mem_some_iff] at htype'
      exact htype' ▸ Decidable.not_not.mp hthreads
  · rename_i hnone
    exact hrest.mono fun s _ s' h hs => h hs fun type htype => (hnone type htype).elim

end Check

/-- A closure that is bound is derived by the rules, and the model is what they leave behind. -/
theorem Closure.checks_of_bind {c : Closure} {catalog : Catalog} {m : Model}
    (h : c.bind catalog = .ok m) : ∃ s, Check.ChecksClosure catalog c s ∧ m = s.model := by
  unfold Closure.bind at h
  split at h
  rename_i s hrun
  obtain rfl : ((Check.closure catalog c).run {}).2 = s := congrArg Prod.snd hrun
  split at h
  · rename_i hquiet
    cases h
    exact ⟨_, (Check.closure_quiet catalog c {} hquiet).2 rfl, rfl⟩
  · cases h

end ComputeKernel
