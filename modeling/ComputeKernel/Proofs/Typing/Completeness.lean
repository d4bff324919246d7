import ComputeKernel.Proofs.Typing.Acceptance
import ComputeKernel.Proofs.Typing.Settling

/-!
Checks find what the rules allow. Every derivation, from a sound state, is a run of the checker that
reports nothing, with the same types and the same state behind it. So the checker accepts a closure
exactly if there is a derivation for it, and there is one derivation at most.
-/

namespace ComputeKernel

namespace Check

open Shader (Receiver Member hasRule scalarMethod? intrinsic? intrinsicOwner Intrinsic)

variable {α β : Type} {s s' s₁ s₂ : Checking}

/-- What a check answers from a state, and the state that it leaves behind. -/
def Answers (p : Check α) (s : Checking) (a : α) (s' : Checking) : Prop :=
  p.run s = (a, s')

namespace Answers

variable {p : Check α} {f : α → Check β} {a : α} {b : β}

theorem pure (a : α) (s : Checking) : Answers (Pure.pure a) s a s := rfl

theorem bind (hp : Answers p s a s₁) (hf : Answers (f a) s₁ b s') : Answers (p >>= f) s b s' := by
  show (f (p.run s).1).run (p.run s).2 = (b, s')
  rw [hp]
  exact hf

theorem discard (hp : Answers p s a s') : Answers (Functor.discard p) s ⟨⟩ s' := by
  show (PUnit.unit, (p.run s).2) = _
  rw [hp]

end Answers

/-! ### Notes -/

theorem setType_answers (span : Span) (t : Ty) (s : Checking) :
    Answers (setType span t) s ⟨⟩ (s.noteType span t) := rfl

theorem setReferent_answers (span : Span) (r : Referent) (s : Checking) :
    Answers (setReferent span r) s ⟨⟩ (s.noteReferent span r) := rfl

theorem Answers.typed {p : Check (Option Typed)} {t : Typed} (h : Answers p s (some t) s')
    (span : Span) : Answers (p >>= Check.typed span) s (some t) (s'.noteType span t.type) :=
  h.bind ((setType_answers span t.type s').bind (.pure _ _))

/-! ### Types that settle -/

theorem settle_answers (t : Typed) (target : Ty) (s : Checking) :
    Answers (settle t target) s ⟨⟩ (s.settle t target) := by
  obtain ⟨type, family, origin⟩ := t
  cases origin with
  | none => rfl
  | some id => rfl

theorem coerce_answers {t : Typed} {target : Ty} (h : t.Fits target) (s : Checking) :
    Answers (coerce t target) s true (s.settle t target) := by
  unfold coerce
  by_cases htype : t.type = target
  · rw [if_pos htype]
    exact (settle_answers t target s).bind (.pure true _)
  · rw [if_neg htype]
    obtain ⟨family, k, hfamily, rfl, haccepts⟩ := h.resolve_left htype
    simp only [hfamily, Ty.scalar, if_pos haccepts]
    exact (settle_answers t _ s).bind (.pure true _)

theorem coerce_answers_false {t : Typed} {target : Ty} (h : ¬ t.Fits target) (s : Checking) :
    Answers (coerce t target) s false s := by
  unfold coerce
  rw [if_neg fun htype => h (Or.inl htype)]
  split
  · rename_i family k hfamily
    rw [if_neg fun haccepts => h (Or.inr ⟨family, k, hfamily, rfl, haccepts⟩)]
    exact .pure false s
  · exact .pure false s

/-! ### Operators -/

theorem Unifies.answers {a b t : Typed} (h : Unifies a b s t s') :
    Answers (unify a b) s (some t) s' := by
  unfold unify
  cases h with
  | settled ha hb htype =>
    simp only [ha, hb, if_pos htype]
    exact .pure _ _
  | left ha hb hfits =>
    simp only [ha, hb]
    exact (coerce_answers hfits s).bind (.pure _ _)
  | right ha hb hfits =>
    simp only [ha, hb]
    exact (coerce_answers hfits s).bind (.pure _ _)
  | @«open» f ha hb htype =>
    simp only [ha, hb]
    rw [if_pos ⟨trivial, htype⟩]
    exact .pure _ _

theorem unary_answers {op : UnaryOp} {t : Typed} (h : hasUnary op t.type) (span : Span)
    (s : Checking) : Answers (unary op t span) s (some t.detached) s := by
  unfold unary
  rw [if_pos h]
  exact .pure _ _

theorem Matches.answers {v : ValueType} {other : Typed} (h : Matches v other s s') :
    Answers (do
      if other.type.isAggregate then return Ty.value v == other.type
      else coerce other (.scalar v.kind) : Check Bool) s true s' := by
  unfold Matches at h
  split
  · rename_i haggregate
    rw [if_pos haggregate] at h
    obtain ⟨htype, rfl⟩ := h
    rw [htype, beq_self_eq_true]
    exact .pure true s'
  · rename_i haggregate
    rw [if_neg haggregate] at h
    obtain ⟨hfits, rfl⟩ := h
    exact coerce_answers hfits s

theorem aggregateBinary_answers {receiver : Receiver} {member : Member} {op : BinaryOp}
    {l r : Typed} {v : ValueType} (hmember : Member.ofOperator? op = some member)
    (hrule : hasRule receiver member) (hmain : (mainOperand l r).1.type = .value v)
    (hmatches : Matches v (mainOperand l r).2 s s') (hhas : hasAggregate op v.kind) (span : Span) :
    Answers (aggregateBinary receiver op l r span) s
      (some { type := .value (if op.isComparison then v.withKind .bool else v) }) s' := by
  unfold aggregateBinary
  rw [show (if l.type.isAggregate = true then (l, r) else (r, l)) = mainOperand l r from rfl]
  split
  rename_i main other hpair
  rw [hpair] at hmain hmatches
  have hsome : (Member.ofOperator? op).any (hasRule receiver) = true := by simp [hmember, hrule]
  simp only at hmain hmatches ⊢
  simp only [hsome, hmain, Bool.not_true, Bool.false_eq_true, if_false]
  refine hmatches.answers.bind ?_
  simp only [hhas, Bool.not_true, Bool.false_eq_true, if_false]
  split <;> exact .pure _ _

theorem Operates.answers {op : BinaryOp} {l r t : Typed} (h : Operates op l r s t s')
    (span : Span) : Answers (binary op l r span) s (some t) s' := by
  unfold binary
  cases h with
  | logical hop hl hr =>
    rw [if_pos hop, if_pos ⟨hl, hr⟩]
    exact .pure _ _
  | shift hop hshift hl hr hk hk' =>
    have hinteger : (l.isInteger && r.isInteger) = true := by
      simp [Typed.isInteger, hl, hr, Ty.isInteger, hk, hk']
    rw [if_neg hop, hl, hr]
    simp only [Receiver.ofOperands?, scalarBinary, hl, hr, if_pos hshift, if_pos hinteger]
    exact .pure _ _
  | @comparison k k' k'' common _ hop hshift hcomparison hl hr hunify hkind hhas =>
    have hany : common.type.kind?.any (hasScalar op) = true := by
      simp [hkind, Ty.kind?, Ty.value?, ValueType.kind, hhas]
    rw [if_neg hop, hl, hr]
    simp only [Receiver.ofOperands?, scalarBinary, hl, hr, if_neg hshift]
    refine hunify.answers.bind ?_
    simp only [hany, hcomparison]
    exact .pure _ _
  | @scalar k k' k'' common _ hop hshift hcomparison hl hr hunify hkind hhas =>
    have hany : common.type.kind?.any (hasScalar op) = true := by
      simp [hkind, Ty.kind?, Ty.value?, ValueType.kind, hhas]
    rw [if_neg hop, hl, hr]
    simp only [Receiver.ofOperands?, scalarBinary, hl, hr, if_neg hshift]
    refine hunify.answers.bind ?_
    simp only [hany, hcomparison]
    exact .pure _ _
  | aggregate hop hreceiver hmember hrule hmain hmatches hhas =>
    rw [if_neg hop]
    simp only [hreceiver]
    exact aggregateBinary_answers hmember hrule hmain hmatches hhas span

theorem Casts.answers {t : Typed} {target : TypeRef} {l : ScalarKind} (h : Casts t target l)
    (s : Checking) : Answers (cast t target) s (some { type := .scalar l }) s := by
  obtain ⟨htarget, hbool, k, ht, hkinds⟩ := h
  unfold cast
  rw [ht, htarget]
  cases l with
  | bool => exact (hbool rfl).elim
  | _ =>
    simp only [Ty.scalar]
    rw [if_neg hkinds]
    exact .pure _ _

/-! ### Members -/

theorem field_answers {receiver : Typed} {member : Name} {type : Ty}
    (h : componentType? receiver.type member.text = some type) (s : Checking) :
    Answers (field receiver member) s (some { type }) s := by
  unfold field
  rw [h]
  exact .pure _ _

theorem CoercesAll.answers {type : Ty} {args : List Argument} (h : CoercesAll type args s s') :
    Answers (methodArguments type args) s ⟨⟩ s' := by
  induction h with
  | nil => exact .pure _ _
  | cons hfits _ ih =>
    rw [methodArguments]
    exact (coerce_answers hfits _).bind ih

theorem HasMethod.answers {r : Typed} {member : Name} {args : List Argument} {type : Ty}
    (h : HasMethod r member args s type s') :
    Answers (method r member args.length (some args)) s (some { type }) s' := by
  unfold method
  cases h with
  | swizzle hr hargs hswizzle =>
    subst hargs
    simp only [hr]
    rw [if_pos ⟨rfl, hswizzle⟩]
    exact .pure _ _
  | element hr hargs hposition hrow hcolumn =>
    subst hargs
    simp only [hr, List.length_nil, if_true, hposition]
    rw [if_pos ⟨hrow, hcolumn⟩]
    exact .pure _ _
  | @scalar k m _ hr hk hm hkind hcount hargs =>
    simp only [hr]
    rw [if_neg hk, hm]
    simp only [scalarMethod]
    have hnot : (! k.isFloat && ! m.onIntegers) = false := by
      rcases hkind with h | h <;> simp [h]
    rw [hnot, hcount]
    simp only [Bool.false_eq_true, if_false, ne_eq, not_true_eq_false]
    exact (coerce_answers (.inl hr) s).discard.bind (hargs.answers.bind (.pure _ _))

/-! ### Calls -/

theorem IntrinsicArguments.answers {kind : ScalarKind} {common : ValueType} {args : List Argument}
    (h : IntrinsicArguments kind common args s s') (name : String) :
    Answers (intrinsicArguments name kind (.value common) args) s true s' := by
  induction h with
  | nil => exact .pure _ _
  | cons hfits _ ih => exact (coerce_answers hfits _).bind ih

theorem commonType_answers {args : List Argument} {a : Argument} {kind : ScalarKind}
    (hanchor : anchor? args = some a) (hkind : a.typed.type.kind? = some kind)
    (hargs : IntrinsicArguments kind (commonShape kind args) args s s') (name : String) :
    Answers (commonType name args) s (some (commonShape kind args)) s' := by
  unfold commonType
  rw [show ((args.find? fun a => a.typed.family.isNone) <|> args.head?) = some a from hanchor]
  simp only [Option.bind_some, hkind]
  exact (hargs.answers name).bind (.pure _ _)

theorem IntrinsicResult.answers {i : Intrinsic} {args : List Argument} {type : Ty}
    (h : IntrinsicResult i args s type s') (span : Span) :
    Answers (intrinsicResult i args span) s (some { type }) s' := by
  unfold intrinsicResult
  cases h with
  | operands hresult hanchor hkind hargs =>
    rw [hresult]
    exact (commonType_answers hanchor hkind hargs i.name).bind (.pure _ _)
  | component hresult hanchor hkind hargs =>
    rw [hresult]
    exact (commonType_answers hanchor hkind hargs i.name).bind (.pure _ _)
  | bool hresult =>
    rw [hresult]
    exact .pure _ _
  | product hresult hargs ha hb hp =>
    rw [hresult, hargs]
    simp only [Check.product, ha, hb, hp]
    exact .pure _ _

theorem Supplies.answers {built : ValueType} {args : List Argument} {count : UInt8}
    (h : Supplies built args s count s') :
    Answers (suppliedComponents built args) s (some count) s' := by
  induction h with
  | nil => exact .pure _ _
  | vector htype _ ih =>
    simp only [suppliedComponents, htype, if_true]
    exact (Answers.pure _ _).bind (ih.bind (.pure _ _))
  | @scalar arg _ s _ _ _ htype hfits _ ih =>
    simp only [suppliedComponents, htype]
    have hone := (coerce_answers hfits s).bind
      (f := fun done => pure (if done then some (1 : UInt8) else none)) (.pure (some 1) _)
    exact hone.bind (ih.bind (.pure _ _))

theorem Calls.answers {callee : Path} {args : List Argument} {type : Ty}
    (h : Calls callee args s type s') (calleeSpan span : Span) :
    Answers (call callee calleeSpan args.length (some args) span) s (some { type }) s' := by
  unfold call
  cases h with
  | intrinsic howner hi hcount hvalues hresult =>
    have hnone : (args.find? fun a => ! a.typed.type.isValue) = none := by
      simpa [List.find?_eq_none] using hvalues
    simp only [howner, if_true, Check.intrinsic, hi, hcount, ne_eq, not_true_eq_false, if_false,
      hnone]
    exact hresult.answers span
  | new howner hne hlast hv hscalar hsupplies =>
    simp only [howner, if_neg hne, hlast, isConstructor, construct, hv]
    simp only [beq_self_eq_true, Bool.true_or, if_true, if_neg hscalar]
    refine hsupplies.answers.bind ?_
    simp only [if_true]
    exact .pure _ _
  | splat howner hne hlast hv hscalar hargs hfits =>
    subst hargs
    simp only [howner, if_neg hne, hlast, isConstructor, construct, hv, splatValue]
    simp only [beq_self_eq_true, Bool.or_true, if_true, if_neg hscalar]
    exact (coerce_answers hfits s).bind (.pure _ _)

/-! ### Indexes -/

theorem element_answers {base index : Typed} {type : Ty} (hinteger : index.type.isInteger)
    (htype : elementType? base.type = some type) (baseSpan indexSpan : Span) (s : Checking) :
    Answers (element base baseSpan index indexSpan) s (some { type }) s := by
  unfold element
  rw [Typed.isInteger, hinteger]
  simp only [Bool.not_true, Bool.false_eq_true, if_false, htype]
  exact .pure _ _

theorem Selects.answers {rows columns : Nat} {items : List Expr}
    (h : Selects rows columns items s s') : Answers (selectors rows columns items) s true s' := by
  induction h with
  | nil => exact .pure _ _
  | @cons span path row column items s s' hposition hrow hcolumn hrest ih =>
    unfold selectors
    simp only [hposition]
    rw [if_pos ⟨hrow, hcolumn⟩]
    exact (setType_answers span .matrixIndex s).bind ih

theorem matrixSwizzle_answers {k : ScalarKind} {rows columns : Nat} {items : List Expr}
    (hlo : 2 ≤ items.length) (hhi : items.length ≤ 4) (hselects : Selects rows columns items s s')
    (span : Span) : Answers (matrixSwizzle k rows columns items span) s
      (some { type := .vector k items.length })
      (s'.noteType span (.selectors items.length)) := by
  unfold matrixSwizzle
  simp only
  rw [if_neg (by omega)]
  exact hselects.answers.bind rfl

/-! ### Names -/

theorem NamesStatic.answers {catalog : Catalog} {path : Path} {index : Nat} {t : Ty}
    (h : NamesStatic catalog path index t) (span : Span) (s : Checking) :
    Answers (static catalog.statics path span) s (some { type := t })
      (s.noteReferent span (.static index)) := by
  obtain ⟨hnamed, decl, hdecl, htype⟩ := h
  simp only [static, hnamed, hdecl, staticType, htype]
  rfl

theorem localType_answers {id : Nat} {l : Local} (hl : s.model.local? id = some l)
    (hknown : l.type ≠ .unknown) : Answers (localType id) s (some (useOf id l)) s := by
  have hget : Answers get s s s := rfl
  refine hget.bind ?_
  simp only [hl]
  rw [if_neg hknown]
  exact .pure _ _

theorem NamesCapture.answers {catalog : Catalog} {text : String} {index : Nat} {t : Ty}
    (h : NamesCapture catalog text index t) (hnone : s.find? text = none) (span : Span) :
    Answers (name catalog text span) s (some { type := t })
      (s.noteReferent span (.capture index)) := by
  obtain ⟨hindex, f, hf, htype⟩ := h
  have hfind : Answers (findLocal? text) s none s := by
    show (s.find? text, s) = _
    rw [hnone]
  refine hfind.bind ?_
  simp only [hindex, hf, captureType, htype]
  rfl

/-! ### Expressions -/

theorem requireBool_answers {t : Typed} (h : t.type = .bool) (span : Span) (s : Checking) :
    Answers (requireBool (some t) span) s ⟨⟩ s := by
  simp only [requireBool, h, ne_eq, not_true_eq_false, if_false]
  exact .pure _ _

theorem Unifies.choice_answers {yes no t : Typed} (h : Unifies yes no s t s') (span : Span) :
    Answers (choice yes no span) s (some t) s' :=
  h.answers.bind (.pure _ _)

/-- What is said of the run for a judgment. -/
def Judgment.Answered (catalog : Catalog) (s : Checking) : Judgment → Checking → Prop
  | .expr e t, s' => Answers (Check.expr catalog e) s (some t) s'
  | .args es ts, s' => Answers (Check.exprs catalog es) s (ts.map some) s'

theorem Checks.answered {catalog : Catalog} {j : Judgment} (h : Checks catalog s j s')
    (hs : s.Sound) : j.Answered catalog s s' := by
  induction h with
  | literal => exact rfl
  | @«local» s span text id l hfind hl =>
    have hfound : Answers (findLocal? text) s (some id) s := by
      show (s.find? text, s) = _
      rw [hfind]
    obtain ⟨l', hl', hlocal⟩ := hs.local_of_find? hfind
    obtain rfl := Option.some.inj (hl'.symm.trans hl)
    have huse := localType_answers (s := s.noteReferent span (.local id)) hl
      (ne_unknown_of_isLocalType hlocal.isLocal)
    have hname : Answers (name catalog text span) s (some (useOf id l'))
        (s.noteReferent span (.local id)) :=
      hfound.bind ((setReferent_answers span (.local id) s).bind huse)
    exact hname.typed span
  | capture hnone hcapture => exact (hcapture.answers hnone _).typed _
  | @static s span text index t hnone hfield hstatic =>
    have hfound : Answers (findLocal? text) s none s := by
      show (s.find? text, s) = _
      rw [hnone]
    have hname : Answers (name catalog text span) s (some { type := t })
        (s.noteReferent span (.static index)) := by
      refine hfound.bind ?_
      simp only [hfield]
      exact hstatic.answers span s
    exact hname.typed span
  | @path s span path index t howner hstatic =>
    have hpath : Answers (Check.path catalog path span) s (some { type := t })
        (s.noteReferent span (.static index)) := by
      unfold Check.path
      rw [if_neg howner]
      exact hstatic.answers span s
    exact hpath.typed span
  | unary _ hop ih => exact (ih hs).bind ((unary_answers hop _ _).typed _)
  | binary hl _ hop ihl ihr =>
    have hs₁ := (hl.sound hs).2
    exact (ihl hs).bind ((ihr hs₁).bind ((hop.answers _).typed _))
  | cast _ hcasts ih => exact (ih hs).bind ((hcasts.answers _).typed _)
  | field _ htype ih => exact (ih hs).bind ((field_answers htype _).typed _)
  | method he hargs hmethod ih ihargs =>
    have hs₁ := (he.sound hs).2
    refine (ih hs).bind ((ihargs hs₁).bind ?_)
    rw [pairArguments_some, ← length_arguments (hargs.length_eq _ _ rfl)]
    exact hmethod.answers.typed _
  | call hargs hcalls ih =>
    refine (ih hs).bind ?_
    rw [pairArguments_some, ← length_arguments (hargs.length_eq _ _ rfl)]
    exact (hcalls.answers _ _).typed _
  | element hbase hnot _ hinteger htype ihbase ih =>
    refine (ihbase hs).bind ?_
    simp only [hnot]
    exact (ih (hbase.sound hs).2).bind ((element_answers hinteger htype _ _ _).typed _)
  | swizzle _ htype hlo hhi hselects ih =>
    refine (ih hs).bind ?_
    simp only [htype, swizzleItems?]
    exact (matrixSwizzle_answers hlo hhi hselects _).typed _
  | paren _ ih => exact (ih hs).typed _
  | choice hcondition hbool hyes _ hunify ihc ihy ihn =>
    have hs₁ := (hcondition.sound hs).2
    have hs₂ := (hyes.sound hs₁).2
    exact (ihc hs).bind ((requireBool_answers hbool _ _).bind ((ihy hs₁).bind ((ihn hs₂).bind
      ((hunify.choice_answers _).typed _))))
  | nil => exact .pure _ _
  | cons he _ ih ihs => exact (ih hs).bind ((ihs (he.sound hs).2).bind (.pure _ _))

/-- From a sound state there is one way to check an expression at most. -/
theorem Checks.unique {catalog : Catalog} {e : Expr} {t t' : Typed}
    (h : Checks catalog s (.expr e t) s₁) (h' : Checks catalog s (.expr e t') s₂)
    (hs : s.Sound) : t = t' ∧ s₁ = s₂ := by
  have heq : (some t, s₁) = (some t', s₂) := (h.answered hs).symm.trans (h'.answered hs)
  simpa using heq

/-! ### Assignments -/

theorem Assignable.answers {e : Expr} (h : Assignable s.model e) :
    Answers (assignable e) s ⟨⟩ s := by
  induction h with
  | @name span text hname =>
    have hget : Answers get s s s := rfl
    refine hget.bind ?_
    unfold NameAssignable at hname
    split
    · rename_i id hreferent
      rw [hreferent] at hname
      have hmutable : ((s.model.local? id).any fun l => ! l.mutable) = false := by
        rw [Option.any_eq_false]
        intro l hl
        simp [hname l hl]
      rw [hmutable]
      exact .pure _ _
    · rename_i hreferent
      rw [hreferent] at hname
      exact hname.elim
    · rename_i hreferent
      rw [hreferent] at hname
      exact hname.elim
    · exact .pure _ _
  | element htype =>
    have hget : Answers get s s s := rfl
    refine hget.bind ?_
    rw [htype]
    exact .pure _ _
  | index hnot _ ih =>
    have hget : Answers get s s s := rfl
    refine hget.bind ?_
    split
    · rename_i htype
      exact (hnot _ _ htype).elim
    · rename_i htype
      exact (hnot _ _ htype).elim
    · exact ih
  | field _ ih => exact ih
  | paren _ ih => exact ih

theorem Agrees.answers {target value : Typed} (h : Agrees target value s s') (span : Span) :
    Answers (fits none target value span) s (some true) s' := by
  cases h with
  | value hfits => exact (coerce_answers hfits s).bind (.pure _ _)
  | target hnot hfits =>
    exact (coerce_answers_false hnot s).bind ((coerce_answers hfits s).bind (.pure _ _))

theorem Assigns.answers {target value : Typed} {op : Option BinaryOp}
    (h : Assigns target value s op s') (span : Span) :
    Answers (fits op target value span) s (some true) s' := by
  cases h with
  | plain hagrees => exact hagrees.answers span
  | compound hop hfits =>
    exact (hop.answers span).bind ((coerce_answers hfits _).bind (.pure _ _))

/-! ### Statements -/

theorem Declares.answers {type : TypeRef} {t : Ty} (h : Declares type t) (s : Checking) :
    Answers (declaredType type none) s t s := by
  unfold declaredType
  rw [h.1, Option.filter_some_pos h.2]
  exact .pure _ _

theorem declaredType_answers {type : TypeRef} {t : Ty} {v : Typed} (h : Declares type t)
    (hfits : v.Fits t) (span : Span) (s : Checking) :
    Answers (declaredType type (some (v, span))) s t (s.settle v t) := by
  unfold declaredType
  rw [h.1, Option.filter_some_pos h.2]
  exact (coerce_answers hfits s).bind (.pure _ _)

theorem counterType_answers {lo hi t : Typed} (hunify : Unifies lo hi s t s')
    (hinteger : t.isInteger) (span : Span) :
    Answers (counterType (some lo) (some hi) span) s (some t) s' := by
  refine hunify.answers.bind ?_
  simp only [hinteger, if_true]
  exact .pure _ _

theorem jump_answers {kind : Jump} (h : kind = .return ∨ s.loops ≠ 0) (span : Span) :
    Answers (jump kind span) s ⟨⟩ s := by
  have hget : Answers get s s s := rfl
  refine hget.bind ?_
  cases kind with
  | «return» => exact .pure _ _
  | «break» | «continue» =>
    simp only [if_neg (h.resolve_left nofun)]
    exact .pure _ _

theorem declare_answers (name : Name) (type : Ty) (mutable : Bool) (family : Option LiteralFamily)
    (s : Checking) : Answers (declare name type mutable family) s ⟨⟩
      (s.declare name type mutable family) := rfl

/-- What is said of the run for a statement. -/
def StmtJudgment.Answered (catalog : Catalog) (s : Checking) : StmtJudgment → Checking → Prop
  | .stmt st, s' => Answers (Check.stmt catalog st) s ⟨⟩ s'
  | .stmts sts, s' => Answers (Check.stmts catalog sts) s ⟨⟩ s'
  | .block b, s' => Answers (Check.block catalog b) s ⟨⟩ s'

theorem ChecksStmt.answered {catalog : Catalog} {j : StmtJudgment} (h : ChecksStmt catalog s j s')
    (hs : s.Sound) : j.Answered catalog s s' := by
  induction h with
  | declare hdeclares =>
    refine Answers.bind (a := none) rfl ?_
    exact (hdeclares.answers _).bind (declare_answers _ _ _ _ _)
  | @annotated s s₁ _ _ _ _ t e v hvalue hdeclares hfits =>
    have he : Answers (expr catalog e) s (some v) s₁ := hvalue.answered hs
    refine Answers.bind (a := some (v, e.span)) (he.bind (.pure _ _)) ?_
    exact (declaredType_answers hdeclares hfits e.span s₁).bind (declare_answers _ _ _ _ _)
  | @inferred s s₁ _ _ _ e v hvalue hlocal =>
    have he : Answers (expr catalog e) s (some v) s₁ := hvalue.answered hs
    have hfound : Answers (inferredType v e.span) s₁ (v.type, v.family) s₁ := by
      unfold inferredType
      rw [if_pos hlocal]
      exact .pure _ _
    refine Answers.bind (a := some (v, e.span)) (he.bind (.pure _ _)) ?_
    exact hfound.bind (declare_answers _ _ _ _ _)
  | @assign s s₁ s₂ s' _ _ place value target found hplace hvalue hassignable hassigns =>
    have hp : Answers (expr catalog place) s (some target) s₁ := hplace.answered hs
    have hv : Answers (expr catalog value) s₁ (some found) s₂ :=
      hvalue.answered (hplace.sound hs).2
    exact hp.bind (hv.bind (hassignable.answers.bind ((hassigns.answers _).bind (.pure _ _))))
  | @ifOnly s s₁ _ _ condition c _ hcondition hbool _ ih =>
    have hc : Answers (expr catalog condition) s (some c) s₁ := hcondition.answered hs
    exact hc.bind ((requireBool_answers hbool _ _).bind
      ((ih (hcondition.sound hs).2).bind (.pure _ _)))
  | @ifElse s s₁ _ _ _ condition c _ _ hcondition hbool hbody _ ih ihElse =>
    have hc : Answers (expr catalog condition) s (some c) s₁ := hcondition.answered hs
    have hs₁ := (hcondition.sound hs).2
    exact hc.bind ((requireBool_answers hbool _ _).bind
      ((ih hs₁).bind (ihElse (hbody.sound hs₁))))
  | @«for» s s₁ s₂ s₃ _ _ counter start stop _ _ lo hi t hstart hstop hunify hinteger _ ih =>
    have hlo : Answers (expr catalog start) s (some lo) s₁ := hstart.answered hs
    have hhi : Answers (expr catalog stop) s₁ (some hi) s₂ := hstop.answered (hstart.sound hs).2
    have hbody := ih (sound_counted hstart hstop hunify hinteger hs counter).2
    have hopen : Answers openScope s₃ ⟨⟩ s₃.openScope := rfl
    have hclose (s' : Checking) : Answers (do leaveLoop; closeScope : Check Unit) s' ⟨⟩
        s'.leaveLoop.closeScope := rfl
    have henter (s : Checking) : Answers enterLoop s ⟨⟩ s.enterLoop := rfl
    exact hlo.bind (hhi.bind ((counterType_answers hunify hinteger _).bind (hopen.bind
      ((declare_answers _ _ _ _ _).bind ((henter _).bind (hbody.bind (hclose _)))))))
  | @«while» s s₁ _ _ condition c _ hcondition hbool _ ih =>
    have hc : Answers (expr catalog condition) s (some c) s₁ := hcondition.answered hs
    have henter : Answers enterLoop s₁ ⟨⟩ s₁.enterLoop := rfl
    have hleave (s' : Checking) : Answers leaveLoop s' ⟨⟩ s'.leaveLoop := rfl
    exact hc.bind ((requireBool_answers hbool _ _).bind (henter.bind
      ((ih (hcondition.sound hs).2.enterLoop).bind (hleave _))))
  | @loop s _ _ _ _ ih =>
    have henter : Answers enterLoop s ⟨⟩ s.enterLoop := rfl
    have hleave (s' : Checking) : Answers leaveLoop s' ⟨⟩ s'.leaveLoop := rfl
    exact henter.bind ((ih hs.enterLoop).bind (hleave _))
  | jump hjump => exact jump_answers hjump _
  | @eval s s' _ e t hvalue =>
    have he : Answers (expr catalog e) s (some t) s' := hvalue.answered hs
    exact he.discard
  | nested _ ih => exact ih hs
  | nil => exact .pure _ _
  | cons hfirst _ ih ihs => exact (ih hs).bind (ihs (hfirst.sound hs))
  | @block s s' _ _ _ ih =>
    have hopen : Answers openScope s ⟨⟩ s.openScope := rfl
    have hclose : Answers closeScope s' ⟨⟩ s'.closeScope := rfl
    exact hopen.bind ((ih hs.openScope).bind hclose)

theorem ChecksClosure.answers {catalog : Catalog} {c : Closure} (h : ChecksClosure catalog c s') :
    Answers (closure catalog c) {} ⟨⟩ s' := by
  cases h with
  | @mk s hparam hbody =>
    have hblock : Answers (block catalog c.body) _ ⟨⟩ s := hbody.answered (sound_initial c)
    have hopen : Answers openScope {} ⟨⟩ ({} : Checking).openScope := rfl
    have hclose : Answers closeScope s ⟨⟩ s.closeScope := rfl
    have hrest : Answers (do
        openScope
        declare c.param .threadIds false none
        block catalog c.body
        closeScope : Check Unit) {} ⟨⟩ s.closeScope :=
      hopen.bind ((declare_answers c.param .threadIds false none _).bind (hblock.bind hclose))
    unfold closure
    cases hp : c.paramType with
    | none => exact hrest
    | some type =>
      simp only
      rw [if_neg (not_not_intro (hparam type (by rw [hp]; rfl)))]
      exact hrest

end Check

/-! ### Nothing is reported -/

theorem Checking.Settling.diagnostics_eq {ts : List Typed} {s s' : Checking}
    (h : s.Settling ts s') : s'.diagnostics = s.diagnostics := by
  induction h with
  | refl => rfl
  | step _ _ _ ih =>
    rw [ih]
    unfold Checking.settle
    split <;> rfl

namespace Check

variable {catalog : Catalog} {s s' : Checking}

theorem Selects.diagnostics_eq {rows columns : Nat} {items : List Expr}
    (h : Selects rows columns items s s') : s'.diagnostics = s.diagnostics := by
  induction h with
  | nil => rfl
  | cons _ _ _ _ ih => exact ih

theorem Checks.diagnostics_eq {j : Judgment} (h : Checks catalog s j s') :
    s'.diagnostics = s.diagnostics := by
  induction h with
  | literal | «local» | capture | static | path | nil => rfl
  | unary _ _ ih | cast _ _ ih | field _ _ ih | paren _ ih => exact ih
  | binary _ _ hop ihl ihr => exact hop.settling.diagnostics_eq.trans (ihr.trans ihl)
  | method _ _ hmethod ih ihargs => exact hmethod.settling.diagnostics_eq.trans (ihargs.trans ih)
  | call _ hcalls ih => exact hcalls.settling.diagnostics_eq.trans ih
  | element _ _ _ _ _ ihbase ih => exact ih.trans ihbase
  | swizzle _ _ _ _ hselects ih => exact hselects.diagnostics_eq.trans ih
  | choice _ _ _ _ hunify ihc ihy ihn =>
    exact hunify.settling.diagnostics_eq.trans (ihn.trans (ihy.trans ihc))
  | cons _ _ ih ihs => exact ihs.trans ih

theorem ChecksStmt.diagnostics_eq {j : StmtJudgment} (h : ChecksStmt catalog s j s') :
    s'.diagnostics = s.diagnostics := by
  induction h with
  | declare | jump | nil => rfl
  | @annotated _ s₁ _ _ _ _ t _ v hvalue _ hfits =>
    have hsettling : s₁.Settling [v] (s₁.settle v t) := .single List.mem_cons_self hfits
    exact hsettling.diagnostics_eq.trans hvalue.diagnostics_eq
  | inferred hvalue _ => exact hvalue.diagnostics_eq
  | assign hplace hvalue _ hassigns =>
    exact hassigns.settling.diagnostics_eq.trans (hvalue.diagnostics_eq.trans hplace.diagnostics_eq)
  | ifOnly hcondition _ _ ih | «while» hcondition _ _ ih => exact ih.trans hcondition.diagnostics_eq
  | ifElse hcondition _ _ _ ih ihElse => exact ihElse.trans (ih.trans hcondition.diagnostics_eq)
  | «for» hstart hstop hunify _ _ ih =>
    exact ih.trans (hunify.settling.diagnostics_eq.trans
      (hstop.diagnostics_eq.trans hstart.diagnostics_eq))
  | loop _ ih | nested _ ih | block _ ih => exact ih
  | eval hvalue => exact hvalue.diagnostics_eq
  | cons _ _ ih ihs => exact ihs.trans ih

theorem ChecksClosure.diagnostics_eq {c : Closure} (h : ChecksClosure catalog c s) :
    s.diagnostics = [] := by
  cases h with
  | mk _ hbody => exact hbody.diagnostics_eq

end Check

/-- A closure with a derivation is bound, to the model that the derivation leaves behind. -/
theorem Check.ChecksClosure.bind {c : Closure} {catalog : Catalog} {s : Checking}
    (h : Check.ChecksClosure catalog c s) : c.bind catalog = .ok s.model := by
  unfold Closure.bind
  rw [show (Check.closure catalog c).run {} = (⟨⟩, s) from h.answers]
  simp only [h.diagnostics_eq]

/-- The rules say which closures are bound. -/
theorem Closure.bind_eq_ok_iff {c : Closure} {catalog : Catalog} {m : Model} :
    c.bind catalog = .ok m ↔ ∃ s, Check.ChecksClosure catalog c s ∧ m = s.model := by
  constructor
  · exact c.checks_of_bind
  · rintro ⟨s, h, rfl⟩
    exact h.bind

end ComputeKernel
