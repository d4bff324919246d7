import ComputeKernel.Proofs.Parsing.Layout
import ComputeKernel.Proofs.Typing.Rules

/-!
What checking leaves as it was. Types and resolutions are noted inside the range of what is checked
only; locals are added behind the others, and of a local only its type ever changes. As the ranges
of a tree nest, what was noted for a part of it is still noted when all of it has been checked.
-/

namespace ComputeKernel

/-- What never changes of a local. -/
def Local.head (l : Local) : Name × Bool := (⟨l.name, l.span⟩, l.mutable)

/-- What never changes of the locals of a model. -/
def Model.heads (m : Model) : List (Name × Bool) := m.locals.map Local.head

/-- A local stays where it is, with all but its type. -/
theorem Model.local?_of_heads {m m' : Model} (h : m.heads <+: m'.heads) {id : Nat} {l : Local}
    (hl : m.local? id = some l) : ∃ l', m'.local? id = some l' ∧ l'.head = l.head := by
  have hhead : m.heads[id]? = some l.head := by
    simp only [Model.heads, List.getElem?_map]
    rw [show m.locals[id]? = some l from hl]
    rfl
  have hlt : id < m.heads.length := (List.getElem?_eq_some_iff.mp hhead).1
  have hkept := List.prefix_iff_getElem?.mp h id hlt
  rw [← List.getElem?_eq_getElem hlt, hhead] at hkept
  simp only [Model.heads, List.getElem?_map, Option.map_eq_some_iff] at hkept
  exact hkept

/-- Only types of locals differ between two states. -/
structure Checking.Settles (s s' : Checking) : Prop where
  types : s'.model.types = s.model.types
  referents : s'.model.referents = s.model.referents
  heads : s'.model.heads = s.model.heads

/-- Nothing outside the range from `lo` to `hi` is noted between two states. -/
structure Checking.Keeps (lo hi : Nat) (s s' : Checking) : Prop where
  types : ∀ x : Span, ¬ x.Between lo hi → s'.model.type? x = s.model.type? x
  referents : ∀ x : Span, ¬ x.Between lo hi → s'.model.referent? x = s.model.referent? x
  heads : s.model.heads <+: s'.model.heads

/-- Whether a model agrees with a state on the range from `lo` to `hi`, and has its locals. -/
structure Checking.Final (lo hi : Nat) (s : Checking) (m : Model) : Prop where
  types : ∀ x : Span, x.Between lo hi → m.type? x = s.model.type? x
  referents : ∀ x : Span, x.Between lo hi → m.referent? x = s.model.referent? x
  heads : s.model.heads <+: m.heads

namespace Checking

variable {lo lo' hi hi' : Nat} {s s₁ s' : Checking}

namespace Settles

theorem refl (s : Checking) : s.Settles s := ⟨rfl, rfl, rfl⟩

theorem trans (h : s.Settles s₁) (h' : s₁.Settles s') : s.Settles s' :=
  ⟨h'.types.trans h.types, h'.referents.trans h.referents, h'.heads.trans h.heads⟩

theorem settle (s : Checking) (t : Typed) (target : Ty) : s.Settles (s.settle t target) := by
  unfold Checking.settle
  split
  · refine ⟨rfl, rfl, ?_⟩
    simp only [Model.heads]
    apply List.ext_getElem?
    intro i
    simp only [List.getElem?_map, List.getElem?_modify]
    split
    · cases s.model.locals[i]? <;> rfl
    · simp
  · exact .refl s

theorem openScope (s : Checking) : s.Settles s.openScope := ⟨rfl, rfl, rfl⟩

theorem closeScope (s : Checking) : s.Settles s.closeScope := ⟨rfl, rfl, rfl⟩

theorem enterLoop (s : Checking) : s.Settles s.enterLoop := ⟨rfl, rfl, rfl⟩

theorem leaveLoop (s : Checking) : s.Settles s.leaveLoop := ⟨rfl, rfl, rfl⟩

theorem keeps (h : s.Settles s') : s.Keeps lo hi s' := by
  refine ⟨fun x _ => ?_, fun x _ => ?_, ?_⟩
  · rw [Model.type?, h.types, ← Model.type?]
  · rw [Model.referent?, h.referents, ← Model.referent?]
  · exact h.heads ▸ List.prefix_refl _

end Settles

namespace Keeps

theorem refl (s : Checking) : s.Keeps lo hi s := (Settles.refl s).keeps

theorem trans (h : s.Keeps lo hi s₁) (h' : s₁.Keeps lo hi s') : s.Keeps lo hi s' :=
  ⟨fun x hx => (h'.types x hx).trans (h.types x hx),
    fun x hx => (h'.referents x hx).trans (h.referents x hx), h.heads.trans h'.heads⟩

theorem mono (h : s.Keeps lo hi s') (hlo : lo' ≤ lo) (hhi : hi ≤ hi') : s.Keeps lo' hi' s' :=
  ⟨fun x hx => h.types x fun hin => hx (hin.mono hlo hhi),
    fun x hx => h.referents x fun hin => hx (hin.mono hlo hhi), h.heads⟩

theorem noteType {span : Span} (t : Ty) (hspan : span.Between lo hi) :
    s.Keeps lo hi (s.noteType span t) := by
  refine ⟨fun x hx => ?_, fun x _ => rfl, List.prefix_refl _⟩
  exact SpanMap.get?_insert_of_ne _ _ fun heq => hx (heq ▸ hspan)

theorem noteReferent {span : Span} (r : Referent) (hspan : span.Between lo hi) :
    s.Keeps lo hi (s.noteReferent span r) := by
  refine ⟨fun x _ => rfl, fun x hx => ?_, List.prefix_refl _⟩
  exact SpanMap.get?_insert_of_ne _ _ fun heq => hx (heq ▸ hspan)

theorem declare {name : Name} (type : Ty) (mutable : Bool) (family : Option LiteralFamily)
    (hspan : name.span.Between lo hi) : s.Keeps lo hi (s.declare name type mutable family) := by
  refine ⟨fun x _ => rfl, fun x hx => ?_, ?_⟩
  · exact SpanMap.get?_insert_of_ne _ _ fun heq => hx (heq ▸ hspan)
  · simp only [Model.heads, Checking.declare, List.map_append]
    exact List.prefix_append _ _

end Keeps

namespace Final

variable {m : Model}

/-- A state agrees with the model it has come to. -/
theorem self (s : Checking) : s.Final lo hi s.model :=
  ⟨fun _ _ => rfl, fun _ _ => rfl, List.prefix_refl _⟩

theorem mono (h : s.Final lo hi m) (hlo : lo ≤ lo') (hhi : hi' ≤ hi) : s.Final lo' hi' m :=
  ⟨fun x hx => h.types x (hx.mono hlo hhi), fun x hx => h.referents x (hx.mono hlo hhi), h.heads⟩

/-- What is checked elsewhere changes nothing here. -/
theorem of_keeps (h : s'.Final lo hi m) (hkeeps : s.Keeps lo' hi' s')
    (hapart : hi ≤ lo' ∨ hi' ≤ lo) : s.Final lo hi m := by
  have hout : ∀ x : Span, x.Between lo hi → ¬ x.Between lo' hi' := by
    rintro x ⟨h₁, h₂, h₃⟩ ⟨h₄, _, h₆⟩
    unfold Span.Proper at h₂
    omega
  exact ⟨fun x hx => (h.types x hx).trans (hkeeps.types x (hout x hx)),
    fun x hx => (h.referents x hx).trans (hkeeps.referents x (hout x hx)),
    hkeeps.heads.trans h.heads⟩

theorem of_settles (h : s'.Final lo hi m) (hsettles : s.Settles s') : s.Final lo hi m := by
  refine ⟨fun x hx => ?_, fun x hx => ?_, hsettles.heads ▸ h.heads⟩
  · rw [h.types x hx, Model.type?, hsettles.types, ← Model.type?]
  · rw [h.referents x hx, Model.referent?, hsettles.referents, ← Model.referent?]

theorem of_declare {name : Name} {type : Ty} {mutable : Bool} {family : Option LiteralFamily}
    (h : (s.declare name type mutable family).Final lo hi m) (hname : name.span.Proper)
    (hapart : hi ≤ name.span.start ∨ name.span.stop ≤ lo) : s.Final lo hi m :=
  h.of_keeps (.declare _ _ _ ⟨Nat.le_refl _, hname, Nat.le_refl _⟩) hapart

/-- The type of a range that encloses this one is noted apart from what is noted here. -/
theorem of_noteType {span : Span} {t : Ty} (h : (s.noteType span t).Final lo hi m)
    (hspan : span.start < lo ∨ hi < span.stop) : s.Final lo hi m := by
  refine ⟨fun x hx => ?_, h.referents, h.heads⟩
  rw [h.types x hx]
  refine SpanMap.get?_insert_of_ne _ _ fun heq => ?_
  obtain ⟨h₁, _, h₃⟩ := heq ▸ hx
  omega

/-- The part of a range behind which the type of the whole is noted. -/
theorem part {span : Span} {t : Ty} (h : (s.noteType span t).Final lo hi m) (hlo : lo ≤ lo')
    (hhi : hi' ≤ hi) (hspan : span.start < lo' ∨ hi' < span.stop) : s.Final lo' hi' m :=
  (h.mono hlo hhi).of_noteType hspan

theorem type?_noted {span : Span} {t : Ty} (h : (s.noteType span t).Final lo hi m)
    (hspan : span.Between lo hi) : m.type? span = some t :=
  (h.types span hspan).trans (SpanMap.get?_insert_self _ _ _)

theorem referent?_noted {span : Span} {r : Referent} {x : Span} {t : Ty}
    (h : ((s.noteReferent span r).noteType x t).Final lo hi m) (hspan : span.Between lo hi) :
    m.referent? span = some r :=
  (h.referents span hspan).trans (SpanMap.get?_insert_self _ _ _)

theorem local? (h : s.Final lo hi m) {id : Nat} {l : Local} (hl : s.model.local? id = some l) :
    ∃ l', m.local? id = some l' ∧ l'.head = l.head := Model.local?_of_heads h.heads hl

end Final

end Checking

namespace Check

open Checking

variable {lo hi : Nat} {s s' : Checking}

/-! ### Operators and calls -/

theorem Unifies.settles {a b t : Typed} (h : Unifies a b s t s') : s.Settles s' := by
  cases h with
  | settled | «open» => exact .refl s
  | left => exact .settle _ _ _
  | right => exact .settle _ _ _

theorem Matches.settles {v : ValueType} {other : Typed} (h : Matches v other s s') :
    s.Settles s' := by
  unfold Matches at h
  split at h
  · exact h.2 ▸ .refl s
  · exact h.2 ▸ .settle _ _ _

theorem Operates.settles {op : BinaryOp} {l r t : Typed} (h : Operates op l r s t s') :
    s.Settles s' := by
  cases h with
  | logical | shift => exact .refl s
  | comparison _ _ _ _ _ hunify => exact hunify.settles
  | scalar _ _ _ _ _ hunify => exact hunify.settles
  | aggregate _ _ _ _ _ hmatches => exact hmatches.settles

theorem CoercesAll.settles {type : Ty} {args : List Argument} (h : CoercesAll type args s s') :
    s.Settles s' := by
  induction h with
  | nil => exact .refl _
  | cons _ _ ih => exact (Settles.settle _ _ _).trans ih

theorem IntrinsicArguments.settles {kind : ScalarKind} {common : ValueType} {args : List Argument}
    (h : IntrinsicArguments kind common args s s') : s.Settles s' := by
  induction h with
  | nil => exact .refl _
  | cons _ _ ih => exact (Settles.settle _ _ _).trans ih

theorem IntrinsicResult.settles {i : Shader.Intrinsic} {args : List Argument} {t : Ty}
    (h : IntrinsicResult i args s t s') : s.Settles s' := by
  cases h with
  | operands _ _ _ hall => exact hall.settles
  | component _ _ _ hall => exact hall.settles
  | bool | product => exact .refl s

theorem Supplies.settles {built : ValueType} {args : List Argument} {n : UInt8}
    (h : Supplies built args s n s') : s.Settles s' := by
  induction h with
  | nil => exact .refl _
  | vector _ _ ih => exact ih
  | scalar _ _ _ ih => exact (Settles.settle _ _ _).trans ih

theorem Calls.settles {callee : Path} {args : List Argument} {t : Ty}
    (h : Calls callee args s t s') : s.Settles s' := by
  cases h with
  | intrinsic _ _ _ _ hresult => exact hresult.settles
  | new _ _ _ _ _ hsupplies => exact hsupplies.settles
  | splat => exact .settle _ _ _

theorem HasMethod.settles {r : Typed} {member : Name} {args : List Argument} {t : Ty}
    (h : HasMethod r member args s t s') : s.Settles s' := by
  cases h with
  | swizzle | element => exact .refl s
  | scalar _ _ _ _ _ hall => exact (Settles.settle _ _ _).trans hall.settles

/-! ### Expressions -/

/-- Whether what is checked is laid out between two offsets. -/
def Judgment.LaidIn (lo hi : Nat) : Judgment → Prop
  | .expr e _ => e.LaidIn lo hi
  | .args es _ => Expr.AllLaid lo hi es

theorem Selects.keeps {rows columns : Nat} {items : List Expr}
    (h : Selects rows columns items s s') (hlaid : Expr.AllLaid lo hi items) :
    s.Keeps lo hi s' := by
  induction h generalizing lo with
  | nil => exact .refl _
  | cons _ _ _ _ ih =>
    obtain ⟨hitem, hlo, hrest⟩ := hlaid
    have hhi := hrest.lt fun _ _ he => he.start_lt_stop
    have hproper : _ < _ := hitem.start_lt_stop
    exact (Keeps.noteType _ ⟨Nat.le_of_lt hlo, hitem, Nat.le_of_lt hhi⟩).trans
      ((ih hrest).mono (by omega) (Nat.le_refl _))

/-- Checking notes nothing outside the range of what is checked. -/
theorem Checks.keeps {catalog : Catalog} {j : Judgment} (h : Checks catalog s j s')
    (hlaid : j.LaidIn lo hi) : s.Keeps lo hi s' := by
  induction h generalizing lo hi with
  | literal => exact .noteType _ hlaid.between
  | «local» | capture | static | path =>
    exact (Keeps.noteReferent _ hlaid.between).trans (.noteType _ hlaid.between)
  | unary _ _ ih =>
    have hbetween := hlaid.between
    obtain ⟨⟨he, h₁, h₂⟩, h₃, h₄⟩ := hlaid
    simp only [Expr.span_unary] at h₃ h₄
    exact (ih ⟨he, by omega, by omega⟩).trans (.noteType _ hbetween)
  | binary _ _ hop ihLeft ihRight =>
    have hbetween := hlaid.between
    obtain ⟨⟨hl, hr, h₁, h₂, h₃⟩, h₄, h₅⟩ := hlaid
    simp only [Expr.span_binary] at h₄ h₅
    have hl' := hl.start_lt_stop
    have hr' := hr.start_lt_stop
    exact (((ihLeft ⟨hl, by omega, by omega⟩).trans (ihRight ⟨hr, by omega, by omega⟩)).trans
      hop.settles.keeps).trans (.noteType _ hbetween)
  | cast _ _ ih =>
    have hbetween := hlaid.between
    obtain ⟨⟨he, h₁, h₂, h₃, h₄⟩, h₅, h₆⟩ := hlaid
    simp only [Expr.span_cast] at h₅ h₆
    unfold Span.Proper at h₃
    exact (ih ⟨he, by omega, by omega⟩).trans (.noteType _ hbetween)
  | field _ _ ih =>
    have hbetween := hlaid.between
    obtain ⟨⟨he, h₁, h₂, h₃, h₄⟩, h₅, h₆⟩ := hlaid
    simp only [Expr.span_field] at h₅ h₆
    unfold Span.Proper at h₃
    exact (ih ⟨he, by omega, by omega⟩).trans (.noteType _ hbetween)
  | method _ _ hmethod ihReceiver ihArgs =>
    have hbetween := hlaid.between
    obtain ⟨⟨he, h₁, ⟨h₂, h₃, h₄⟩, hargs⟩, h₅, h₆⟩ := hlaid
    simp only [Expr.span_method] at h₅ h₆
    unfold Span.Proper at h₃
    have he' := he.start_lt_stop
    exact (((ihReceiver ⟨he, by omega, by omega⟩).trans
      ((ihArgs hargs).mono (by omega) (by omega))).trans hmethod.settles.keeps).trans
        (.noteType _ hbetween)
  | call _ hcall ihArgs =>
    have hbetween := hlaid.between
    obtain ⟨⟨⟨h₁, h₂, h₃⟩, hargs⟩, h₅, h₆⟩ := hlaid
    simp only [Expr.span_call] at h₅ h₆
    unfold Span.Proper at h₂
    exact (((ihArgs hargs).mono (by omega) (by omega)).trans hcall.settles.keeps).trans
      (.noteType _ hbetween)
  | element _ _ _ _ _ ihBase ihIndex =>
    have hbetween := hlaid.between
    obtain ⟨⟨hb, hindex, h₁, h₂, h₃⟩, h₄, h₅⟩ := hlaid
    simp only [Expr.span_index] at h₄ h₅
    have hb' := hb.start_lt_stop
    have hindex' := hindex.start_lt_stop
    exact ((ihBase ⟨hb, by omega, by omega⟩).trans (ihIndex ⟨hindex, by omega, by omega⟩)).trans
      (.noteType _ hbetween)
  | swizzle _ _ _ _ hselects ih =>
    have hbetween := hlaid.between
    obtain ⟨⟨hb, hindex, h₁, h₂, h₃⟩, h₄, h₅⟩ := hlaid
    have hb' := hb.start_lt_stop
    have hindex' := hindex.start_lt_stop
    simp only [Expr.span_index, Expr.span_tuple] at h₂ h₃ h₄ h₅ hindex'
    exact (((ih ⟨hb, by omega, by omega⟩).trans
      ((hselects.keeps hindex).mono (by omega) (by omega))).trans
        (.noteType _ ⟨by omega, hindex', by omega⟩)).trans (.noteType _ hbetween)
  | paren _ ih =>
    have hbetween := hlaid.between
    obtain ⟨⟨he, h₁, h₂⟩, h₃, h₄⟩ := hlaid
    simp only [Expr.span_paren] at h₃ h₄
    exact (ih ⟨he, by omega, by omega⟩).trans (.noteType _ hbetween)
  | choice _ _ _ _ hunify ihCondition ihYes ihNo =>
    have hbetween := hlaid.between
    obtain ⟨⟨hc, hy, hn, h₁, h₂, h₃, h₄⟩, h₅, h₆⟩ := hlaid
    simp only [Expr.span_choice] at h₅ h₆
    have hc' := hc.start_lt_stop
    have hy' := hy.start_lt_stop
    have hn' := hn.start_lt_stop
    exact ((((ihCondition ⟨hc, by omega, by omega⟩).trans (ihYes ⟨hy, by omega, by omega⟩)).trans
      (ihNo ⟨hn, by omega, by omega⟩)).trans hunify.settles.keeps).trans (.noteType _ hbetween)
  | nil => exact .refl _
  | cons _ _ ihFirst ihRest =>
    obtain ⟨he, hlo, hrest⟩ := hlaid
    have he' := he.start_lt_stop
    have hhi := hrest.lt fun _ _ he => he.start_lt_stop
    exact (ihFirst ⟨he, by omega, by omega⟩).trans ((ihRest hrest).mono (by omega) (by omega))

/-! ### Statements -/

theorem Agrees.settles {target value : Typed} (h : Agrees target value s s') : s.Settles s' := by
  cases h with
  | value => exact .settle _ _ _
  | target => exact .settle _ _ _

theorem Assigns.settles {target value : Typed} {op : Option BinaryOp}
    (h : Assigns target value s op s') : s.Settles s' := by
  cases h with
  | plain hagrees => exact hagrees.settles
  | compound hop _ => exact hop.settles.trans (.settle _ _ _)

/-- Whether what is checked is laid out between two offsets. -/
def StmtJudgment.LaidIn (lo hi : Nat) : StmtJudgment → Prop
  | .stmt st => st.LaidIn lo hi
  | .stmts sts => Stmt.AllLaid lo hi sts
  | .block b => b.LaidIn lo hi

theorem le_of_allLaid {sts : List Stmt} (h : Stmt.AllLaid lo hi sts) : lo ≤ hi := by
  induction sts generalizing lo with
  | nil => exact h
  | cons st sts ih =>
    obtain ⟨_, hproper, hlo, hrest⟩ := h
    have := ih hrest
    unfold Span.Proper at hproper
    omega

/-- Checking a statement notes nothing outside the range of the statement. -/
theorem ChecksStmt.keeps {catalog : Catalog} {j : StmtJudgment} (h : ChecksStmt catalog s j s')
    (hlaid : j.LaidIn lo hi) : s.Keeps lo hi s' := by
  induction h generalizing lo hi with
  | declare _ =>
    obtain ⟨⟨hname, _⟩, hspan⟩ := hlaid
    exact .declare _ _ _ (hname.mono (Nat.le_succ_of_le hspan.1) hspan.2.2)
  | annotated he _ _ =>
    obtain ⟨⟨hname, _, hvalue⟩, hspan⟩ := hlaid
    obtain ⟨he', h₁, h₂⟩ := hvalue _ rfl
    obtain ⟨h₃, h₄, h₅⟩ := hname
    obtain ⟨h₆, _, h₇⟩ := hspan
    unfold Span.Proper at h₄
    simp only [Stmt.span] at h₆ h₇
    exact ((he.keeps (j := .expr _ _) ⟨he', by omega, by omega⟩).trans
      (Settles.settle _ _ _).keeps).trans (.declare _ _ _ ⟨by omega, h₄, by omega⟩)
  | inferred he _ =>
    obtain ⟨⟨hname, _, hvalue⟩, hspan⟩ := hlaid
    obtain ⟨he', h₁, h₂⟩ := hvalue _ rfl
    obtain ⟨h₃, h₄, h₅⟩ := hname
    obtain ⟨h₆, _, h₇⟩ := hspan
    unfold Span.Proper at h₄
    simp only [Stmt.span] at h₆ h₇
    exact (he.keeps (j := .expr _ _) ⟨he', by omega, by omega⟩).trans
      (.declare _ _ _ ⟨by omega, h₄, by omega⟩)
  | assign hplace hvalue _ hassigns =>
    obtain ⟨⟨hp, hv, h₁, h₂, h₃⟩, h₄, _, h₅⟩ := hlaid
    simp only [Stmt.span] at h₄ h₅
    have hp' := hp.start_lt_stop
    have hv' := hv.start_lt_stop
    exact ((hplace.keeps (j := .expr _ _) ⟨hp, by omega, by omega⟩).trans
      (hvalue.keeps (j := .expr _ _) ⟨hv, by omega, by omega⟩)).trans hassigns.settles.keeps
  | ifOnly hcondition _ _ ih =>
    obtain ⟨⟨hc, hb, h₁, h₂, h₃⟩, h₄, _, h₅⟩ := hlaid
    simp only [Stmt.span] at h₄ h₅
    have hc' := hc.start_lt_stop
    have hb' := hb.proper
    unfold Span.Proper at hb'
    exact (hcondition.keeps (j := .expr _ _) ⟨hc, by omega, by omega⟩).trans
      (ih ⟨hb, by omega, hb', by omega⟩)
  | ifElse hcondition _ _ _ ihBody ihOtherwise =>
    obtain ⟨⟨hc, hb, ho, h₁, h₂, h₃, h₄⟩, h₅, _, h₆⟩ := hlaid
    simp only [Stmt.span] at h₅ h₆
    have hc' := hc.start_lt_stop
    have hb' := hb.proper
    have ho' := ho.proper
    unfold Span.Proper at hb' ho'
    exact ((hcondition.keeps (j := .expr _ _) ⟨hc, by omega, by omega⟩).trans
      (ihBody ⟨hb, by omega, hb', by omega⟩)).trans (ihOtherwise ⟨ho, by omega, ho', by omega⟩)
  | «for» hstart hstop hunify _ _ ih =>
    obtain ⟨⟨hl, hh, hb, ⟨h₁, h₂, h₃⟩, h₄, h₅, h₆⟩, h₇, _, h₈⟩ := hlaid
    simp only [Stmt.span] at h₇ h₈
    have hl' := hl.start_lt_stop
    have hh' := hh.start_lt_stop
    have hb' := hb.proper
    unfold Span.Proper at hb' h₂
    have hlo : Keeps lo hi _ _ := hstart.keeps (j := .expr _ _) ⟨hl, by omega, by omega⟩
    have hhi : Keeps lo hi _ _ := hstop.keeps (j := .expr _ _) ⟨hh, by omega, by omega⟩
    have hbody : Keeps lo hi _ _ := ih ⟨hb, by omega, hb', by omega⟩
    have hopen := (hlo.trans hhi).trans (hunify.settles.trans (.openScope _)).keeps
    exact (((hopen.trans (.declare _ _ _ ⟨by omega, h₂, by omega⟩)).trans
      (Settles.enterLoop _).keeps).trans hbody).trans
        ((Settles.leaveLoop _).trans (.closeScope _)).keeps
  | «while» hcondition _ _ ih =>
    obtain ⟨⟨hc, hb, h₁, h₂, h₃⟩, h₄, _, h₅⟩ := hlaid
    simp only [Stmt.span] at h₄ h₅
    have hc' := hc.start_lt_stop
    have hb' := hb.proper
    unfold Span.Proper at hb'
    have hfirst : Keeps lo hi _ _ := hcondition.keeps (j := .expr _ _) ⟨hc, by omega, by omega⟩
    have hbody : Keeps lo hi _ _ := ih ⟨hb, by omega, hb', by omega⟩
    exact ((hfirst.trans (Settles.enterLoop _).keeps).trans hbody).trans
      (Settles.leaveLoop _).keeps
  | loop _ ih =>
    obtain ⟨⟨hb, h₁, h₂⟩, h₃, _, h₄⟩ := hlaid
    simp only [Stmt.span] at h₃ h₄
    have hbody : Keeps lo hi _ _ := ih ⟨hb, by omega, hb.proper, by omega⟩
    exact ((Settles.enterLoop _).keeps.trans hbody).trans (Settles.leaveLoop _).keeps
  | jump _ => exact .refl _
  | eval he =>
    obtain ⟨⟨hv, rfl⟩, hspan⟩ := hlaid
    exact he.keeps (j := .expr _ _) ⟨hv, hspan.1, hspan.2.2⟩
  | nested _ ih =>
    obtain ⟨⟨hb, rfl⟩, hspan⟩ := hlaid
    exact ih ⟨hb, hspan⟩
  | nil => exact .refl _
  | cons _ _ ihFirst ihRest =>
    obtain ⟨hst, hproper, hlo, hrest⟩ := hlaid
    have hhi := le_of_allLaid hrest
    have hproper' := hproper
    unfold Span.Proper at hproper'
    exact (ihFirst ⟨hst, hlo, hproper, hhi⟩).trans
      ((ihRest hrest).mono (by omega) (Nat.le_refl _))
  | block _ ih =>
    obtain ⟨⟨_, hsts⟩, hspan⟩ := hlaid
    exact ((Settles.openScope _).keeps.trans ((ih hsts).mono hspan.1 hspan.2.2)).trans
      (Settles.closeScope _).keeps

end Check

end ComputeKernel
