import ComputeKernel.Proofs.Reading.Meaning
import ComputeKernel.Proofs.Reading.Statements
import ComputeKernel.Typing.Selector

/-!
Keywords in shader code. The shading language keeps its keywords for itself, and no selector, function
or type is spelled like one; so where no identifier is reserved there is no keyword in an expression.
-/

namespace ComputeKernel.Reading

open Shader (Context StaticUse Lowers Outcome unaryOperand selectorText isReserved isTypeName intrinsic?
  scalarMethods)
open Shader.Lower (Identifies nameOf selector)

/-! ### Names that are no keywords -/

theorem not_mem_keywords_of_not_isReserved {name : String} (h : ¬ isReserved name) :
    name ∉ keywords := by
  have hall : ∀ k ∈ keywords, isReserved k := by decide +kernel
  exact fun hname => h (hall name hname)

theorem not_mem_keywords_of_componentType? {t type : Ty} {name : String}
    (h : Check.componentType? t name = some type) : name ∉ keywords := by
  have hall : ∀ k ∈ keywords, component? k = none := by decide
  intro hname
  simp [Check.componentType?, hall name hname] at h

theorem not_mem_keywords_of_isSwizzle {name : String} {n : Nat} (h : isSwizzle name n) :
    name ∉ keywords := by
  have hall : keywords.all fun k => k.toList.any fun c => (componentIndex? c).isNone := by decide
  intro hname
  obtain ⟨c, hc, hnone⟩ := List.any_eq_true.mp (List.all_eq_true.mp hall name hname)
  simp only [isSwizzle, Bool.and_eq_true, List.all_eq_true] at h
  have hindex := h.2 c hc
  rw [Option.isNone_iff_eq_none.mp hnone] at hindex
  cases hindex

theorem not_mem_keywords_of_underscore {name : String} (h : name.toList.head? = some '_') :
    name ∉ keywords := by
  have hall : ∀ k ∈ keywords, k.toList.head? ≠ some '_' := by decide
  exact fun hname => hall name hname h

theorem not_mem_keywords_of_intrinsic? {name : String} {i : Shader.Intrinsic}
    (h : intrinsic? name = some i) : name ∉ keywords := by
  have hall : ∀ k ∈ keywords, intrinsic? k = none := by decide
  intro hname
  rw [hall name hname] at h
  cases h

theorem not_mem_keywords_of_mem_scalarMethods : ∀ m ∈ scalarMethods, m.function ∉ keywords := by
  decide

theorem head?_selector (position : Nat × Nat) : (selector position).toList.head? = some '_' := by
  show ("_m" ++ toString (position.1 - 1) ++ toString (position.2 - 1)).toList.head? = some '_'
  simp

theorem head?_selectorText {rows columns : Nat} {items : List Expr}
    (h : ∀ item ∈ items, Check.IsSelector rows columns item) (hne : items ≠ []) :
    (selectorText items).toList.head? = some '_' := by
  cases items with
  | nil => exact (hne rfl).elim
  | cons item items =>
    have hitem := h item List.mem_cons_self
    unfold Check.IsSelector at hitem
    split at hitem
    · obtain ⟨row, column, hposition, _⟩ := hitem
      rw [selectorText, hposition, String.toList_append, List.head?_append]
      simp [head?_selector]
    · exact hitem.elim

/-! ### Expressions -/

theorem plain_literalToken {v : Literal} (h : v.Spelled) : Plain [literalToken v.hlsl] := by
  unfold literalToken
  rcases isNumber_hlsl_or_mem h with ⟨c, cs, heq, hc, _⟩ | hmem
  · rw [if_pos (by simp [heq, hc])]
    exact plain_cons_number.mpr plain_nil
  · have hall : ∀ text ∈ ["false", "true"],
        ¬ text.toList.head?.any Text.isDigit ∧ text ∉ keywords := by decide
    obtain ⟨hdigit, hword⟩ := hall _ hmem
    rw [if_neg hdigit]
    exact plain_cons_word.mpr ⟨hword, plain_nil⟩

@[simp] theorem plain_tokens_atLeast {k : Nat} {c : Shader.Expr} :
    Plain (tokens (c.atLeast k)) ↔ Plain (tokens c) := by
  unfold Shader.Expr.atLeast
  split
  · simp [tokens]
  · rfl

@[simp] theorem plain_tokens_unaryOperand {op : UnaryOp} {c : Shader.Expr} :
    Plain (tokens (unaryOperand op c)) ↔ Plain (tokens c) := by
  cases op with
  | neg =>
    simp only [unaryOperand]
    split <;> simp [tokens]
  | not => exact plain_tokens_atLeast

@[simp] theorem plain_argTokens {cs : List Shader.Expr} :
    Plain (argTokens cs) ↔ Plain (moreArgTokens cs) := by
  cases cs with
  | nil => rfl
  | cons c cs => simp [argTokens, moreArgTokens]

/-- Whether there is no keyword in code, given that of its source. -/
def OutcomePlain : Outcome → Prop
  | .expr e c => e.Spelled → Plain (tokens c)
  | .exprs es cs => Expr.AllSpelled es → Plain (moreArgTokens cs)

variable {ctx : Context} {catalog : Catalog} {statics : List StaticUse}

/-- There is no keyword in translated code if none is given out as an identifier. -/
theorem plain_of_lowers (htable : ctx.table = .hlsl)
    (hidents : ∀ r ident, Identifies ctx statics r ident → ident ∉ keywords) {o : Outcome}
    (h : Lowers ctx catalog statics o) : OutcomePlain o := by
  induction h with
  | literal => exact plain_literalToken
  | name _ _ hident | path _ _ hident =>
    exact fun _ => plain_cons_word.mpr ⟨hidents _ _ hident, plain_nil⟩
  | paren _ ih =>
    intro hspelled
    simpa [tokens] using ih hspelled
  | unary _ _ _ ih =>
    intro hspelled
    simpa [tokens] using ih hspelled
  | binary _ _ ihLeft ihRight =>
    rintro ⟨hl, hr⟩
    simpa [tokens] using ⟨ihLeft hl, ihRight hr⟩
  | cast _ htarget ih =>
    intro hspelled
    have htype := isTypeWord_nameOf htable htarget trivial
    simpa [tokens] using ⟨not_mem_keywords_of_isTypeName htype.2, ih hspelled⟩
  | field _ _ _ hmember ih =>
    rintro ⟨he, _⟩
    simpa [tokens] using ⟨ih he, not_mem_keywords_of_componentType? hmember⟩
  | swizzle _ _ _ hmember ih =>
    rintro ⟨he, _⟩
    simpa [tokens] using ⟨ih he, not_mem_keywords_of_isSwizzle hmember⟩
  | element _ _ _ _ ih =>
    rintro ⟨he, _⟩
    simpa [tokens] using ⟨ih he, not_mem_keywords_of_underscore (head?_selector _)⟩
  | method _ _ _ hm ih ihArgs =>
    rintro ⟨he, _, hargs⟩
    have hfunction := not_mem_keywords_of_mem_scalarMethods _ (List.mem_of_find?_eq_some hm)
    simpa [tokens, argTokens] using ⟨hfunction, ih he, ihArgs hargs⟩
  | intrinsic _ _ hi ihArgs =>
    rintro ⟨_, hargs⟩
    simpa [tokens] using ⟨not_mem_keywords_of_intrinsic? hi, ihArgs hargs⟩
  | new _ _ _ hshaped _ _ ihArgs =>
    rintro ⟨_, hargs⟩
    have htype := isTypeWord_nameOf htable (Ty.ofHost?_toHost hshaped) hshaped
    simpa [tokens] using ⟨not_mem_keywords_of_isTypeName htype.2, ihArgs hargs⟩
  | splat _ _ _ hshaped _ _ ih =>
    rintro ⟨_, harg, _⟩
    have htype := isTypeWord_nameOf htable (Ty.ofHost?_toHost hshaped) hshaped
    simpa [tokens] using ⟨not_mem_keywords_of_isTypeName htype.2, ih harg⟩
  | index _ _ _ _ _ ihBase ihIndex =>
    rintro ⟨hb, hi⟩
    simpa [tokens] using ⟨ihBase hb, ihIndex hi⟩
  | matrixSwizzle _ _ _ hitems hselectors ih =>
    rintro ⟨hb, _⟩
    have hmember := not_mem_keywords_of_underscore (head?_selectorText hselectors hitems)
    simpa [tokens] using ⟨ih hb, hmember⟩
  | choice _ _ _ ihCondition ihYes ihNo =>
    rintro ⟨hc, hy, hn⟩
    simpa [tokens] using ⟨ihCondition hc, ihYes hy, ihNo hn⟩
  | nil => exact fun _ => by simp [moreArgTokens]
  | cons _ _ ihFirst ihRest =>
    rintro ⟨he, hes⟩
    simpa [moreArgTokens] using ⟨ihFirst he, ihRest hes⟩

end ComputeKernel.Reading
