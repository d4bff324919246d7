import Mathlib.Data.List.Basic
import Mathlib.Logic.Relation
import ComputeKernel.Proofs.Parsing.Fidelity

/-!
How operators group. An expression of an accepted closure has operands that bind at least as tightly as
its operator, on the right of a binary operator more tightly. The operands and operators stand in the
source in the order of the tree, and no other tree over them is grouped like this.
-/

namespace ComputeKernel

theorem forall_mem_pair {α : Type} {p : α → Prop} {a b : α} : (∀ x ∈ [a, b], p x) ↔ p a ∧ p b :=
  List.forall_mem_cons.trans (and_congr_right' List.forall_mem_singleton)

/-! ### Ranks -/

namespace Expr

/-- A cast binds tighter than all binary operators. -/
def castRank : Nat := 10

def unaryRank : Nat := 11

/-- How tightly everything binds that is no unary or binary operator and no cast. -/
def memberRank : Nat := 12

/-- How tightly the outermost operator of an expression binds. -/
def rank : Expr → Nat
  | .binary _ op _ _ => op.rank
  | .cast .. => castRank
  | .unary .. => unaryRank
  | _ => memberRank

/-- Whether the operands of an expression need no parentheses. Binary operators associate to the
left. -/
def Ranked : Expr → Prop
  | .binary _ op l r => op.rank ≤ l.rank ∧ op.rank < r.rank
  | .cast _ e _ => castRank ≤ e.rank
  | .unary _ _ e => unaryRank ≤ e.rank
  | .field _ e _ | .method _ e _ _ | .index _ e _ => memberRank ≤ e.rank
  | _ => True

/-- The expressions that an expression is made of. -/
def children : Expr → List Expr
  | .literal .. | .name .. | .path .. => []
  | .unary _ _ e | .cast _ e _ | .field _ e _ | .paren _ e => [e]
  | .binary _ _ l r | .index _ l r => [l, r]
  | .method _ e _ args => e :: args
  | .call _ _ _ args | .tuple _ args => args
  | .choice _ condition yes no => [condition, yes, no]

/-- Whether an expression is another one or inside of it. -/
def Part : Expr → Expr → Prop := Relation.ReflTransGen fun x e => x ∈ e.children

/-- Whether all that is inside an expression is grouped by rank. -/
def Grouped (e : Expr) : Prop := ∀ x : Expr, x.Part e → x.Ranked

theorem grouped_iff {e : Expr} : e.Grouped ↔ e.Ranked ∧ ∀ x ∈ e.children, x.Grouped := by
  constructor
  · exact fun h => ⟨h e .refl, fun x hx y hy => h y (hy.tail hx)⟩
  · rintro ⟨he, hchildren⟩ x hx
    rcases Relation.ReflTransGen.cases_tail hx with rfl | ⟨y, hxy, hy⟩
    · exact he
    · exact hchildren y hy x hxy

theorem Grouped.part {e x : Expr} (h : e.Grouped) (hx : x.Part e) : x.Grouped :=
  fun y hy => h y (hy.trans hx)

end Expr

mutual

/-- The expressions of a statement that are inside of no other one. -/
def Stmt.exprs : Stmt → List Expr
  | .let _ _ _ _ value => value.toList
  | .assign _ _ place value => [place, value]
  | .if _ condition body none => condition :: body.exprs
  | .if _ condition body (some otherwise) => condition :: (body.exprs ++ otherwise.exprs)
  | .for _ _ start stop _ body => start :: stop :: body.exprs
  | .while _ condition body => condition :: body.exprs
  | .loop _ body | .nested _ body => body.exprs
  | .jump .. => []
  | .eval _ e => [e]

def Block.exprs : Block → List Expr
  | ⟨_, stmts⟩ => Stmt.allExprs stmts

def Stmt.allExprs : List Stmt → List Expr
  | [] => []
  | s :: ss => s.exprs ++ Stmt.allExprs ss

end

theorem BinaryOp.rank_lt_castRank (op : BinaryOp) : op.rank < Expr.castRank := by cases op <;> decide

/-! ### Chains -/

/-- An operand or an operator of an expression. -/
inductive ChainItem where
  | operand (e : Expr)
  | unary (op : UnaryOp)
  | binary (op : BinaryOp)
  | cast (type : HostType)

namespace ChainItem

def rank : ChainItem → Nat
  | operand _ => Expr.memberRank
  | unary _ => Expr.unaryRank
  | binary op => op.rank
  | cast _ => Expr.castRank

def form : ChainItem → List Slot
  | operand e => e.form
  | unary op => [Slot.spelled op.symbol]
  | binary op => [Slot.spelled op.symbol]
  | cast type => Slot.keyword .as :: type.form

end ChainItem

namespace Expr

/-- The operands and operators of an expression from left to right. -/
def chain : Expr → List ChainItem
  | .unary _ op e => .unary op :: e.chain
  | .binary _ op l r => l.chain ++ .binary op :: r.chain
  | .cast _ e type => e.chain ++ [.cast type.type]
  | e => [.operand e]

/-- An expression without the ranges of its operators. -/
def bare : Expr → Expr
  | .unary _ op e => .unary default op e.bare
  | .binary _ op l r => .binary default op l.bare r.bare
  | .cast _ e type => .cast default e.bare ⟨type.type, default⟩
  | e => e

theorem form_eq_chain (e : Expr) : e.form = e.chain.flatMap ChainItem.form := by
  fun_induction chain e with
  | case1 span op e ih => rw [form, ih]; rfl
  | case2 span op l r ihLeft ihRight =>
    rw [form, ihLeft, ihRight, List.flatMap_append, List.flatMap_cons]
    rfl
  | case3 span e type ih => rw [form, ih, List.flatMap_append, List.flatMap_singleton]; rfl
  | case4 e => rw [List.flatMap_singleton]; rfl

section

variable {span : Span} {op : UnaryOp} {e l r : Expr}

theorem grouped_unary : (unary span op e).Grouped ↔ unaryRank ≤ e.rank ∧ e.Grouped :=
  grouped_iff.trans (and_congr_right' List.forall_mem_singleton)

theorem grouped_binary {op : BinaryOp} :
    (binary span op l r).Grouped ↔ (op.rank ≤ l.rank ∧ op.rank < r.rank) ∧ l.Grouped ∧ r.Grouped :=
  grouped_iff.trans (and_congr_right' forall_mem_pair)

theorem grouped_cast {type : TypeRef} : (cast span e type).Grouped ↔ castRank ≤ e.rank ∧ e.Grouped :=
  grouped_iff.trans (and_congr_right' List.forall_mem_singleton)

end

section

variable {e : Expr}

theorem rank_of_plain (hunary : ∀ span op x, e = .unary span op x → False)
    (hbinary : ∀ span op l r, e = .binary span op l r → False)
    (hcast : ∀ span x type, e = .cast span x type → False) : e.rank = memberRank := by
  cases e with
  | unary => exact absurd rfl (hunary _ _ _)
  | binary => exact absurd rfl (hbinary _ _ _ _)
  | cast => exact absurd rfl (hcast _ _ _)
  | _ => rfl

theorem exists_binary_of_rank (h : e.rank < castRank) : ∃ span op l r, e = .binary span op l r := by
  cases e with
  | binary => exact ⟨_, _, _, _, rfl⟩
  | _ => exact absurd h (by simp [rank, castRank, unaryRank, memberRank])

theorem exists_cast_of_rank (h : e.rank = castRank) : ∃ span x type, e = .cast span x type := by
  cases e with
  | cast => exact ⟨_, _, _, rfl⟩
  | binary _ op => exact absurd h (Nat.ne_of_lt op.rank_lt_castRank)
  | _ => cases h

theorem exists_unary_of_rank (h : e.rank = unaryRank) : ∃ span op x, e = .unary span op x := by
  cases e with
  | unary => exact ⟨_, _, _, rfl⟩
  | binary _ op => exact absurd h (Nat.ne_of_lt (Nat.lt_succ_of_lt op.rank_lt_castRank))
  | _ => cases h

theorem chain_of_rank (h : e.rank = memberRank) : e.chain = [.operand e] ∧ e.bare = e := by
  cases e with
  | binary _ op =>
    exact absurd h (Nat.ne_of_lt (Nat.lt_succ_of_lt (Nat.lt_succ_of_lt op.rank_lt_castRank)))
  | unary | cast => cases h
  | _ => exact ⟨rfl, rfl⟩

end

/-- The operator that binds an expression together is one of its loosest. -/
theorem rank_of_chain {e : Expr} (h : e.Grouped) :
    (∀ i ∈ e.chain, e.rank ≤ i.rank) ∧ ∃ i ∈ e.chain, i.rank = e.rank := by
  fun_induction chain e with
  | case1 span op e ih =>
    obtain ⟨hrank, he⟩ := grouped_unary.mp h
    refine ⟨List.forall_mem_cons.mpr ⟨Nat.le_refl _, fun i hi =>
      Nat.le_trans hrank ((ih he).1 i hi)⟩, ?_⟩
    exact ⟨_, List.mem_cons_self, rfl⟩
  | case2 span op l r ihLeft ihRight =>
    obtain ⟨⟨hleft, hright⟩, hl, hr⟩ := grouped_binary.mp h
    refine ⟨List.forall_mem_append.mpr ⟨fun i hi => Nat.le_trans hleft ((ihLeft hl).1 i hi),
      List.forall_mem_cons.mpr ⟨Nat.le_refl _, fun i hi =>
        Nat.le_trans (Nat.le_of_lt hright) ((ihRight hr).1 i hi)⟩⟩, ?_⟩
    exact ⟨_, List.mem_append_right _ List.mem_cons_self, rfl⟩
  | case3 span e type ih =>
    obtain ⟨hrank, he⟩ := grouped_cast.mp h
    refine ⟨List.forall_mem_append.mpr ⟨fun i hi => Nat.le_trans hrank ((ih he).1 i hi),
      List.forall_mem_singleton.mpr (Nat.le_refl _)⟩, ?_⟩
    exact ⟨_, List.mem_append_right _ (List.mem_singleton_self _), rfl⟩
  | case4 e hunary hbinary hcast =>
    have hrank := rank_of_plain hunary hbinary hcast
    exact ⟨List.forall_mem_singleton.mpr (Nat.le_of_eq hrank), _, List.mem_singleton_self _,
      hrank.symm⟩

theorem rank_eq_of_chain_eq {e e' : Expr} (h : e.Grouped) (h' : e'.Grouped)
    (heq : e.chain = e'.chain) : e.rank = e'.rank := by
  obtain ⟨hle, i, hi, hrank⟩ := rank_of_chain h
  obtain ⟨hle', i', hi', hrank'⟩ := rank_of_chain h'
  have := hle i' (heq ▸ hi')
  have := hle' i (heq ▸ hi)
  omega

end Expr

/-- A list comes apart in one way at the last of its loosest operators. -/
theorem ChainItem.split_injective {a a' : ChainItem} {ls ls' rs rs' : List ChainItem}
    (hrank : a.rank = a'.rank) (h : ∀ i ∈ rs, a.rank < i.rank) (h' : ∀ i ∈ rs', a'.rank < i.rank)
    (heq : ls ++ a :: rs = ls' ++ a' :: rs') : ls = ls' ∧ a = a' ∧ rs = rs' := by
  rcases List.append_eq_append_iff.mp heq with ⟨ms, rfl, hms⟩ | ⟨ms, rfl, hms⟩ <;>
    rcases ms with _ | ⟨m, ms⟩
  · obtain ⟨rfl, rfl⟩ := List.cons.inj hms
    exact ⟨(List.append_nil _).symm, rfl, rfl⟩
  · obtain ⟨rfl, rfl⟩ := List.cons.inj hms
    exact absurd (h a' (List.mem_append_right _ List.mem_cons_self)) (by omega)
  · obtain ⟨rfl, rfl⟩ := List.cons.inj hms
    exact ⟨List.append_nil _, rfl, rfl⟩
  · obtain ⟨rfl, rfl⟩ := List.cons.inj hms
    exact absurd (h' a (List.mem_append_right _ List.mem_cons_self)) (by omega)

namespace Expr

/-- Over operands and operators in one order, there is one tree that is grouped by rank. -/
theorem bare_eq_of_chain_eq {e e' : Expr} (h : e.Grouped) (h' : e'.Grouped)
    (heq : e.chain = e'.chain) : e.bare = e'.bare := by
  have hrank := rank_eq_of_chain_eq h h' heq
  fun_induction chain e generalizing e' with
  | case1 span op e ih =>
    obtain ⟨span', op', e', rfl⟩ := exists_unary_of_rank hrank.symm
    obtain ⟨hop, hchain⟩ := List.cons.inj heq
    have he := (grouped_unary.mp h).2
    have he' := (grouped_unary.mp h').2
    rw [bare, bare, ih he he' hchain (rank_eq_of_chain_eq he he' hchain), ChainItem.unary.inj hop]
  | case2 span op l r ihLeft ihRight =>
    obtain ⟨span', op', l', r', rfl⟩ := exists_binary_of_rank
      (Nat.lt_of_le_of_lt (Nat.le_of_eq hrank.symm) op.rank_lt_castRank)
    obtain ⟨⟨_, hright⟩, hl, hr⟩ := grouped_binary.mp h
    obtain ⟨⟨_, hright'⟩, hl', hr'⟩ := grouped_binary.mp h'
    obtain ⟨hleft, hop, hchain⟩ := @ChainItem.split_injective (.binary op) (.binary op') _ _ _ _
      hrank (fun i hi => Nat.lt_of_lt_of_le hright ((rank_of_chain hr).1 i hi))
      (fun i hi => Nat.lt_of_lt_of_le hright' ((rank_of_chain hr').1 i hi)) heq
    rw [bare, bare, ihLeft hl hl' hleft (rank_eq_of_chain_eq hl hl' hleft),
      ihRight hr hr' hchain (rank_eq_of_chain_eq hr hr' hchain), ChainItem.binary.inj hop]
  | case3 span e type ih =>
    obtain ⟨span', e', type', rfl⟩ := exists_cast_of_rank hrank.symm
    obtain ⟨hchain, htype⟩ := List.append_inj' heq rfl
    have he := (grouped_cast.mp h).2
    have he' := (grouped_cast.mp h').2
    rw [bare, bare, ih he he' hchain (rank_eq_of_chain_eq he he' hchain),
      ChainItem.cast.inj (List.cons.inj htype).1]
  | case4 e hunary hbinary hcast =>
    have hplain := rank_of_plain hunary hbinary hcast
    obtain ⟨hchain', hbare'⟩ := chain_of_rank (hrank.symm.trans hplain)
    rw [hchain'] at heq
    rw [(chain_of_rank hplain).2, hbare']
    exact ChainItem.operand.inj (List.cons.inj heq).1

end Expr

/-! ### What is read -/

namespace Parse

variable {c c' : Cursor}

/-- Whether an expression may be an operand of what stands behind it. -/
def Admits (e : Expr) (c : Cursor) : Prop :=
  (c.lexeme = .keyword .as → Expr.castRank ≤ e.rank) ∧
    ∀ s op, c.lexeme = .symbol s → s.binaryOp? = some op → op.rank ≤ e.rank

theorem admits_of_rank {e : Expr} (h : Expr.castRank ≤ e.rank) (c : Cursor) : Admits e c :=
  ⟨fun _ => h, fun _ op _ _ => Nat.le_of_lt (Nat.lt_of_lt_of_le op.rank_lt_castRank h)⟩

/-- What stops the right operand of a binary operator may stand behind the whole. -/
theorem admits_binary {span : Span} {op : BinaryOp} {l r : Expr} (h : Stops (op.rank + 1) c) :
    Admits (.binary span op l r) c :=
  ⟨fun has => absurd has h.1, fun s op' hs hop => Nat.le_of_lt_succ (h.2 s op' hs hop)⟩

/-- How what is read is grouped. No operator outside of brackets is looser than the floor. -/
def Phrase.Grouped (c : Cursor) : Phrase → Cursor → Prop
  | .expression floor e, c' => e.Grouped ∧ min floor Expr.castRank ≤ e.rank ∧ Stops floor c'
  | .operators floor left whole, c' =>
    left.Grouped → Admits left c → min floor Expr.castRank ≤ left.rank →
      whole.Grouped ∧ min floor Expr.castRank ≤ whole.rank ∧ Stops floor c'
  | .operand e, _ => e.Grouped ∧ Expr.unaryRank ≤ e.rank
  | .members receiver whole, _ =>
    receiver.Grouped → Expr.memberRank ≤ receiver.rank → whole.Grouped ∧ Expr.memberRank ≤ whole.rank
  | .primary e, _ => e.Grouped ∧ Expr.memberRank ≤ e.rank
  | .branch e, _ => e.Grouped
  | .tupleItems es, _ | .arguments es, _ | .argumentItems es, _ => ∀ e ∈ es, e.Grouped

theorem Reads.grouped {p : Phrase} (h : Reads c p c') : p.Grouped c c' := by
  induction h with
  | expression _ _ _ ihFirst ihWhole =>
    obtain ⟨hfirst, hrank⟩ := ihFirst
    have hcast := Nat.le_of_succ_le hrank
    exact ihWhole hfirst (admits_of_rank hcast _) (Nat.le_trans (Nat.min_le_right _ _) hcast)
  | noOperator hstops => exact fun hleft _ hrank => ⟨hleft, hrank, hstops⟩
  | cast hl _ _ ihWhole =>
    intro hleft hadmits hrank
    refine ihWhole (Expr.grouped_cast.mpr ⟨hadmits.1 hl, hleft⟩) (admits_of_rank ?_ _)
      (Nat.min_le_right _ _)
    exact Nat.le_refl Expr.castRank
  | @binary _ _ _ _ _ right _ _ op hl hop hfloor _ _ ihRight ihWhole =>
    obtain ⟨hright, hrank, hstops⟩ := ihRight
    intro hleft hadmits _
    have htighter : op.rank < right.rank := by
      have := op.rank_lt_castRank
      rwa [Nat.min_eq_left this] at hrank
    exact ihWhole (Expr.grouped_binary.mpr ⟨⟨hadmits.2 _ _ hl hop, htighter⟩, hleft, hright⟩)
      (admits_binary hstops) (Nat.le_trans (Nat.min_le_left _ _) hfloor)
  | neg _ _ ih | not _ _ ih => exact ⟨Expr.grouped_unary.mpr ⟨ih.2, ih.1⟩, Nat.le_refl _⟩
  | plain _ _ _ _ ihFirst ihWhole =>
    obtain ⟨hwhole, hrank⟩ := ihWhole ihFirst.1 ihFirst.2
    exact ⟨hwhole, Nat.le_of_succ_le hrank⟩
  | noMember => exact fun hreceiver hrank => ⟨hreceiver, hrank⟩
  | method _ _ _ _ _ ihArgs ihWhole =>
    exact fun hreceiver hrank => ihWhole
      (Expr.grouped_iff.mpr ⟨hrank, List.forall_mem_cons.mpr ⟨hreceiver, ihArgs⟩⟩) (Nat.le_refl _)
  | field _ _ _ _ _ ihWhole =>
    exact fun hreceiver hrank => ihWhole
      (Expr.grouped_iff.mpr ⟨hrank, List.forall_mem_singleton.mpr hreceiver⟩) (Nat.le_refl _)
  | index _ _ _ _ ihIndex ihWhole =>
    exact fun hreceiver hrank => ihWhole
      (Expr.grouped_iff.mpr ⟨hrank, forall_mem_pair.mpr ⟨hreceiver, ihIndex.1⟩⟩) (Nat.le_refl _)
  | integer | float | true | false | name | path =>
    exact ⟨Expr.grouped_iff.mpr ⟨trivial, nofun⟩, Nat.le_refl _⟩
  | call _ _ _ ihArgs => exact ⟨Expr.grouped_iff.mpr ⟨trivial, ihArgs⟩, Nat.le_refl _⟩
  | paren _ _ _ ih =>
    exact ⟨Expr.grouped_iff.mpr ⟨trivial, List.forall_mem_singleton.mpr ih.1⟩, Nat.le_refl _⟩
  | tuple _ _ _ _ _ ihFirst ihRest =>
    exact ⟨Expr.grouped_iff.mpr ⟨trivial, List.forall_mem_cons.mpr ⟨ihFirst.1, ihRest⟩⟩, Nat.le_refl _⟩
  | choice _ _ _ _ _ ihCondition ihYes ihNo =>
    exact ⟨Expr.grouped_iff.mpr ⟨trivial, List.forall_mem_cons.mpr ⟨ihCondition.1,
      forall_mem_pair.mpr ⟨ihYes, ihNo⟩⟩⟩, Nat.le_refl _⟩
  | choiceChain _ _ _ _ _ _ ihCondition ihYes ihNo =>
    exact ⟨Expr.grouped_iff.mpr ⟨trivial, List.forall_mem_cons.mpr ⟨ihCondition.1,
      forall_mem_pair.mpr ⟨ihYes, ihNo.1⟩⟩⟩, Nat.le_refl _⟩
  | noItem | lastComma | noArgument => nofun
  | moreItems _ _ _ _ ihItem ihRest => exact List.forall_mem_cons.mpr ⟨ihItem.1, ihRest⟩
  | branch _ _ _ ih => exact ih.1
  | arguments _ _ _ ih => exact ih
  | lastArgument _ _ _ ih => exact List.forall_mem_singleton.mpr ih.1
  | moreArguments _ _ _ _ ihArg ihRest => exact List.forall_mem_cons.mpr ⟨ihArg.1, ihRest⟩

theorem ReadsInitial.grouped {value : Option Expr} (h : ReadsInitial c value c') :
    ∀ e ∈ value.toList, e.Grouped := by
  cases value with
  | none => nofun
  | some e => exact List.forall_mem_singleton.mpr h.2.grouped.1

theorem ReadsSimple.grouped {isBody : Bool} {s : Stmt} (h : ReadsSimple isBody c s c') :
    ∀ e ∈ s.exprs, e.Grouped := by
  cases h with
  | eval he _ _ => exact List.forall_mem_singleton.mpr he.grouped.1
  | assign hplace _ _ hvalue _ =>
    exact forall_mem_pair.mpr ⟨hplace.grouped.1, hvalue.grouped.1⟩

/-- The expressions of a phrase of statements. -/
def StmtPhrase.exprs : StmtPhrase → List Expr
  | .block b => b.exprs
  | .statements ss => Stmt.allExprs ss
  | .statement s => s.exprs

theorem ReadsStmt.grouped {p : StmtPhrase} (h : ReadsStmt c p c') : ∀ e ∈ p.exprs, e.Grouped := by
  induction h with
  | block _ _ _ _ ih | emptyStatement _ _ ih | loop _ _ ih | nested _ _ ih => exact ih
  | noStatement | jump => nofun
  | moreStatements _ _ _ _ ihFirst ihRest => exact List.forall_mem_append.mpr ⟨ihFirst, ihRest⟩
  | «let» _ _ _ _ _ hvalue _ => exact hvalue.grouped
  | ifOnly _ hcondition _ _ ihBody | «while» _ hcondition _ ihBody =>
    exact List.forall_mem_cons.mpr ⟨hcondition.grouped.1, ihBody⟩
  | ifElse _ hcondition _ _ _ _ ihBody ihOtherwise =>
    exact List.forall_mem_cons.mpr
      ⟨hcondition.grouped.1, List.forall_mem_append.mpr ⟨ihBody, ihOtherwise⟩⟩
  | ifChain _ hcondition _ _ _ _ ihBody ihChained =>
    exact List.forall_mem_cons.mpr ⟨hcondition.grouped.1,
      List.forall_mem_append.mpr ⟨ihBody, List.forall_mem_append.mpr ⟨ihChained, nofun⟩⟩⟩
  | «for» _ _ _ _ hfirst _ hstop _ ihBody =>
    exact List.forall_mem_cons.mpr
      ⟨hfirst.grouped.1, List.forall_mem_cons.mpr ⟨hstop.grouped.1, ihBody⟩⟩
  | simple _ hs => exact hs.grouped

theorem ReadsClosure.grouped {closure : Closure} (h : ReadsClosure c closure c') :
    ∀ e ∈ closure.body.exprs, e.Grouped := by
  cases h with
  | mk _ _ _ _ _ _ _ hbody _ =>
    cases hbody with
    | block _ hb => exact hb.grouped
    | simple _ hs => exact List.forall_mem_append.mpr ⟨hs.grouped, nofun⟩

end Parse

/-! ### Order -/

/-- Whether what fills a form has another form inside it. A part of a form may stand in either choice of
a free place, so this is about what fills the form and not about its slots. -/
def Inside (ps qs : List Slot) : Prop :=
  ∀ ls left, Fills qs ls left → ∃ before after, Fills (before ++ (ps ++ after)) ls left

namespace Inside

variable {ps qs : List Slot}

theorem refl (ps : List Slot) : Inside ps ps := fun _ _ h => ⟨[], [], by simpa using h⟩

theorem trans {rs : List Slot} (h : Inside ps qs) (h' : Inside qs rs) : Inside ps rs := by
  intro ls left hfills
  obtain ⟨before, after, hqs⟩ := h' ls left hfills
  obtain ⟨mid, hbefore, hrest⟩ := fills_append.mp hqs
  obtain ⟨mid', hfront, hafter⟩ := fills_append.mp hrest
  obtain ⟨before', after', hps⟩ := h mid mid' hfront
  refine ⟨before ++ before', after' ++ after, ?_⟩
  rw [List.append_assoc, ← List.append_assoc ps, ← List.append_assoc before']
  exact fills_append.mpr ⟨mid, hbefore, fills_append.mpr ⟨mid', hps, hafter⟩⟩

theorem append_left (h : Inside ps qs) (rs : List Slot) : Inside ps (qs ++ rs) := by
  intro ls left hfills
  obtain ⟨mid, hqs, hrs⟩ := fills_append.mp hfills
  obtain ⟨before, after, hps⟩ := h ls mid hqs
  refine ⟨before, after ++ rs, ?_⟩
  rw [← List.append_assoc ps, ← List.append_assoc]
  exact fills_append.mpr ⟨mid, hps, hrs⟩

theorem append_right (h : Inside ps qs) (rs : List Slot) : Inside ps (rs ++ qs) := by
  intro ls left hfills
  obtain ⟨mid, hrs, hqs⟩ := fills_append.mp hfills
  obtain ⟨before, after, hps⟩ := h mid left hqs
  refine ⟨rs ++ before, after, ?_⟩
  rw [List.append_assoc]
  exact fills_append.mpr ⟨mid, hrs, hps⟩

theorem cons (h : Inside ps qs) (q : Slot) : Inside ps (q :: qs) := h.append_right [q]

theorem either {long short : List Slot} (h : Inside ps long) (h' : Inside ps short) :
    Inside ps [.either long short] := by
  rintro ls left ⟨_, hlong | hshort, rfl⟩
  · exact h _ _ hlong
  · exact h' _ _ hshort

theorem flatMap {pss : List (List Slot)} {f : List Slot → List Slot} (hqs : qs ∈ pss)
    (h : Inside ps (f qs)) : Inside ps (pss.flatMap f) := by
  obtain ⟨front, back, rfl⟩ := List.append_of_mem hqs
  rw [List.flatMap_append, List.flatMap_cons]
  exact (h.append_left _).append_right _

theorem commas {pss : List (List Slot)} (h : ∃ qs ∈ pss, Inside ps qs) : Inside ps (commas pss) := by
  obtain ⟨qs, hqs, h⟩ := h
  rcases pss with _ | ⟨first, rest⟩
  · cases hqs
  · rcases List.mem_cons.mp hqs with rfl | hqs
    · exact h.append_left _
    · exact (flatMap hqs (h.cons _)).append_right _

theorem argumentForm {pss : List (List Slot)} (h : ∃ qs ∈ pss, Inside ps qs) :
    Inside ps (argumentForm pss) := (((commas h).append_left _).append_left _).cons _

theorem braced (h : Inside ps qs) : Inside ps (braced qs) := (h.append_left _).cons _

theorem elseForm (h : Inside ps qs) (no : Expr) : Inside ps (no.elseForm qs) := by
  unfold Expr.elseForm
  split
  · exact h.braced.either h
  · exact h.braced

end Inside

theorem Inside.forms {x : Expr} {es : List Expr} (hx : x ∈ es) :
    ∃ qs ∈ Expr.forms es, Inside x.form qs := by
  induction es with
  | nil => cases hx
  | cons e es ih =>
    rcases List.mem_cons.mp hx with rfl | hx
    · exact ⟨_, List.mem_cons_self, .refl _⟩
    · obtain ⟨qs, hqs, hinside⟩ := ih hx
      exact ⟨qs, List.mem_cons_of_mem _ hqs, hinside⟩

/-- The form of an expression has those of its children inside. -/
theorem Expr.inside_child {x e : Expr} (hx : x ∈ e.children) : Inside x.form e.form := by
  cases e with
  | literal | name | path => cases hx
  | unary =>
    obtain rfl := List.mem_singleton.mp hx
    exact (Inside.refl _).cons _
  | cast | field =>
    obtain rfl := List.mem_singleton.mp hx
    exact (Inside.refl _).append_left _
  | paren =>
    obtain rfl := List.mem_singleton.mp hx
    exact ((Inside.refl _).append_left _).cons _
  | binary =>
    rcases List.mem_pair.mp hx with rfl | rfl
    · exact (Inside.refl _).append_left _
    · exact ((Inside.refl _).cons _).append_right _
  | index =>
    rcases List.mem_pair.mp hx with rfl | rfl
    · exact (Inside.refl _).append_left _
    · exact (((Inside.refl _).append_left _).cons _).append_right _
  | method =>
    rcases List.mem_cons.mp hx with rfl | hx
    · exact (Inside.refl _).append_left _
    · exact (((Inside.argumentForm (Inside.forms hx)).cons _).cons _).append_right _
  | call => exact (Inside.argumentForm (Inside.forms hx)).append_right _
  | tuple => exact (((Inside.commas (Inside.forms hx)).append_left _).append_left _).cons _
  | choice _ condition yes no =>
    rcases List.mem_cons.mp hx with rfl | hx
    · exact (((Inside.refl _).append_left _).append_left _).cons _
    · rcases List.mem_pair.mp hx with rfl | rfl
      · exact (((Inside.refl _).braced.append_right _).append_left _).cons _
      · exact ((((Inside.refl _).elseForm _).cons _).append_right _).cons _

theorem Expr.Part.inside {x e : Expr} (h : x.Part e) : Inside x.form e.form := by
  induction h with
  | refl => exact .refl _
  | tail _ hchild ih => exact ih.trans (Expr.inside_child hchild)

theorem Inside.elseBlock {ps : List Slot} {b : Block} (h : Inside ps b.form) (h' : Inside ps b.inner) :
    Inside ps (b.elseForm b.form b.inner) := by
  unfold Block.elseForm
  split
  · exact h.either h'
  · exact h

mutual

theorem Stmt.inside : ∀ {s : Stmt} {x : Expr}, x ∈ s.exprs → Inside x.form s.form
  | .let _ _ _ _ none, _, h => nomatch h
  | .let _ _ _ _ (some e), _, h => by
    obtain rfl := List.mem_singleton.mp h
    exact (((((Inside.refl _).cons _).append_right _).cons _).append_right _).cons _
  | .assign _ _ place value, _, h => by
    rcases List.mem_pair.mp h with rfl | rfl
    · exact (Inside.refl _).append_left _
    · exact ((Inside.refl _).cons _).append_right _
  | .if _ condition body none, _, h => by
    rcases List.mem_cons.mp h with rfl | h
    · exact (((Inside.refl _).append_left _).append_left _).cons _
    · exact (((body.inside h).append_right _).append_left _).cons _
  | .if _ condition body (some otherwise), _, h => by
    rcases List.mem_cons.mp h with rfl | h
    · exact (((Inside.refl _).append_left _).append_left _).cons _
    · rcases List.mem_append.mp h with h | h
      · exact (((body.inside h).append_right _).append_left _).cons _
      · exact (((Inside.elseBlock (otherwise.inside h) (otherwise.inside_inner h)).cons _).append_right
          _).cons _
  | .for _ _ start stop _ body, _, h => by
    rcases List.mem_cons.mp h with rfl | h
    · exact ((((Inside.refl _).append_left _).cons _).cons _).cons _
    · rcases List.mem_cons.mp h with rfl | h
      · exact ((((((Inside.refl _).append_left _).cons _).append_right _).cons _).cons _).cons _
      · exact ((((((body.inside h).append_right _).cons _).append_right _).cons _).cons _).cons _
  | .while _ condition body, _, h => by
    rcases List.mem_cons.mp h with rfl | h
    · exact ((Inside.refl _).append_left _).cons _
    · exact ((body.inside h).append_right _).cons _
  | .loop _ body, _, h => (body.inside h).cons _
  | .nested _ body, _, h => body.inside h
  | .jump .., _, h => nomatch h
  | .eval _ e, _, h => List.mem_singleton.mp h ▸ .refl _

theorem Block.inside : ∀ {b : Block} {x : Expr}, x ∈ b.exprs → Inside x.form b.form
  | ⟨_, _⟩, _, h => ((Stmt.allInside h).cons _).braced

theorem Block.inside_inner : ∀ {b : Block} {x : Expr}, x ∈ b.exprs → Inside x.form b.inner
  | ⟨_, _⟩, _, h => Stmt.allInside h

theorem Stmt.allInside : ∀ {ss : List Stmt} {x : Expr}, x ∈ Stmt.allExprs ss →
    Inside x.form (Stmt.sequenceForm ss)
  | [], _, h => nomatch h
  | s :: ss, _, h => by
    rcases List.mem_append.mp h with h | h
    · exact ((s.inside h).append_left _).append_left _
    · exact ((Stmt.allInside h).cons _).append_right _

end

theorem Block.inside_body {b : Block} {x : Expr} (h : x ∈ b.exprs) : Inside x.form b.bodyForm := by
  obtain ⟨span, stmts⟩ := b
  unfold bodyForm
  split
  · rename_i s hstmts
    obtain rfl : stmts = [s] := hstmts
    have hs : x ∈ s.exprs := by simpa [exprs, Stmt.allExprs] using h
    split
    · exact (Block.inside h).either ((s.inside hs).append_left _)
    · exact Block.inside h
  · exact Block.inside h

theorem Closure.inside {c : Closure} {x : Expr} (h : x ∈ c.body.exprs) (extra : List Lexeme) :
    Inside x.form (c.form extra) :=
  (((((c.body.inside_body h).cons _).append_right _).cons _).cons _).cons _

/-- The expressions of an accepted closure are grouped by rank, binary operators of one rank to the left.
The operands and operators of each stand in the source in the order of the tree, and there is no other tree
over them that is grouped by rank. -/
theorem Closure.grouped_of_parse {source : String} {c : Closure} (h : Closure.parse source = .ok c) :
    ∀ e ∈ c.body.exprs, ∀ x : Expr, x.Part e → x.Ranked ∧
      (∃ before after, Fills (before ++ (x.chain.flatMap ChainItem.form ++ after))
        ((tokenize source).1.map Token.lexeme) [.endOfInput]) ∧
      ∀ x' : Expr, x'.Grouped → x'.chain = x.chain → x'.bare = x.bare := by
  obtain ⟨⟨c', hreads⟩, _⟩ := Closure.reads_of_parse h
  obtain ⟨extra, _, hfills⟩ := hreads.passes (tape_of_tokenize source)
  intro e he x hx
  have hgrouped := (hreads.grouped e he).part hx
  refine ⟨hgrouped x .refl, ?_, fun x' hx' hchain => Expr.bare_eq_of_chain_eq hx' hgrouped hchain⟩
  rw [← x.form_eq_chain]
  exact (hx.inside.trans (Closure.inside he extra)) _ _ hfills

/-- What is read of `a + -b as u32 * c`. -/
def total : Expr :=
  .binary ⟨16, 33⟩ .add (.name ⟨16, 17⟩ "a")
    (.binary ⟨20, 33⟩ .mul
      (.cast ⟨20, 29⟩ (.unary ⟨20, 22⟩ .neg (.name ⟨21, 22⟩ "b")) ⟨.named "u32", ⟨26, 29⟩⟩)
      (.name ⟨32, 33⟩ "c"))

def totalKernel : Closure :=
  ⟨⟨"ids", ⟨1, 4⟩⟩, none, ⟨⟨6, 36⟩, [.let ⟨8, 34⟩ false ⟨"v", ⟨12, 13⟩⟩ none (some total)]⟩⟩

theorem Closure.grouped_of_parse_total :
    Closure.parse "|ids| \x7b let v = a + -b as u32 * c; \x7d" = .ok totalKernel ∧ total.Ranked ∧
      (∃ before after, Fills (before ++ (total.chain.flatMap ChainItem.form ++ after))
        ((tokenize "|ids| \x7b let v = a + -b as u32 * c; \x7d").1.map Token.lexeme) [.endOfInput]) ∧
      total.bare.Grouped ∧ total.bare.bare = total.bare := by
  have hparse : Closure.parse "|ids| \x7b let v = a + -b as u32 * c; \x7d" = .ok totalKernel := rfl
  have hname : ∀ span text, (Expr.name span text).Grouped :=
    fun _ _ => Expr.grouped_iff.mpr ⟨trivial, nofun⟩
  have hbare : total.bare.Grouped :=
    Expr.grouped_binary.mpr ⟨⟨by decide, by decide⟩, hname _ _, Expr.grouped_binary.mpr
      ⟨⟨by decide, by decide⟩, Expr.grouped_cast.mpr
        ⟨by decide, Expr.grouped_unary.mpr ⟨by decide, hname _ _⟩⟩, hname _ _⟩⟩
  obtain ⟨hranked, horder, honly⟩ :=
    Closure.grouped_of_parse hparse total List.mem_cons_self total .refl
  exact ⟨hparse, hranked, horder, hbare, honly total.bare hbare rfl⟩

end ComputeKernel
