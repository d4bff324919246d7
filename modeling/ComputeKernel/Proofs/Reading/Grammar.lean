import ComputeKernel.Proofs.Reading.Lexis
import ComputeKernel.Shader.NamePool

/-!
The grammar of C's expressions. Binary operators associate to the left and bind as tightly as their
rank says; operators in front of an operand and casts bind tighter, members, indexes and calls behind
one tightest, and a conditional loosest. The names of the built-in types are the only types. The
grammar is unambiguous: a reader that goes from left to right and looks two tokens ahead finds every
tree that the grammar allows, and finds one.
-/

namespace ComputeKernel.Reading

open Shader (isTypeName rank unaryRank memberRank primaryRank)

/-- Trees of expressions. Words and numbers are opaque. -/
inductive Tree where
  | atom (text : String)
  | paren (inner : Tree)
  | unary (op : Shader.UnaryOp) (operand : Tree)
  | binary (op : BinaryOp) (left right : Tree)
  | cast (type : String) (operand : Tree)
  | member (receiver : Tree) (name : String)
  | index (base index : Tree)
  | call (function : Tree) (args : List Tree)
  | choice (condition yes no : Tree)
  deriving Inhabited

def unaryMark : Shader.UnaryOp → Mark
  | .minus => .operator .sub
  | .not => .bang
  | .complement => .tilde

theorem unaryMark_injective {a b : Shader.UnaryOp} (h : unaryMark a = unaryMark b) : a = b := by
  cases a <;> cases b <;> first | rfl | cases h

/-! ### The grammar -/

def choiceRank : Nat := 1

/-- What is parsed: an expression that binds at least as tightly as `rank`, or arguments. -/
inductive Parsed where
  | expr (rank : Nat) (t : Tree)
  | args (ts : List Tree)
  | moreArgs (ts : List Tree)

inductive Parses : List Token → Parsed → Prop where
  | word {w} : ¬ isTypeName w → Parses [.word w] (.expr primaryRank (.atom w))
  | number {n} : Parses [.number n] (.expr primaryRank (.atom n))
  | paren {ts t} : Parses ts (.expr choiceRank t) →
      Parses (.mark .lparen :: (ts ++ [.mark .rparen])) (.expr primaryRank (.paren t))
  | member {ts t w} : Parses ts (.expr memberRank t) →
      Parses (ts ++ [.mark .dot, .word w]) (.expr memberRank (.member t w))
  | index {ts us t u} : Parses ts (.expr memberRank t) → Parses us (.expr choiceRank u) →
      Parses (ts ++ .mark .lbracket :: (us ++ [.mark .rbracket])) (.expr memberRank (.index t u))
  | call {ts us t as} : Parses ts (.expr memberRank t) → Parses us (.args as) →
      Parses (ts ++ .mark .lparen :: us) (.expr memberRank (.call t as))
  | construct {w us as} : isTypeName w → Parses us (.args as) →
      Parses (.word w :: .mark .lparen :: us) (.expr memberRank (.call (.atom w) as))
  | unary {op ts t} : Parses ts (.expr unaryRank t) →
      Parses (.mark (unaryMark op) :: ts) (.expr unaryRank (.unary op t))
  | cast {w ts t} : isTypeName w → Parses ts (.expr unaryRank t) →
      Parses (.mark .lparen :: .word w :: .mark .rparen :: ts) (.expr unaryRank (.cast w t))
  | binary {op ts us l r} : Parses ts (.expr (rank op) l) → Parses us (.expr (rank op + 1) r) →
      Parses (ts ++ .mark (.operator op) :: us) (.expr (rank op) (.binary op l r))
  | choice {cs ys ns c y n} : Parses cs (.expr (choiceRank + 1) c) →
      Parses ys (.expr choiceRank y) → Parses ns (.expr choiceRank n) →
      Parses (cs ++ .mark .question :: (ys ++ .mark .colon :: ns))
        (.expr choiceRank (.choice c y n))
  | looser {k ts t} : Parses ts (.expr (k + 1) t) → Parses ts (.expr k t)
  | noArgs : Parses [.mark .rparen] (.args [])
  | args {ts us t as} : Parses ts (.expr choiceRank t) → Parses us (.moreArgs as) →
      Parses (ts ++ us) (.args (t :: as))
  | lastArg : Parses [.mark .rparen] (.moreArgs [])
  | nextArg {ts us t as} : Parses ts (.expr choiceRank t) → Parses us (.moreArgs as) →
      Parses (.mark .comma :: (ts ++ us)) (.moreArgs (t :: as))

theorem Parses.loosen {ts : List Token} {t : Tree} {k l : Nat} (h : Parses ts (.expr l t))
    (hkl : k ≤ l) : Parses ts (.expr k t) := by
  induction hkl with
  | refl => exact h
  | step _ ih => exact ih (.looser h)

/-- Whether a tree is a reading of a text. -/
def Reads (text : String) (t : Tree) : Prop :=
  ∃ ts, lex text.toList = some ts ∧ Parses ts (.expr choiceRank t)

/-! ### Reading from left to right -/

/-- What the reader looks for. -/
inductive Goal where
  | expression (least : Nat)
  | operand
  | members (receiver : Tree)
  | operators (least : Nat) (left : Tree)
  | args
  | moreArgs

/-- What the reader finds. -/
inductive Found where
  | tree (t : Tree)
  | trees (ts : List Tree)

/-- Whether a cast stands behind an opening parenthesis. -/
def opensCast : List Token → Bool
  | .word w :: .mark .rparen :: _ => isTypeName w
  | _ => false

/-- Whether a member, an index or a call goes on behind an operand. -/
def opensMember : List Token → Bool
  | .mark .dot :: _ | .mark .lbracket :: _ | .mark .lparen :: _ => true
  | _ => false

/-- Whether an operator goes on that binds at least as tightly as `least`. -/
def opensOperator (least : Nat) : List Token → Bool
  | .mark (.operator op) :: _ => least ≤ rank op
  | .mark .question :: _ => least ≤ choiceRank
  | _ => false

def opensArgs : List Token → Bool
  | .mark .rparen :: _ => false
  | _ => true

inductive Scans : List Token → Goal → Found → List Token → Prop where
  | expression {ts ts₁ rest least t whole} : Scans ts .operand (.tree t) ts₁ →
      Scans ts₁ (.operators least t) whole rest → Scans ts (.expression least) whole rest
  | unary {op ts rest t m} : m = unaryMark op → Scans ts .operand (.tree t) rest →
      Scans (.mark m :: ts) .operand (.tree (.unary op t)) rest
  | cast {w ts rest t} : isTypeName w → Scans ts .operand (.tree t) rest →
      Scans (.mark .lparen :: .word w :: .mark .rparen :: ts) .operand (.tree (.cast w t)) rest
  | paren {ts ts₁ rest t whole} : opensCast ts = false →
      Scans ts (.expression choiceRank) (.tree t) (.mark .rparen :: ts₁) →
      Scans ts₁ (.members (.paren t)) whole rest → Scans (.mark .lparen :: ts) .operand whole rest
  | word {w ts rest whole} : ¬ isTypeName w → Scans ts (.members (.atom w)) whole rest →
      Scans (.word w :: ts) .operand whole rest
  | number {n ts rest whole} : Scans ts (.members (.atom n)) whole rest →
      Scans (.number n :: ts) .operand whole rest
  | construct {w ts ts₁ rest as whole} : isTypeName w → Scans ts .args (.trees as) ts₁ →
      Scans ts₁ (.members (.call (.atom w) as)) whole rest →
      Scans (.word w :: .mark .lparen :: ts) .operand whole rest
  | noMember {ts t} : opensMember ts = false → Scans ts (.members t) (.tree t) ts
  | member {ts rest t w whole} : Scans ts (.members (.member t w)) whole rest →
      Scans (.mark .dot :: .word w :: ts) (.members t) whole rest
  | index {ts ts₁ rest t i whole} :
      Scans ts (.expression choiceRank) (.tree i) (.mark .rbracket :: ts₁) →
      Scans ts₁ (.members (.index t i)) whole rest →
      Scans (.mark .lbracket :: ts) (.members t) whole rest
  | call {ts ts₁ rest t as whole} : Scans ts .args (.trees as) ts₁ →
      Scans ts₁ (.members (.call t as)) whole rest →
      Scans (.mark .lparen :: ts) (.members t) whole rest
  | noOperator {ts least t} : opensOperator least ts = false →
      Scans ts (.operators least t) (.tree t) ts
  | binary {op ts ts₁ rest least l r whole} : least ≤ rank op →
      Scans ts (.expression (rank op + 1)) (.tree r) ts₁ →
      Scans ts₁ (.operators least (.binary op l r)) whole rest →
      Scans (.mark (.operator op) :: ts) (.operators least l) whole rest
  | choice {ts ts₁ rest least c y n} : least ≤ choiceRank →
      Scans ts (.expression choiceRank) (.tree y) (.mark .colon :: ts₁) →
      Scans ts₁ (.expression choiceRank) (.tree n) rest →
      Scans (.mark .question :: ts) (.operators least c) (.tree (.choice c y n)) rest
  | noArgs {ts} : Scans (.mark .rparen :: ts) .args (.trees []) ts
  | args {ts ts₁ rest t as} : opensArgs ts →
      Scans ts (.expression choiceRank) (.tree t) ts₁ → Scans ts₁ .moreArgs (.trees as) rest →
      Scans ts .args (.trees (t :: as)) rest
  | lastArg {ts} : Scans (.mark .rparen :: ts) .moreArgs (.trees []) ts
  | nextArg {ts ts₁ rest t as} : Scans ts (.expression choiceRank) (.tree t) ts₁ →
      Scans ts₁ .moreArgs (.trees as) rest →
      Scans (.mark .comma :: ts) .moreArgs (.trees (t :: as)) rest

/-- The reader finds one thing only. -/
theorem Scans.unique {ts rest rest' : List Token} {g : Goal} {found found' : Found}
    (h : Scans ts g found rest) (h' : Scans ts g found' rest') : found = found' ∧ rest = rest' := by
  induction h generalizing found' rest' with
  | expression _ _ ihFirst ihRest =>
    cases h' with
    | expression hfirst hrest =>
      obtain ⟨⟨⟩, rfl⟩ := ihFirst hfirst
      exact ihRest hrest
  | @unary op _ _ _ _ hop _ ih =>
    cases h' with
    | unary hop' h =>
      obtain rfl := unaryMark_injective (hop.symm.trans hop')
      obtain ⟨⟨⟩, rfl⟩ := ih h
      exact ⟨rfl, rfl⟩
    | cast | paren => cases op <;> cases hop
  | cast htype _ ih =>
    cases h' with
    | @unary op _ _ _ _ hop => cases op <;> cases hop
    | cast _ h =>
      obtain ⟨⟨⟩, rfl⟩ := ih h
      exact ⟨rfl, rfl⟩
    | paren hopens => exact absurd (hopens.symm.trans htype) Bool.false_ne_true
  | paren hopens _ _ ihInner ihRest =>
    cases h' with
    | @unary op _ _ _ _ hop => cases op <;> cases hop
    | cast htype => exact absurd (hopens.symm.trans htype) Bool.false_ne_true
    | paren _ hinner hrest =>
      obtain ⟨⟨⟩, ⟨⟩⟩ := ihInner hinner
      exact ihRest hrest
  | word htype _ ih =>
    cases h' with
    | word _ hrest => exact ih hrest
    | construct htype' => exact absurd htype' htype
  | number _ ih =>
    cases h' with
    | number hrest => exact ih hrest
  | construct htype _ _ ihArgs ihRest =>
    cases h' with
    | word htype' => exact absurd htype htype'
    | construct _ hargs hrest =>
      obtain ⟨⟨⟩, rfl⟩ := ihArgs hargs
      exact ihRest hrest
  | noMember hopens =>
    cases h' with
    | noMember => exact ⟨rfl, rfl⟩
    | member | index | call => cases hopens
  | member _ ih =>
    cases h' with
    | noMember hopens => cases hopens
    | member hrest => exact ih hrest
  | index _ _ ihIndex ihRest =>
    cases h' with
    | noMember hopens => cases hopens
    | index hindex hrest =>
      obtain ⟨⟨⟩, ⟨⟩⟩ := ihIndex hindex
      exact ihRest hrest
  | call _ _ ihArgs ihRest =>
    cases h' with
    | noMember hopens => cases hopens
    | call hargs hrest =>
      obtain ⟨⟨⟩, rfl⟩ := ihArgs hargs
      exact ihRest hrest
  | noOperator hopens =>
    cases h' with
    | noOperator => exact ⟨rfl, rfl⟩
    | binary hleast | choice hleast => exact absurd hleast (of_decide_eq_false hopens)
  | binary hleast _ _ ihRight ihRest =>
    cases h' with
    | noOperator hopens => exact absurd hleast (of_decide_eq_false hopens)
    | binary _ hright hrest =>
      obtain ⟨⟨⟩, rfl⟩ := ihRight hright
      exact ihRest hrest
  | choice hleast _ _ ihYes ihNo =>
    cases h' with
    | noOperator hopens => exact absurd hleast (of_decide_eq_false hopens)
    | choice _ hyes hno =>
      obtain ⟨⟨⟩, ⟨⟩⟩ := ihYes hyes
      obtain ⟨⟨⟩, rfl⟩ := ihNo hno
      exact ⟨rfl, rfl⟩
  | noArgs =>
    cases h' with
    | noArgs => exact ⟨rfl, rfl⟩
    | args hopens => cases hopens
  | args hopens _ _ ihFirst ihRest =>
    cases h' with
    | noArgs => cases hopens
    | args _ hfirst hrest =>
      obtain ⟨⟨⟩, rfl⟩ := ihFirst hfirst
      obtain ⟨⟨⟩, rfl⟩ := ihRest hrest
      exact ⟨rfl, rfl⟩
  | lastArg =>
    cases h' with
    | lastArg => exact ⟨rfl, rfl⟩
  | nextArg _ _ ihFirst ihRest =>
    cases h' with
    | nextArg hfirst hrest =>
      obtain ⟨⟨⟩, rfl⟩ := ihFirst hfirst
      obtain ⟨⟨⟩, rfl⟩ := ihRest hrest
      exact ⟨rfl, rfl⟩

/-! ### Whatever is parsed is found -/

theorem two_le_rank (op : BinaryOp) : 2 ≤ rank op := by cases op <;> decide

/-- How the tokens of an expression begin: with no closing parenthesis, and with the name of a type
in a constructor only. -/
theorem Parses.front {ts : List Token} {p : Parsed} (h : Parses ts p) {k : Nat} {t : Tree}
    (hp : p = .expr k t) : ∃ a us, ts = a :: us ∧ a ≠ .mark .rparen ∧
      ∀ w, a = .word w → isTypeName w → ∃ vs, us = .mark .lparen :: vs := by
  induction h generalizing k t with
  | word htype =>
    refine ⟨_, _, rfl, nofun, ?_⟩
    rintro w ⟨⟩ htype'
    exact absurd htype' htype
  | number => exact ⟨_, _, rfl, nofun, nofun⟩
  | paren => exact ⟨_, _, rfl, nofun, nofun⟩
  | unary => refine ⟨_, _, rfl, ?_, nofun⟩; rename_i op _ _ _ _; cases op <;> nofun
  | cast => exact ⟨_, _, rfl, nofun, nofun⟩
  | construct => exact ⟨_, _, rfl, nofun, fun _ _ _ => ⟨_, rfl⟩⟩
  | member _ ih | index _ _ ih _ | call _ _ ih _ | binary _ _ ih _ | choice _ _ _ ih _ _ =>
    obtain ⟨a, us, rfl, hclose, htype⟩ := ih rfl
    refine ⟨a, _, rfl, hclose, fun w hw hw' => ?_⟩
    obtain ⟨vs, rfl⟩ := htype w hw hw'
    exact ⟨_, rfl⟩
  | looser _ ih => exact ih rfl
  | noArgs | args | lastArg | nextArg => cases hp

theorem Parses.opensCast {ts : List Token} {k : Nat} {t : Tree} (h : Parses ts (.expr k t))
    (rest : List Token) : Reading.opensCast (ts ++ rest) = false := by
  obtain ⟨a, us, rfl, _, htype⟩ := h.front rfl
  unfold Reading.opensCast
  split
  · rename_i w rest' heq
    rw [← Bool.not_eq_true]
    intro hw
    obtain ⟨rfl, heq⟩ := List.cons.inj heq
    obtain ⟨vs, rfl⟩ := htype w rfl hw
    cases heq
  · rfl

theorem Parses.opensArgs {ts : List Token} {k : Nat} {t : Tree} (h : Parses ts (.expr k t))
    (rest : List Token) : Reading.opensArgs (ts ++ rest) := by
  obtain ⟨a, us, rfl, hclose, _⟩ := h.front rfl
  unfold Reading.opensArgs
  split
  · rename_i heq
    exact absurd (List.cons.inj heq).1 hclose
  · rfl

/-- Behind an argument stands a comma or the closing parenthesis. -/
theorem Parses.closes {us : List Token} {as : List Tree} (h : Parses us (.moreArgs as))
    (rest : List Token) :
    opensMember (us ++ rest) = false ∧ opensOperator choiceRank (us ++ rest) = false := by
  cases h <;> exact ⟨rfl, rfl⟩

/-- Whether no operator stands in front of `rest` that binds tighter than `k`. -/
def Yields (k : Nat) (rest : List Token) : Prop :=
  ∀ op us, rest = .mark (.operator op) :: us → rank op ≤ k

/-- How the reader comes to what is parsed. The tightest expressions are read as operands, of which
members may follow; the operators behind a tighter expression are left to the one around it. -/
structure Complete (ts : List Token) (k : Nat) (t : Tree) : Prop where
  member : memberRank ≤ k → ∀ rest whole rest', Scans rest (.members t) whole rest' →
    Scans (ts ++ rest) .operand whole rest'
  operand : unaryRank ≤ k → ∀ rest, opensMember rest = false →
    Scans (ts ++ rest) .operand (.tree t) rest
  operators : choiceRank < k → ∀ rest, opensMember rest = false → Yields k rest →
    ∀ least whole rest', least ≤ k → Scans rest (.operators least t) whole rest' →
    Scans (ts ++ rest) (.expression least) whole rest'
  expression : ∀ rest, opensMember rest = false → opensOperator choiceRank rest = false →
    Scans (ts ++ rest) (.expression choiceRank) (.tree t) rest

/-- What the reader finds for what is parsed. -/
def Reachable (ts : List Token) : Parsed → Prop
  | .expr k t => Complete ts k t
  | .args as => ∀ rest, Scans (ts ++ rest) .args (.trees as) rest
  | .moreArgs as => ∀ rest, Scans (ts ++ rest) .moreArgs (.trees as) rest

namespace Complete

variable {ts : List Token} {k : Nat} {t : Tree}

theorem of_operators
    (h : ∀ rest, opensMember rest = false → Yields k rest → ∀ least whole rest', least ≤ k →
      Scans rest (.operators least t) whole rest' → Scans (ts ++ rest) (.expression least) whole rest')
    (hlo : choiceRank < k) (hhi : k < unaryRank) : Complete ts k t where
  member hk := absurd hk (by unfold memberRank; unfold unaryRank at hhi; omega)
  operand hk := absurd hk (by omega)
  operators _ := h
  expression rest hmember hoperator := by
    refine h rest hmember ?_ choiceRank _ _ (by omega) (.noOperator hoperator)
    rintro op us rfl
    have := of_decide_eq_false hoperator
    have := two_le_rank op
    unfold choiceRank at *
    omega

theorem of_operand (h : ∀ rest, opensMember rest = false → Scans (ts ++ rest) .operand (.tree t) rest)
    (hk : k = unaryRank) : Complete ts k t where
  member hk' := absurd hk' (by rw [hk]; decide)
  operand _ := h
  operators _ rest hmember _ _ _ _ _ hrest := .expression (h rest hmember) hrest
  expression rest hmember hoperator := .expression (h rest hmember) (.noOperator hoperator)

theorem of_member (h : ∀ rest whole rest', Scans rest (.members t) whole rest' →
    Scans (ts ++ rest) .operand whole rest') : Complete ts k t where
  member _ := h
  operand _ rest hmember := h rest _ _ (.noMember hmember)
  operators _ rest hmember _ _ _ _ _ hrest :=
    .expression (h rest _ _ (.noMember hmember)) hrest
  expression rest hmember hoperator :=
    .expression (h rest _ _ (.noMember hmember)) (.noOperator hoperator)

theorem looser (h : Complete ts (k + 1) t) : Complete ts k t where
  member hk := h.member (Nat.le_succ_of_le hk)
  operand hk := h.operand (Nat.le_succ_of_le hk)
  operators hk rest hmember hyields least whole rest' hleast :=
    h.operators (Nat.lt_succ_of_lt hk) rest hmember
      (fun op us heq => Nat.le_succ_of_le (hyields op us heq)) least whole rest'
      (Nat.le_succ_of_le hleast)
  expression := h.expression

end Complete

/-- The reader finds whatever the grammar allows. -/
theorem Parses.reachable {ts : List Token} {p : Parsed} (h : Parses ts p) : Reachable ts p := by
  induction h with
  | word htype => exact .of_member fun rest whole rest' hrest => .word htype hrest
  | number => exact .of_member fun rest whole rest' hrest => .number hrest
  | paren hinner ih =>
    refine .of_member fun rest whole rest' hrest => ?_
    rw [List.cons_append, List.append_assoc]
    exact .paren (hinner.opensCast _) (ih.expression _ rfl rfl) hrest
  | member _ ih =>
    refine .of_member fun rest whole rest' hrest => ?_
    rw [List.append_assoc]
    exact ih.member (Nat.le_refl _) _ _ _ (.member hrest)
  | index _ _ ihBase ihIndex =>
    refine .of_member fun rest whole rest' hrest => ?_
    rw [List.append_assoc, List.cons_append, List.append_assoc]
    exact ihBase.member (Nat.le_refl _) _ _ _ (.index (ihIndex.expression _ rfl rfl) hrest)
  | call _ _ ih ihArgs =>
    refine .of_member fun rest whole rest' hrest => ?_
    rw [List.append_assoc, List.cons_append]
    exact ih.member (Nat.le_refl _) _ _ _ (.call (ihArgs rest) hrest)
  | construct htype _ ihArgs =>
    exact .of_member fun rest whole rest' hrest => .construct htype (ihArgs rest) hrest
  | unary _ ih =>
    exact .of_operand (fun rest hmember => .unary rfl (ih.operand (Nat.le_refl _) rest hmember)) rfl
  | cast htype _ ih =>
    exact .of_operand (fun rest hmember => .cast htype (ih.operand (Nat.le_refl _) rest hmember)) rfl
  | @binary op _ _ _ _ _ _ ihLeft ihRight =>
    have hlo := two_le_rank op
    refine .of_operators (fun rest hmember hyields least whole rest' hleast hrest => ?_) hlo
      (Shader.Expr.rank_binary_lt op)
    rw [List.append_assoc, List.cons_append]
    refine ihLeft.operators hlo _ rfl ?_ least whole rest' hleast (.binary hleast
      (ihRight.operators (Nat.lt_succ_of_lt hlo) rest hmember ?_ _ _ _ (Nat.le_refl _)
        (.noOperator ?_)) hrest)
    · rintro op' us ⟨⟩
      exact Nat.le_refl _
    · exact fun op' us heq => Nat.le_succ_of_le (hyields op' us heq)
    · unfold opensOperator
      split
      · rename_i op' us
        exact decide_eq_false (Nat.not_le_of_lt (Nat.lt_succ_of_le (hyields op' us rfl)))
      · exact decide_eq_false (by unfold choiceRank; omega)
      · rfl
  | choice _ _ _ ihCondition ihYes ihNo =>
    refine ⟨fun hk => absurd hk (by decide), fun hk => absurd hk (by decide),
      fun hk => absurd hk (by decide), fun rest hmember hoperator => ?_⟩
    rw [List.append_assoc, List.cons_append, List.append_assoc, List.cons_append]
    refine ihCondition.operators (by decide) _ rfl ?_ _ _ _ (by decide)
      (.choice (Nat.le_refl _) (ihYes.expression _ rfl rfl) (ihNo.expression _ hmember hoperator))
    rintro op us ⟨⟩
  | looser _ ih => exact ih.looser
  | noArgs => exact fun rest => .noArgs
  | args hfirst hmore ihFirst ihRest =>
    intro rest
    obtain ⟨hmember, hoperator⟩ := hmore.closes rest
    rw [List.append_assoc]
    exact .args (hfirst.opensArgs _) (ihFirst.expression _ hmember hoperator) (ihRest rest)
  | lastArg => exact fun rest => .lastArg
  | nextArg _ hmore ihFirst ihRest =>
    intro rest
    obtain ⟨hmember, hoperator⟩ := hmore.closes rest
    rw [List.cons_append, List.append_assoc]
    exact .nextArg (ihFirst.expression _ hmember hoperator) (ihRest rest)

/-- No tokens have two readings. -/
theorem Parses.unique {ts : List Token} {t t' : Tree} (h : Parses ts (.expr choiceRank t))
    (h' : Parses ts (.expr choiceRank t')) : t = t' := by
  have hscans := h.reachable.expression [] rfl rfl
  have hscans' := h'.reachable.expression [] rfl rfl
  obtain ⟨⟨⟩, _⟩ := hscans.unique hscans'
  rfl

theorem Reads.unique {text : String} {t t' : Tree} (h : Reads text t) (h' : Reads text t') :
    t = t' := by
  obtain ⟨ts, hlex, hparses⟩ := h
  obtain ⟨ts', hlex', hparses'⟩ := h'
  obtain rfl := Option.some.inj (hlex.symm.trans hlex')
  exact hparses.unique hparses'

end ComputeKernel.Reading
