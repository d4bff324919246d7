import ComputeKernel.Proofs.Spacing.Alike

/-!
The ranges under which a closure keeps its names and types. In a closure that is laid out no two of
them are the same, so of two closures that differ in their ranges only, the ranges come in pairs, no
two of which have a range in common.
-/

namespace ComputeKernel

mutual

/-- The ranges of an expression and of the expressions in it. -/
def Expr.keys : Expr → List Span
  | .literal s _ | .name s _ | .path s _ => [s]
  | .unary s _ e | .cast s e _ | .field s e _ | .paren s e => s :: e.keys
  | .binary s _ l r => s :: (l.keys ++ r.keys)
  | .method s e _ args => s :: (e.keys ++ Expr.allKeys args)
  | .call s _ _ args | .tuple s args => s :: Expr.allKeys args
  | .index s base i => s :: (base.keys ++ i.keys)
  | .choice s condition yes no => s :: (condition.keys ++ (yes.keys ++ no.keys))

def Expr.allKeys : List Expr → List Span
  | [] => []
  | e :: es => e.keys ++ Expr.allKeys es

end

def Expr.optionalKeys : Option Expr → List Span
  | none => []
  | some e => e.keys

mutual

/-- The ranges of the expressions and of the declared names of a statement. -/
def Stmt.keys : Stmt → List Span
  | .let _ _ name _ value => name.span :: Expr.optionalKeys value
  | .assign _ _ place value => place.keys ++ value.keys
  | .if _ condition body otherwise =>
    condition.keys ++ (body.keys ++ Block.optionalKeys otherwise)
  | .for _ counter start stop _ body => counter.span :: (start.keys ++ (stop.keys ++ body.keys))
  | .while _ condition body => condition.keys ++ body.keys
  | .loop _ body | .nested _ body => body.keys
  | .jump _ _ => []
  | .eval _ value => value.keys

def Block.keys : Block → List Span
  | ⟨_, stmts⟩ => Stmt.allKeys stmts

def Block.optionalKeys : Option Block → List Span
  | none => []
  | some b => b.keys

def Stmt.allKeys : List Stmt → List Span
  | [] => []
  | s :: stmts => s.keys ++ Stmt.allKeys stmts

end

def Closure.keys (c : Closure) : List Span := c.param.span :: c.body.keys

/-! ### Ranges that are apart -/

namespace Span

/-- Whether ranges are different from each other and lie between two offsets. -/
structure Apart (lo hi : Nat) (keys : List Span) : Prop where
  nodup : keys.Nodup
  between : ∀ k ∈ keys, k.Between lo hi

namespace Apart

variable {lo lo' mid hi hi' : Nat} {s : Span} {keys as bs : List Span}

theorem nil : Apart lo hi [] := ⟨List.nodup_nil, by simp⟩

theorem mono (h : Apart lo hi keys) (hlo : lo' ≤ lo) (hhi : hi ≤ hi') : Apart lo' hi' keys :=
  ⟨h.nodup, fun k hk => (h.between k hk).mono hlo hhi⟩

theorem append (h : Apart lo mid as) (h' : Apart lo' hi bs) (hmid : mid ≤ lo') (hlo : lo ≤ lo')
    (hhi : mid ≤ hi) : Apart lo hi (as ++ bs) := by
  refine ⟨List.nodup_append.mpr ⟨h.nodup, h'.nodup, ?_⟩, ?_⟩
  · intro a ha b hb hab
    obtain ⟨_, hproper, hstop⟩ := h.between a ha
    obtain ⟨hstart, _, _⟩ := h'.between b hb
    subst hab
    unfold Span.Proper at hproper
    omega
  · intro k hk
    rcases List.mem_append.mp hk with hk | hk
    · exact (h.between k hk).mono (Nat.le_refl _) hhi
    · exact (h'.between k hk).mono hlo (Nat.le_refl _)

theorem not_mem (h : Apart lo hi keys) (hs : s.start < lo ∨ hi < s.stop) : s ∉ keys := by
  intro hk
  obtain ⟨hstart, _, hstop⟩ := h.between s hk
  omega

/-- A range around others is another one if it begins in front of them or ends behind them. -/
theorem cons (h : Apart lo hi keys) (hs : s.Proper) (hlo : s.start ≤ lo) (hhi : hi ≤ s.stop)
    (hne : s.start < lo ∨ hi < s.stop) : Apart s.start s.stop (s :: keys) := by
  refine ⟨List.nodup_cons.mpr ⟨h.not_mem hne, h.nodup⟩, fun k hk => ?_⟩
  rcases List.mem_cons.mp hk with rfl | hk
  · exact ⟨Nat.le_refl _, hs, Nat.le_refl _⟩
  · exact (h.between k hk).mono hlo hhi

/-- A range around two groups may begin with the first and end with the second. -/
theorem around (h : Apart lo mid as) (h' : Apart lo' hi bs) (hs : s.Proper) (hlo : s.start ≤ lo)
    (hmid : mid ≤ lo') (hhi : hi ≤ s.stop) (has : mid < s.stop) (hbs : s.start < lo') :
    Apart s.start s.stop (s :: (as ++ bs)) := by
  have hparts : Apart s.start s.stop (as ++ bs) :=
    (h.mono hlo (Nat.le_refl _)).append (h'.mono (Nat.le_refl _) hhi) hmid (Nat.le_of_lt hbs)
      (Nat.le_of_lt has)
  refine ⟨List.nodup_cons.mpr ⟨fun hk => ?_, hparts.nodup⟩, fun k hk => ?_⟩
  · rcases List.mem_append.mp hk with hk | hk
    · exact h.not_mem (.inr has) hk
    · exact h'.not_mem (.inl hbs) hk
  · rcases List.mem_cons.mp hk with rfl | hk
    · exact ⟨Nat.le_refl _, hs, Nat.le_refl _⟩
    · exact hparts.between k hk

theorem single (hs : s.Proper) : Apart s.start s.stop [s] := by
  refine ⟨by simp, fun k hk => ?_⟩
  obtain rfl := List.mem_singleton.mp hk
  exact ⟨Nat.le_refl _, hs, Nat.le_refl _⟩

end Apart

end Span

open ComputeKernel.Span (Apart)

mutual

theorem Expr.Laid.apart : ∀ {e : Expr}, e.Laid → Apart e.span.start e.span.stop e.keys
  | .literal .., h | .name .., h | .path .., h => Apart.single h
  | .unary s op e, h => by
    have hs : s.Proper := h.start_lt_stop
    obtain ⟨he, hstart, hstop⟩ := h
    show Apart s.start s.stop (s :: e.keys)
    exact he.apart.cons hs (Nat.le_of_lt hstart) hstop (.inl hstart)
  | .binary s op l r, h => by
    have hs : s.Proper := h.start_lt_stop
    obtain ⟨hl, hr, hstart, hmid, hstop⟩ := h
    have := hl.start_lt_stop
    have := hr.start_lt_stop
    show Apart s.start s.stop (s :: (l.keys ++ r.keys))
    exact hl.apart.around hr.apart hs hstart (by omega) hstop (by omega) (by omega)
  | .cast s e type, h => by
    have hs : s.Proper := h.start_lt_stop
    obtain ⟨he, hstart, hlo, hproper, hhi⟩ := h
    unfold Span.Proper at hproper
    show Apart s.start s.stop (s :: e.keys)
    exact he.apart.cons hs hstart (by omega) (by omega)
  | .field s e member, h => by
    have hs : s.Proper := h.start_lt_stop
    obtain ⟨he, hstart, hlo, hproper, hhi⟩ := h
    unfold Span.Proper at hproper
    show Apart s.start s.stop (s :: e.keys)
    exact he.apart.cons hs hstart (by omega) (by omega)
  | .method s e member args, h => by
    have hs : s.Proper := h.start_lt_stop
    obtain ⟨he, hstart, ⟨hlo, hproper, hhi⟩, hargs⟩ := h
    have := he.start_lt_stop
    unfold Span.Proper at hproper
    show Apart s.start s.stop (s :: (e.keys ++ Expr.allKeys args))
    exact he.apart.around hargs.apart hs hstart (by omega) (Nat.le_refl _) (by omega) (by omega)
  | .call s callee calleeSpan args, h => by
    have hs : s.Proper := h.start_lt_stop
    obtain ⟨⟨hlo, hproper, hhi⟩, hargs⟩ := h
    unfold Span.Proper at hproper
    show Apart s.start s.stop (s :: Expr.allKeys args)
    exact hargs.apart.cons hs (by omega) (Nat.le_refl _) (by omega)
  | .index s base i, h => by
    have hs : s.Proper := h.start_lt_stop
    obtain ⟨hbase, hi, hstart, hmid, hstop⟩ := h
    have := hbase.start_lt_stop
    have := hi.start_lt_stop
    show Apart s.start s.stop (s :: (base.keys ++ i.keys))
    exact hbase.apart.around hi.apart hs hstart (by omega) (by omega) (by omega) (by omega)
  | .tuple s items, h => by
    have hs : s.Proper := h.start_lt_stop
    have hitems : Apart (s.start + 1) s.stop (Expr.allKeys items) := Expr.AllLaid.apart h
    show Apart s.start s.stop (s :: Expr.allKeys items)
    exact hitems.cons hs (by omega) (Nat.le_refl _) (by omega)
  | .paren s e, h => by
    have hs : s.Proper := h.start_lt_stop
    obtain ⟨he, hstart, hstop⟩ := h
    show Apart s.start s.stop (s :: e.keys)
    exact he.apart.cons hs (by omega) (by omega) (.inl hstart)
  | .choice s condition yes no, h => by
    have hs : s.Proper := h.start_lt_stop
    obtain ⟨hcondition, hyes, hno, hstart, hmid, hmid', hstop⟩ := h
    have := hcondition.start_lt_stop
    have := hyes.start_lt_stop
    have := hno.start_lt_stop
    have hbranches := hyes.apart.append hno.apart (by omega) (by omega) (by omega)
    show Apart s.start s.stop (s :: (condition.keys ++ (yes.keys ++ no.keys)))
    exact (hcondition.apart.append hbranches (by omega) (by omega) (by omega)).cons hs
      (by omega) hstop (.inl hstart)

theorem Expr.AllLaid.apart : ∀ {lo hi : Nat} {es : List Expr}, Expr.AllLaid lo hi es →
    Apart (lo + 1) hi (Expr.allKeys es)
  | _, _, [], _ => Apart.nil
  | lo, hi, e :: es, ⟨he, hlo, hes⟩ => by
    have := he.start_lt_stop
    have := hes.lt fun _ _ h => h.start_lt_stop
    exact (he.apart.append hes.apart (by omega) (by omega) (by omega)).mono (by omega) (by omega)

end

theorem Stmt.AllLaid.le {lo hi : Nat} {stmts : List Stmt} (h : Stmt.AllLaid lo hi stmts) :
    lo ≤ hi := by
  induction stmts generalizing lo with
  | nil => exact h
  | cons s stmts ih =>
    obtain ⟨_, hproper, hlo, hstmts⟩ := h
    have := ih hstmts
    unfold Span.Proper at hproper
    omega

mutual

theorem Stmt.Laid.apart : ∀ {s : Stmt}, s.Laid → s.span.Proper →
    Apart s.span.start s.span.stop s.keys
  | .let s mutable name type none, ⟨⟨hlo, hname, hhi⟩, _, _⟩, _ =>
    (Apart.single hname).mono (Nat.le_of_succ_le hlo) hhi
  | .let s mutable name type (some e), ⟨⟨hlo, hname, hhi⟩, _, hvalue⟩, _ => by
    obtain ⟨he, hstart, hstop⟩ := hvalue e rfl
    have := he.start_lt_stop
    unfold Span.Proper at hname
    exact ((Apart.single hname).append he.apart (by omega) (by omega) (by omega)).mono
      (Nat.le_of_succ_le hlo) hstop
  | .assign s op place value, ⟨hplace, hvalue, hstart, hmid, hstop⟩, _ => by
    have := hplace.start_lt_stop
    have := hvalue.start_lt_stop
    exact (hplace.apart.append hvalue.apart (by omega) (by omega) (by omega)).mono hstart hstop
  | .if s condition body none, ⟨hcondition, hbody, hstart, hmid, hstop⟩, _ => by
    have := hcondition.start_lt_stop
    have hproper := hbody.proper
    unfold Span.Proper at hproper
    show Apart s.start s.stop (condition.keys ++ (body.keys ++ []))
    rw [List.append_nil]
    exact (hcondition.apart.append hbody.apart hmid (by omega) (by omega)).mono (by omega) hstop
  | .if s condition body (some otherwise), ⟨hcondition, hbody, hotherwise, hstart, hmid, hmid',
      hstop⟩, _ => by
    have := hcondition.start_lt_stop
    have hproper := hbody.proper
    have hproper' := hotherwise.proper
    unfold Span.Proper at hproper hproper'
    have hblocks := hbody.apart.append hotherwise.apart hmid' (by omega) (by omega)
    show Apart s.start s.stop (condition.keys ++ (body.keys ++ otherwise.keys))
    exact (hcondition.apart.append hblocks hmid (by omega) (by omega)).mono (by omega) hstop
  | .for s counter start stop inclusive body, ⟨hlo, hhi, hbody, ⟨hcounter, hproper, hmid⟩, hmid',
      hmid'', hstop⟩, _ => by
    have := hlo.start_lt_stop
    have := hhi.start_lt_stop
    have hproper' := hbody.proper
    unfold Span.Proper at hproper hproper'
    have hrest := hlo.apart.append
      (hhi.apart.append hbody.apart hmid'' (by omega) (by omega)) (by omega) (by omega) (by omega)
    show Apart s.start s.stop (counter.span :: (start.keys ++ (stop.keys ++ body.keys)))
    exact ((Apart.single hproper).append hrest hmid (by omega) (by omega)).mono (by omega) hstop
  | .while s condition body, ⟨hcondition, hbody, hstart, hmid, hstop⟩, _ => by
    have := hcondition.start_lt_stop
    have hproper := hbody.proper
    unfold Span.Proper at hproper
    show Apart s.start s.stop (condition.keys ++ body.keys)
    exact (hcondition.apart.append hbody.apart hmid (by omega) (by omega)).mono (by omega) hstop
  | .loop s body, ⟨hbody, hstart, hstop⟩, _ => hbody.apart.mono (Nat.le_of_lt hstart) hstop
  | .jump s kind, _, _ => Apart.nil
  | .eval s value, ⟨hvalue, hs⟩, _ => by
    subst hs
    exact hvalue.apart
  | .nested s body, ⟨hbody, hs⟩, _ => by
    subst hs
    exact hbody.apart

theorem Block.Laid.apart : ∀ {b : Block}, b.Laid → Apart b.span.start b.span.stop b.keys
  | ⟨_, _⟩, h => h.2.apart

theorem Stmt.AllLaid.apart : ∀ {lo hi : Nat} {stmts : List Stmt}, Stmt.AllLaid lo hi stmts →
    Apart lo hi (Stmt.allKeys stmts)
  | _, _, [], _ => Apart.nil
  | lo, hi, s :: stmts, ⟨hs, hproper, hlo, hstmts⟩ => by
    have := hstmts.le
    have hlt := hproper
    unfold Span.Proper at hlt
    exact ((hs.apart hproper).append hstmts.apart (by omega) (by omega) (by omega)).mono hlo
      (by omega)

end

/-- The ranges of an accepted closure are different from each other. -/
theorem Closure.Laid.nodup {hi : Nat} {c : Closure} (h : c.Laid hi) : c.keys.Nodup := by
  obtain ⟨hparam, _, hmid, hbody, _⟩ := h
  have hproper := hbody.proper
  unfold Span.Proper at hparam hproper
  exact ((Apart.single hparam).append hbody.apart hmid (by omega) (by omega)).nodup

/-! ### Pairs of ranges -/

/-- Whether no two pairs have a range in common. -/
def Matching (P : Span → Span → Prop) : Prop :=
  ∀ s s' t t', P s s' → P t t' → (s = t ↔ s' = t')

/-- Lists of different ranges pair them off. -/
theorem matching_zip {keys keys' : List Span} (h : keys.Nodup) (h' : keys'.Nodup) :
    Matching fun s s' => (s, s') ∈ keys.zip keys' := by
  intro s s' t t' hs ht
  obtain ⟨i, hi, hs⟩ := List.mem_iff_getElem.mp hs
  obtain ⟨j, hj, ht⟩ := List.mem_iff_getElem.mp ht
  rw [List.getElem_zip, Prod.mk.injEq] at hs ht
  rw [← hs.1, ← hs.2, ← ht.1, ← ht.2, List.getElem_inj h, List.getElem_inj h']

/-- The ranges of a pair of parts, as they come. -/
def Pair.keys : Pair → List Span × List Span
  | .expr e e' => (e.keys, e'.keys)
  | .exprs es es' => (Expr.allKeys es, Expr.allKeys es')
  | .initial value value' => (Expr.optionalKeys value, Expr.optionalKeys value')
  | .stmt s s' => (s.keys, s'.keys)
  | .stmts body body' => (Stmt.allKeys body, Stmt.allKeys body')
  | .block b b' => (b.keys, b'.keys)
  | .optional b b' => (Block.optionalKeys b, Block.optionalKeys b')

/-- Whether the ranges of two lists that are at one place are as in `Q`. -/
def Pairs (Q : Span → Span → Prop) (keys keys' : List Span) : Prop :=
  ∀ s s', (s, s') ∈ keys.zip keys' → Q s s'

namespace Pairs

variable {Q : Span → Span → Prop} {s s' : Span} {keys keys' as as' bs bs' : List Span}

theorem of_cons (h : Pairs Q (s :: keys) (s' :: keys')) : Q s s' ∧ Pairs Q keys keys' := by
  refine ⟨h s s' ?_, fun t t' ht => h t t' ?_⟩
  · rw [List.zip_cons_cons]
    exact List.mem_cons_self
  · rw [List.zip_cons_cons]
    exact List.mem_cons_of_mem _ ht

theorem of_append (h : Pairs Q (as ++ bs) (as' ++ bs')) (hlength : as.length = as'.length) :
    Pairs Q as as' ∧ Pairs Q bs bs' := by
  unfold Pairs at h
  rw [List.zip_append hlength] at h
  exact ⟨fun t t' ht => h t t' (List.mem_append_left _ ht),
    fun t t' ht => h t t' (List.mem_append_right _ ht)⟩

end Pairs

theorem Alike.length_keys {P : Span → Span → Prop} {p : Pair} (h : Alike P p) :
    p.keys.1.length = p.keys.2.length := by
  induction h <;>
    simp_all [Pair.keys, Expr.keys, Expr.allKeys, Expr.optionalKeys, Stmt.keys, Stmt.allKeys,
      Block.keys, Block.optionalKeys]

/-- Of parts that differ in their ranges only, any relation can be asked that holds of the ranges at
one place. -/
theorem Alike.of_pairs {P Q : Span → Span → Prop} {p : Pair} (h : Alike P p)
    (hQ : Pairs Q p.keys.1 p.keys.2) : Alike Q p := by
  induction h with
  | literal _ => exact .literal hQ.of_cons.1
  | name _ => exact .name hQ.of_cons.1
  | path _ => exact .path hQ.of_cons.1
  | unary _ _ ih =>
    obtain ⟨hs, he⟩ := hQ.of_cons
    exact .unary hs (ih he)
  | binary _ hl _ ihl ihr =>
    obtain ⟨hs, hparts⟩ := hQ.of_cons
    obtain ⟨hl, hr⟩ := hparts.of_append hl.length_keys
    exact .binary hs (ihl hl) (ihr hr)
  | cast _ _ htype ih =>
    obtain ⟨hs, he⟩ := hQ.of_cons
    exact .cast hs (ih he) htype
  | field _ _ hmember ih =>
    obtain ⟨hs, he⟩ := hQ.of_cons
    exact .field hs (ih he) hmember
  | method _ he hmember _ ih ihargs =>
    obtain ⟨hs, hparts⟩ := hQ.of_cons
    obtain ⟨he, hargs⟩ := hparts.of_append he.length_keys
    exact .method hs (ih he) hmember (ihargs hargs)
  | call _ _ ih =>
    obtain ⟨hs, hargs⟩ := hQ.of_cons
    exact .call hs (ih hargs)
  | index _ hbase _ ihbase ih =>
    obtain ⟨hs, hparts⟩ := hQ.of_cons
    obtain ⟨hbase, hindex⟩ := hparts.of_append hbase.length_keys
    exact .index hs (ihbase hbase) (ih hindex)
  | tuple _ _ ih =>
    obtain ⟨hs, hitems⟩ := hQ.of_cons
    exact .tuple hs (ih hitems)
  | paren _ _ ih =>
    obtain ⟨hs, he⟩ := hQ.of_cons
    exact .paren hs (ih he)
  | choice _ hcondition hyes _ ihcondition ihyes ihno =>
    obtain ⟨hs, hparts⟩ := hQ.of_cons
    obtain ⟨hcondition, hbranches⟩ := hparts.of_append hcondition.length_keys
    obtain ⟨hyes, hno⟩ := hbranches.of_append hyes.length_keys
    exact .choice hs (ihcondition hcondition) (ihyes hyes) (ihno hno)
  | noExprs => exact .noExprs
  | moreExprs he _ ih ihs =>
    obtain ⟨he, hes⟩ := hQ.of_append he.length_keys
    exact .moreExprs (ih he) (ihs hes)
  | noInitial => exact .noInitial
  | someInitial _ ih => exact .someInitial (ih hQ)
  | «let» _ hname htype _ ih =>
    obtain ⟨hs, hvalue⟩ := hQ.of_cons
    exact .let hs hname htype (ih hvalue)
  | assign hplace _ ihplace ih =>
    obtain ⟨hplace, hvalue⟩ := hQ.of_append hplace.length_keys
    exact .assign (ihplace hplace) (ih hvalue)
  | «if» hcondition hbody _ ihcondition ihbody ih =>
    obtain ⟨hcondition, hblocks⟩ := hQ.of_append hcondition.length_keys
    obtain ⟨hbody, hotherwise⟩ := hblocks.of_append hbody.length_keys
    exact .if (ihcondition hcondition) (ihbody hbody) (ih hotherwise)
  | «for» _ hname hstart hstop _ ihstart ihstop ih =>
    obtain ⟨hs, hparts⟩ := hQ.of_cons
    obtain ⟨hstart, hrest⟩ := hparts.of_append hstart.length_keys
    obtain ⟨hstop, hbody⟩ := hrest.of_append hstop.length_keys
    exact .for hs hname (ihstart hstart) (ihstop hstop) (ih hbody)
  | «while» hcondition _ ihcondition ih =>
    obtain ⟨hcondition, hbody⟩ := hQ.of_append hcondition.length_keys
    exact .while (ihcondition hcondition) (ih hbody)
  | loop _ ih => exact .loop (ih hQ)
  | jump => exact .jump
  | eval _ ih => exact .eval (ih hQ)
  | nested _ ih => exact .nested (ih hQ)
  | noStmts => exact .noStmts
  | moreStmts hstmt _ ih ihs =>
    obtain ⟨hstmt, hstmts⟩ := hQ.of_append hstmt.length_keys
    exact .moreStmts (ih hstmt) (ihs hstmts)
  | block _ ih => exact .block (ih hQ)
  | noBlock => exact .noBlock
  | someBlock _ ih => exact .someBlock (ih hQ)

/-- Of closures that differ in their ranges only, the ranges match if they are different from each
other in each of the two. -/
theorem Closure.Alike.matching_of_nodup {P : Span → Span → Prop} {c c' : Closure}
    (h : c.Alike P c') (hkeys : c.keys.Nodup) (hkeys' : c'.keys.Nodup) :
    ∃ Q, Matching Q ∧ c.Alike Q c' := by
  refine ⟨_, matching_zip hkeys hkeys', ?_⟩
  have hpairs : Pairs (fun s s' => (s, s') ∈ c.keys.zip c'.keys) c.keys c'.keys :=
    fun _ _ hs => hs
  obtain ⟨hparam, hbody⟩ := hpairs.of_cons
  exact ⟨hparam, h.paramText, h.paramType, h.body.of_pairs hbody⟩

/-- Of closures that differ in their ranges only and are laid out, the ranges match. -/
theorem Closure.Alike.matching {P : Span → Span → Prop} {c c' : Closure} {hi hi' : Nat}
    (h : c.Alike P c') (hlaid : c.Laid hi) (hlaid' : c'.Laid hi') :
    ∃ Q, Matching Q ∧ c.Alike Q c' :=
  h.matching_of_nodup hlaid.nodup hlaid'.nodup

end ComputeKernel
