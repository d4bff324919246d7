import ComputeKernel.Proofs.Shader.Names
import ComputeKernel.Proofs.Shader.Run

/-!
Names given out in a run. Every name that the pool has given out belongs to a capture, a local, a
static that has been met or the bound of a loop. The translation of an expression gives names to
statics only, and to each static once.
-/

namespace ComputeKernel.Shader

/-- Whether the pool accounts for its names: those that it had given out before, those of the statics
and those of loop bounds. -/
structure Progress.Accounted (before bounds : List String) (s : Progress) : Prop where
  sound : s.pool.Sound
  taken : s.pool.taken.Perm (bounds ++ (s.statics.map (·.name) ++ before))
  indexes : (s.statics.map (·.index)).Nodup

namespace Progress.Accounted

variable {before bounds bounds' : List String} {s : Progress}

theorem perm (h : s.Accounted before bounds) (hbounds : bounds.Perm bounds') :
    s.Accounted before bounds' :=
  ⟨h.sound, h.taken.trans (hbounds.append_right _), h.indexes⟩

theorem bound (h : s.Accounted before bounds) (base : String) :
    Accounted before ((s.pool.allocate base).1 :: bounds)
      { s with pool := (s.pool.allocate base).2 } :=
  ⟨h.sound.allocate base, h.taken.cons _, h.indexes⟩

/-- A static that has not been met. -/
theorem static (h : s.Accounted before bounds) {index : Nat} (decl : StaticDecl)
    (hnew : ∀ u ∈ s.statics, u.index ≠ index) :
    Accounted before bounds
      { s with
        pool := (s.pool.allocate decl.name).2
        statics := s.statics ++ [⟨index, decl, (s.pool.allocate decl.name).1⟩] } := by
  refine ⟨h.sound.allocate decl.name, ?_, ?_⟩
  · have hname := (h.taken.cons (s.pool.allocate decl.name).1).trans List.perm_middle.symm
    simp only [List.map_append, List.map_cons, List.map_nil, List.append_assoc]
    refine hname.trans (.append_left _ ?_)
    exact List.perm_middle.symm
  · rw [List.map_append, List.nodup_append]
    refine ⟨h.indexes, by simp, fun i hi j hj => ?_⟩
    obtain ⟨u, hu, rfl⟩ := List.mem_map.mp hi
    rw [List.map_singleton, List.mem_singleton] at hj
    rw [hj]
    exact hnew u hu

end Progress.Accounted

/-- Whether the pool has given out `names` between two states, apart from the names of statics. -/
def Progress.Gives (names : List String) (s s' : Progress) : Prop :=
  ∀ before bounds, s.Accounted before bounds → s'.Accounted before (names ++ bounds)

namespace Progress.Gives

variable {names names' : List String} {s s₁ s' : Progress}

theorem refl (s : Progress) : s.Gives [] s := fun _ _ h => h

theorem trans (h : s.Gives names s₁) (h' : s₁.Gives names' s') : s.Gives (names ++ names') s' := by
  intro before bounds hs
  refine (h' _ _ (h _ _ hs)).perm ?_
  rw [List.append_assoc]
  exact List.perm_append_comm_assoc names' names bounds

theorem allocate (s : Progress) (base : String) :
    s.Gives [(s.pool.allocate base).1] { s with pool := (s.pool.allocate base).2 } :=
  fun _ _ h => h.bound base

end Progress.Gives

namespace Lower

variable {α β : Type}

/-- Whether every run of `p` that succeeds keeps what `I` says of the state. -/
def Preserves (I : Progress → Prop) (p : Lower α) : Prop :=
  ∀ s a s', p.run s = .ok (a, s') → I s → I s'

namespace Preserves

variable {I : Progress → Prop} {p : Lower α} {f : α → Lower β}

theorem pure {a : α} : Preserves I (Pure.pure a : Lower α) := by
  rintro s _ _ ⟨⟩ hs
  exact hs

theorem bind (hp : Preserves I p) (hf : ∀ a, Preserves I (f a)) : Preserves I (p >>= f) := by
  intro s b s' hrun hs
  rw [StateT.run_bind] at hrun
  cases hfirst : p.run s with
  | error d =>
    rw [hfirst] at hrun
    cases hrun
  | ok result =>
    rw [hfirst] at hrun
    exact hf _ _ _ _ hrun (hp _ _ _ hfirst hs)

theorem defect (d : Defect) : Preserves I (defect d : Lower α) := nofun

theorem require (d : Defect) (a : Option α) : Preserves I (Lower.require d a) := by
  cases a with
  | none => exact defect d
  | some a => exact pure

theorem update {g : Progress → Progress} (h : ∀ s, I s → I (g s)) :
    Preserves I (modify g : Lower PUnit) := by
  rintro s _ _ ⟨⟩ hs
  exact h s hs

end Preserves

variable {I : Progress → Prop} {ctx : Context} {before bounds : List String}

/-! ### Steps without names -/

theorem apply_preserves (receiver : Receiver) (member : Member) (text : String)
    (operands : List Expr) : Preserves I (apply receiver member text operands) :=
  (Preserves.require _ _).bind fun _ => .require _ _

theorem typeAt_preserves (span : Span) : Preserves I (typeAt ctx span) := .require _ _

theorem receiverAt_preserves (span : Span) : Preserves I (receiverAt ctx span) :=
  (typeAt_preserves span).bind fun _ => .require _ _

theorem checkOperator_preserves (op : BinaryOp) (left right : Span) :
    Preserves I (checkOperator ctx op left right) := by
  refine (typeAt_preserves left).bind fun l => (typeAt_preserves right).bind fun r => ?_
  split
  · exact .pure
  · exact (Preserves.require _ _).bind fun _ => (Preserves.require _ _).bind fun _ => .pure

theorem unary_preserves (op : ComputeKernel.UnaryOp) (type : Ty) (inner : Expr) :
    Preserves I (unary op type inner) := by
  unfold unary
  split
  · split
    · exact apply_preserves _ _ _ _
    · exact apply_preserves _ _ _ _
    · exact .pure
  · exact apply_preserves _ _ _ _
  · exact apply_preserves _ _ _ _
  · exact .pure
  · exact .pure

theorem selectors_preserves (items : List ComputeKernel.Expr) :
    Preserves I (selectors items) := by
  induction items with
  | nil => exact .pure
  | cons item items ih =>
    cases item with
    | path span path => exact (Preserves.require _ _).bind fun _ => ih.bind fun _ => .pure
    | _ => exact .defect _

theorem select_preserves (receiver : Receiver) (name : String) (e : Expr) :
    Preserves I (select receiver name e) := by
  unfold select
  split <;> exact apply_preserves _ _ _ _

/-- A type without a name is reported, and nothing else happens. -/
theorem typeName_preserves (hI : ∀ s diagnostics, I s → I { s with diagnostics }) (type : HostType)
    (span : Span) : Preserves I (typeName ctx type span) := by
  unfold typeName
  split
  · exact .pure
  · exact (Preserves.update fun s h => hI s _ h).bind fun _ => .pure

theorem call_preserves (hI : ∀ s diagnostics, I s → I { s with diagnostics }) (callee : Path)
    (calleeSpan span : Span) (args : List Expr) :
    Preserves I (call ctx callee calleeSpan span args) := by
  unfold call
  split
  · exact apply_preserves _ _ _ _
  · split
    · exact (typeAt_preserves _).bind fun _ => (typeName_preserves hI _ _).bind fun _ =>
        apply_preserves _ _ _ _
    · exact .defect _

/-! ### Steps with names -/

theorem typeName_accounted (type : HostType) (span : Span) :
    Preserves (Progress.Accounted before bounds) (typeName ctx type span) :=
  typeName_preserves (fun _ _ h => ⟨h.sound, h.taken, h.indexes⟩) type span

theorem staticName_accounted (index : Nat) (span : Span) :
    Preserves (Progress.Accounted before bounds) (staticName ctx index span) := by
  intro s name s' hrun hs
  obtain ⟨_, _, _, _, rfl⟩ | ⟨hnew, decl, _, rfl, rfl⟩ := staticName_cases hrun
  · exact hs
  · exact hs.static decl hnew

theorem referentName_accounted (span : Span) :
    Preserves (Progress.Accounted before bounds) (referentName ctx span) := by
  unfold referentName
  split
  · exact .require _ _
  · exact .require _ _
  · exact staticName_accounted _ _
  · exact .defect _

theorem call_accounted (callee : Path) (calleeSpan span : Span) (args : List Expr) :
    Preserves (Progress.Accounted before bounds) (call ctx callee calleeSpan span args) :=
  call_preserves (fun _ _ h => ⟨h.sound, h.taken, h.indexes⟩) callee calleeSpan span args

mutual

theorem expr_accounted (ctx : Context) (before bounds : List String) : ∀ e,
    Preserves (Progress.Accounted before bounds) (expr ctx e)
  | .literal .. => .pure
  | .name span _ | .path span _ => (referentName_accounted span).bind fun _ => .pure
  | .paren _ inner => (expr_accounted ctx before bounds inner).bind fun _ => .pure
  | .unary _ op operand => (typeAt_preserves _).bind fun _ =>
      (expr_accounted ctx before bounds operand).bind fun _ => unary_preserves _ _ _
  | .binary _ op left right => (checkOperator_preserves _ _ _).bind fun _ =>
      (expr_accounted ctx before bounds left).bind fun _ =>
        (expr_accounted ctx before bounds right).bind fun _ => .pure
  | .cast _ operand type => (typeName_accounted _ _).bind fun _ =>
      (expr_accounted ctx before bounds operand).bind fun _ => .pure
  | .field _ receiver member => (receiverAt_preserves _).bind fun _ =>
      (expr_accounted ctx before bounds receiver).bind fun _ => apply_preserves _ _ _ _
  | .method _ receiver member args => by
    refine (receiverAt_preserves _).bind fun kind =>
      (expr_accounted ctx before bounds receiver).bind fun e => ?_
    split
    · exact (Preserves.require _ _).bind fun m =>
        (exprs_accounted ctx before bounds args).bind fun _ => apply_preserves _ _ _ _
    · exact select_preserves _ _ _
  | .call span callee calleeSpan args => (exprs_accounted ctx before bounds args).bind fun _ =>
      call_accounted _ _ _ _
  | .index _ base index => by
    refine (receiverAt_preserves _).bind fun kind =>
      (expr_accounted ctx before bounds base).bind fun b => ?_
    split
    · exact (selectors_preserves _).bind fun _ => apply_preserves _ _ _ _
    · exact (expr_accounted ctx before bounds index).bind fun _ => apply_preserves _ _ _ _
  | .tuple .. => .defect _
  | .choice _ condition yes no => (expr_accounted ctx before bounds condition).bind fun _ =>
      (expr_accounted ctx before bounds yes).bind fun _ =>
        (expr_accounted ctx before bounds no).bind fun _ => .pure

theorem exprs_accounted (ctx : Context) (before bounds : List String) : ∀ es,
    Preserves (Progress.Accounted before bounds) (exprs ctx es)
  | [] => .pure
  | e :: es => (expr_accounted ctx before bounds e).bind fun _ =>
      (exprs_accounted ctx before bounds es).bind fun _ => .pure

end

/-- A run of steps that give out names to statics only. -/
theorem Yields.gives {p : Lower α} {s : Progress} {Q : α → Progress → Prop}
    (hp : ∀ before bounds, Preserves (Progress.Accounted before bounds) p) (h : Yields p s Q) :
    Yields p s fun a s' => Q a s' ∧ s.Gives [] s' := by
  obtain ⟨a, s', hrun, hQ⟩ := h
  exact ⟨a, s', hrun, hQ, fun before bounds => hp before bounds s a s' hrun⟩

end Lower

end ComputeKernel.Shader
