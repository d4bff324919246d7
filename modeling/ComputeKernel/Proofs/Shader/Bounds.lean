import ComputeKernel.Proofs.Shader.Hygiene
import ComputeKernel.Proofs.Typing.Places

/-!
Ends of counting loops. The shader tests the end of a range before each run of the body, the host
evaluates it once. An end that is tested as it stands reads nothing that an assignment of the kernel
changes; every other end is set to a variable of its own in front of the loop.
-/

namespace ComputeKernel

namespace Shader

open Check (StmtJudgment)
open Lower (nameOf isInvariant areInvariant)

/-! ### Ends that are tested as they stand -/

mutual

theorem indexed_of_isInvariant {m : Model} : ∀ {e : ComputeKernel.Expr}, isInvariant m e →
    e.indexed = []
  | .literal .., _ | .name .., _ | .path .., _ => rfl
  | .paren _ e, h | .unary _ _ e, h | .cast _ e _, h | .field _ e _, h =>
    indexed_of_isInvariant (e := e) h
  | .binary _ _ left right, h => by
    obtain ⟨hl, hr⟩ := Bool.and_eq_true_iff.mp h
    exact List.append_eq_nil_iff.mpr ⟨indexed_of_isInvariant hl, indexed_of_isInvariant hr⟩
  | .method _ receiver _ args, h => by
    obtain ⟨hr, ha⟩ := Bool.and_eq_true_iff.mp h
    exact List.append_eq_nil_iff.mpr ⟨indexed_of_isInvariant hr, allIndexed_of_areInvariant ha⟩
  | .call _ _ _ args, h | .tuple _ args, h =>
    allIndexed_of_areInvariant (show areInvariant m args from h)

theorem allIndexed_of_areInvariant {m : Model} : ∀ {es : List ComputeKernel.Expr},
    areInvariant m es → ComputeKernel.Expr.allIndexed es = []
  | [], _ => rfl
  | e :: es, h => by
    obtain ⟨he, hes⟩ := Bool.and_eq_true_iff.mp h
    exact List.append_eq_nil_iff.mpr ⟨indexed_of_isInvariant he, allIndexed_of_areInvariant hes⟩

end

/-- Whether a referent is an immutable local, a capture or a static. -/
def IsFixed (m : Model) : Referent → Prop
  | .local id => ∃ l, m.local? id = some l ∧ l.mutable = false
  | .capture _ | .static _ => True

/-- Whether a name stands for something that is fixed. -/
def Mention.IsFixed (m : Model) (x : Mention) : Prop :=
  ∃ r, m.referent? x.span = some r ∧ Shader.IsFixed m r

theorem isFixed_of_isInvariant {m : Model} {x : Mention} {e : ComputeKernel.Expr}
    (h : isInvariant m e) (he : e.mentions = [x]) (hname : isInvariant m e =
      match m.referent? x.span with
      | some (.local id) => (m.local? id).any fun l => ! l.mutable
      | some (.capture _) | some (.static _) => true
      | none => false) : ∀ y ∈ e.mentions, Mention.IsFixed m y := by
  rw [he, List.forall_mem_singleton]
  rw [hname] at h
  cases hr : m.referent? x.span with
  | none => simp [hr] at h
  | some r =>
    refine ⟨r, hr, ?_⟩
    rw [hr] at h
    cases r with
    | «local» id =>
      obtain ⟨l, hl, hfixed⟩ := (Option.any_eq_true _ _).mp h
      exact ⟨l, hl, by simpa using hfixed⟩
    | capture | static => trivial

mutual

theorem mentions_of_isInvariant {m : Model} : ∀ {e : ComputeKernel.Expr}, isInvariant m e →
    ∀ x ∈ e.mentions, Mention.IsFixed m x
  | .literal .., _ | .tuple .., _ => nofun
  | .name span text, h => isFixed_of_isInvariant (x := .name span text) h rfl rfl
  | .path span path, h => isFixed_of_isInvariant (x := .path span path) h rfl rfl
  | .paren _ e, h | .unary _ _ e, h | .cast _ e _, h | .field _ e _, h =>
    mentions_of_isInvariant (e := e) h
  | .binary _ _ left right, h => by
    obtain ⟨hl, hr⟩ := Bool.and_eq_true_iff.mp h
    exact List.forall_mem_append.mpr ⟨mentions_of_isInvariant hl, mentions_of_isInvariant hr⟩
  | .method _ receiver _ args, h => by
    obtain ⟨hr, ha⟩ := Bool.and_eq_true_iff.mp h
    exact List.forall_mem_append.mpr ⟨mentions_of_isInvariant hr, allMentions_of_areInvariant ha⟩
  | .call _ _ _ args, h => allMentions_of_areInvariant (show areInvariant m args from h)

theorem allMentions_of_areInvariant {m : Model} : ∀ {es : List ComputeKernel.Expr},
    areInvariant m es → ∀ x ∈ ComputeKernel.Expr.allMentions es, Mention.IsFixed m x
  | [], _ => nofun
  | e :: es, h => by
    obtain ⟨he, hes⟩ := Bool.and_eq_true_iff.mp h
    exact List.forall_mem_append.mpr ⟨mentions_of_isInvariant he, allMentions_of_areInvariant hes⟩

end

/-- The blocks of a statement of the code. -/
def Stmt.blocks : Stmt → List (List Stmt)
  | .branch _ body none | .count _ _ _ _ _ body | .while _ body | .nested body => [body]
  | .branch _ body (some otherwise) => [body, otherwise]
  | .declare .. | .assign .. | .jump .. | .eval .. => []

/-- Whether statements stand one behind the other somewhere in the code. -/
inductive Within (part : List Stmt) : List Stmt → Prop where
  | here {code : List Stmt} : part <:+: code → Within part code
  | inside {code inner : List Stmt} {s : Stmt} : s ∈ code → inner ∈ s.blocks → Within part inner →
      Within part code

theorem Within.append_left {part code : List Stmt} (h : Within part code) (front : List Stmt) :
    Within part (front ++ code) := by
  cases h with
  | here hpart => exact .here (hpart.trans (List.suffix_append _ _).isInfix)
  | inside hs hinner h => exact .inside (List.mem_append_right _ hs) hinner h

theorem Within.append_right {part code : List Stmt} (h : Within part code) (back : List Stmt) :
    Within part (code ++ back) := by
  cases h with
  | here hpart => exact .here (hpart.trans (List.prefix_append _ _).isInfix)
  | inside hs hinner h => exact .inside (List.mem_append_left _ hs) hinner h

theorem Within.of_block {part inner : List Stmt} {s : Stmt} (h : Within part inner)
    (hinner : inner ∈ s.blocks) : Within part [s] :=
  .inside List.mem_cons_self hinner h

variable {ctx : Context} {catalog : Catalog} {statics : List StaticUse}
  {bounds bounds' : List (Nat × String)} {code code' : List Stmt}

/-- How the code counts a loop of the closure: up to the end itself if that is invariant, and up to a
variable that was set to the end in front of the loop if it is not. -/
inductive Counts (ctx : Context) (catalog : Catalog) (statics : List StaticUse)
    (bounds : List (Nat × String)) (code : List Stmt) (l : Loop) : Prop where
  | tested {id local' ident lo hi inner} : isInvariant ctx.model l.stop →
      ctx.Declares l.counter id local' ident → Lowers ctx catalog statics (.expr l.start lo) →
      Lowers ctx catalog statics (.expr l.stop hi) →
      Within [.count (nameOf ctx local'.type.toHost) ident lo l.inclusive
        (hi.atLeast (relationalRank + 1)) inner] code → Counts ctx catalog statics bounds code l
  | hoisted {id local' ident bound lo hi inner} : ¬ isInvariant ctx.model l.stop →
      ctx.Declares l.counter id local' ident → Lowers ctx catalog statics (.expr l.start lo) →
      Lowers ctx catalog statics (.expr l.stop hi) → (id, bound) ∈ bounds →
      Within [.declare (nameOf ctx local'.type.toHost) bound (some hi),
        .count (nameOf ctx local'.type.toHost) ident lo l.inclusive (.var bound) inner] code →
      Counts ctx catalog statics bounds code l

theorem Counts.mono {l : Loop} (h : Counts ctx catalog statics bounds code l)
    (hbounds : bounds ⊆ bounds') (hcode : ∀ {part}, Within part code → Within part code') :
    Counts ctx catalog statics bounds' code' l := by
  cases h with
  | tested hinvariant hdeclares hlo hhi hwithin =>
    exact .tested hinvariant hdeclares hlo hhi (hcode hwithin)
  | hoisted hinvariant hdeclares hlo hhi hbound hwithin =>
    exact .hoisted hinvariant hdeclares hlo hhi (hbounds hbound) (hcode hwithin)

/-- The code of a statement counts its loops. -/
theorem LowersStmt.counts {j : StmtJudgment} (h : LowersStmt ctx catalog statics j code bounds) :
    ∀ l ∈ j.loops, Counts ctx catalog statics bounds code l := by
  induction h with
  | declare | set | assign | jump | eval | nil => exact nofun
  | ifOnly _ _ ih | «while» _ _ ih | loop _ ih | nested _ ih =>
    exact fun l hl => (ih l hl).mono (List.Subset.refl _) fun h => h.of_block List.mem_cons_self
  | ifElse _ _ _ ihBody ihOtherwise =>
    refine List.forall_mem_append.mpr ⟨fun l hl => ?_, fun l hl => ?_⟩
    · exact (ihBody l hl).mono (List.subset_append_left _ _)
        fun h => h.of_block List.mem_cons_self
    · exact (ihOtherwise l hl).mono (List.subset_append_right _ _)
        fun h => h.of_block (List.mem_cons_of_mem _ List.mem_cons_self)
  | «for» hdeclares hlo hhi hinvariant _ ih =>
    refine List.forall_mem_cons.mpr ⟨?_, fun l hl => ?_⟩
    · exact .tested hinvariant hdeclares hlo hhi (.here (List.infix_refl _))
    · exact (ih l hl).mono (List.Subset.refl _) fun h => h.of_block List.mem_cons_self
  | hoisted hdeclares hlo hhi hinvariant _ _ ih =>
    refine List.forall_mem_cons.mpr ⟨?_, fun l hl => ?_⟩
    · exact .hoisted hinvariant hdeclares hlo hhi List.mem_cons_self (.here (List.infix_refl _))
    · exact (ih l hl).mono (List.subset_cons_self _ _)
        fun h => (h.of_block List.mem_cons_self).append_left [_]
  | cons _ _ ihFirst ihRest =>
    refine List.forall_mem_append.mpr ⟨fun l hl => ?_, fun l hl => ?_⟩
    · exact (ihFirst l hl).mono (List.subset_append_left _ _) fun h => h.append_right _
    · exact (ihRest l hl).mono (List.subset_append_right _ _) fun h => h.append_left _
  | block _ ih => exact ih

/-- A kernel with a loop up to a capture around one whose end the body of the outer loop moves. -/
def fill : Kernel where
  name := "Fill"
  source := "|ids| \x7b let n = count; let mut k = 3; for i in 0..n \x7b "
    ++ "for j in 0..k \x7b o[i] = j as f32; \x7d k += 1; \x7d \x7d"
  catalog := { fields := [⟨"o", "ReadWriteBuffer<f32>", false⟩, ⟨"count", "u32", false⟩] }

end Shader

end ComputeKernel
