import ComputeKernel.Proofs.Shader.References
import ComputeKernel.Proofs.Typing.Reports

/-!
Reports of a translation. A closure that is not read, not accepted or not taken over fails with
diagnostics, and all of them are about ranges of its source.
-/

namespace ComputeKernel

namespace Shader

variable {source : String} {ctx : Context}

/-- Whether what was reported so far is about ranges of a source. -/
def Progress.Reported (source : String) (s : Progress) : Prop :=
  ∀ d ∈ s.diagnostics, d.span.InText source

namespace Lower

/-! ### Steps -/

theorem typeName_reports {span : Span} (h : span.InText source) (type : HostType) :
    Preserves (Progress.Reported source) (typeName ctx type span) := by
  unfold typeName
  split
  · exact .pure
  · refine (Preserves.update fun s hs d hd => ?_).bind fun _ => .pure
    rcases List.mem_append.mp hd with hd | hd
    · exact hs d hd
    · exact List.mem_singleton.mp hd ▸ h

theorem allocate_reports (base : String) :
    Preserves (Progress.Reported source) (allocate base) := by
  rintro s _ _ ⟨⟩ hs
  exact hs

theorem staticName_reports (index : Nat) (span : Span) :
    Preserves (Progress.Reported source) (staticName ctx index span) := by
  have hget : Preserves (Progress.Reported source) (get : Lower Progress) := by
    rintro s _ _ ⟨⟩ hs
    exact hs
  refine hget.bind fun s => ?_
  split
  · exact .pure
  · refine (Preserves.require _ _).bind fun decl => (allocate_reports _).bind fun name =>
      Preserves.bind ?_ fun _ => .pure
    exact Preserves.update fun _ hs => hs

theorem referentName_reports (span : Span) :
    Preserves (Progress.Reported source) (referentName ctx span) := by
  unfold referentName
  split
  · exact .require _ _
  · exact .require _ _
  · exact staticName_reports _ _
  · exact .defect _

theorem call_reports (callee : Path) {calleeSpan : Span} (h : calleeSpan.InText source) (span : Span)
    (args : List Expr) :
    Preserves (Progress.Reported source) (call ctx callee calleeSpan span args) := by
  unfold call
  split
  · exact apply_preserves _ _ _ _
  · split
    · exact (typeAt_preserves _).bind fun _ => (typeName_reports h _).bind fun _ =>
        apply_preserves _ _ _ _
    · exact .defect _

/-! ### Expressions -/

mutual

theorem expr_reports (ctx : Context) : ∀ {e : ComputeKernel.Expr}, e.InText source →
    Preserves (Progress.Reported source) (expr ctx e)
  | .literal .., _ => .pure
  | .name .., _ | .path .., _ => (referentName_reports _).bind fun _ => .pure
  | .paren .., h => (expr_reports ctx h.2).bind fun _ => .pure
  | .unary .., h => (typeAt_preserves _).bind fun _ => (expr_reports ctx h.2).bind fun _ =>
      unary_preserves _ _ _
  | .binary .., h => (checkOperator_preserves _ _ _).bind fun _ => (expr_reports ctx h.2.1).bind
      fun _ => (expr_reports ctx h.2.2).bind fun _ => .pure
  | .cast .., h => (typeName_reports h.2.2 _).bind fun _ => (expr_reports ctx h.2.1).bind fun _ =>
      .pure
  | .field .., h => (receiverAt_preserves _).bind fun _ => (expr_reports ctx h.2.1).bind fun _ =>
      apply_preserves _ _ _ _
  | .method .., h => by
    refine (receiverAt_preserves _).bind fun kind => (expr_reports ctx h.2.1).bind fun e => ?_
    split
    · exact (Preserves.require _ _).bind fun _ => (exprs_reports ctx h.2.2.2).bind fun _ =>
        apply_preserves _ _ _ _
    · exact select_preserves _ _ _
  | .call .., h => (exprs_reports ctx h.2.2).bind fun _ => call_reports _ h.2.1 _ _
  | .index .., h => by
    refine (receiverAt_preserves _).bind fun kind => (expr_reports ctx h.2.1).bind fun b => ?_
    split
    · exact (selectors_preserves _).bind fun _ => apply_preserves _ _ _ _
    · exact (expr_reports ctx h.2.2).bind fun _ => apply_preserves _ _ _ _
  | .tuple .., _ => .defect _
  | .choice .., h => (expr_reports ctx h.2.1).bind fun _ => (expr_reports ctx h.2.2.1).bind fun _ =>
      (expr_reports ctx h.2.2.2).bind fun _ => .pure

theorem exprs_reports (ctx : Context) : ∀ {es : List ComputeKernel.Expr},
    ComputeKernel.Expr.AllInText source es → Preserves (Progress.Reported source) (exprs ctx es)
  | [], _ => .pure
  | _ :: _, h => (expr_reports ctx h.1).bind fun _ => (exprs_reports ctx h.2).bind fun _ => .pure

end

theorem initial_reports (ctx : Context) {value : Option ComputeKernel.Expr}
    (h : ∀ e ∈ value, e.InText source) :
    Preserves (Progress.Reported source) (initial ctx value) := by
  cases value with
  | none => exact .pure
  | some e => exact (expr_reports ctx (h e rfl)).bind fun _ => .pure

/-! ### Statements -/

mutual

theorem stmt_reports (ctx : Context) : ∀ {s : ComputeKernel.Stmt}, s.InText source →
    Preserves (Progress.Reported source) (stmt ctx s)
  | .let .., h => (declared_preserves _).bind fun _ => (typeName_reports h.2.1 _).bind fun _ =>
      (initial_reports ctx h.2.2.2).bind fun _ => .pure
  | .assign _ op place value, h => by
    have hrest := (expr_reports ctx h.2.1).bind fun target =>
      (expr_reports ctx h.2.2).bind (f := fun v => pure [Stmt.assign target op v]) fun _ => .pure
    cases op with
    | none => exact hrest
    | some op => exact (checkOperator_preserves _ _ _).bind fun _ => hrest
  | .if _ condition body none, h => (expr_reports ctx h.2.1).bind fun _ =>
      (block_reports ctx h.2.2).bind fun _ => Preserves.pure.bind fun _ => .pure
  | .if _ condition body (some otherwise), h => (expr_reports ctx h.2.1).bind fun _ =>
      (block_reports ctx h.2.2.1).bind fun _ =>
        ((block_reports ctx h.2.2.2).bind fun _ => .pure).bind fun _ => .pure
  | .for _ counter start stop inclusive body, h => by
    refine (declared_preserves _).bind fun _ => (typeName_reports h.2.1 _).bind fun _ =>
      (expr_reports ctx h.2.2.1).bind fun _ => (expr_reports ctx h.2.2.2.1).bind fun _ => ?_
    have hbody := block_reports ctx h.2.2.2.2
    split
    · exact hbody.bind fun _ => .pure
    · exact (allocate_reports _).bind fun _ => hbody.bind fun _ => .pure
  | .while .., h => (expr_reports ctx h.2.1).bind fun _ => (block_reports ctx h.2.2).bind fun _ =>
      .pure
  | .loop .., h => (block_reports ctx h.2).bind fun _ => .pure
  | .jump .., _ => .pure
  | .eval .., h => (expr_reports ctx h.2).bind fun _ => .pure
  | .nested .., h => (block_reports ctx h.2).bind fun _ => .pure

theorem block_reports (ctx : Context) : ∀ {b : ComputeKernel.Block}, b.InText source →
    Preserves (Progress.Reported source) (block ctx b)
  | ⟨_, _⟩, h => stmts_reports ctx h.2

theorem stmts_reports (ctx : Context) : ∀ {ss : List ComputeKernel.Stmt},
    ComputeKernel.Stmt.AllInText source ss → Preserves (Progress.Reported source) (stmts ctx ss)
  | [], _ => .pure
  | _ :: _, h => (stmt_reports ctx h.1).bind fun _ => (stmts_reports ctx h.2).bind fun _ => .pure

end

end Lower

/-- A checked body is taken over, or it is refused with diagnostics, all of them about ranges of its
source. -/
theorem reports_of_body {kernel : String} {catalog : Catalog} {body : CheckedBody}
    (hbody : CheckedBody.of kernel source catalog = .ok body) {table : TypeTable} {e : BodyError}
    (h : Body.of body table = .error e) : ReportsIn source e.diagnostics := by
  obtain ⟨code, s, threadIds, hrun, _, hthreads⟩ := lowers_of_checked hbody table
  rw [Body.of_eq body table hrun hthreads] at h
  split at h
  · cases h
  · rename_i hne
    cases h
    have htree := Closure.inText_of_parse (CheckedBody.read_and_bound hbody).2.1
    exact ⟨hne, Lower.block_reports _ htree.body _ _ _ hrun nofun⟩

end Shader

/-- Whatever makes the closure of a kernel fail, be it how it is written, what it says or that a table
has no name for one of its types, is reported, and every report begins and ends in the source. -/
theorem reports_of_failure (source : String) :
    (∀ diagnostics, Closure.parse source = .error diagnostics → ReportsIn source diagnostics) ∧
    (∀ closure catalog diagnostics, Closure.parse source = .ok closure →
      closure.bind catalog = .error diagnostics → ReportsIn source diagnostics) ∧
    ∀ kernel catalog body table e, CheckedBody.of kernel source catalog = .ok body →
      Shader.Body.of body table = .error e → ReportsIn source e.diagnostics := by
  refine ⟨fun diagnostics h => Closure.reports_of_parse h, fun closure catalog diagnostics hparse h =>
    ?_, fun kernel catalog body table e hbody h => Shader.reports_of_body hbody h⟩
  exact Closure.reports_of_bind (Closure.inText_of_parse hparse) h

/-- The ranges of what something is rejected for. -/
def rejectedSpans {α : Type} : Except (List Diagnostic) α → List Span
  | .ok _ => []
  | .error diagnostics => diagnostics.map Diagnostic.span

theorem exists_of_rejectedSpans {α : Type} {x : Except (List Diagnostic) α} {s : Span}
    {rest : List Span} (h : rejectedSpans x = s :: rest) :
    ∃ diagnostics, x = .error diagnostics ∧ diagnostics.map Diagnostic.span = s :: rest := by
  cases x with
  | ok a => cases h
  | error diagnostics => exact ⟨diagnostics, rfl, h⟩

/-- A kernel that ends in the middle of a declaration of a name that names cannot have, one that uses a
name that nothing declares, and one whose local has no name for its type in a table without names. -/
theorem reports_of_failure_unfinished :
    (∃ diagnostics, Closure.parse "|ids| \x7b let é" = .error diagnostics ∧
      diagnostics.map Diagnostic.span = [⟨12, 14⟩, ⟨14, 14⟩, ⟨14, 14⟩, ⟨14, 14⟩] ∧
      ReportsIn "|ids| \x7b let é" diagnostics) ∧
    (∃ closure diagnostics, Closure.parse "|ids| \x7b x; \x7d" = .ok closure ∧
      closure.bind {} = .error diagnostics ∧ diagnostics.map Diagnostic.span = [⟨8, 9⟩] ∧
      ReportsIn "|ids| \x7b x; \x7d" diagnostics) ∧
    ∃ body e, CheckedBody.of "Set" "|ids| \x7b let x = 1u; \x7d" {} = .ok body ∧
      Shader.Body.of body ⟨fun _ => none, fun _ => none⟩ = .error e ∧
      e.diagnostics.map Diagnostic.span = [⟨12, 13⟩] ∧
      ReportsIn "|ids| \x7b let x = 1u; \x7d" e.diagnostics := by
  refine ⟨?_, ?_, ?_⟩
  · have hspans : rejectedSpans (Closure.parse "|ids| \x7b let é") =
        [⟨12, 14⟩, ⟨14, 14⟩, ⟨14, 14⟩, ⟨14, 14⟩] := by decide +kernel
    obtain ⟨diagnostics, hparse, hspans⟩ := exists_of_rejectedSpans hspans
    exact ⟨diagnostics, hparse, hspans, (reports_of_failure _).1 _ hparse⟩
  · obtain ⟨closure, hparse⟩ := exists_of_isOk (x := Closure.parse "|ids| \x7b x; \x7d")
      (by decide +kernel)
    have hspans : (Closure.parse "|ids| \x7b x; \x7d").toOption.map
        (fun c => rejectedSpans (c.bind {})) = some [⟨8, 9⟩] := by decide +kernel
    rw [hparse] at hspans
    obtain ⟨diagnostics, hbind, hspans⟩ := exists_of_rejectedSpans (Option.some.inj hspans)
    exact ⟨closure, diagnostics, hparse, hbind, hspans,
      (reports_of_failure _).2.1 closure {} _ hparse hbind⟩
  · obtain ⟨body, hbody⟩ := exists_of_isOk
      (x := CheckedBody.of "Set" "|ids| \x7b let x = 1u; \x7d" {}) (by decide +kernel)
    have hspans : (CheckedBody.of "Set" "|ids| \x7b let x = 1u; \x7d" {}).toOption.map
        (fun b => rejectedSpans ((Shader.Body.of b ⟨fun _ => none, fun _ => none⟩).mapError
          Shader.BodyError.diagnostics)) = some [⟨12, 13⟩] := by decide +kernel
    rw [hbody] at hspans
    cases hcode : Shader.Body.of body ⟨fun _ => none, fun _ => none⟩ with
    | ok b =>
      rw [Except.toOption, Option.map_some, hcode] at hspans
      cases hspans
    | error e =>
      rw [Except.toOption, Option.map_some, hcode] at hspans
      exact ⟨body, e, hbody, hcode, Option.some.inj hspans,
        (reports_of_failure _).2.2 "Set" {} body _ e hbody hcode⟩

end ComputeKernel
