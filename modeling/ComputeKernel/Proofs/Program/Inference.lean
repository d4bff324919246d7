import ComputeKernel.Proofs.Shader.Narrowing
import ComputeKernel.Proofs.Spacing.Translation

/-!
Inferred types written out. A source that reads as an accepted closure with the final types of its
locals as annotations is accepted too, with the same locals, and becomes the same body, as long as the
locals that were open where they were read end with the types that the values made of them meet.
-/

namespace ComputeKernel

/-! ### Ranges -/

mutual

theorem Stmt.keys_annotated (m : Model) : ∀ st : Stmt, (st.annotated m).keys = st.keys
  | .let _ _ _ none none | .let _ _ _ none (some _) | .let _ _ _ (some _) _ => rfl
  | .assign .. | .jump .. | .eval .. => rfl
  | .if _ condition body none => by
    simp only [Stmt.annotated, Stmt.keys, Block.keys_annotated m body, Block.optionalAnnotated]
  | .if _ condition body (some otherwise) => by
    simp only [Stmt.annotated, Stmt.keys, Block.keys_annotated m body, Block.optionalAnnotated,
      Block.optionalKeys, Block.keys_annotated m otherwise]
  | .for _ _ _ _ _ body | .while _ _ body | .loop _ body | .nested _ body => by
    simp only [Stmt.annotated, Stmt.keys, Block.keys_annotated m body]

theorem Block.keys_annotated (m : Model) : ∀ b : Block, (b.annotated m).keys = b.keys
  | ⟨_, sts⟩ => by simp only [Block.annotated, Block.keys, Stmt.allKeys_annotated m sts]

theorem Stmt.allKeys_annotated (m : Model) :
    ∀ sts : List Stmt, Stmt.allKeys (Stmt.allAnnotated m sts) = Stmt.allKeys sts
  | [] => rfl
  | st :: sts => by
    simp only [Stmt.allAnnotated, Stmt.allKeys, Stmt.keys_annotated m st,
      Stmt.allKeys_annotated m sts]

end

/-- Annotations have no range that anything is noted under. -/
theorem Closure.keys_annotated (c : Closure) (m : Model) : (c.annotated m).keys = c.keys := by
  simp only [Closure.keys, Closure.annotated, Block.keys_annotated]

/-! ### Bodies -/

namespace Shader

/-- The body with the final types of its locals written out, and the model of that one. -/
def annotatedBody (body : CheckedBody) (m : Model) : CheckedBody :=
  { body with closure := body.closure.annotated body.model, model := m }

theorem Context.kin_of {body : CheckedBody} {m : Model} (h : body.model.Kin m) (table : TypeTable) :
    (Context.of body table).Kin (Context.of (annotatedBody body m) table) := by
  refine ⟨h, rfl, rfl, rfl, ?_⟩
  simp only [Context.of, annotatedBody, h.names_eq]

/-- The run that takes a checked body over is that of the body with its annotations. -/
theorem run_annotated {kernel source : String} {catalog : Catalog} {body : CheckedBody} {m : Model}
    (h : CheckedBody.of kernel source catalog = .ok body) (hm : body.model.Kin m)
    (table : TypeTable) :
    (Lower.block (Context.of (annotatedBody body m) table) (annotatedBody body m).closure.body).run
        (Progress.of (annotatedBody body m)) =
      (Lower.block (Context.of body table) body.closure.body).run (Progress.of body) := by
  have hstart : Progress.of (annotatedBody body m) = Progress.of body := by
    simp only [Progress.of, annotatedBody, hm.names_eq]
  have hblock : Lower.block (Context.of (annotatedBody body m) table)
      (annotatedBody body m).closure.body = Lower.block (Context.of body table) body.closure.body :=
    Lower.block_annotated (Context.kin_of hm table) body.model (CheckedBody.complete h).body
  rw [hstart, hblock]

/-- A body with its annotations has the code that it has without. -/
theorem Body.of_annotated {kernel source : String} {catalog : Catalog} {body : CheckedBody}
    {m : Model} (h : CheckedBody.of kernel source catalog = .ok body) (hm : body.model.Kin m)
    (table : TypeTable) : Body.of (annotatedBody body m) table = Body.of body table := by
  obtain ⟨code, s, threadIds, hrun, _, hthreads⟩ := lowers_of_checked h table
  have hctx := Context.kin_of hm table
  rw [Body.of_eq body table hrun hthreads,
    Body.of_eq (annotatedBody body m) table ((run_annotated h hm table).trans hrun)
      (hctx.localNames ▸ hthreads), hctx.captureNames]

end Shader

/-- A source that reads as an accepted closure with its annotations is accepted, with the same locals,
and is translated to the same, whatever table names the types. -/
theorem CheckedBody.of_annotated {kernel source source' : String} {catalog : Catalog}
    {body : CheckedBody} {c' : Closure} (h : CheckedBody.of kernel source catalog = .ok body)
    (hagree : body.closure.OpensAgree body.catalog body.model) (hparse : Closure.parse source' = .ok c')
    (halike : (body.closure.annotated body.model).Alike Span.Any c') :
    ∃ body', CheckedBody.of kernel source' catalog = .ok body' ∧ body'.catalog = body.catalog ∧
      body'.model.locals.map (fun l => l.closed.bare) =
        body.model.locals.map (fun l => l.closed.bare) ∧
      ∀ table, Shader.SameTranslation (Shader.Body.of body table) (Shader.Body.of body' table) := by
  obtain ⟨rfl, hread, hbind⟩ := CheckedBody.read_and_bound h
  obtain ⟨hi, hlaid⟩ := Closure.laid_of_parse hread
  obtain ⟨hi', hlaid'⟩ := Closure.laid_of_parse hparse
  obtain ⟨m, hbind', hkin⟩ := Closure.bind_annotated hlaid hbind hagree
  obtain ⟨P, hP, hclosures⟩ := halike.matching_of_nodup
    ((body.closure.keys_annotated body.model).symm ▸ hlaid.nodup) hlaid'.nodup
  have hbound := Closure.agrees_of_bind hP body.catalog hclosures
  rw [hbind'] at hbound
  generalize hbind'' : c'.bind body.catalog = bound at hbound
  cases hbound with
  | @ok _ m' hmodels =>
    refine ⟨⟨kernel, source', c', m', body.catalog⟩, ?_, rfl, ?_, fun table => ?_⟩
    · simp only [CheckedBody.of, hparse, hbind'']
    · have hlocals := congrArg (List.map Local.closed) hmodels.locals
      have hclosed := congrArg (List.map Local.bare) hkin.locals
      rw [List.map_map, List.map_map] at hlocals hclosed
      exact hlocals.symm.trans hclosed
    · obtain ⟨code, s, threadIds, hrun, _, hthreads⟩ := Shader.lowers_of_checked h table
      have hsame : Shader.SameTranslation
          (Shader.Body.of (Shader.annotatedBody body m) table)
          (Shader.Body.of ⟨kernel, source', c', m', body.catalog⟩ table) := by
        refine Shader.sameTranslation_of_run ?_ hclosures.body hmodels table
          ((Shader.run_annotated h hkin table).trans hrun)
          ((Shader.Context.kin_of hkin table).localNames ▸ hthreads)
        rfl
      rw [← Shader.Body.of_annotated h hkin table]
      exact hsame

/-- Writing inferred types out changes nothing, as long as the locals of a closure that were open where
they were read end with the types that the values made of them meet. -/
theorem sameBody_of_annotated {kernel source source' : String} {catalog : Catalog}
    {body : CheckedBody} {c' : Closure} (h : CheckedBody.of kernel source catalog = .ok body)
    (hagree : body.closure.OpensAgree body.catalog body.model) (hparse : Closure.parse source' = .ok c')
    (halike : (body.closure.annotated body.model).Alike Span.Any c') :
    ∃ body' b, CheckedBody.of kernel source' catalog = .ok body' ∧ body'.catalog = body.catalog ∧
      body'.model.locals.map (fun l => l.closed.bare) =
        body.model.locals.map (fun l => l.closed.bare) ∧
      Shader.Body.of body .hlsl = .ok b ∧ Shader.Body.of body' .hlsl = .ok b := by
  obtain ⟨body', h', hcatalog, hlocals, hsame⟩ := CheckedBody.of_annotated h hagree hparse halike
  obtain ⟨b, hb⟩ := Shader.exists_body_of_checked h
  have hb' := hsame .hlsl
  rw [hb] at hb'
  generalize hbody' : Shader.Body.of body' .hlsl = translated at hb'
  cases hb'
  exact ⟨body', b, h', hcatalog, hlocals, hb, hbody'⟩

/-! ### Inference over a chain of locals -/

theorem Model.type_annotation? {m : Model} {name : Name} {id : Nat} {t : Ty}
    (h : m.referent? name.span = some (.local id)) (ht : (m.local? id).map Local.type = some t) :
    (m.annotation? name).map TypeRef.type = some t.toHost := by
  obtain ⟨l, hl, rfl⟩ := Option.map_eq_some_iff.mp ht
  rw [annotation?_eq h hl]
  rfl

/-- A kernel in which the type of a literal local is decided by its use, and the source that writes the
type out. -/
def pair : Closure :=
  ⟨⟨"ids", ⟨1, 4⟩⟩, none, ⟨⟨6, 36⟩,
    [.let ⟨8, 18⟩ false ⟨"x", ⟨12, 13⟩⟩ none (some (.literal ⟨16, 17⟩ (.integer "1" none))),
      .let ⟨19, 34⟩ false ⟨"y", ⟨23, 24⟩⟩ (some ⟨.named "u32", ⟨26, 29⟩⟩)
        (some (.name ⟨32, 33⟩ "x"))]⟩⟩

def pairInFull : Closure :=
  ⟨⟨"ids", ⟨1, 4⟩⟩, none, ⟨⟨6, 41⟩,
    [.let ⟨8, 23⟩ false ⟨"x", ⟨12, 13⟩⟩ (some ⟨.named "u32", ⟨15, 18⟩⟩)
        (some (.literal ⟨21, 22⟩ (.integer "1" none))),
      .let ⟨24, 39⟩ false ⟨"y", ⟨28, 29⟩⟩ (some ⟨.named "u32", ⟨31, 34⟩⟩)
        (some (.name ⟨37, 38⟩ "x"))]⟩⟩

open Check in
theorem sameBody_of_annotated_pair :
    ∃ body body' b, CheckedBody.of "Pair" "|ids| \x7b let x = 1; let y: u32 = x; \x7d" {} = .ok body ∧
      body.closure.OpensAgree body.catalog body.model ∧
      Closure.parse "|ids| \x7b let x: u32 = 1; let y: u32 = x; \x7d" = .ok pairInFull ∧
      (body.closure.annotated body.model).Alike Span.Any pairInFull ∧
      CheckedBody.of "Pair" "|ids| \x7b let x: u32 = 1; let y: u32 = x; \x7d" {} = .ok body' ∧
      Shader.Body.of body .hlsl = .ok b ∧ Shader.Body.of body' .hlsl = .ok b := by
  have hparse : Closure.parse "|ids| \x7b let x = 1; let y: u32 = x; \x7d" = .ok pair := rfl
  have hrun : ((pair.bind {}).toOption.any fun m =>
      m.referent? ⟨12, 13⟩ = some (.local 1) ∧
        (m.local? 1).map Local.type = some (.scalar .uint) ∧
        ∀ step ∈ pair.steps {}, step.operation.Agrees m) = true := by
    decide +kernel
  obtain ⟨m, hm, hfacts⟩ := (Option.any_eq_true _ _).mp hrun
  obtain ⟨hx, hxtype, hagree⟩ := of_decide_eq_true hfacts
  have hof : CheckedBody.of "Pair" "|ids| \x7b let x = 1; let y: u32 = x; \x7d" {} =
      .ok ⟨"Pair", "|ids| \x7b let x = 1; let y: u32 = x; \x7d", pair, m, {}⟩ := by
    simp only [CheckedBody.of, hparse, eq_ok_of_toOption hm]
  have halike : (pair.annotated m).Alike Span.Any pairInFull := by
    refine ⟨trivial, rfl, rfl, .block (.moreStmts ?_ (.moreStmts ?_ .noStmts))⟩
    · exact .let trivial rfl (Model.type_annotation? hx hxtype) (.someInitial (.literal trivial))
    · exact .let trivial rfl rfl (.someInitial (.name trivial))
  have hfull : Closure.parse "|ids| \x7b let x: u32 = 1; let y: u32 = x; \x7d" = .ok pairInFull := rfl
  obtain ⟨body', b, hbody', _, _, hb, hb'⟩ := sameBody_of_annotated hof hagree hfull halike
  exact ⟨_, body', b, hof, hagree, hfull, halike, hbody', hb, hb'⟩

/-- The chain of three locals with the final types of all of them written out. -/
def copyInFull : Closure :=
  ⟨⟨"ids", ⟨1, 4⟩⟩, none, ⟨⟨6, 57⟩,
    [.let ⟨8, 23⟩ false ⟨"x", ⟨12, 13⟩⟩ (some ⟨.named "i32", ⟨15, 18⟩⟩)
        (some (.literal ⟨21, 22⟩ (.integer "1" none))),
      .let ⟨24, 39⟩ false ⟨"y", ⟨28, 29⟩⟩ (some ⟨.named "u32", ⟨31, 34⟩⟩)
        (some (.name ⟨37, 38⟩ "x")),
      .let ⟨40, 55⟩ false ⟨"z", ⟨44, 45⟩⟩ (some ⟨.named "u32", ⟨47, 50⟩⟩)
        (some (.name ⟨53, 54⟩ "y"))]⟩⟩

/-- The kernel in which a copy of a literal local gets a type is accepted, and is rejected once the types
that its locals end up with are written out. -/
theorem Closure.rejects_copyInFull :
    ∃ m, Closure.parse "|ids| \x7b let x = 1; let y = x; let z: u32 = y; \x7d" = .ok copy ∧
      copy.bind {} = .ok m ∧
      Closure.parse "|ids| \x7b let x: i32 = 1; let y: u32 = x; let z: u32 = y; \x7d" =
        .ok copyInFull ∧
      (copy.annotated m).Alike Span.Any copyInFull ∧
      copyInFull.bind {} =
        .error [Diagnostic.error "mismatched types: expected `u32`, found `i32`" ⟨37, 38⟩] := by
  have hrun : ((copy.bind {}).toOption.any fun m =>
      m.referent? ⟨12, 13⟩ = some (.local 1) ∧ m.referent? ⟨23, 24⟩ = some (.local 2) ∧
        (m.local? 1).map Local.type = some (.scalar .int) ∧
        (m.local? 2).map Local.type = some (.scalar .uint)) = true := by
    decide +kernel
  obtain ⟨m, hm, hfacts⟩ := (Option.any_eq_true _ _).mp hrun
  obtain ⟨hx, hy, hxtype, hytype⟩ := of_decide_eq_true hfacts
  refine ⟨m, rfl, eq_ok_of_toOption hm, rfl, ⟨trivial, rfl, rfl, ?_⟩, rfl⟩
  refine .block (.moreStmts ?_ (.moreStmts ?_ (.moreStmts ?_ .noStmts)))
  · exact .let trivial rfl (Model.type_annotation? hx hxtype) (.someInitial (.literal trivial))
  · exact .let trivial rfl (Model.type_annotation? hy hytype) (.someInitial (.name trivial))
  · exact .let trivial rfl rfl (.someInitial (.name trivial))

end ComputeKernel
