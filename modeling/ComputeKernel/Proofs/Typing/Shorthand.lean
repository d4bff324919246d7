import ComputeKernel.Proofs.Parsing.Placement
import ComputeKernel.Proofs.Typing.Replacing
import ComputeKernel.Proofs.Typing.WellTyped

/-!
Compound assignments as shorthand. `p op= v` says `p = p op (v)`: both are accepted, or none is, and
they leave the same types behind. This asks for two things of the assignment, in the states in which it
is checked. The place has to be the same when it is checked once more, for the long form checks it
twice; and where its type is open, the operator may not settle it on another type than it has, for the
compound form compares the result with the type that the place had before.
-/

namespace ComputeKernel

/-- Whether an assignment is another one but for ranges, or that with its operator written out. Of the
compound assignments, those with a range in `chosen` can be written out. -/
inductive Stmt.WritesOut (chosen : Span → Prop) : Stmt → Stmt → Prop where
  | same {s s' op place place' value value'} : Expr.Alike place place' → Expr.Alike value value' →
      Stmt.WritesOut chosen (.assign s op place value) (.assign s' op place' value')
  | long {s s' op place place' place'' value value' sum group} : chosen s →
      Expr.Alike place place' → Expr.Alike place place'' → Expr.Alike value value' →
      Stmt.WritesOut chosen (.assign s (some op) place value)
        (.assign s' none place' (.binary sum op place'' (.paren group value')))

/-- Whether one closure is another one with some compound assignments written out, of those with a
range in `chosen`. -/
structure Closure.WritesOut (chosen : Span → Prop) (c c' : Closure) : Prop where
  paramText : c.param.text = c'.param.text
  paramType : c.paramType.map TypeRef.type = c'.paramType.map TypeRef.type
  body : AlikeBut (Stmt.WritesOut chosen) (.block c.body c'.body)

namespace Check

/-- Whether a compound assignment means the same as its long form in a state: the place is found to be
the same once more, with nothing left to settle, and where it can take the type of the operator's
result, the result has its type. -/
structure Steady (catalog : Catalog) (s : Checking) (op : BinaryOp) (place value : Expr) : Prop where
  again : ∀ {target s₁}, Checks catalog s (.expr place target) s₁ →
    ∃ s₂, Checks catalog s₁ (.expr place target) s₂ ∧ s₂.outline = s₁.outline
  fits : ∀ {target found result s₁ s₂ s₃}, Checks catalog s (.expr place target) s₁ →
    Checks catalog s₁ (.expr value found) s₂ → Operates op target found s₂ result s₃ →
    target.Fits result.type → result.Fits target.type

/-- The state in which the body of a closure is checked. -/
def initial (c : Closure) : Checking :=
  (({} : Checking).openScope).declare c.param .threadIds false none

end Check

/-- Whether the compound assignments with a range in `chosen` mean the same as their long forms
wherever they are checked. -/
def Closure.Steady (chosen : Span → Prop) (catalog : Catalog) (c : Closure) : Prop :=
  ∀ s span op place value, chosen span →
    Check.Visits catalog (Check.initial c) (.block c.body) s (.assign span (some op) place value) →
    Check.Steady catalog s op place value

namespace Check

variable {catalog : Catalog} {chosen : Span → Prop} {s s' s₁ s₂ u : Checking}

/-! ### Places -/

theorem Agrees.carry {target value : Typed} (h : Agrees target value s s')
    (ho : s.outline = u.outline) : ∃ u', Agrees target value u u' ∧ s'.outline = u'.outline := by
  cases h with
  | value hfits => exact ⟨_, .value hfits, Checking.settle_outline ho _ _⟩
  | target hnot hfits => exact ⟨_, .target hnot hfits, Checking.settle_outline ho _ _⟩

theorem Assigns.carry {target value : Typed} {op : Option BinaryOp}
    (h : Assigns target value s op s') (ho : s.outline = u.outline) :
    ∃ u', Assigns target value u op u' ∧ s'.outline = u'.outline := by
  cases h with
  | plain hagrees =>
    obtain ⟨u', hagrees', ho'⟩ := hagrees.carry ho
    exact ⟨u', .plain hagrees', ho'⟩
  | compound hop hfits =>
    obtain ⟨u₁, hop', ho₁⟩ := hop.carry ho
    exact ⟨_, .compound hop' hfits, Checking.settle_outline ho₁ _ _⟩

theorem mutables_of_outline (h : s.outline = u.outline) :
    s.model.locals.map Local.mutable = u.model.locals.map Local.mutable := by
  have hlocals : s.model.locals.map Local.bare = u.model.locals.map Local.bare :=
    congrArg Outline.locals h
  have hmutable := congrArg (List.map Local.mutable) hlocals
  rw [List.map_map, List.map_map] at hmutable
  exact hmutable

theorem mutables_of_heads {m m' : Model} (h : m.heads = m'.heads) :
    m.locals.map Local.mutable = m'.locals.map Local.mutable := by
  have hmutable := congrArg (List.map Prod.snd) h
  unfold Model.heads at hmutable
  rw [List.map_map, List.map_map] at hmutable
  exact hmutable

/-! ### One assignment -/

/-- An operator leaves its left operand the type that it has, if this is settled or that of the right
operand too. -/
theorem Operates.fits {op : BinaryOp} {l r t : Typed} (h : Operates op l r s t s')
    (htype : l.family = none ∨ r.type = l.type) (hfits : l.Fits t.type) : t.Fits l.type := by
  rcases hfits with heq | ⟨f, k, hf, hk, haccepts⟩
  · exact .inl heq.symm
  have hr : r.type = l.type := htype.resolve_left fun hnone => nomatch hf.symm.trans hnone
  have hbool : t.type ≠ .bool := by
    rw [hk]
    rintro ⟨⟩
    exact ne_bool_of_accepts haccepts rfl
  refine .inl ?_
  cases h with
  | logical | comparison => exact (hbool rfl).elim
  | shift => rfl
  | scalar _ _ _ _ _ hunify =>
    cases hunify with
    | settled | right | «open» => rfl
    | left => exact hr
  | @aggregate _ _ v _ _ _ _ _ hmain _ _ =>
    have hv : l.type = .value v := by
      unfold mainOperand at hmain
      split at hmain
      · exact hmain
      · exact hr.symm.trans hmain
    rw [hv]
    by_cases hcomparison : op.isComparison
    · simp only [if_pos hcomparison] at hk
      have hkind := congrArg ValueType.kind (Ty.value.inj hk)
      rw [ValueType.kind_withKind] at hkind
      exact (ne_bool_of_accepts haccepts hkind.symm).elim
    · simp only [if_neg hcomparison]

/-- A place that settles nothing and has a settled type, or the type of the value, is steady. -/
theorem Steady.of_settled {op : BinaryOp} {place value : Expr}
    (hplace : ∀ {target s₁}, Checks catalog s (.expr place target) s₁ → s₁.outline = s.outline)
    (htype : ∀ {target found s₁ s₂}, Checks catalog s (.expr place target) s₁ →
      Checks catalog s₁ (.expr value found) s₂ →
      target.family = none ∨ found.type = target.type) : Steady catalog s op place value where
  again {target s₁} h := by
    obtain ⟨s₂, hagain, ho⟩ := h.exists_alike place.alike_refl (hplace h).symm
    exact ⟨s₂, hagain, ho.symm⟩
  fits hp hv hop := hop.fits (htype hp hv)

/-- What the compound form leaves behind, the long form does. -/
theorem ChecksStmt.long {span span' sum group : Span} {op : BinaryOp}
    {place place' place'' value value' : Expr}
    (h : ChecksStmt catalog s (.stmt (.assign span (some op) place value)) s')
    (hsteady : Steady catalog s op place value) (hplace : Expr.Alike place place')
    (hplace' : Expr.Alike place place'') (hvalue : Expr.Alike value value')
    (hlaid : (Stmt.assign span (some op) place value).Laid)
    (hlaid' : (Stmt.assign span' none place' (.binary sum op place'' (.paren group value'))).Laid)
    (ho : s.outline = u.outline) :
    ∃ u', ChecksStmt catalog u
      (.stmt (.assign span' none place' (.binary sum op place'' (.paren group value')))) u' ∧
        s'.outline = u'.outline := by
  cases h with
  | @assign _ s₁ s₂ _ _ _ _ _ target found hp hv hassignable hassigns =>
    cases hassigns with
    | @compound _ result s₃ hop hfits =>
      obtain ⟨u₁, hp', ho₁, hassigned⟩ := hp.carried place' u hplace ho
      obtain ⟨x, hagain, hx⟩ := hsteady.again hp
      obtain ⟨u₂, hp'', ho₂⟩ := hagain.exists_alike hplace' ho₁
      obtain ⟨u₃, hv', ho₃⟩ := hv.exists_alike hvalue (hx.symm.trans ho₂)
      obtain ⟨u₄, hop', ho₄⟩ := hop.carry (u := u₃.noteType group found.type) ho₃
      have hsum : Checks catalog u₁ (.expr (.binary sum op place'' (.paren group value')) result)
          (u₄.noteType sum result.type) := .binary hp'' (.paren hv') hop'
      have hmutable : s₂.model.locals.map Local.mutable =
          (u₄.noteType sum result.type).model.locals.map Local.mutable := by
        refine (mutables_of_outline ho₃).trans (mutables_of_heads ?_)
        exact hop'.settles.heads.symm
      have hassignable' := hassigned _ _ (kept_place hlaid hv) (kept_place hlaid' hsum) hmutable
        hassignable
      refine ⟨_, .assign hp' hsum hassignable' (.plain (.value hfits)), ?_⟩
      exact Checking.settle_outline (u := u₄.noteType sum result.type) ho₄ _ _

/-- What the long form leaves behind, the compound form does. -/
theorem ChecksStmt.short {span span' sum group : Span} {op : BinaryOp}
    {place place' place'' value value' : Expr}
    (h : ChecksStmt catalog u
      (.stmt (.assign span' none place' (.binary sum op place'' (.paren group value')))) s')
    (hs : s.Sound) (hsteady : Steady catalog s op place value) (hplace : Expr.Alike place place')
    (hplace' : Expr.Alike place place'') (hvalue : Expr.Alike value value')
    (hlaid : (Stmt.assign span (some op) place value).Laid)
    (hlaid' : (Stmt.assign span' none place' (.binary sum op place'' (.paren group value'))).Laid)
    (ho : u.outline = s.outline) :
    ∃ t, ChecksStmt catalog s (.stmt (.assign span (some op) place value)) t ∧
      s'.outline = t.outline := by
  cases h with
  | @assign _ u₁ u₄ _ _ _ _ _ target result hp hsum hassignable hassigns =>
    obtain ⟨s₁, hp', ho₁, hassigned⟩ := hp.carried place s hplace.symm ho
    cases hassigns with
    | plain hagrees =>
      have hkept' := kept_place hlaid' hsum
      cases hsum with
      | @binary _ _ _ u₃ _ _ _ _ target' found _ hp'' hgroup hop =>
        cases hgroup with
        | paren hv =>
          -- the place once more: it is found to be what it was, and settles nothing
          obtain ⟨x, hsecond, hx⟩ := hp''.exists_alike hplace'.symm ho₁
          obtain ⟨y, hagain, hy⟩ := hsteady.again hp'
          obtain ⟨rfl, rfl⟩ := hsecond.unique hagain (hp'.sound hs).2
          obtain ⟨s₂, hv', ho₂⟩ := hv.exists_alike hvalue.symm (hx.trans hy)
          obtain ⟨s₃, hop', ho₃⟩ := hop.carry (u := s₂) ho₂
          have hfits : result.Fits target'.type := by
            cases hagrees with
            | value hfits => exact hfits
            | target _ hfits => exact hsteady.fits hp' hv' hop' hfits
          have hmutable : (u₃.noteType sum result.type).model.locals.map Local.mutable =
              s₂.model.locals.map Local.mutable := by
            refine (mutables_of_outline (s := u₃) ho₃).trans (mutables_of_heads ?_)
            exact hop'.settles.heads
          have hassignable' := hassigned _ _ hkept' (kept_place hlaid hv') hmutable hassignable
          refine ⟨_, .assign hp' hv' hassignable' (.compound hop' hfits), ?_⟩
          cases hagrees with
          | value _ => exact Checking.settle_outline (s := u₃.noteType sum result.type) ho₃ _ _
          | target hnot _ => exact (hnot hfits).elim

/-- An assignment that differs in its ranges only. -/
theorem ChecksStmt.assign_alike {span span' : Span} {op : Option BinaryOp}
    {place place' value value' : Expr}
    (h : ChecksStmt catalog s (.stmt (.assign span op place value)) s')
    (hplace : Expr.Alike place place') (hvalue : Expr.Alike value value')
    (hlaid : (Stmt.assign span op place value).Laid)
    (hlaid' : (Stmt.assign span' op place' value').Laid) (ho : s.outline = u.outline) :
    ∃ u', ChecksStmt catalog u (.stmt (.assign span' op place' value')) u' ∧
      s'.outline = u'.outline := by
  cases h with
  | assign hp hv hassignable hassigns =>
    obtain ⟨u₁, hp', ho₁, hassigned⟩ := hp.carried place' u hplace ho
    obtain ⟨u₂, hv', ho₂⟩ := hv.exists_alike hvalue ho₁
    obtain ⟨u', hassigns', ho'⟩ := hassigns.carry ho₂
    have hassignable' := hassigned _ _ (kept_place hlaid hv) (kept_place hlaid' hv')
      (mutables_of_outline ho₂) hassignable
    exact ⟨u', .assign hp' hv' hassignable' hassigns', ho'⟩

/-! ### Closures -/

variable {c c' : Closure} {hi hi' : Nat}

theorem outline_initial (h : c.param.text = c'.param.text) :
    (initial c).outline = (initial c').outline := by
  unfold initial
  rw [Checking.outline_declare, Checking.outline_declare, h]

theorem agree_long (hsteady : c.Steady chosen catalog) (hlaid : c.Laid hi) (hlaid' : c'.Laid hi') :
    Agree catalog (Stmt.WritesOut chosen) (initial c) (initial c') (.block c.body)
      (.block c'.body) := by
  intro s u st st' hst hv hv' ho s' hchecks
  have hl : st.Laid := hv.laid hlaid.2.2.2.1
  have hl' : st'.Laid := hv'.laid hlaid'.2.2.2.1
  cases hst with
  | same hplace hvalue => exact hchecks.assign_alike hplace hvalue hl hl' ho
  | long hchosen hplace hplace' hvalue =>
    exact hchecks.long (hsteady _ _ _ _ _ hchosen hv) hplace hplace' hvalue hl hl' ho

theorem agree_short (hsteady : c.Steady chosen catalog) (hlaid : c.Laid hi) (hlaid' : c'.Laid hi') :
    Agree catalog (fun st' st => Stmt.WritesOut chosen st st') (initial c') (initial c)
      (.block c'.body) (.block c.body) := by
  intro u s st' st hst hv' hv ho s' hchecks
  have hl : st.Laid := hv.laid hlaid.2.2.2.1
  have hl' : st'.Laid := hv'.laid hlaid'.2.2.2.1
  cases hst with
  | same hplace hvalue => exact hchecks.assign_alike hplace.symm hvalue.symm hl' hl ho
  | long hchosen hplace hplace' hvalue =>
    exact hchecks.short (hv.sound (sound_initial c)) (hsteady _ _ _ _ _ hchosen hv) hplace hplace'
      hvalue hl hl' ho

/-- Closures whose bodies are checked alike are bound alike. -/
theorem ChecksClosure.of_body {s : Checking} (h : ChecksClosure catalog c s)
    (hparam : c.paramType.map TypeRef.type = c'.paramType.map TypeRef.type)
    (hbody : ∀ s, ChecksStmt catalog (initial c) (.block c.body) s →
      ∃ u, ChecksStmt catalog (initial c') (.block c'.body) u ∧ s.outline = u.outline) :
    ∃ u, ChecksClosure catalog c' u ∧ s.outline = u.outline := by
  cases h with
  | mk htype hchecks =>
    obtain ⟨u, hchecks', ho⟩ := hbody _ hchecks
    refine ⟨_, .mk (fun type htype' => ?_) hchecks', outline_closeScope ho⟩
    rw [htype'] at hparam
    obtain ⟨type₀, htype₀, heq⟩ := Option.map_eq_some_iff.mp hparam
    exact heq ▸ htype type₀ htype₀

end Check

open Check

/-- What is said of a closure's locals when it is bound, if it is bound. -/
def Closure.locals? (c : Closure) (catalog : Catalog) : Option (List Local) :=
  (c.bind catalog).toOption.map fun m => m.locals.map Local.bare

theorem Closure.locals?_eq_some {c c' : Closure} {catalog : Catalog} {ls : List Local}
    (h : c.locals? catalog = some ls)
    (hc : ∀ s, ChecksClosure catalog c s →
      ∃ u, ChecksClosure catalog c' u ∧ s.outline = u.outline) :
    c'.locals? catalog = some ls := by
  obtain ⟨m, hm, rfl⟩ := Option.map_eq_some_iff.mp h
  obtain ⟨s, hs, rfl⟩ := c.checks_of_bind (eq_ok_of_toOption hm)
  obtain ⟨u, hu, ho⟩ := hc s hs
  have hlocals : s.model.locals.map Local.bare = u.model.locals.map Local.bare :=
    congrArg Outline.locals ho
  unfold Closure.locals?
  rw [hu.bind]
  exact congrArg some hlocals.symm

/-- Compound assignments that are steady can be written out: neither whether a source is accepted nor
the locals that it has depends on it. -/
theorem Closure.locals_of_writesOut {source source' : String} {c c' : Closure} {catalog : Catalog}
    {chosen : Span → Prop} (h : Closure.parse source = .ok c) (h' : Closure.parse source' = .ok c')
    (hlong : c.WritesOut chosen c') (hsteady : c.Steady chosen catalog) :
    c.locals? catalog = c'.locals? catalog := by
  obtain ⟨hi, hlaid⟩ := Closure.laid_of_parse h
  obtain ⟨hi', hlaid'⟩ := Closure.laid_of_parse h'
  have hforth (s : Checking) (hs : ChecksClosure catalog c s) :
      ∃ u, ChecksClosure catalog c' u ∧ s.outline = u.outline :=
    hs.of_body hlong.paramType fun _ hbody => hbody.replaced (k := .block c'.body) hlong.body
      (outline_initial hlong.paramText) (agree_long hsteady hlaid hlaid')
  have hback (s : Checking) (hs : ChecksClosure catalog c' s) :
      ∃ u, ChecksClosure catalog c u ∧ s.outline = u.outline :=
    hs.of_body hlong.paramType.symm fun _ hbody => hbody.replaced (k := .block c.body)
      hlong.body.symm (outline_initial hlong.paramText.symm) (agree_short hsteady hlaid hlaid')
  apply Option.ext
  intro ls
  exact ⟨fun hls => locals?_eq_some hls hforth, fun hls => locals?_eq_some hls hback⟩

/-- A kernel that adds to a local whose type is open, and multiplies an element. -/
def gather : Closure :=
  ⟨⟨"ids", ⟨1, 4⟩⟩, none, ⟨⟨6, 55⟩,
    [.let ⟨8, 26⟩ true ⟨"sum", ⟨16, 19⟩⟩ none (some (.literal ⟨22, 25⟩ (.float "0.5" none))),
      .assign ⟨27, 35⟩ (some .add) (.name ⟨27, 30⟩ "sum") (.name ⟨34, 35⟩ "x"),
      .assign ⟨37, 52⟩ (some .mul)
        (.index ⟨37, 45⟩ (.name ⟨37, 38⟩ "o")
          (.field ⟨39, 44⟩ (.name ⟨39, 42⟩ "ids") ⟨"x", ⟨43, 44⟩⟩))
        (.name ⟨49, 52⟩ "sum")]⟩⟩

/-- `gather` with both of its compound assignments written out. -/
def gatherLong : Closure :=
  ⟨⟨"ids", ⟨1, 4⟩⟩, none, ⟨⟨6, 74⟩,
    [.let ⟨8, 26⟩ true ⟨"sum", ⟨16, 19⟩⟩ none (some (.literal ⟨22, 25⟩ (.float "0.5" none))),
      .assign ⟨27, 42⟩ none (.name ⟨27, 30⟩ "sum")
        (.binary ⟨33, 42⟩ .add (.name ⟨33, 36⟩ "sum") (.paren ⟨39, 42⟩ (.name ⟨40, 41⟩ "x"))),
      .assign ⟨44, 71⟩ none
        (.index ⟨44, 52⟩ (.name ⟨44, 45⟩ "o")
          (.field ⟨46, 51⟩ (.name ⟨46, 49⟩ "ids") ⟨"x", ⟨50, 51⟩⟩))
        (.binary ⟨55, 71⟩ .mul
          (.index ⟨55, 63⟩ (.name ⟨55, 56⟩ "o")
            (.field ⟨57, 62⟩ (.name ⟨57, 60⟩ "ids") ⟨"x", ⟨61, 62⟩⟩))
          (.paren ⟨66, 71⟩ (.name ⟨67, 70⟩ "sum")))]⟩⟩

def gatherCatalog : Catalog :=
  { fields := [⟨"x", "f32", false⟩, ⟨"o", "ReadWriteBuffer<f32>", false⟩] }

theorem gather_writesOut : gather.WritesOut (fun _ => True) gatherLong where
  paramText := rfl
  paramType := rfl
  body := .block (.moreStmts (.let rfl rfl (.someInitial (.literal trivial)))
    (.moreStmts (.assign (.long trivial (.name trivial) (.name trivial) (.name trivial)))
      (.moreStmts (.assign (.long trivial (.index trivial (.name trivial)
          (.field trivial (.name trivial) rfl)) (.index trivial (.name trivial)
          (.field trivial (.name trivial) rfl)) (.name trivial))) .noStmts)))

theorem Check.Checks.outline_name {catalog : Catalog} {s s' : Checking} {span : Span}
    {text : String} {t : Typed} (h : Checks catalog s (.expr (.name span text) t) s') :
    s'.outline = s.outline := by
  cases h <;> rfl

theorem gather_steady : gather.Steady (fun _ => True) gatherCatalog := by
  intro s span op place value _ hv
  cases hv with
  | block hv =>
    cases hv with
    | first hv => cases hv
    | rest hlet hv =>
      cases hv with
      | first hv =>
        cases hv with
        | here =>
          refine .of_settled (fun h => h.outline_name) fun htarget hfound => .inr ?_
          have hfield : (gatherCatalog.fields.findIdx? fun f => f.name == "x") = some 0 := by
            decide +kernel
          cases hlet with
          | inferred hvalue _ =>
            cases hvalue
            cases htarget with
            | «local» hsum hl =>
              obtain rfl := Option.some.inj ((show some 1 = _ by decide +kernel).trans hsum)
              obtain rfl := Option.some.inj hl
              cases hfound with
              | «local» hx _ => cases (show none = _ by decide +kernel).trans hx
              | capture _ hcapture =>
                obtain ⟨hindex, f, hf, htype⟩ := hcapture
                obtain rfl := Option.some.inj (hfield.symm.trans hindex)
                obtain rfl := Option.some.inj hf
                exact Option.some.inj (htype.symm.trans (by decide +kernel))
              | static _ hnone => cases hfield.symm.trans hnone
            | capture hnone | static hnone => exact absurd hnone (by decide +kernel)
      | rest _ hv =>
        cases hv with
        | first hv =>
          cases hv with
          | here =>
            refine .of_settled (fun h => ?_) fun htarget _ => .inl ?_
            · cases h with
              | element hbase _ hindex _ _ =>
                cases hindex with
                | field hids _ => exact hids.outline_name.trans hbase.outline_name
            · cases htarget
              rfl
        | rest _ hv => cases hv

theorem Closure.locals_of_writesOut_gather :
    gather.WritesOut (fun _ => True) gatherLong ∧ gather.Steady (fun _ => True) gatherCatalog ∧
      gather.locals? gatherCatalog = gatherLong.locals? gatherCatalog ∧
        (gather.locals? gatherCatalog).isSome := by
  have h : Closure.parse "|ids| \x7b let mut sum = 0.5; sum += x; o[ids.x] *= sum; \x7d" =
    .ok gather := rfl
  have h' : Closure.parse
      "|ids| \x7b let mut sum = 0.5; sum = sum + (x); o[ids.x] = o[ids.x] * (sum); \x7d" =
    .ok gatherLong := rfl
  exact ⟨gather_writesOut, gather_steady,
    Closure.locals_of_writesOut h h' gather_writesOut gather_steady, by decide +kernel⟩

/-! ### Where the two forms differ -/

/-- A kernel that adds an unsigned number to a local whose type is open. -/
def tally : Closure :=
  ⟨⟨"ids", ⟨1, 4⟩⟩, none, ⟨⟨6, 32⟩,
    [.let ⟨8, 22⟩ true ⟨"x", ⟨16, 17⟩⟩ none (some (.literal ⟨20, 21⟩ (.integer "1" none))),
      .assign ⟨23, 29⟩ (some .add) (.name ⟨23, 24⟩ "x") (.name ⟨28, 29⟩ "n")]⟩⟩

/-- `tally` with its compound assignment written out. -/
def tallyLong : Closure :=
  ⟨⟨"ids", ⟨1, 4⟩⟩, none, ⟨⟨6, 37⟩,
    [.let ⟨8, 22⟩ true ⟨"x", ⟨16, 17⟩⟩ none (some (.literal ⟨20, 21⟩ (.integer "1" none))),
      .assign ⟨23, 34⟩ none (.name ⟨23, 24⟩ "x")
        (.binary ⟨27, 34⟩ .add (.name ⟨27, 28⟩ "x") (.paren ⟨31, 34⟩ (.name ⟨32, 33⟩ "n")))]⟩⟩

/-- A kernel that is rejected is accepted with its compound assignment written out. -/
theorem Closure.rejects_tally :
    Closure.parse "|ids| \x7b let mut x = 1; x += n; \x7d" = .ok tally ∧
      Closure.parse "|ids| \x7b let mut x = 1; x = x + (n); \x7d" = .ok tallyLong ∧
        tally.WritesOut (fun _ => True) tallyLong ∧
          tally.locals? { fields := [⟨"n", "u32", false⟩] } = none ∧
            (tallyLong.locals? { fields := [⟨"n", "u32", false⟩] }).map (List.map Local.type) =
              some [.threadIds, .scalar .uint] := by
  refine ⟨rfl, rfl, ⟨rfl, rfl, ?_⟩, by decide +kernel, by decide +kernel⟩
  exact .block (.moreStmts (.let rfl rfl (.someInitial (.literal trivial)))
    (.moreStmts (.assign (.long trivial (.name trivial) (.name trivial) (.name trivial))) .noStmts))

end ComputeKernel
