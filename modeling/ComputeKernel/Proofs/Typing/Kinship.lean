import ComputeKernel.Proofs.Typing.Coherence
import ComputeKernel.Proofs.Typing.Places

/-!
Checking once more with the final types of locals known. Where the first check finds an open type, the
second one finds the same or the final one; where the first settles a local, the second has it settled
already or settles it on the same type. The steps of the two checks go together as long as the types of
the expressions go together with the final types of the locals.
-/

namespace ComputeKernel

/-- Types that a value can be found to have while it is open and once it is settled. -/
def Ty.Kin (t u : Ty) : Prop :=
  t = u ∨ ∃ (f : LiteralFamily) (k l : ScalarKind),
    t = .scalar k ∧ u = .scalar l ∧ f.accepts k ∧ f.accepts l

/-- What two checks can have noted for one expression: nothing, or types that are kin. -/
inductive Ty.NotedKin : Option Ty → Option Ty → Prop where
  | none : NotedKin none none
  | some {t u} : t.Kin u → NotedKin (some t) (some u)

/-- Whether a local with the final type `t` is settled on it, or is as in the other check. Locals that
can be assigned are settled. -/
def Local.Narrows (t : Ty) (l l' : Local) : Prop :=
  l' = { l with type := t, family := none } ∨ l' = l ∧ ¬ l.mutable

/-- Whether a local is not open, if there is one of that number. -/
def Checking.Shut (v : Checking) (id : Nat) : Prop :=
  ∀ l, v.model.local? id = some l → l.family = none

/-- Whether a check in which some locals have their final types follows another one, which ends with the
locals of a model. -/
structure Checking.Follows (m : Model) (s v : Checking) : Prop where
  sound : s.Sound
  scopes : v.scopes = s.scopes
  loops : v.loops = s.loops
  referents : ∀ span, v.model.referent? span = s.model.referent? span
  types : ∀ span, Ty.NotedKin (s.model.type? span) (v.model.type? span)
  length_eq : v.model.locals.length = s.model.locals.length
  locals : ∀ {id l}, s.model.local? id = some l → ∃ final l', m.local? id = some final ∧
    v.model.local? id = some l' ∧ (Check.useOf id l).Fits final.type ∧ l.Narrows final.type l'

/-- Whether a value with the final type `T` is found to be the same once more, or settled on `T`. -/
structure Typed.Narrows (m : Model) (v : Checking) (T : Ty) (t u : Typed) : Prop where
  sound : t.Sound
  fits : t.Fits T
  origin : ∀ id, t.origin = some id → ∃ l, m.local? id = some l ∧ l.type = T
  eq_or : u = t ∨ u = { type := T } ∧ ∀ id, t.origin = some id → v.Shut id

/-- Whether a value is found once more, which has its type from the locals `ids` if it is open: as it was,
if there are none, and otherwise with the type that all of them end with. -/
inductive Typed.Found (m : Model) (v : Checking) (ids : List Nat) (t : Typed) : Typed → Prop where
  | same : t.Sound → t.origin = none → ids = [] → Found m v ids t t
  | ends {T u} : t.Narrows m v T u → (∀ id ∈ ids, ∃ l, m.local? id = some l ∧ l.type = T) →
      (ids = [] → t.family = none) → Found m v ids t u

open Checking

variable {m : Model} {s v v' : Checking} {T : Ty} {t u : Typed}

/-! ### Types -/

namespace Ty.Kin

theorem refl (t : Ty) : t.Kin t := .inl rfl

theorem eq_of_left {t u : Ty} (h : t.Kin u) (ht : ∀ k, t ≠ .scalar k) : u = t := by
  rcases h with rfl | ⟨_, k, _, hk, _⟩
  · rfl
  · exact (ht k hk).elim

theorem eq_of_right {t u : Ty} (h : t.Kin u) (hu : ∀ k, u ≠ .scalar k) : u = t := by
  rcases h with rfl | ⟨_, _, k, _, hk, _⟩
  · rfl
  · exact (hu k hk).elim

end Ty.Kin

namespace Typed.Narrows

/-- What is settled is found to be of its type once more. -/
theorem type_eq_of_closed (h : t.Narrows m v T u) (ht : t.family = none) :
    T = t.type ∧ u.type = t.type ∧ u.family = none := by
  have hT := Check.eq_of_fits h.fits ht
  rcases h.eq_or with rfl | ⟨rfl, _⟩
  · exact ⟨hT, rfl, ht⟩
  · exact ⟨hT, hT, rfl⟩

theorem fits_right (h : t.Narrows m v T u) : u.Fits T := by
  rcases h.eq_or with rfl | ⟨rfl, _⟩
  · exact h.fits
  · exact .inl rfl

theorem kin (h : t.Narrows m v T u) : t.type.Kin u.type := by
  rcases h.eq_or with rfl | ⟨rfl, _⟩
  · exact .refl _
  rcases h.fits with hT | ⟨f, k, hf, rfl, haccepts⟩
  · exact .inl hT
  · obtain ⟨k₀, hk₀, haccepts₀⟩ := h.sound.openTo f hf
    exact .inr ⟨f, k₀, k, hk₀, rfl, haccepts₀, haccepts⟩

/-- What is not a scalar is found to be of its type once more. -/
theorem type_eq (h : t.Narrows m v T u) (ht : ∀ k, t.type ≠ .scalar k) : u.type = t.type :=
  h.kin.eq_of_left ht

theorem bool (h : t.Narrows m v T u) (ht : t.type = .bool) : u.type = .bool :=
  (h.type_eq_of_closed (Check.family_eq_none_of_bool h.sound ht)).2.1.trans ht

theorem mono (h : t.Narrows m v T u) (hshut : ∀ id, v.Shut id → v'.Shut id) :
    t.Narrows m v' T u :=
  ⟨h.sound, h.fits, h.origin, h.eq_or.imp_right fun ⟨hu, hv⟩ => ⟨hu, fun id hid => hshut id (hv id hid)⟩⟩

theorem detached (h : t.Narrows m v T u) : t.detached.Narrows m v T u.detached := by
  refine ⟨h.sound.detached, h.fits, nofun, ?_⟩
  rcases h.eq_or with rfl | ⟨rfl, _⟩
  · exact .inl rfl
  · exact .inr ⟨rfl, nofun⟩

/-- What is settled can also be found as a value of the type alone. -/
theorem settled (h : t.Narrows m v T u) (ht : t.family = none) : t.Narrows m v T { type := T } := by
  refine ⟨h.sound, h.fits, h.origin, .inr ⟨rfl, fun id hid => ?_⟩⟩
  obtain ⟨f, hf⟩ := h.sound.origin id hid
  cases ht.symm.trans hf

/-- A value of a settled type. -/
theorem of_closed {type : Ty} (h : type.Shaped) : Typed.Narrows m v type { type } { type } :=
  ⟨.of_shaped h, .inl rfl, nofun, .inl rfl⟩

end Typed.Narrows

namespace Typed.Found

variable {ids : List Nat}

theorem sound (h : t.Found m v ids u) : t.Sound := by
  cases h with
  | same hsound => exact hsound
  | ends hnarrows => exact hnarrows.sound

theorem mono (h : t.Found m v ids u) (hshut : ∀ id, v.Shut id → v'.Shut id) : t.Found m v' ids u := by
  cases h with
  | same hsound horigin hids => exact .same hsound horigin hids
  | ends hnarrows hends hclosed => exact .ends (hnarrows.mono hshut) hends hclosed

theorem detached (h : t.Found m v ids u) : t.detached.Found m v ids u.detached := by
  cases h with
  | same hsound _ hids => exact .same hsound.detached rfl hids
  | ends hnarrows hends hclosed => exact .ends hnarrows.detached hends hclosed

/-- Of a settled value it does not matter which locals are in it. -/
theorem of_isSome (h : t.Found m v ids u) : t.Found m v (if t.family.isSome then ids else []) u := by
  cases hfamily : t.family with
  | some f => exact h
  | none =>
    cases h with
    | same hsound horigin _ => exact .same hsound horigin rfl
    | ends hnarrows => exact .ends hnarrows nofun fun _ => hfamily

/-- A value of a settled type. -/
theorem of_closed {type : Ty} (h : type.Shaped) : Typed.Found m v [] { type } { type } :=
  .same (.of_shaped h) rfl rfl

/-- Scalars that an open value fits are told apart by their kinds. -/
theorem eq_of_kind?_eq {T' : Ty} (ht : t.Sound) (hT : t.Fits T) (hT' : t.Fits T')
    (hkind : t.family ≠ none → T'.kind? = T.kind?) : T' = T := by
  by_cases hfamily : t.family = none
  · exact (Check.eq_of_fits hT' hfamily).trans (Check.eq_of_fits hT hfamily).symm
  · obtain ⟨f, hf⟩ := Option.ne_none_iff_exists'.mp hfamily
    obtain ⟨k, rfl, _⟩ := Check.openTo_of_fits ht hT f hf
    obtain ⟨k', rfl, _⟩ := Check.openTo_of_fits ht hT' f hf
    exact congrArg Ty.scalar (Option.some.inj (hkind hfamily))

/-- A value narrows to every type that it fits and that agrees with its locals. -/
theorem narrows (h : t.Found m v ids u) (hfits : t.Fits T)
    (hends : t.family ≠ none → ∀ id ∈ ids, m.kind? id = T.kind?) :
    t.Narrows m v T u ∧ ∀ id ∈ ids, ∃ l, m.local? id = some l ∧ l.type = T := by
  cases h with
  | same hsound horigin hids =>
    exact ⟨⟨hsound, hfits, fun _ hid => (nomatch horigin.symm.trans hid), .inl rfl⟩, by simp [hids]⟩
  | @ends T' _ hnarrows htypes hclosed =>
    obtain rfl : T' = T := eq_of_kind?_eq hnarrows.sound hfits hnarrows.fits fun hopen => by
      obtain ⟨id, hid⟩ := List.exists_mem_of_ne_nil ids fun hids => hopen (hclosed hids)
      obtain ⟨l, hl, rfl⟩ := htypes id hid
      exact (Model.kind?_eq hl).symm.trans (hends hopen id hid)
    exact ⟨hnarrows, htypes⟩

theorem exists_narrows (h : t.Found m v ids u) : ∃ T, t.Narrows m v T u := by
  cases h with
  | same hsound horigin _ =>
    exact ⟨t.type, hsound, .inl rfl, fun _ hid => (nomatch horigin.symm.trans hid), .inl rfl⟩
  | ends hnarrows => exact ⟨_, hnarrows⟩

theorem kin (h : t.Found m v ids u) : t.type.Kin u.type :=
  h.exists_narrows.elim fun _ hnarrows => hnarrows.kin

theorem bool (h : t.Found m v ids u) (ht : t.type = .bool) : u.type = .bool :=
  h.exists_narrows.elim fun _ hnarrows => hnarrows.bool ht

/-- What is not a scalar is found to be of its type once more. -/
theorem type_eq (h : t.Found m v ids u) (ht : ∀ k, t.type ≠ .scalar k) : u.type = t.type :=
  h.kin.eq_of_left ht

/-- An open value that is made of no local is found as it was. -/
theorem eq_of_open (h : t.Found m v ids u) (hids : ids = []) (hopen : t.family ≠ none) : u = t := by
  cases h with
  | same => rfl
  | ends _ _ hclosed => exact (hopen (hclosed hids)).elim

end Typed.Found

/-! ### States -/

namespace Checking

theorem Shut.settle {id : Nat} (h : v.Shut id) (t : Typed) (target : Ty) :
    (v.settle t target).Shut id := by
  unfold Checking.settle
  split
  · intro l hl
    rw [Model.local?, List.getElem?_modify] at hl
    obtain ⟨l₀, hl₀, rfl⟩ := Option.map_eq_some_iff.mp hl
    split
    · rfl
    · exact h l₀ hl₀
  · exact h

theorem Settling.shut {ts : List Typed} {s' : Checking} {id : Nat} (h : Settling ts s s')
    (hid : s.Shut id) : s'.Shut id := by
  induction h with
  | refl => exact hid
  | step _ _ _ ih => exact ih (hid.settle _ _)

/-- The local that a value comes from is not open behind its settling. -/
theorem shut_settle (v : Checking) {id : Nat} {target : Ty} (h : t.origin = some id) :
    (v.settle t target).Shut id := by
  intro l hl
  simp only [Checking.settle, h, Model.local?, List.getElem?_modify, if_true] at hl
  obtain ⟨_, _, rfl⟩ := Option.map_eq_some_iff.mp hl
  rfl

theorem loops_settle (s : Checking) (t : Typed) (target : Ty) :
    (s.settle t target).loops = s.loops := by
  unfold Checking.settle
  split <;> rfl

namespace Follows

variable (h : Follows m s v)

include h

theorem find?_eq (name : String) : v.find? name = s.find? name := by
  unfold find?
  rw [h.scopes]

theorem noteType {a b : Ty} (span : Span) (hkin : a.Kin b) :
    Follows m (s.noteType span a) (v.noteType span b) := by
  refine ⟨h.sound.noteType _ _, h.scopes, h.loops, h.referents, fun x => ?_, h.length_eq, h.locals⟩
  by_cases heq : x = span
  · subst heq
    simp only [Model.type?, Checking.noteType, SpanMap.get?_insert_self]
    exact .some hkin
  · simp only [Model.type?, Checking.noteType, SpanMap.get?_insert_of_ne _ _ heq]
    exact h.types x

theorem noteReferent (span : Span) (r : Referent) :
    Follows m (s.noteReferent span r) (v.noteReferent span r) := by
  refine ⟨h.sound.noteReferent _ _, h.scopes, h.loops, fun x => ?_, h.types, h.length_eq, h.locals⟩
  by_cases heq : x = span
  · subst heq
    simp only [Model.referent?, Checking.noteReferent, SpanMap.get?_insert_self]
  · simp only [Model.referent?, Checking.noteReferent, SpanMap.get?_insert_of_ne _ _ heq]
    exact h.referents x

/-- The second check may settle the local that a value comes from on the final type. -/
theorem settle_right (ht : t.Narrows m v T u) : Follows m s (v.settle u T) := by
  have hsettles := Settles.settle v u T
  refine ⟨h.sound, (Settling.scopes_settle v u T).trans h.scopes, (loops_settle v u T).trans h.loops,
    fun x => ?_, fun x => ?_, (Settling.length_locals_settle v u T).trans h.length_eq,
    fun {id l} hl => ?_⟩
  · exact (congrArg (·.get? x) hsettles.referents).trans (h.referents x)
  · rw [show (v.settle u T).model.type? x = v.model.type? x from congrArg (·.get? x) hsettles.types]
    exact h.types x
  · obtain ⟨final, l', hfinal, hl', hfits, hnarrows⟩ := h.locals hl
    by_cases hid : u.origin = some id
    · refine ⟨final, _, hfinal, local?_settle_of_origin hl' hid, hfits, .inl ?_⟩
      have htu : u = t := ht.eq_or.resolve_right fun ⟨hu, _⟩ => by
        rw [hu] at hid
        cases hid
      obtain ⟨l₀, hl₀, rfl⟩ := ht.origin id (htu ▸ hid)
      obtain rfl := Option.some.inj (hfinal.symm.trans hl₀)
      rcases hnarrows with rfl | ⟨rfl, _⟩ <;> rfl
    · exact ⟨final, l', hfinal, (local?_settle_of_ne hid).trans hl', hfits, hnarrows⟩

/-- What a value of the first check settles on is its final type, where the second check has the local
settled. -/
theorem settle_left {target : Ty} (ht : t.Narrows m v T u) (hfits : t.Fits target)
    (hshut : ∀ id, t.origin = some id → v.Shut id)
    (htarget : ∀ id l, t.origin = some id → s.model.local? id = some l → target = T) :
    Follows m (s.settle t target) v := by
  have hsettles := Settles.settle s t target
  refine ⟨h.sound.settle ht.sound hfits, h.scopes.trans (Settling.scopes_settle s t target).symm,
    h.loops.trans (loops_settle s t target).symm, fun x => ?_, fun x => ?_,
    h.length_eq.trans (Settling.length_locals_settle s t target).symm, fun {id l} hl => ?_⟩
  · exact (h.referents x).trans (congrArg (·.get? x) hsettles.referents).symm
  · rw [show (s.settle t target).model.type? x = s.model.type? x from
      congrArg (·.get? x) hsettles.types]
    exact h.types x
  · obtain ⟨l₀, hl₀, ⟨hid, rfl⟩ | ⟨_, rfl⟩⟩ := local?_settle hl
    · obtain ⟨final, l', hfinal, hl', hfits₀, hnarrows⟩ := h.locals hl₀
      obtain rfl := htarget id l₀ hid hl₀
      obtain ⟨l₁, hl₁, rfl⟩ := ht.origin id hid
      obtain rfl := Option.some.inj (hfinal.symm.trans hl₁)
      refine ⟨final, l', hfinal, hl', .inl rfl, ?_⟩
      rcases hnarrows with rfl | ⟨rfl, _⟩
      · exact .inl rfl
      -- The local is shut in the second check, so it was settled on this type before.
      · have hclosed : l'.family = none := hshut id hid l' hl'
        have htype : final.type = l'.type := Check.eq_of_fits hfits₀ hclosed
        left
        rw [htype, ← hclosed]
    · exact h.locals hl₀

/-- Where both checks settle a value, the first one settles the local on its final type. -/
theorem settle_to {target : Ty} (ht : t.Narrows m v T u) (hfits : t.Fits target)
    (htarget : ∀ id l, t.origin = some id → s.model.local? id = some l → target = T) :
    Follows m (s.settle t target) (v.settle u T) := by
  have hshut (id : Nat) (hid : t.origin = some id) : (v.settle u T).Shut id := by
    rcases ht.eq_or with rfl | ⟨_, hshut⟩
    · exact shut_settle v hid
    · exact (hshut id hid).settle u T
  exact (h.settle_right ht).settle_left (ht.mono fun id hid => hid.settle u T) hfits hshut htarget

/-- What a value settles on in both checks is the final type. -/
theorem settle (ht : t.Narrows m v T u) : Follows m (s.settle t T) (v.settle u T) :=
  h.settle_to ht ht.fits fun _ _ _ _ => rfl

end Follows

end Checking

end ComputeKernel
