import Mathlib.Data.List.TakeWhile
import ComputeKernel.Host.HostType

/-!
Host types and their texts. The reader of host types takes exactly the types whose names are made of
name characters and neither begin nor end with a colon. Without white space, such a type has one text
only, so what is read of a text is read again of the canonical one.
-/

namespace ComputeKernel

namespace Text

/-- The characters of a text that are no white space. -/
def compact (s : String) : List Char := s.toList.filter fun c => ! isBlank c

theorem compact_append (s s' : String) : compact (s ++ s') = compact s ++ compact s' := by
  rw [compact, String.toList_append, List.filter_append]
  rfl

end Text

namespace HostType

/-! ### Names -/

/-- Whether the reader takes characters for a name, if no name character follows. -/
structure IsTypeName (name : List Char) : Prop where
  ne_nil : name ≠ []
  chars : ∀ c ∈ name, isNameChar c
  head : name.head? ≠ some ':'
  last : name.getLast? ≠ some ':'

theorem not_isBlank_of_isNameChar {c : Char} (h : isNameChar c) : Text.isBlank c = false := by
  simp only [isNameChar, Text.isDigit, Bool.or_eq_true, Bool.and_eq_true, decide_eq_true_eq,
    Char.le_def, UInt32.le_iff_toNat_le] at h
  have hcode : 0x30 ≤ c.toNat ∧ c.toNat ≤ 0x7a := by
    rcases h with (((h | h) | h) | rfl) | rfl
    · exact ⟨h.1, Nat.le_trans h.2 (by decide)⟩
    · exact ⟨Nat.le_trans (by decide) h.1, h.2⟩
    · exact ⟨Nat.le_trans (by decide) h.1, Nat.le_trans h.2 (by decide)⟩
    · decide
    · decide
  simp [Text.isBlank, Text.blankRanges]
  omega

theorem IsTypeName.compact {name : String} (h : IsTypeName name.toList) :
    Text.compact name = name.toList :=
  List.filter_eq_self.mpr fun c hc => by rw [not_isBlank_of_isNameChar (h.chars c hc)]; rfl

/-- Whether a name that stands in front of a text ends there. -/
def EndsName (rest : List Char) : Prop := ∀ c ∈ rest.head?, ¬ isNameChar c

theorem endsName_of_cons {c : Char} (h : isNameChar c = false) (rest : List Char) :
    EndsName (c :: rest) := by
  rintro _ ⟨⟩
  rw [h]
  exact Bool.false_ne_true

theorem isTypeName_of_readName {cs name rest : List Char} (h : readName cs = some (name, rest)) :
    IsTypeName name ∧ cs = name ++ rest := by
  simp only [readName] at h
  split at h
  · cases h
  · rename_i hname
    obtain ⟨rfl, rfl⟩ := Prod.mk.inj (Option.some.inj h)
    simp only [not_or] at hname
    exact ⟨⟨hname.1, fun c => List.mem_takeWhile_imp, hname.2.1, hname.2.2⟩,
      List.takeWhile_append_dropWhile.symm⟩

theorem readName_append {name rest : List Char} (hname : IsTypeName name) (hrest : EndsName rest) :
    readName (name ++ rest) = some (name, rest) := by
  have hfront : rest.takeWhile isNameChar = [] ∧ rest.dropWhile isNameChar = rest := by
    cases rest with
    | nil => exact ⟨rfl, rfl⟩
    | cons c rest =>
      have hc := hrest c rfl
      exact ⟨List.takeWhile_cons_of_neg hc, List.dropWhile_cons_of_neg hc⟩
  rw [readName, List.takeWhile_append_of_pos hname.chars, List.dropWhile_append_of_pos hname.chars,
    hfront.1, hfront.2, List.append_nil]
  exact if_neg (by simp only [not_or]; exact ⟨hname.ne_nil, hname.head, hname.last⟩)

/-! ### Texts without white space -/

/-- Whether the names in a type are such as the reader takes. -/
inductive Readable : HostType → Prop
  | mk {name args} : IsTypeName name.toList → (∀ t ∈ args, Readable t) → Readable ⟨name, args⟩

mutual

/-- The text of a type without white space. -/
def compact : HostType → List Char
  | ⟨name, []⟩ => name.toList
  | ⟨name, arg :: args⟩ => name.toList ++ '<' :: (arg.compact ++ compactRest args)

/-- What stands behind the first argument, up to the closing bracket. -/
def compactRest : List HostType → List Char
  | [] => ['>']
  | t :: ts => ',' :: (t.compact ++ compactRest ts)

end

theorem compact_texts {t : HostType} {ts : List HostType}
    (h : ∀ u ∈ t :: ts, Text.compact u.text = u.compact) :
    Text.compact (", ".intercalate (texts (t :: ts))) ++ ['>'] = t.compact ++ compactRest ts := by
  induction ts generalizing t with
  | nil =>
    rw [texts, texts, String.intercalate_singleton, h t List.mem_cons_self, compactRest]
  | cons u us ih =>
    obtain ⟨ht, hus⟩ := List.forall_mem_cons.mp h
    have hcomma : Text.compact ", " = [','] := by decide
    rw [texts, texts, String.intercalate_cons_cons, ← texts, Text.compact_append, Text.compact_append,
      ht, hcomma, List.append_assoc, ih hus, compactRest, List.append_assoc, List.singleton_append]

theorem Readable.compact_text {t : HostType} (h : t.Readable) : Text.compact t.text = t.compact := by
  induction h with
  | @mk name args hname _ ih =>
    cases args with
    | nil => exact hname.compact
    | cons arg args =>
      have hopen : Text.compact "<" = ['<'] := by decide
      have hclose : Text.compact ">" = ['>'] := by decide
      rw [text, Text.compact_append, Text.compact_append, Text.compact_append, hname.compact, hopen,
        hclose, compact, ← compact_texts ih, List.append_assoc, List.append_assoc,
        List.singleton_append]

/-! ### Reading -/

/-- What is read is a type that can be read, and its text is what is passed. -/
theorem readFront_sound (fuel : Nat) :
    (∀ {cs rest t}, readFront fuel cs = some (t, rest) → t.Readable ∧ cs = t.compact ++ rest) ∧
    ∀ {cs rest ts}, readArgs fuel cs = some (ts, rest) →
      ∃ t ts', ts = t :: ts' ∧ (∀ u ∈ ts, u.Readable) ∧ cs = t.compact ++ compactRest ts' ++ rest := by
  induction fuel with
  | zero => exact ⟨nofun, nofun⟩
  | succ fuel ih =>
    obtain ⟨ihFront, ihArgs⟩ := ih
    constructor
    · intro cs rest t h
      simp only [readFront, Option.bind_eq_bind, Option.bind_eq_some_iff, Prod.exists] at h
      obtain ⟨name, rest₁, hname, h⟩ := h
      obtain ⟨hword, rfl⟩ := isTypeName_of_readName hname
      split at h
      · rename_i rest₂
        simp only [Option.bind_eq_some_iff, Prod.exists] at h
        obtain ⟨args, rest₃, hargs, h⟩ := h
        cases h
        obtain ⟨t, ts, rfl, hreadable, rfl⟩ := ihArgs hargs
        exact ⟨.mk (String.toList_ofList.symm ▸ hword) hreadable, by simp [compact]⟩
      · cases h
        exact ⟨.mk (String.toList_ofList.symm ▸ hword) nofun, by simp [named, compact]⟩
    · intro cs rest ts h
      simp only [readArgs, Option.bind_eq_bind, Option.bind_eq_some_iff, Prod.exists] at h
      obtain ⟨t, rest₁, ht, h⟩ := h
      obtain ⟨hreadable, rfl⟩ := ihFront ht
      split at h
      · simp only [Option.bind_eq_some_iff, Prod.exists] at h
        obtain ⟨args, rest₃, hargs, h⟩ := h
        cases h
        obtain ⟨u, us, rfl, hus, rfl⟩ := ihArgs hargs
        exact ⟨t, u :: us, rfl, List.forall_mem_cons.mpr ⟨hreadable, hus⟩, by simp [compactRest]⟩
      · cases h
        exact ⟨t, [], rfl, List.forall_mem_singleton.mpr hreadable, by simp [compactRest]⟩
      · cases h

/-- Whether a type that stands in front of a text ends there. -/
def EndsType (rest : List Char) : Prop := EndsName rest ∧ rest.head? ≠ some '<'

theorem endsType_compactRest (ts : List HostType) (rest : List Char) :
    EndsType (compactRest ts ++ rest) := by
  cases ts with
  | nil => exact ⟨endsName_of_cons (by decide) _, by simp [compactRest]⟩
  | cons t ts => exact ⟨endsName_of_cons (by decide) _, by simp [compactRest]⟩

/-- Whether a type is read wherever its text stands in front of what ends it. -/
def IsRead (t : HostType) : Prop := ∀ fuel rest, 2 * t.compact.length ≤ fuel → EndsType rest →
  readFront fuel (t.compact ++ rest) = some (t, rest)

theorem readArgs_append {t : HostType} {ts : List HostType} (h : ∀ u ∈ t :: ts, u.IsRead)
    {fuel : Nat} (hfuel : 2 * (t.compact ++ compactRest ts).length < fuel) (rest : List Char) :
    readArgs fuel (t.compact ++ compactRest ts ++ rest) = some (t :: ts, rest) := by
  induction ts generalizing t fuel with
  | nil =>
    obtain ⟨fuel, rfl⟩ := Nat.exists_eq_add_one_of_ne_zero (Nat.ne_zero_of_lt hfuel)
    have hfront := h t List.mem_cons_self fuel (compactRest [] ++ rest)
      (by rw [List.length_append] at hfuel; omega) (endsType_compactRest [] rest)
    rw [readArgs, List.append_assoc, hfront]
    rfl
  | cons u us ih =>
    obtain ⟨fuel, rfl⟩ := Nat.exists_eq_add_one_of_ne_zero (Nat.ne_zero_of_lt hfuel)
    obtain ⟨ht, hus⟩ := List.forall_mem_cons.mp h
    rw [List.length_append, compactRest, List.length_cons] at hfuel
    have hfront := ht fuel (compactRest (u :: us) ++ rest) (by omega) (endsType_compactRest _ rest)
    have hrest := ih hus (by omega : 2 * (u.compact ++ compactRest us).length < fuel)
    rw [readArgs, List.append_assoc, hfront]
    simp only [compactRest, List.cons_append, Option.bind_eq_bind, Option.bind_some, hrest]
    rfl

theorem Readable.isRead {t : HostType} (h : t.Readable) : t.IsRead := by
  induction h with
  | @mk name args hname _ ih =>
    intro fuel rest hfuel hrest
    cases args with
    | nil =>
      rw [compact] at hfuel ⊢
      have hpos := List.length_pos_iff.mpr hname.ne_nil
      obtain ⟨fuel, rfl⟩ := Nat.exists_eq_add_one_of_ne_zero (by omega : fuel ≠ 0)
      rw [readFront, readName_append hname hrest.1]
      cases rest with
      | nil => simp [named]
      | cons c rest =>
        have hc : c ≠ '<' := fun h => hrest.2 (congrArg some h)
        simp [named, hc]
    | cons arg args =>
      rw [compact, List.length_append, List.length_cons] at hfuel
      obtain ⟨fuel, rfl⟩ := Nat.exists_eq_add_one_of_ne_zero (by omega : fuel ≠ 0)
      have hargs := readArgs_append ih (by omega : 2 * (arg.compact ++ compactRest args).length < fuel)
        rest
      rw [compact, List.append_assoc, List.cons_append, readFront,
        readName_append hname (endsName_of_cons (by decide) _)]
      simp only [Option.bind_eq_bind, Option.bind_some, hargs, String.ofList_toList]
      rfl

/-- A text is read as a type if it differs from the canonical text of that type in white space only. -/
theorem parse?_eq_some_iff {s : String} {t : HostType} :
    parse? s = some t ↔ t.Readable ∧ t.compact = Text.compact s := by
  have hcompact : s.toList.filter (fun c => ! Text.isBlank c) = Text.compact s := rfl
  simp only [parse?, hcompact]
  constructor
  · intro h
    split at h
    · rename_i t' hfront
      obtain rfl := Option.some.inj h
      obtain ⟨hreadable, hwhole⟩ := (readFront_sound _).1 hfront
      rw [List.append_nil] at hwhole
      exact ⟨hreadable, hwhole.symm⟩
    · cases h
  · rintro ⟨hreadable, hwhole⟩
    have hread := hreadable.isRead (2 * t.compact.length + 1) [] (Nat.le_succ _) ⟨nofun, nofun⟩
    rw [List.append_nil] at hread
    rw [← hwhole, hread]

end HostType

end ComputeKernel
