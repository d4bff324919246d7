import ComputeKernel.Proofs.Settings.Groups

/-!
Sections of a settings file. Whatever a file says, the settings that it gives are in order; and what is
added behind a line that opens another section changes nothing, unless it opens the section of the
settings again.
-/

namespace ComputeKernel.Settings

/-- Whether a program can be rendered with the settings. -/
structure Valid (s : Settings) : Prop where
  entryPoint : s.entryPoint ≠ ""
  groupX : 1 ≤ s.groupX
  groupY : 1 ≤ s.groupY
  groupZ : 1 ≤ s.groupZ
  constantBufferCapacity : 1 ≤ s.constantBufferCapacity

theorem valid_default : Valid {} := ⟨by decide, by decide, by decide, by decide, by decide⟩

namespace File

open Text

/-! ### What one line changes -/

variable {s s' : Settings} {p p' : Progress} {line : List Char}

theorem valid_of_setEntry {value : List Char} (hs : s.Valid) (h : setEntry s value = .ok s') :
    s'.Valid := by
  unfold setEntry at h
  split at h
  · cases h
  · rename_i hne
    obtain rfl := Except.ok.inj h
    exact { hs with entryPoint := fun hempty => hne (String.ofList_eq_empty_iff.mp hempty) }

theorem valid_of_setGroup {text : List Char} (hs : s.Valid) (h : setGroup s (trim text) = .ok s') :
    s'.Valid := by
  unfold setGroup at h
  split at h
  · rename_i x y z hgroup
    obtain rfl := Except.ok.inj h
    obtain ⟨hx, hy, hz⟩ := readGroup_pos hgroup
    exact { hs with groupX := hx, groupY := hy, groupZ := hz }
  · cases h

theorem valid_of_setCapacity {value : List Char} (hs : s.Valid) (h : setCapacity s value = .ok s') :
    s'.Valid := by
  unfold setCapacity at h
  split at h
  · rename_i n hcount
    obtain rfl := Except.ok.inj h
    exact { hs with constantBufferCapacity := (readCount_eq_some_iff.mp hcount).2.1 }
  · cases h

theorem valid_of_assign {key text : List Char} (hs : s.Valid)
    (h : assign s key (trim text) = .ok s') : s'.Valid := by
  unfold assign at h
  split at h
  · exact valid_of_setEntry hs h
  split at h
  · exact valid_of_setGroup hs h
  split at h
  · exact valid_of_setCapacity hs h
  · obtain rfl := Except.ok.inj h
    exact hs

/-- The value of a setting has no white space around it. -/
theorem exists_trim_of_setting {key value : List Char}
    (h : Line.ofChars line = .setting key value) : ∃ text, value = trim text := by
  unfold Line.ofChars at h
  dsimp only at h
  split at h
  · cases h
  split at h
  · exact ⟨_, (Line.setting.inj h).2.symm⟩
  · split at h <;> cases h

theorem valid_of_read (hp : p.settings.Valid) (h : p.read (.ofChars line) = .ok p') :
    p'.settings.Valid := by
  cases hline : Line.ofChars line with
  | nothing =>
    rw [hline] at h
    obtain rfl := Except.ok.inj h
    exact hp
  | header name =>
    rw [hline] at h
    obtain rfl := Except.ok.inj h
    exact hp
  | setting key value =>
    obtain ⟨text, rfl⟩ := exists_trim_of_setting hline
    rw [hline] at h
    simp only [Progress.read] at h
    split at h
    · cases hassign : assign p.settings key (trim text) with
      | error fault =>
        rw [hassign] at h
        cases h
      | ok s =>
        rw [hassign] at h
        obtain rfl := Except.ok.inj h
        exact valid_of_assign hp hassign
    · obtain rfl := Except.ok.inj h
      exact hp
  | other text =>
    rw [hline] at h
    simp only [Progress.read] at h
    split at h
    · cases h
    · obtain rfl := Except.ok.inj h
      exact hp

/-- The section of the settings. -/
def shaderName : List Char := "shader".toList

theorem tight_shaderName : Tight shaderName := by decide

theorem read_of_isSilent (h : IsSilent line) (p : Progress) : p.read (.ofChars line) = .ok p := by
  rw [ofChars_eq_nothing_iff.mpr h]
  rfl

/-- A line that opens another section leaves that of the settings. -/
theorem read_of_opens {name : List Char} (h : Opens name line) (hshader : ¬ Opens shaderName line)
    (p : Progress) : p.read (.ofChars line) = .ok { p with inShader := false } := by
  obtain ⟨inner, hline, _, heq⟩ := h
  have hheader := ofChars_of_brackets hline heq
  have hname : trim inner ≠ shaderName := fun hname =>
    hshader ((ofChars_eq_header_iff tight_shaderName).mp (hheader.trans (congrArg _ hname)))
  rw [hheader]
  exact congrArg (fun b => Except.ok { p with inShader := b }) (decide_eq_false hname)

/-- Outside of the section of the settings a line says nothing, unless it opens that section. -/
theorem read_of_outside (hp : p.inShader = false) (hshader : ¬ Opens shaderName line) :
    p.read (.ofChars line) = .ok p := by
  cases hline : Line.ofChars line with
  | nothing => rfl
  | header name =>
    have hname : name ≠ shaderName := by
      rintro rfl
      exact hshader ((ofChars_eq_header_iff tight_shaderName).mp hline)
    rw [Progress.read, show (decide (name = "shader".toList)) = p.inShader from
      (decide_eq_false hname).trans hp.symm]
  | setting key value => simp [Progress.read, hp]
  | other text => simp [Progress.read, hp]

/-! ### What a run of lines changes -/

theorem valid_of_readLines {number : Nat} {lines : List (List Char)} (hp : p.settings.Valid)
    (h : readLines p number lines = .ok s) : s.Valid := by
  induction lines generalizing p number with
  | nil =>
    obtain rfl := Except.ok.inj h
    exact hp
  | cons line lines ih =>
    rw [readLines] at h
    split at h
    · rename_i p' hread
      exact ih (valid_of_read hp hread) h
    · cases h

/-- Whether lines change nothing, wherever they are read. -/
def Mute (lines : List (List Char)) : Prop := ∀ p number, readLines p number lines = .ok p.settings

/-- Lines that change nothing can be left out at the end, also behind a fault. -/
theorem readLines_append_of_mute {tail : List (List Char)} (htail : Mute tail) (p : Progress)
    (number : Nat) (lines : List (List Char)) :
    readLines p number (lines ++ tail) = readLines p number lines := by
  induction lines generalizing p number with
  | nil => exact htail p number
  | cons line lines ih =>
    rw [List.cons_append, readLines, readLines]
    split
    · exact ih _ _
    · rfl

theorem readLines_of_outside {lines : List (List Char)} (hp : p.inShader = false)
    (h : ∀ line ∈ lines, ¬ Opens shaderName line) (number : Nat) :
    readLines p number lines = .ok p.settings := by
  induction lines generalizing number with
  | nil => rfl
  | cons line lines ih =>
    obtain ⟨hline, hlines⟩ := List.forall_mem_cons.mp h
    rw [readLines, read_of_outside hp hline]
    exact ih hlines _

theorem mute_of_opens {silent lines : List (List Char)} {name : List Char}
    (hsilent : ∀ line ∈ silent, IsSilent line) (hopens : Opens name line)
    (hshader : ∀ l ∈ line :: lines, ¬ Opens shaderName l) : Mute (silent ++ line :: lines) := by
  intro p number
  induction silent generalizing number with
  | nil =>
    obtain ⟨hline, hlines⟩ := List.forall_mem_cons.mp hshader
    rw [List.nil_append, readLines, read_of_opens hopens hline p]
    exact readLines_of_outside rfl hlines _
  | cons first silent ih =>
    obtain ⟨hfirst, hrest⟩ := List.forall_mem_cons.mp hsilent
    rw [List.cons_append, readLines, read_of_isSilent hfirst p]
    exact ih hrest _

/-! ### What a file says -/

/-- The lines of a text. -/
def lines (text : String) : List (List Char) := splitOn '\n' text.toList

/-- Whether the first line that says anything opens a section. -/
def BeginsSection (text : String) : Prop :=
  ∃ silent line rest name, lines text = silent ++ line :: rest ∧ (∀ l ∈ silent, IsSilent l) ∧
    Opens name line

theorem load_text (text : String) : load (some text.toUTF8) = ofText text := by
  have hread : String.fromUTF8? text.toUTF8 = some text := dif_pos text.isValidUTF8
  rw [load, hread]

/-- A blank line at the end says nothing. -/
theorem mute_blank : Mute [[]] := fun p _ => by
  rw [readLines, read_of_isSilent (Or.inl (List.forall_mem_nil _)) p]
  rfl

theorem ofText_append_of_mute {a b : String} (ha : a = "" ∨ a.toList.getLast? = some '\n')
    (hb : Mute (lines b)) : ofText (a ++ b) = ofText a := by
  unfold ofText
  rw [String.toList_append]
  rcases ha with rfl | ha
  · exact (hb {} 1).trans (mute_blank {} 1).symm
  · obtain ⟨front, hfront⟩ := List.getLast?_eq_some_iff.mp ha
    rw [hfront, List.append_assoc, List.singleton_append, splitOn_append_cons, splitOn_append_cons]
    exact (readLines_append_of_mute hb _ _ _).trans (readLines_append_of_mute mute_blank _ _ _).symm

/-- A file that gives settings gives valid ones; and what is added to the lines of a file behind a line
that opens another section, with nothing in front of it that says anything and nothing behind it that
opens the section of the settings, changes neither the settings nor the fault that is found. -/
theorem load_valid_and_local :
    (∀ file s, load file = .ok s → s.Valid) ∧
      ∀ a b : String, (a = "" ∨ a.toList.getLast? = some '\n') → BeginsSection b →
        (∀ line ∈ lines b, ¬ Opens shaderName line) →
        load (some (a ++ b).toUTF8) = load (some a.toUTF8) := by
  refine ⟨fun file s h => ?_, fun a b ha hb hshader => ?_⟩
  · unfold load at h
    split at h
    · cases h
    · split at h
      · exact valid_of_readLines valid_default h
      · cases h
  · obtain ⟨silent, line, rest, name, hlines, hsilent, hopens⟩ := hb
    rw [load_text, load_text]
    refine ofText_append_of_mute ha ?_
    rw [hlines] at hshader ⊢
    exact mute_of_opens hsilent hopens fun l hl => hshader l (List.mem_append_right _ hl)

/-- A group that is faulty is not looked at in the section of a package. -/
theorem load_valid_and_local_package :
    load (some "[shader]\nentry_point = Blur\n".toUTF8) = .ok { entryPoint := "Blur" } ∧
      Settings.Valid { entryPoint := "Blur" } ∧
      load (some ("[shader]\nentry_point = Blur\n" ++
        "# no shader\n[package]\nthread_group = []").toUTF8) =
        load (some "[shader]\nentry_point = Blur\n".toUTF8) := by
  have hload : load (some "[shader]\nentry_point = Blur\n".toUTF8) =
      .ok { entryPoint := "Blur" } := by
    rw [load_text]
    rfl
  have hlines : ∀ line ∈ lines "# no shader\n[package]\nthread_group = []",
      Line.ofChars line ≠ .header shaderName := by decide
  refine ⟨hload, load_valid_and_local.1 _ _ hload, load_valid_and_local.2 _ _ (Or.inr (by decide))
    ⟨["# no shader".toList], "[package]".toList, ["thread_group = []".toList], "package".toList,
      by decide, List.forall_mem_singleton.mpr (ofChars_eq_nothing_iff.mp (by decide)),
      (ofChars_eq_header_iff (by decide)).mp (by decide)⟩ fun line hline hopens => ?_⟩
  exact hlines line hline ((ofChars_eq_header_iff tight_shaderName).mpr hopens)

end File

end ComputeKernel.Settings
