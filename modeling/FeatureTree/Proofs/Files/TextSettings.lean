import FeatureTree.Proofs.Config.Variables
import FeatureTree.Proofs.Files.Loading

/-!
# Settings that are texts

A variable can set a setting of a scanner to a text. The scanner takes the members of what is set,
and the members of a text are its characters: each of them becomes a pattern, or a name, of its own.
A star among them finds every name, and without one only names of one character are found.

## Main results

* `Glob.accepts_iff_of_items_singleton`: patterns that stand for one character
* `Scanner.Setting.finds_characters_iff_finds`: when the characters of a text find what it finds
* `Scanner.ofConfig_texts`: what a scanner finds whose settings are texts
-/

namespace FeatureTree

/-! ### Patterns without a run -/

namespace Glob

/-- A set of characters does not stand for any number of characters. -/
theorem setItem_ne_many (t : Text) : setItem t ≠ .many := by
  unfold setItem
  split
  · exact nofun
  · split <;> exact nofun

/-- Only a star stands for a run. -/
theorem many_not_mem_itemsAfter {t : Text} (h : '*' ∉ t) (k : Nat) : .many ∉ itemsAfter k t := by
  fun_induction itemsAfter k t <;> simp_all [(setItem_ne_many _).symm]

/-- Without a run, every item accepts one character. -/
theorem length_of_itemsAccept {items : List Item} (h : .many ∉ items) {name : Text}
    (ha : itemsAccept items name = true) : name.length = items.length := by
  induction items generalizing name with
  | nil => simpa [itemsAccept] using ha
  | cons item items ih =>
    rw [List.mem_cons, not_or] at h
    cases name with
    | nil => cases item <;> simp_all [itemsAccept]
    | cons c name =>
      cases item <;> simp_all [itemsAccept]

/-- A pattern of one item, which is no run, accepts names of one character. -/
theorem accepts_iff_of_items_singleton {p : Text} {item : Item} (hstar : '*' ∉ p)
    (h : items p = [item]) (name : Text) :
    accepts p name = true ↔ ∃ c, name = [c] ∧ item.takes c = true := by
  have hrun : .many ∉ [item] := h ▸ many_not_mem_itemsAfter hstar 0
  rw [accepts_eq, h]
  rcases name with _ | ⟨c, _ | ⟨d, name⟩⟩ <;> cases item <;> simp_all [itemsAccept]

/-- A star accepts every name, a question mark every name of one character, any other character
itself. -/
theorem accepts_char (c : Char) (name : Text) :
    accepts [c] name = true ↔ c = '*' ∨ c = '?' ∧ name.length = 1 ∨ name = [c] := by
  by_cases hstar : c = '*'
  · subst hstar
    simp [accepts_star]
  · by_cases hmark : c = '?'
    · subst hmark
      have hitems : items ['?'] = [.any] := rfl
      rw [accepts_iff_of_items_singleton (by decide) hitems]
      simp [Item.takes, List.length_eq_one_iff]
      grind
    · have hitems : items [c] = [.char c] := by
        simp only [items, itemsAfter]
        split <;> simp_all [setText, Text.cutAtChar]
      rw [accepts_iff_of_items_singleton (by simpa using Ne.symm hstar) hitems]
      simp [Item.takes, hstar, hmark]

end Glob

namespace Scanner

open Load (Selection)
open Value (lookup at?)

/-! ### Settings -/

/-- The settings of a scanner that say which names it finds. -/
inductive Setting where
  | patterns
  | skipDirs
  | skipFiles
deriving DecidableEq

namespace Setting

/-- The name of a setting in a configuration. -/
def key : Setting → String
  | patterns => "patterns"
  | skipDirs => "skip_dirs"
  | skipFiles => "skip_files"

/-- What a setting is by default. -/
def default : Setting → List Text
  | patterns => ["*.feature".toList]
  | skipDirs | skipFiles => []

/-- What a setting is in a selection. -/
def of (s : Selection) : Setting → List Text
  | patterns => s.patterns
  | skipDirs => s.skipDirs
  | skipFiles => s.skipFiles

/-- Whether a setting finds a name by some texts: one of the patterns accepts it, or it is one of
the names. -/
def Finds (texts : List Text) (name : Text) : Setting → Prop
  | patterns => ∃ p ∈ texts, Glob.accepts p name = true
  | skipDirs | skipFiles => name ∈ texts

/-- Whether a name is found by the characters of a text. -/
def FindsByCharacters (p name : Text) : Setting → Prop
  | patterns => '*' ∈ p ∨ '?' ∈ p ∧ name.length = 1 ∨ ∃ c ∈ p, name = [c]
  | skipDirs | skipFiles => ∃ c ∈ p, name = [c]

/-- Whether a text survives being taken apart. A name does if it has one character. A pattern with a
star does if it accepts every name, and one without if it is one item that takes the characters of
the pattern, or all characters if there is a question mark among them. -/
def Survives (p : Text) : Setting → Prop
  | patterns =>
    if '*' ∈ p then ∀ name, name ≠ [] → Glob.accepts p name = true
    else ∃ item, Glob.items p = [item] ∧ ∀ c, item.takes c = true ↔ c ∈ p ∨ '?' ∈ p
  | skipDirs | skipFiles => p.length = 1

variable {p name : Text}

/-- Characters as patterns find what is found by characters. -/
theorem finds_characters (k : Setting) :
    k.Finds (p.map fun c => [c]) name ↔ k.FindsByCharacters p name := by
  cases k with
  | patterns =>
    simp only [Finds, FindsByCharacters, List.mem_map, exists_exists_and_eq_and, Glob.accepts_char]
    grind
  | skipDirs => simp [Finds, FindsByCharacters, eq_comm]
  | skipFiles => simp [Finds, FindsByCharacters, eq_comm]

/-- Characters without a star find names of one character only. -/
theorem findsByCharacters_of_not_star (h : '*' ∉ p) :
    patterns.FindsByCharacters p name ↔ ∃ c, name = [c] ∧ (c ∈ p ∨ '?' ∈ p) := by
  simp only [FindsByCharacters, h, false_or, List.length_eq_one_iff]
  grind

/-- A pattern without a star finds what its characters find exactly if it is one item that takes
what they take. -/
theorem findsByCharacters_iff_accepts (hp : p ≠ []) (hstar : '*' ∉ p) :
    (∀ name, name ≠ [] → (patterns.FindsByCharacters p name ↔ Glob.accepts p name = true))
      ↔ ∃ item, Glob.items p = [item] ∧ ∀ c, item.takes c = true ↔ c ∈ p ∨ '?' ∈ p := by
  simp only [findsByCharacters_of_not_star hstar]
  constructor
  · intro h
    obtain ⟨c, hc⟩ := List.exists_mem_of_ne_nil p hp
    have hone : Glob.accepts p [c] = true := (h [c] (by simp)).mp ⟨c, rfl, .inl hc⟩
    rw [Glob.accepts_eq] at hone
    have hlength := Glob.length_of_itemsAccept (Glob.many_not_mem_itemsAfter hstar 0) hone
    obtain ⟨item, hitem⟩ := List.length_eq_one_iff.mp hlength.symm
    refine ⟨item, hitem, fun c => ?_⟩
    have hc := h [c] (by simp)
    rw [Glob.accepts_iff_of_items_singleton hstar hitem] at hc
    simpa using hc.symm
  · rintro ⟨item, hitem, htakes⟩ name -
    simp only [Glob.accepts_iff_of_items_singleton hstar hitem, htakes]

/-- The characters of a text find what the text finds exactly if the text survives being taken
apart. -/
theorem finds_characters_iff_finds (k : Setting) (hp : p ≠ []) :
    (∀ name, name ≠ [] → (k.FindsByCharacters p name ↔ k.Finds [p] name)) ↔ k.Survives p := by
  have hnames : (∀ name : Text, name ≠ [] → ((∃ c ∈ p, name = [c]) ↔ name ∈ [p]))
      ↔ p.length = 1 := by
    simp only [List.mem_singleton]
    constructor
    · intro h
      obtain ⟨c, -, hc⟩ := (h p hp).mpr rfl
      rw [hc]
      rfl
    · rintro h name -
      obtain ⟨c, rfl⟩ := List.length_eq_one_iff.mp h
      simp
  cases k with
  | patterns =>
    have hfinds : ∀ name, patterns.Finds [p] name ↔ Glob.accepts p name = true := by
      simp [Finds]
    simp only [hfinds, Survives]
    split
    · next hstar => simp [FindsByCharacters, hstar]
    · next hstar => exact findsByCharacters_iff_accepts hp hstar
  | skipDirs => exact hnames
  | skipFiles => exact hnames

/-- What a setting is by the text that is set: the characters of it, and the default if there is
none. -/
def read (k : Setting) : Option Text → List Text
  | none => k.default
  | some p => p.map fun c => [c]

end Setting

/-- The selection by the texts that are set. -/
def selection (texts : Setting → Option Text) : Selection where
  patterns := Setting.patterns.read (texts .patterns)
  skipDirs := Setting.skipDirs.read (texts .skipDirs)
  skipFiles := Setting.skipFiles.read (texts .skipFiles)
  recursive := true

/-- Each setting of the selection is what its text is read as. -/
theorem of_selection (texts : Setting → Option Text) (k : Setting) :
    k.of (selection texts) = k.read (texts k) := by
  cases k <;> rfl

/-! ### What a selection reads -/

section

variable {sel : Selection} (dialect : Value) (directory : Text) (entries : List (Text × FileTree))

/-- The documents of a directory are the selected files of it. -/
theorem sources_plan :
    (sel.plan dialect).scanner.sources directory entries
      = (sel.files entries).mapM fun e => do
          return (Path.join directory e.1, ← Files.decode e.2) := by
  have hread := Load.mapM_source? (s := sel) dialect (fun _ => ()) entries fun name text =>
    pure (Path.join directory name, text)
  have hpure : ∀ (name : Text) (text? : Option Text),
      (text?.mapM fun text => pure (Path.join directory name, text))
        = (pure (text?.map fun text => (Path.join directory name, text))
          : Except Fault (Option (Text × Text))) := by
    rintro name (_ | text) <;> rfl
  simp only [List.mapM_map, Function.comp_def, hpure] at hread
  exact hread

/-- The directories of a directory that are gone into are those whose names are not skipped. -/
theorem directories_plan (hr : sel.recursive = true) :
    (sel.plan dialect).scanner.directories directory entries
      = .ok ((sel.directories entries).map fun e => Path.join directory e.1) := by
  rw [directories, filterM_eq_filter fun e _ => Selection.opens_plan dialect e.1 e.2,
    Selection.directories, hr]
  rfl

end

/-! ### Settings from variables -/

/-- The text that variables set a setting to: none if no variable names it, else what the last one
that does says. -/
inductive Sets (environment : List (Text × Text)) (k : Setting) : Option Text → Prop
  | nothing (unnamed : ∀ e ∈ environment, ¬ Config.Names e.1 "scanning" k.key) :
      Sets environment k none
  | last {before after : List (Text × Text)} {name p : Text}
      (split : environment = before ++ (name, p) :: after)
      (names : Config.Names name "scanning" k.key)
      (later : ∀ e ∈ after, ¬ Config.Names e.1 "scanning" k.key) : Sets environment k (some p)

/-- Whether a text says something and is taken literally. -/
structure IsPlain (p : Text) : Prop where
  ne_nil : p ≠ []
  literal : Config.variableValue p = .ok (.text p)

/-- The value of a setting by the text that is set. -/
def Setting.value (k : Setting) : Option Text → Value
  | none => .list (k.default.map .text)
  | some p => .text p

/-- What is read from the value of a setting. -/
theorem entriesOf_value (k : Setting) {text? : Option Text} (h : text? ≠ some []) :
    entriesOf (k.value text?) (k.value none) = .ok (.list ((k.read text?).map .text)) := by
  cases text? with
  | none => cases k <;> rfl
  | some p =>
    cases p with
    | nil => exact absurd rfl h
    | cons c p => simp [entriesOf, Setting.value, Setting.read, Value.isPresent, Value.members]

/-- The scanner of settings that are texts or left as they are. -/
theorem ofConfig_of_values {config fields : Config.Fields} {texts : Setting → Option Text}
    (hsection : lookup "scanning" config = some (.table fields))
    (hvalue : ∀ k : Setting, lookup k.key fields = some (k.value (texts k)))
    (hne : ∀ k, texts k ≠ some []) (dialect : Value) :
    ofConfig config = .ok ((selection texts).plan dialect).scanner := by
  have hentries : ∀ k : Setting,
      entriesOf ((lookup k.key fields).getD .null) (k.value none)
        = .ok (.list ((k.read (texts k)).map .text)) := by
    intro k
    rw [hvalue, Option.getD_some, entriesOf_value k (hne k)]
  have hpatterns := hentries .patterns
  have hskipDirs := hentries .skipDirs
  have hskipFiles := hentries .skipFiles
  simp only [Setting.key, Setting.value, Setting.default, List.map]
    at hpatterns hskipDirs hskipFiles
  simp only [ofConfig, Config.sectionOf, hsection, Option.getD_some, hpatterns, hskipDirs,
    hskipFiles]
  rfl

/-- What variables make of a setting of the defaults. -/
theorem at?_of_sets {config : Config.Fields} {environment : List (Text × Text)} {k : Setting}
    {text? : Option Text} (hover : Config.Overrides Config.defaults environment config)
    (hsets : Sets environment k text?) (hplain : ∀ p, text? = some p → IsPlain p) :
    at? ["scanning", k.key] (.table config) = some (k.value text?) := by
  cases hsets with
  | nothing hnone =>
    rw [hover.kept "scanning" k.key hnone]
    cases k <;> rfl
  | last hsplit hname hlater =>
    obtain ⟨v, hv, hset⟩ := hover.set "scanning" k.key _ _ _ _ ⟨_, rfl⟩ hsplit hname hlater
    obtain rfl := Except.ok.inj (hv.symm.trans (hplain _ rfl).literal)
    exact hset

/-- For all variables over the defaults that can be read and set each setting to a plain text, if
they set it at all. The result describes a scanner. In every directory it reads the files and goes
into the directories that are selected by the characters of the texts: a pattern finds every name if
it has a star, else the names of one character, all of them if it has a question mark and else those
that it has; a name to be skipped finds the names of one character that it has. That is what the
text itself finds, as one pattern or as one name, exactly if it survives being taken apart. -/
theorem ofConfig_texts {environment : List (Text × Text)} {texts : Setting → Option Text}
    (hsets : ∀ k, Sets environment k (texts k)) (hplain : ∀ k p, texts k = some p → IsPlain p)
    (hreadable : ∀ e ∈ environment, ¬ Config.IsUnreadable Config.defaults e) :
    ∃ config s, Config.applyVariables Config.defaults environment = .ok config
      ∧ ofConfig config = .ok s
      ∧ (∀ directory entries, s.sources directory entries
          = ((selection texts).files entries).mapM fun e => do
              return (Path.join directory e.1, ← Files.decode e.2))
      ∧ (∀ directory entries, s.directories directory entries
          = .ok (((selection texts).directories entries).map fun e => Path.join directory e.1))
      ∧ ∀ k p, texts k = some p →
        (∀ name, k.Finds (k.of (selection texts)) name ↔ k.FindsByCharacters p name)
        ∧ ((∀ name, name ≠ [] → (k.Finds (k.of (selection texts)) name ↔ k.Finds [p] name))
          ↔ k.Survives p) := by
  rcases Config.applyVariables_cases Config.defaults environment with
    ⟨⟨e, he, hbad⟩, -⟩ | ⟨-, config, hconfig, hover⟩
  · exact absurd hbad (hreadable e he)
  obtain ⟨fields, hsection⟩ := (hover.sections "scanning").mpr ⟨_, rfl⟩
  have hvalue : ∀ k : Setting, lookup k.key fields = some (k.value (texts k)) := by
    intro k
    rw [← Config.at?_field hsection]
    exact at?_of_sets hover (hsets k) (hplain k)
  have hne : ∀ k, texts k ≠ some [] := fun k h => (hplain k [] h).ne_nil rfl
  refine ⟨config, _, hconfig, ofConfig_of_values hsection hvalue hne .null, sources_plan .null,
    fun directory entries => directories_plan .null directory entries rfl, fun k p hp => ?_⟩
  have hfinds : ∀ name, k.Finds (k.of (selection texts)) name ↔ k.FindsByCharacters p name := by
    rw [of_selection, hp]
    exact fun name => Setting.finds_characters k
  refine ⟨hfinds, ?_⟩
  simp only [hfinds]
  exact Setting.finds_characters_iff_finds k (hplain k p hp).ne_nil

/-- A pattern for stories and the name of a directory: a document that is no story is read, and the
directory is gone into. -/
theorem ofConfig_texts_starAndOut :
    let environment : List (Text × Text) :=
      [("FEATUREMODEL_SCANNING_PATTERNS".toList, "*.story".toList),
        ("FEATUREMODEL_SCANNING_SKIP_DIRS".toList, "out".toList)]
    ∃ config s, Config.applyVariables Config.defaults environment = .ok config
      ∧ ofConfig config = .ok s
      ∧ s.sources ['t'] [("a.feature".toList, .file .empty)] = .ok [("t/a.feature".toList, [])]
      ∧ s.directories ['t'] [("out".toList, .directory [])] = .ok ["t/out".toList] := by
  intro environment
  let texts : Setting → Option Text
    | .patterns => some "*.story".toList
    | .skipDirs => some "out".toList
    | .skipFiles => none
  have hpatterns : Config.Names "FEATUREMODEL_SCANNING_PATTERNS".toList "scanning" "patterns" :=
    ⟨"SCANNING_PATTERNS".toList, by decide, by decide, by decide, by decide⟩
  have hskipDirs : Config.Names "FEATUREMODEL_SCANNING_SKIP_DIRS".toList "scanning" "skip_dirs" :=
    ⟨"SCANNING_SKIP_DIRS".toList, by decide, by decide, by decide, by decide⟩
  have hsets : ∀ k, Sets environment k (texts k) := by
    rintro (_ | _ | _)
    · exact .last (List.nil_append _).symm hpatterns (List.forall_mem_singleton.mpr fun h =>
        absurd (h.unique hskipDirs).2 (by decide))
    · exact .last (List.singleton_append).symm hskipDirs (by simp)
    · exact .nothing (List.forall_mem_cons.mpr ⟨fun h => absurd (h.unique hpatterns).2 (by decide),
        List.forall_mem_singleton.mpr fun h => absurd (h.unique hskipDirs).2 (by decide)⟩)
  have hplain : ∀ k p, texts k = some p → IsPlain p := by
    rintro (_ | _ | _) p hp <;> cases hp <;> exact ⟨by decide, rfl⟩
  have hreadable : ∀ e ∈ environment, ¬ Config.IsUnreadable Config.defaults e := by
    rintro e he ⟨_, _, -, -, hbad⟩
    rcases List.mem_pair.mp he with rfl | rfl <;> cases hbad
  obtain ⟨config, s, hconfig, hs, hsources, hdirectories, -⟩ :=
    ofConfig_texts hsets hplain hreadable
  refine ⟨config, s, hconfig, hs, ?_, ?_⟩
  · have hselects : (selection texts).Selects "a.feature".toList :=
      ⟨by simp [selection, texts, Setting.read, Setting.default],
        ['*'], by decide, Glob.accepts_star _⟩
    rw [hsources, Selection.files, FileTree.sorted, List.mergeSort_singleton]
    simp only [List.filterMap_cons, hselects, if_true]
    rfl
  · rw [hdirectories, Selection.directories, FileTree.sorted, List.mergeSort_singleton]
    rfl

end Scanner

end FeatureTree
