import FeatureTree.Files.Workspace
import FeatureTree.Proofs.Config.Reading
import FeatureTree.Proofs.Config.Variables

/-!
# The layers of settings

The settings of a workspace come from three places. Variables of the environment come first, then
the nearest file of settings at or above the directory that paths start from, then the defaults. A
file can bring sections of its own, and variables reach these as they reach the sections of the
defaults; but nothing that is set over a section can turn it into something else, as long as the
file does not do so itself. How files are read is left open: all that is asked of a reader is that
what it gives has each name once.

## Main results

* `Workspace.configAbove_cases`: the file that is found is the nearest one
* `Config.Layers.of_overrides`: what variables make of the merged settings
* `Workspace.config_layers`: the settings of a workspace
-/

namespace FeatureTree

open Value (lookup at? isTable NamesOnce)

namespace Config

variable {user result : Fields} {environment : List (Text × Text)} {s k : String} {v : Value}

/-! ### Settings over the defaults -/

/-- Whether a file leaves the sections of the defaults sections: what it has under their names are
tables. -/
def Fits (user : Fields) : Prop :=
  ∀ s v w, lookup s user = some v → lookup s defaults = some w → v.isTable = true

/-- Whether the defaults or a file have a section. -/
def HasSection (user : Fields) (s : String) : Prop := IsSection defaults s ∨ IsSection user s

/-- What the file has at the top that is no section has no default. -/
theorem Fits.lookup_defaults (h : Fits user) (hs : lookup s user = some v)
    (ht : v.isTable = false) : lookup s defaults = none := by
  cases hd : lookup s defaults with
  | none => rfl
  | some w => exact nomatch (h s v w hs hd).symm.trans ht

/-- What a file does not keep from being a section is one after merging. -/
theorem isSection_merge_iff (huser : NamesOnce (.table user)) (h : Fits user) (s : String) :
    IsSection (merge defaults user) s ↔ HasSection user s := by
  unfold HasSection IsSection
  rw [lookup_merge_eq s defaults huser.names]
  cases hs : lookup s user with
  | none => simp
  | some v =>
    cases ht : v.isTable with
    | false =>
      rw [h.lookup_defaults hs ht]
      cases v <;> simp [isTable] at ht ⊢
    | true =>
      obtain ⟨fields, rfl⟩ := Value.exists_of_isTable ht
      rcases mergeValue_cases (lookup s defaults) (.table fields) with
        ⟨_, _, -, -, heq⟩ | ⟨heq, -⟩ <;> simp [heq]

/-- What merging gives under a name of a section that a file sets. -/
theorem at?_merge_of_some (huser : NamesOnce (.table user))
    (h : at? [s, k] (.table user) = some v) :
    at? [s, k] (.table (merge defaults user))
      = some (mergeValue (at? [s, k] (.table defaults)) v) := by
  obtain ⟨hboth, hset, -⟩ := at?_merge defaults huser [s, k]
  rcases mergeValue_cases (at? [s, k] (.table defaults)) v with
    ⟨fields, others, hd, rfl, heq⟩ | ⟨heq, hnot⟩
  · rw [heq, hboth fields others hd h]
  · rw [heq, hset v h hnot]

/-- What merging gives under a name of a section that a file does not set. -/
theorem at?_merge_of_none (huser : NamesOnce (.table user)) (hfits : Fits user)
    (h : at? [s, k] (.table user) = none) :
    at? [s, k] (.table (merge defaults user)) = at? [s, k] (.table defaults) := by
  obtain ⟨-, -, hnone⟩ := at?_merge defaults huser [s, k]
  by_cases hcut : IsCutOff user [s, k]
  · rw [(hnone h).2 hcut]
    -- Only something that stands in the place of the section can be in the way.
    obtain ⟨above, v, habove, hne, hv, ht⟩ := hcut
    rcases above with _ | ⟨s', _ | ⟨k', above⟩⟩
    · cases hv
      cases ht
    · obtain ⟨rfl, -⟩ := List.cons_prefix_cons.mp habove
      obtain ⟨w, hw, hwv⟩ := Option.bind_eq_some_iff.mp hv
      obtain rfl : w = v := by simpa using hwv
      simp [hfits.lookup_defaults hw ht]
    · refine absurd (habove.eq_of_length_le ?_) hne
      simp
  · exact (hnone h).1 hcut

/-- The settings that variables, a file and the defaults make: which names there are, what has been
taken from the file as it is, which names are those of sections, and what stands in these. -/
structure Layers (user : Fields) (environment : List (Text × Text)) (result : Fields) : Prop where
  once : (result.map Prod.fst).Nodup
  names : ∀ s, s ∈ result.map Prod.fst ↔ s ∈ defaults.map Prod.fst ∨ s ∈ user.map Prod.fst
  others : ∀ s v, lookup s user = some v → v.isTable = false → lookup s result = some v
  sections : ∀ s, IsSection result s ↔ HasSection user s
  ofEnvironment : ∀ s k before name value after, HasSection user s →
    environment = before ++ (name, value) :: after → Names name s k →
    (∀ e ∈ after, ¬ Names e.1 s k) →
    ∃ v, variableValue value = .ok v ∧ at? [s, k] (.table result) = some v
  ofFile : ∀ s k v, (∀ e ∈ environment, ¬ Names e.1 s k) → at? [s, k] (.table user) = some v →
    at? [s, k] (.table result) = some (mergeValue (at? [s, k] (.table defaults)) v)
  ofDefaults : ∀ s k, (∀ e ∈ environment, ¬ Names e.1 s k) → at? [s, k] (.table user) = none →
    at? [s, k] (.table result) = at? [s, k] (.table defaults)

/-- What variables make of the merged settings, layer by layer. -/
theorem Layers.of_overrides (huser : NamesOnce (.table user)) (hfits : Fits user)
    (h : Overrides (merge defaults user) environment result) :
    Layers user environment result where
  once := h.names ▸ nodup_merge (by decide) huser.names
  names s := by
    rw [h.names, map_fst_merge defaults huser.names, List.mem_append, List.mem_filter]
    by_cases hs : s ∈ defaults.map Prod.fst <;> simp [hs]
  others s v hs ht := by
    have hlookup : lookup s (merge defaults user) = some v := by
      rw [lookup_merge_eq s defaults huser.names, hs, Option.map_some, Option.some_or,
        mergeValue_of_not_table ht]
    rw [h.others s, hlookup]
    rintro ⟨fields, hfields⟩
    obtain rfl : v = .table fields := Option.some.inj (hlookup.symm.trans hfields)
    cases ht
  sections s := (h.sections s).trans (isSection_merge_iff huser hfits s)
  ofEnvironment s k before name value after hs :=
    h.set s k before name value after ((isSection_merge_iff huser hfits s).mpr hs)
  ofFile s k v hnot hv := (h.kept s k hnot).trans (at?_merge_of_some huser hv)
  ofDefaults s k hnot hnone := (h.kept s k hnot).trans (at?_merge_of_none huser hfits hnone)

end Config

namespace Workspace

open Config (Names HasSection IsUnreadable Layers Fits)

variable {w : Workspace} {read : Text → Except Fault Config.Fields} {user : Config.Fields}
  {dir names : List Text}

/-! ### The nearest file -/

/-- The directory that paths start from is there, and directories can have the names that lead to
it. -/
structure Placed (w : Workspace) : Prop where
  directory : ∃ entries, FileTree.at? w.here w.tree = some (.directory entries)
  names : ∀ name ∈ w.here, isLongPart name = false ∧ name ≠ ['.', '.']

/-- Whether a directory, given by its names, has a file of settings with these bytes. A directory of
that name does not count. -/
def HasConfig (w : Workspace) (dir : List Text) (bytes : ByteArray) : Prop :=
  FileTree.at? (dir ++ [configName]) w.tree = some (.file bytes)

/-- There is a file of settings in a directory if there are bytes of one. -/
theorem hasFile_iff : w.hasFile (dir ++ [configName]) = true ↔ ∃ bytes, w.HasConfig dir bytes := by
  unfold hasFile HasConfig
  cases FileTree.at? (dir ++ [configName]) w.tree with
  | none => simp
  | some t => cases t <;> simp [FileTree.isFile]

/-- What a reader of settings gives has each name once, in every table of it. -/
def NamesAreOnce (read : Text → Except Fault Config.Fields) : Prop :=
  ∀ t fields, read t = .ok fields → NamesOnce (.table fields)

/-- What a reader gives for the nearest file at or above the directory that paths start from; no
settings if there is no file. -/
inductive Provides (w : Workspace) (read : Text → Except Fault Config.Fields) :
    Config.Fields → Prop where
  | nothing (h : ∀ dir bytes, dir <+: w.here → ¬ w.HasConfig dir bytes) : Provides w read []
  | file {dir : List Text} {bytes : ByteArray} {t : Text} {user : Config.Fields}
      (hdir : dir <+: w.here) (hfile : w.HasConfig dir bytes)
      (nearest : ∀ dir' bytes', dir' <+: w.here → dir.length < dir'.length →
        ¬ w.HasConfig dir' bytes')
      (decoded : Files.decode bytes = .ok t) (parsed : read t = .ok user) : Provides w read user

/-- The file that is found is the nearest one. -/
theorem configAbove_cases (w : Workspace) (above : List Text) :
    ((∀ dir bytes, dir <+: above.reverse → ¬ w.HasConfig dir bytes) ∧ w.configAbove above = none)
      ∨ ∃ dir bytes, dir <+: above.reverse ∧ w.HasConfig dir bytes
        ∧ (∀ dir' bytes', dir' <+: above.reverse → dir.length < dir'.length →
          ¬ w.HasConfig dir' bytes')
        ∧ w.configAbove above = some (dir ++ [configName]) := by
  induction above with
  | nil =>
    cases hfile : w.hasFile ([] ++ [configName]) with
    | false =>
      refine .inl ⟨fun dir bytes hdir hhas => ?_, ?_⟩
      · obtain rfl := List.prefix_nil.mp hdir
        rw [hasFile_iff.mpr ⟨bytes, hhas⟩] at hfile
        cases hfile
      · simpa [configAbove] using hfile
    | true =>
      obtain ⟨bytes, hhas⟩ := hasFile_iff.mp hfile
      refine .inr ⟨[], bytes, List.prefix_rfl, hhas, fun dir' _ hdir' hlen => ?_, ?_⟩
      · rw [List.prefix_nil.mp hdir'] at hlen
        simp at hlen
      · simpa [configAbove] using hfile
  | cons name above ih =>
    have hstep : w.configAbove (name :: above)
        = if w.hasFile ((name :: above).reverse ++ [configName]) then
            some ((name :: above).reverse ++ [configName])
          else w.configAbove above := rfl
    -- What is at or above the longer path is the path itself or at or above the shorter one.
    have hwithin : ∀ dir, dir <+: (name :: above).reverse ↔
        dir = (name :: above).reverse ∨ dir <+: above.reverse := fun dir => by
      rw [List.reverse_cons, List.prefix_concat_iff]
    rw [hstep]
    cases hfile : w.hasFile ((name :: above).reverse ++ [configName]) with
    | true =>
      obtain ⟨bytes, hhas⟩ := hasFile_iff.mp hfile
      refine .inr ⟨_, bytes, List.prefix_rfl, hhas, fun dir' _ hdir' hlen => ?_, rfl⟩
      exact absurd hdir'.length_le (by omega)
    | false =>
      have hself : ∀ bytes, ¬ w.HasConfig (name :: above).reverse bytes := fun bytes hhas => by
        rw [hasFile_iff.mpr ⟨bytes, hhas⟩] at hfile
        cases hfile
      rcases ih with ⟨hnone, heq⟩ | ⟨dir, bytes, hdir, hhas, hnearest, heq⟩
      · refine .inl ⟨fun dir bytes hdir => ?_, heq⟩
        rcases (hwithin dir).mp hdir with rfl | hdir
        · exact hself bytes
        · exact hnone dir bytes hdir
      · refine .inr ⟨dir, bytes, (hwithin dir).mpr (.inr hdir), hhas,
          fun dir' bytes' hdir' hlen => ?_, heq⟩
        rcases (hwithin dir').mp hdir' with rfl | hdir'
        · exact hself bytes'
        · exact hnearest dir' bytes' hdir' hlen

/-- From the directory that paths start from, the nearest file is looked for upwards. -/
theorem findConfig_nil (h : w.Placed) : w.findConfig [] = .ok (w.configAbove w.here.reverse) := by
  obtain ⟨entries, hdir⟩ := h.directory
  have hcheck : check [] = .ok () := rfl
  have hspell : w.spell [] = some w.here := rfl
  have hdescend : descend w.volume.isWhole [] w.tree w.here = .ok (.directory entries) :=
    descend_of_at? h.names hdir
  simp only [findConfig, hcheck, hspell, hdescend, bind, Except.bind]
  rfl

/-- The settings of the nearest file have each name once. -/
theorem Provides.namesOnce (h : w.Provides read user) (hread : NamesAreOnce read) :
    NamesOnce (.table user) := by
  cases h with
  | nothing => exact .table List.nodup_nil (by simp)
  | file _ _ _ _ parsed => exact hread _ _ parsed

/-- The settings that the nearest file provides are the ones that are read. -/
theorem config_of_provides (h : w.Placed) (huser : w.Provides read user)
    (environment : List (Text × Text)) :
    w.configBy read environment none
      = Config.applyVariables (Config.merge Config.defaults user) environment := by
  have hfind := findConfig_nil h
  have habove := configAbove_cases w w.here.reverse
  rw [List.reverse_reverse] at habove
  cases huser with
  | nothing hnone =>
    obtain ⟨-, heq⟩ | ⟨dir, bytes, hdir, hhas, -⟩ := habove
    · have htext : w.configText none = .ok none := by
        simp only [configText, hfind, heq, bind, Except.bind]
        rfl
      simp only [configBy, htext, bind, Except.bind]
      rfl
    · exact absurd hhas (hnone dir bytes hdir)
  | @file dir bytes t _ hdir hfile nearest decoded parsed =>
    obtain ⟨hnone, -⟩ | ⟨dir', bytes', hdir', hfile', nearest', heq⟩ := habove
    · exact absurd hfile (hnone dir bytes hdir)
    · -- Of two nearest directories neither is nearer than the other.
      have hlen : dir.length = dir'.length := by
        refine Nat.le_antisymm (Nat.le_of_not_lt fun hlt => ?_) (Nat.le_of_not_lt fun hlt => ?_)
        · exact nearest' dir bytes hdir hlt hfile
        · exact nearest dir' bytes' hdir' hlt hfile'
      obtain rfl : dir = dir' :=
        (List.prefix_of_prefix_length_le hdir hdir' (Nat.le_of_eq hlen)).eq_of_length hlen
      unfold HasConfig at hfile
      have htext : w.configText none = .ok (some t) := by
        simp only [configText, hfind, heq, hfile, decoded, bind, Except.bind]
        rfl
      simp only [configBy, htext, parsed, bind, Except.bind]

/-! ### All settings -/

/-- For every workspace, whatever is in its tree, every environment, and every reader that gives
each name once. Let the nearest file of settings at or above the directory that paths start from be
read, and let it leave the sections of the defaults sections. If a variable names a field of a
section of the file or the defaults and what it says has an integer of too many digits, there are no
settings. Else there are: for each field of a section, what the last variable that names it says;
else what the file says, merged over the default if both are tables; else the default. What the file
has at the top that is no section stays as it is, and there is nothing else. -/
theorem config_layers (hread : NamesAreOnce read) (h : w.Placed) (huser : w.Provides read user)
    (hfits : Fits user) (environment : List (Text × Text)) :
    ((∃ e ∈ environment, ∃ s k, Names e.1 s k ∧ HasSection user s
          ∧ Config.variableValue e.2 = .error .integerTooLong)
        ∧ w.configBy read environment none = .error .integerTooLong)
      ∨ (∀ e ∈ environment, ∀ s k, Names e.1 s k → HasSection user s →
          ∃ v, Config.variableValue e.2 = .ok v)
        ∧ ∃ result, w.configBy read environment none = .ok result
          ∧ Layers user environment result := by
  have honce := huser.namesOnce hread
  have hsection := Config.isSection_merge_iff honce hfits
  rw [config_of_provides h huser]
  rcases Config.applyVariables_cases (Config.merge Config.defaults user) environment with
    ⟨⟨e, he, s, k, hname, hs, hbad⟩, herror⟩ | ⟨hall, result, hresult, hover⟩
  · exact .inl ⟨⟨e, he, s, k, hname, (hsection s).mp hs, hbad⟩, herror⟩
  · refine .inr ⟨fun e he s k hname hs => ?_, result, hresult,
      .of_overrides honce hfits hover⟩
    rcases Config.variableValue_cases e.2 with hbad | hgood
    · exact absurd ⟨s, k, hname, (hsection s).mpr hs, hbad⟩ (hall e he)
    · exact hgood

/-- The bytes of a text are decoded to the text. -/
theorem decode_toUTF8 (s : String) : Files.decode s.toUTF8 = .ok (Files.unifyEnds s.toList) := by
  have hdecode : String.fromUTF8? s.toUTF8 = some s := by
    simpa [String.fromUTF8?] using ⟨s.isValidUTF8, rfl⟩
  rw [Files.decode, hdecode]

/-- A file in the directory above with a section of its own, a directory of the same name next to
the starting point, and a variable for that section. -/
theorem config_layers_fileAbove :
    let w : Workspace :=
      ⟨⟨.directory [(configName, .file "[b]".toUTF8),
        (['d'], .directory [(configName, .directory [])])], true⟩, [['d']]⟩
    ∃ result, w.config [("FEATUREMODEL_B_X".toList, ['z'])] none = .ok result
      ∧ at? ["b", "x"] (.table result) = some (.text ['z'])
      ∧ at? ["parsing", "dialect"] (.table result) = some (.text ['e', 'n']) := by
  intro w
  have hplaced : w.Placed := ⟨⟨_, rfl⟩, by
    intro name hname
    obtain rfl := List.mem_singleton.mp hname
    decide⟩
  have huser : w.Provides Toml.read [("b", .table [])] := by
    refine .file (List.nil_prefix : [] <+: w.here) rfl ?_ (decode_toUTF8 "[b]") rfl
    intro dir' bytes' hdir' hlen hhas
    rcases List.prefix_cons_iff.mp hdir' with rfl | ⟨rest, rfl, hrest⟩
    · simp at hlen
    · obtain rfl := List.prefix_nil.mp hrest
      cases hhas
  have hfits : Fits [("b", .table [])] := by
    intro s v _ hs _
    have hmem : (s, v) ∈ [("b", Value.table [])] := mem_of_lookup_eq_some hs
    obtain ⟨-, rfl⟩ : s = "b" ∧ v = .table [] := by simpa using hmem
    rfl
  have hname : Names "FEATUREMODEL_B_X".toList "b" "x" :=
    ⟨['B', '_', 'X'], by decide, by decide, by decide, by decide⟩
  have hread : NamesAreOnce Toml.read := fun _ _ => Toml.namesOnce_read
  rcases config_layers hread hplaced huser hfits [("FEATUREMODEL_B_X".toList, ['z'])] with
    ⟨⟨e, he, s, k, -, -, hbad⟩, -⟩ | ⟨-, result, hresult, hlayers⟩
  · obtain rfl := List.mem_singleton.mp he
    cases hbad
  · obtain ⟨v, hv, hat⟩ := hlayers.ofEnvironment "b" "x" [] _ ['z'] [] (.inr ⟨[], rfl⟩) rfl hname
      (by simp)
    obtain rfl : v = .text ['z'] := Except.ok.inj (hv.symm.trans rfl)
    refine ⟨result, hresult, hat, (hlayers.ofDefaults "parsing" "dialect" ?_ rfl).trans rfl⟩
    intro e he hnames
    obtain rfl := List.mem_singleton.mp he
    exact absurd (hnames.unique hname).1 (by decide)

end Workspace

end FeatureTree
