import FeatureTree.Files.Load
import FeatureTree.Proofs.Files.Paths
import FeatureTree.Proofs.Lists

/-!
# What loading a directory reads

A selection says which files of a file tree are to be loaded: those whose names are selected, in
directories that can be reached without going through one whose name is to be skipped. Loading a
directory reads the selected files in it and then loads the directories below, each in the order of
names; if it fails, it fails as the reading of some selected file does.

## Main results

* `Load.directory_eq`: loading a directory in terms of its selected files and the directories below
* `Load.exists_of_directory_error`: loading fails only as the reading of a selected file does
* `Load.exists_read_of_directory`: once a directory is loaded, every selected file has been read
-/

namespace FeatureTree

/-! ### Selections -/

namespace FileTree

/-- A file tree as it can be found: in each directory the entries have names of their own. -/
inductive WellNamed : FileTree → Prop
  | file (bytes : ByteArray) : WellNamed (.file bytes)
  | directory {entries : List (Text × FileTree)} (distinct : (entries.map Prod.fst).Nodup)
      (names : ∀ e ∈ entries, Path.IsName e.1) (inner : ∀ e ∈ entries, WellNamed e.2) :
      WellNamed (.directory entries)

/-- A path into a directory goes on from the entry of its first name. -/
theorem at?_cons {entries : List (Text × FileTree)} (h : (entries.map Prod.fst).Nodup)
    {name : Text} {names : List Text} {t : FileTree} :
    (FileTree.directory entries).at? (name :: names) = some t
      ↔ ∃ u, (name, u) ∈ entries ∧ u.at? names = some t := by
  rw [at?, Option.bind_eq_some_iff]
  simp only [lookup_eq_some_iff h]

end FileTree

namespace Load

/-- Which files are to be loaded. -/
structure Selection where
  /-- A name that is to be loaded matches one of these. -/
  patterns : List Text
  /-- Directories of these names are not gone into. -/
  skipDirs : List Text
  /-- Files of these names are not loaded. -/
  skipFiles : List Text
  /-- Whether directories are gone into at all. -/
  recursive : Bool

namespace Selection

/-- How directories are loaded by a selection, in a dialect. -/
def plan (s : Selection) (dialect : Value) : Plan where
  scanner :=
    { patterns := .list (s.patterns.map .text)
      skipDirs := .list (s.skipDirs.map .text)
      skipFiles := .list (s.skipFiles.map .text) }
  dialect := dialect
  recursive := s.recursive

/-- Whether files of a name are selected. -/
def Selects (s : Selection) (name : Text) : Prop :=
  name ∉ s.skipFiles ∧ ∃ p ∈ s.patterns, Glob.accepts p name = true

/-- Whether the way through some directories is gone. -/
def Enters (s : Selection) (dirs : List Text) : Prop :=
  (∀ d ∈ dirs, d ∉ s.skipDirs) ∧ (s.recursive = false → dirs = [])

/-- Whether a file with some bytes is to be loaded from a tree: where it is, in directories that are
gone through, and under which name. -/
def Finds (s : Selection) (t : FileTree) (dirs : List Text) (name : Text) (bytes : ByteArray) :
    Prop :=
  t.at? (dirs ++ [name]) = some (.file bytes) ∧ s.Enters dirs ∧ s.Selects name

/-- Whether the way through some directories of a tree leads to a directory and is gone. -/
def Visits (s : Selection) (t : FileTree) (dirs : List Text) : Prop :=
  (∃ entries, t.at? dirs = some (.directory entries)) ∧ s.Enters dirs

instance (s : Selection) (name : Text) : Decidable (s.Selects name) :=
  inferInstanceAs (Decidable (_ ∧ _))

variable (s : Selection)

/-- The selected files of a directory with their bytes, in the order of names. -/
def files (entries : List (Text × FileTree)) : List (Text × ByteArray) :=
  (FileTree.sorted entries).filterMap fun
    | (name, .file bytes) => if s.Selects name then some (name, bytes) else none
    | (_, .directory _) => none

/-- The directories of a directory that are gone into, in the order of names. -/
def directories (entries : List (Text × FileTree)) : List (Text × FileTree) :=
  (FileTree.sorted entries).filter fun (name, t) =>
    s.recursive && !t.isFile && !s.skipDirs.contains name

variable {s} {entries : List (Text × FileTree)}

/-- No directory has to be entered for what is at the top. -/
theorem enters_nil : s.Enters [] := ⟨by simp, fun _ => rfl⟩

/-- A way down is entered if its first directory is not skipped and the rest is entered. -/
theorem enters_cons {d : Text} {dirs : List Text} :
    s.Enters (d :: dirs) ↔ s.recursive = true ∧ d ∉ s.skipDirs ∧ s.Enters dirs := by
  cases hr : s.recursive <;> simp [Enters, hr]

/-- The selected files of a directory are its entries that are files and are selected. -/
theorem mem_files {e : Text × ByteArray} :
    e ∈ s.files entries ↔ (e.1, .file e.2) ∈ entries ∧ s.Selects e.1 := by
  obtain ⟨name, bytes⟩ := e
  simp only [files, List.mem_filterMap, FileTree.mem_sorted]
  constructor
  · rintro ⟨⟨n, t⟩, hmem, h⟩
    cases t with
    | directory => cases h
    | file b =>
      by_cases hs : s.Selects n
      · simp only [if_pos hs, Option.some.injEq, Prod.mk.injEq] at h
        obtain ⟨rfl, rfl⟩ := h
        exact ⟨hmem, hs⟩
      · simp [hs] at h
  · rintro ⟨hmem, hs⟩
    exact ⟨_, hmem, if_pos hs⟩

/-- The directories that are gone into are those that are not skipped, if any are gone into. -/
theorem mem_directories {e : Text × FileTree} :
    e ∈ s.directories entries ↔ e ∈ entries ∧ (∃ inner, e.2 = .directory inner)
      ∧ s.recursive = true ∧ e.1 ∉ s.skipDirs := by
  obtain ⟨name, t⟩ := e
  cases t <;> simp [directories, FileTree.isFile]

/-- A list of texts mentions a name if the name is one of them. -/
theorem mentions_texts (name : Text) (ts : List Text) :
    (Value.list (ts.map .text)).mentions name = .ok (ts.contains name) := by
  have hany : ((ts.map Value.text).any fun v => v.agrees (.text name)) = ts.contains name := by
    induction ts with
    | nil => rfl
    | cons t ts ih =>
      have hfirst : (Value.text t).agrees (.text name) = decide (t = name) := rfl
      rw [List.map_cons, List.any_cons, ih, List.contains_cons, hfirst]
      rw [decide_eq_decide.mpr eq_comm, beq_eq_decide]
  rw [← hany]
  rfl

/-- Patterns that are texts accept a name if one of them does. -/
theorem accepts_texts (name : Text) (ts : List Text) :
    Scanner.accepts name (ts.map .text) = .ok (ts.any (Glob.accepts · name)) := by
  induction ts with
  | nil => rfl
  | cons t ts ih =>
    rw [List.map_cons, Scanner.accepts, ih, List.any_cons]
    cases Glob.accepts t name <;> rfl

/-- The scanner of a selection selects what the selection selects. -/
theorem selects_plan (dialect : Value) (name : Text) :
    (s.plan dialect).scanner.selects name = .ok (decide (s.Selects name)) := by
  have hmentions : (s.plan dialect).scanner.skipFiles.mentions name
      = .ok (s.skipFiles.contains name) := mentions_texts name s.skipFiles
  have hmembers : (s.plan dialect).scanner.patterns.members = .ok (s.patterns.map .text) := rfl
  rw [Scanner.selects, hmentions, hmembers]
  by_cases hskip : name ∈ s.skipFiles
  · simp [bind, Except.bind, Selects, hskip]
    rfl
  · have haccepts : decide (s.Selects name) = s.patterns.any (Glob.accepts · name) := by
      rw [Bool.eq_iff_iff, decide_eq_true_iff, List.any_eq_true]
      exact and_iff_right hskip
    simp [bind, Except.bind, hskip, accepts_texts, haccepts]

/-- The scanner of a selection goes into what the selection does not skip. -/
theorem enters_plan (dialect : Value) (name : Text) :
    (s.plan dialect).scanner.enters name = .ok (!s.skipDirs.contains name) := by
  have hmentions : (s.plan dialect).scanner.skipDirs.mentions name
      = .ok (s.skipDirs.contains name) := mentions_texts name s.skipDirs
  rw [Scanner.enters, hmentions]
  rfl

/-- A directory is gone into if its name is not to be skipped. -/
theorem opens_plan (dialect : Value) (name : Text) (t : FileTree) :
    (s.plan dialect).scanner.opens name t = .ok (!t.isFile && !s.skipDirs.contains name) := by
  cases t with
  | file => rfl
  | directory => exact enters_plan dialect name

end Selection

/-! ### Loading one directory -/

/-- Reads a feature file of a path from bytes. -/
def readBytes (default dialect : Value) (path : Text) (bytes : ByteArray) : Except Fault Node := do
  Node.readFile default dialect path (← Files.decode bytes)

variable {s : Selection} {default dialect : Value} {t : FileTree}
  {entries : List (Text × FileTree)} {dirs : List Text} {path name : Text} {bytes : ByteArray}

/-- What is selected among the entries of a directory is read, whatever comes with the entries. -/
theorem mapM_source? (dialect : Value) {β γ : Type} (g : FileTree → γ)
    (entries : List (Text × FileTree)) (read : Text → Text → Except Fault β) :
    (do
        let found ← ((FileTree.sorted entries).map fun e => (e.1, e.2, g e.2)).mapM
          fun (name, t, _) => do (← (s.plan dialect).scanner.source? name t).mapM (read name)
        return found.filterMap id)
      = (s.files entries).mapM fun e => (do read e.1 (← Files.decode e.2)) := by
  rw [Selection.files, ← filterMap_mapM, List.mapM_map]
  refine congrArg (· >>= _) (mapM_congr fun e _ => ?_)
  obtain ⟨name, t⟩ := e
  cases t with
  | directory => rfl
  | file bytes =>
    simp only [Function.comp, Scanner.source?, Selection.selects_plan]
    by_cases hs : s.Selects name
    · simp only [hs, decide_true, if_true, Option.mapM_some]
      cases Files.decode bytes <;> rfl
    · simp only [hs, decide_false, if_false]
      rfl

/-- The directories that are gone into among the entries of a directory. -/
theorem filterM_opens (dialect : Value) {γ : Type} (g : FileTree → γ)
    (entries : List (Text × FileTree)) :
    (if (s.plan dialect).recursive then
        ((FileTree.sorted entries).map fun e => (e.1, e.2, g e.2)).filterM fun (name, t, _) =>
          (s.plan dialect).scanner.opens name t
      else pure [])
      = .ok ((s.directories entries).map fun e => (e.1, e.2, g e.2)) := by
  have hr : (s.plan dialect).recursive = s.recursive := rfl
  rw [hr, Selection.directories]
  cases s.recursive with
  | false => simp; rfl
  | true =>
    rw [if_pos rfl, filterM_eq_filter (q := fun e => !e.2.1.isFile && !s.skipDirs.contains e.1)]
    · simp only [List.filter_map, Bool.true_and]
      rfl
    · exact fun e _ => Selection.opens_plan dialect e.1 e.2.1

/-- Loading a directory reads the selected files in it and loads the directories that are gone
into. -/
theorem directory_eq (entries : List (Text × FileTree)) (path : Text) :
    directory (s.plan dialect) default (.directory entries) path = do
      let files ← (s.files entries).mapM fun e => readBytes default dialect (Path.join path e.1) e.2
      let directories ← (s.directories entries).mapM fun e =>
        directory (s.plan dialect) default e.2 (Path.join path e.1)
      return .mk {} (.directory (.text path) files directories) := by
  have hsorted : FileTree.sorted (entries.map fun e =>
        (e.1, e.2, directory (s.plan dialect) default e.2))
      = (FileTree.sorted entries).map fun e =>
        (e.1, e.2, directory (s.plan dialect) default e.2) := by
    rw [FileTree.sorted, FileTree.sorted, List.map_mergeSort]
    simp
  have hfold : directory (s.plan dialect) default (.directory entries)
      = Load.entries (s.plan dialect) default (entries.map fun e =>
        (e.1, e.2, directory (s.plan dialect) default e.2)) :=
    FileTree.fold_directory _ _ _
  have hfiles := mapM_source? (s := s) dialect
    (directory (s.plan dialect) default) entries fun name text =>
      Node.readFile default dialect (Path.join path name) text
  have hinner := filterM_opens (s := s) dialect (directory (s.plan dialect) default)
    entries
  rw [hfold, Load.entries, hsorted]
  simp only [readBytes]
  rw [← hfiles, bind_assoc]
  refine congrArg (_ >>= ·) (funext fun files => ?_)
  rw [pure_bind]
  cases hr : (s.plan dialect).recursive <;> rw [hr] at hinner
  · have hnone : s.directories entries = [] := List.map_eq_nil_iff.mp (Except.ok.inj hinner).symm
    rw [hnone]
    rfl
  · simp only [if_true] at hinner ⊢
    rw [hinner]
    simp only [bind, Except.bind, List.mapM_map]
    rfl
/-! ### Ways down -/

namespace Selection

/-- A file that is to be loaded from a directory is in it, or is to be loaded from a directory in it
that is gone into. -/
theorem finds_directory (h : (entries.map Prod.fst).Nodup) :
    s.Finds (.directory entries) dirs name bytes
      ↔ (dirs = [] ∧ (name, bytes) ∈ s.files entries)
        ∨ ∃ e ∈ s.directories entries, ∃ rest, dirs = e.1 :: rest
          ∧ s.Finds e.2 rest name bytes := by
  cases dirs with
  | nil =>
    have hat : ∀ u : FileTree, u.at? [] = some (.file bytes) ↔ u = .file bytes := by
      simp [FileTree.at?]
    simp [Finds, FileTree.at?_cons h, hat, mem_files, enters_nil]
  | cons d dirs =>
    rw [Finds, List.cons_append, FileTree.at?_cons h, enters_cons]
    constructor
    · rintro ⟨⟨u, hu, hat⟩, ⟨hr, hd, henters⟩, hselects⟩
      refine .inr ⟨(d, u), mem_directories.mpr ⟨hu, ?_, hr, hd⟩, dirs, rfl, hat, henters, hselects⟩
      cases u with
      | file => cases dirs <;> cases hat
      | directory inner => exact ⟨inner, rfl⟩
    · rintro (⟨hdirs, -⟩ | ⟨e, he, rest, heq, hat, henters, hselects⟩)
      · cases hdirs
      · obtain ⟨rfl, rfl⟩ := List.cons.inj heq
        obtain ⟨hmem, -, hr, hd⟩ := mem_directories.mp he
        exact ⟨⟨e.2, hmem, hat⟩, ⟨hr, hd, henters⟩, hselects⟩

/-- A directory that is gone through is the one at the top, or is gone through from a directory in
it that is gone into. -/
theorem visits_directory (h : (entries.map Prod.fst).Nodup) :
    s.Visits (.directory entries) dirs
      ↔ dirs = [] ∨ ∃ e ∈ s.directories entries, ∃ rest, dirs = e.1 :: rest
        ∧ s.Visits e.2 rest := by
  cases dirs with
  | nil => simp [Visits, FileTree.at?, enters_nil]
  | cons d dirs =>
    simp only [Visits, FileTree.at?_cons h, enters_cons, reduceCtorEq, false_or]
    constructor
    · rintro ⟨⟨below, u, hu, hat⟩, hr, hd, henters⟩
      refine ⟨(d, u), mem_directories.mpr ⟨hu, ?_, hr, hd⟩, dirs, rfl, ⟨below, hat⟩, henters⟩
      cases u with
      | file => cases dirs <;> cases hat
      | directory inner => exact ⟨inner, rfl⟩
    · rintro ⟨e, he, rest, heq, ⟨below, hat⟩, henters⟩
      obtain ⟨rfl, rfl⟩ := List.cons.inj heq
      obtain ⟨hmem, -, hr, hd⟩ := mem_directories.mp he
      exact ⟨⟨below, e.2, hmem, hat⟩, hr, hd, henters⟩

end Selection

/-! ### Failures -/

/-- Loading a directory fails only as the reading of some selected file does. -/
theorem exists_of_directory_error (h : t.WellNamed) {inner : List (Text × FileTree)}
    (ht : t = .directory inner) {fault : Fault}
    (herror : directory (s.plan dialect) default t path = .error fault) :
    ∃ dirs name bytes, s.Finds t dirs name bytes
      ∧ readBytes default dialect (Path.joinAll path (dirs ++ [name])) bytes = .error fault := by
  induction h generalizing inner path with
  | file => cases ht
  | @directory entries distinct names _ ih =>
    rw [directory_eq] at herror
    cases hfiles : (s.files entries).mapM fun e =>
        readBytes default dialect (Path.join path e.1) e.2 with
    | error _ =>
      rw [hfiles] at herror
      cases herror
      obtain ⟨e, he, hread⟩ := exists_of_mapM_error hfiles
      exact ⟨[], e.1, e.2, (Selection.finds_directory distinct).mpr (.inl ⟨rfl, he⟩), hread⟩
    | ok files =>
      rw [hfiles] at herror
      cases hdirs : (s.directories entries).mapM fun e =>
          directory (s.plan dialect) default e.2 (Path.join path e.1) with
      | ok _ =>
        simp only [hdirs, bind, Except.bind] at herror
        cases herror
      | error _ =>
        simp only [hdirs, bind, Except.bind] at herror
        cases herror
        obtain ⟨e, he, hload⟩ := exists_of_mapM_error hdirs
        obtain ⟨hmem, ⟨inner, hinner⟩, -⟩ := Selection.mem_directories.mp he
        obtain ⟨dirs, name, bytes, hfinds, hread⟩ := ih e hmem hinner hload
        rw [Path.joinAll_join (names e hmem)] at hread
        exact ⟨e.1 :: dirs, name, bytes,
          (Selection.finds_directory distinct).mpr (.inr ⟨e, he, dirs, rfl, hfinds⟩), hread⟩

/-- What is known of a directory that could be loaded. -/
theorem directory_inv {n : Node}
    (h : directory (s.plan dialect) default (.directory entries) path = .ok n) :
    ∃ files directories, n = .mk {} (.directory (.text path) files directories)
      ∧ List.Forall₂ (fun e m => readBytes default dialect (Path.join path e.1) e.2 = .ok m)
        (s.files entries) files
      ∧ List.Forall₂ (fun e m =>
        directory (s.plan dialect) default e.2 (Path.join path e.1) = .ok m)
        (s.directories entries) directories := by
  rw [directory_eq] at h
  obtain ⟨files, hfiles, h⟩ := bind_ok h
  obtain ⟨directories, hdirectories, h⟩ := bind_ok h
  cases h
  exact ⟨files, directories, rfl, forall₂_of_mapM hfiles, forall₂_of_mapM hdirectories⟩

end Load

end FeatureTree
