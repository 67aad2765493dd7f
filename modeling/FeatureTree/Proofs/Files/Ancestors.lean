import FeatureTree.Proofs.Equality.Symmetry
import FeatureTree.Proofs.Files.Mirror

/-!
# Parents of loaded nodes

A directory that was loaded is planted in a store, where every node remembers its parent. Going up
from a feature file or a directory in it, one comes through the directories around it to the top,
and the names on this way are those of its path.

## Main results

* `Store.ancestors_of_lies`: the ancestors of a node are the directories around it
* `Store.spells_of_lies`: the names of a node and of the directories around it spell its path
* `Load.fromPath_mirrors`: a directory whose selected files can be read is loaded and mirrors the
  file tree, and one with a selected file that cannot be read is not loaded
-/

namespace FeatureTree

namespace Store

/-- A feature file or a directory lies in a directory, through others; the directories around it
are listed from the nearest to the one at the top. -/
inductive Lies (s : Store) (top : NodeId) : List NodeId → NodeId → Prop
  | top : Lies s top [] top
  | inside {around : List NodeId} {i j : NodeId} {e : Entry} {path : Value}
      {files directories : List NodeId} (lies : Lies s top around i) (entry : s.get? i = some e)
      (shape : e.shape = .directory path files directories) (mem : j ∈ files ++ directories) :
      Lies s top (i :: around) j

variable {s : Store} {top i j : NodeId} {around : List NodeId} {n m : Node}

/-- What is in a directory stands for a part of its tree, and is attached to it. -/
theorem Represents.of_directory {e : Entry} {path : Value} {files directories : List NodeId}
    (h : s.Represents i m) (entry : s.get? i = some e)
    (shape : e.shape = .directory path files directories) :
    ∃ files' directories', m.shape = .directory path files' directories'
      ∧ (∀ j ∈ files, ∃ m' ∈ files', s.Represents j m')
      ∧ (∀ j ∈ directories, ∃ m' ∈ directories', s.Represents j m')
      ∧ ∀ j ∈ files ++ directories, s.remembered j = some i ∧ j ∈ s.parts i := by
  obtain ⟨e', pairs, entry', -, shape', hm, attached, parts⟩ := h.inv
  obtain rfl := Option.some.inj (entry.symm.trans entry')
  rw [shape] at shape'
  cases pairs with
  | directory p fs ds =>
    obtain ⟨rfl, rfl, rfl⟩ := Shape.directory.inj shape'
    simp only [Shape.parts, Shape.children] at attached parts
    refine ⟨fs.map Prod.snd, ds.map Prod.snd, hm, fun j hj => ?_, fun j hj => ?_, fun j hj => ?_⟩
    · obtain ⟨x, hx, rfl⟩ := List.mem_map.mp hj
      exact ⟨x.2, List.mem_map_of_mem hx, parts x (by simp [hx])⟩
    · obtain ⟨x, hx, rfl⟩ := List.mem_map.mp hj
      exact ⟨x.2, List.mem_map_of_mem hx, parts x (by simp [hx])⟩
    · have howned : j ∈ e.owned := by
        simp only [Entry.owned, shape, List.mem_append]
        exact .inl (.inl (.inl (by simpa [Shape.parts, Shape.children] using hj)))
      rw [← List.map_append] at hj
      obtain ⟨x, hx, rfl⟩ := List.mem_map.mp hj
      exact ⟨attached x hx, by simpa [Store.parts, entry] using howned⟩
  | _ => cases shape'

/-! ### The way up -/

/-- What lies in a directory stands for a part of its tree with fewer levels, can be reached, and
has the directory that it is in as its parent. -/
theorem Lies.attached (h : s.Lies top around j) (hn : s.Represents top n) (htop : s.Reaches top) :
    s.Reaches j ∧ (∃ m, s.Represents j m ∧ m.height + around.length ≤ n.height)
      ∧ ∀ i ∈ around.head?, s.parent? j = some i := by
  induction h with
  | top => exact ⟨htop, ⟨n, hn, by simp⟩, by simp⟩
  | @inside around i j e path files directories _ entry shape mem ih =>
    obtain ⟨hreach, ⟨m, hm, hheight⟩, -⟩ := ih
    obtain ⟨files', directories', hshape, hfiles, hdirectories, hattached⟩ :=
      hm.of_directory entry shape
    obtain ⟨hremembered, hpart⟩ := hattached j mem
    obtain ⟨m', hmem, hm'⟩ : ∃ m' ∈ m.shape.parts, s.Represents j m' := by
      rw [hshape]
      rcases List.mem_append.mp mem with hj | hj
      · obtain ⟨m', hmem, hm'⟩ := hfiles j hj
        exact ⟨m', by simp [Shape.parts, Shape.children, hmem], hm'⟩
      · obtain ⟨m', hmem, hm'⟩ := hdirectories j hj
        exact ⟨m', by simp [Shape.parts, Shape.children, hmem], hm'⟩
    have hlt := Node.height_lt hmem
    refine ⟨.owned hreach hm'.spans.lt_size hpart, ⟨m', hm', ?_⟩, ?_⟩
    · rw [List.length_cons]
      omega
    · rintro _ ⟨⟩
      exact parent?_eq_some_iff.mpr ⟨hremembered, hreach⟩

/-- Going up from a node in a directory, enough steps lead to the top through the directories
around the node. -/
theorem climb_of_lies (h : s.Lies top around j) (hn : s.Represents top n) (htop : s.Reaches top)
    (hfree : s.remembered top = none) {k : Nat} (hk : around.length ≤ k) :
    climb s.parent? k j = around := by
  induction h generalizing k with
  | top =>
    have hnone : s.parent? top = none := by
      rw [Option.eq_none_iff_forall_ne_some]
      intro p hp
      have hremembered : s.remembered top = some p := (parent?_eq_some_iff.mp hp).1
      rw [hfree] at hremembered
      cases hremembered
    cases k with
    | zero => rfl
    | succ k => rw [climb, hnone]
  | @inside around i j e path files directories lies entry shape mem ih =>
    have hparent := (Lies.attached (.inside lies entry shape mem) hn htop).2.2 i rfl
    cases k with
    | zero => simp at hk
    | succ k =>
      rw [climb, hparent]
      exact congrArg (i :: ·) (ih (by simpa using hk))

/-- The ancestors of a node in a directory are the directories around it. -/
theorem ancestors_of_lies (h : s.Lies top around j) (hn : s.Represents top n)
    (htop : s.Reaches top) (hfree : s.remembered top = none) : s.ancestors j = around := by
  obtain ⟨-, ⟨m, -, hheight⟩, -⟩ := h.attached hn htop
  have hsize := hn.spans.height_le
  exact climb_of_lies h hn htop hfree (by omega)

/-! ### Names and paths -/

/-- The names of a node in a directory that mirrors a file tree, and of the directories around it,
spell its path. -/
theorem spells_of_lies {sel : Load.Selection} {read : Text → ByteArray → Except Fault Node}
    {t : FileTree} {path : Text} (hmirror : Load.Mirrors sel read t path n)
    (hself : n ∈ n.folders) (hpath : n.path? = some (.text (Path.joinAll path [])))
    (hn : s.Represents top n) (h : s.Lies top around j) :
    ∃ m names, s.Represents j m ∧ (m.kind = .directory → m ∈ n.folders)
      ∧ (∀ name ∈ names, Path.IsName name)
      ∧ List.Forall₂ (fun i name => s.ask (.node i) (.text .name) = .ok (.text name))
        (j :: around).dropLast names
      ∧ m.path? = some (.text (Path.joinAll path names.reverse)) := by
  induction h with
  | top => exact ⟨n, [], hn, fun _ => hself, by simp, .nil, hpath⟩
  | @inside around i j e value files directories _ entry shape mem ih =>
    obtain ⟨m, names, hm, hfolder, hnames, hasked, hp⟩ := ih
    obtain ⟨files', directories', hshape, hfiles, hdirectories, -⟩ := hm.of_directory entry shape
    have hmem : m ∈ n.folders := hfolder (by rw [Node.kind, hshape]; rfl)
    obtain ⟨p, fs, ds, fnames, dnames, hshape', hfs, -, hds, -⟩ := hmirror.inside m hmem
    obtain ⟨rfl, rfl, rfl⟩ := Shape.directory.inj (hshape.symm.trans hshape')
    obtain rfl : p = Path.joinAll path names.reverse := by
      rw [Node.path?, hshape] at hp
      exact Value.text.inj (Option.some.inj hp)
    obtain ⟨m', kind, name, hm', hfolder', hin⟩ : ∃ m' kind name, s.Represents j m'
        ∧ (m'.kind = .directory → m' ∈ n.folders)
        ∧ m'.IsIn kind (Path.joinAll path names.reverse) name := by
      rcases List.mem_append.mp mem with hj | hj
      · obtain ⟨m', hmem', hm'⟩ := hfiles j hj
        obtain ⟨name, -, hin⟩ := exists_left_of_forall₂ hfs hmem'
        refine ⟨m', _, name, hm', fun hkind => ?_, hin⟩
        rw [hin.kind] at hkind
        cases hkind
      · obtain ⟨m', hmem', hm'⟩ := hdirectories j hj
        obtain ⟨name, -, hin⟩ := exists_left_of_forall₂ hds hmem'
        exact ⟨m', _, name, hm', fun hkind => Node.mem_folders_of_mem hmem hshape hmem' hkind, hin⟩
    refine ⟨m', name :: names, hm', hfolder', List.forall_mem_cons.mpr ⟨hin.isName, hnames⟩,
      .cons ?_ hasked, ?_⟩
    · rw [hm'.unfolds.ask_name, hin.name]
    · rw [hin.path, ← Path.joinAll_singleton, Path.joinAll_joinAll (by simpa using hnames),
        List.reverse_cons]

/-- A tree that was planted and is held has its top in reach, without a parent. -/
theorem represents_hold_plant (n : Node) (s : Store) (label : String) :
    let t := (s.plant n).2.hold label (some (s.plant n).1)
    t.Represents (s.plant n).1 n ∧ t.Reaches (s.plant n).1 ∧ t.remembered (s.plant n).1 = none := by
  have hgrown := grown_plant n.within_any s
  refine ⟨(represents_plant n s).mono (fun j e he => ⟨e, he, rfl, rfl⟩) fun _ _ h => h,
    .held (hgrown.tops_new _ (by simp)).2 ?_, hgrown.tops_free _ (by simp)⟩
  simp [roots, hold]

end Store

namespace Load

/-! ### Main statement -/

/-- A configuration asks for a selection and names a dialect, or none. -/
structure Selection.Asked (s : Selection) (dialect : Option Value) (config : Value) : Prop where
  config : ∃ fields scanning, config = .table fields
    ∧ Config.dialect? fields = .ok dialect
    ∧ Config.sectionOf fields "scanning" = .table scanning
    ∧ (Value.lookup "patterns" scanning).getD (.list [.text "*.feature".toList])
      = .list (s.patterns.map .text)
    ∧ (Value.lookup "skip_dirs" scanning).getD (.list []) = .list (s.skipDirs.map .text)
    ∧ (Value.lookup "skip_files" scanning).getD (.list []) = .list (s.skipFiles.map .text)
    ∧ (Value.lookup "recursive" scanning).getD (.bool true) = .bool s.recursive
  patterns : s.patterns ≠ []

/-- A setting that is a list of texts, or its default, is read as these texts. -/
theorem entriesOf_eq {v : Option Value} {texts : List Text} (default : List Text)
    (h : v.getD (.list (default.map .text)) = .list (texts.map .text))
    (hempty : texts ≠ [] ∨ default = []) :
    Scanner.entriesOf (v.getD .null) (.list (default.map .text))
      = .ok (.list (texts.map .text)) := by
  cases v with
  | none => exact congrArg Except.ok h
  | some v =>
    obtain rfl : v = .list (texts.map .text) := h
    rcases hempty with hne | rfl
    · obtain ⟨t, ts, rfl⟩ := List.exists_cons_of_ne_nil hne
      rfl
    · cases texts <;> rfl

/-- The configuration asks for directories to be loaded by the selection, in the dialect. -/
theorem plan_of_asked {s : Selection} {dialect : Option Value} {config : Value}
    (h : s.Asked dialect config) : Plan.ofConfig config = .ok (s.plan (dialect.getD .null)) := by
  obtain ⟨⟨fields, scanning, rfl, hdialect, hsection, hpatterns, hdirs, hfiles, hrecursive⟩,
    hne⟩ := h
  have hscanner : Scanner.ofConfig fields = .ok (s.plan (dialect.getD .null)).scanner := by
    have hp := entriesOf_eq ["*.feature".toList] hpatterns (.inl hne)
    have hd := entriesOf_eq [] hdirs (.inr rfl)
    have hf := entriesOf_eq [] hfiles (.inr rfl)
    simp only [List.map_cons, List.map_nil] at hp hd hf
    simp only [Scanner.ofConfig, hsection, hp, hd, hf, bind, Except.bind]
    rfl
  have hrec : Config.recursive fields = .ok s.recursive := by
    simp only [Config.recursive, hsection, hrecursive]
    rfl
  simp only [Plan.ofConfig, Config.fieldsOf, hscanner, hrec, dialectOf, hdialect, bind, Except.bind]
  rfl

/-- A directory whose selected files can all be read is loaded as a tree that mirrors the directory,
and when this is planted in a store and held by a label, the ancestors of each feature file and
directory in it are the directories around it, and their names spell its path. As soon as one
selected file cannot be read, loading fails, as the reading of a selected file does. The path is
any that leads to the directory: an absolute one too, among all files there are. -/
theorem fromPath_mirrors (w : Workspace) (default config : Value) (path : Text) (s : Selection)
    (dialect : Option Value) (entries : List (Text × FileTree)) (hconfig : s.Asked dialect config)
    (hfind : w.find path = .ok (.directory entries))
    (hnames : (FileTree.directory entries).WellNamed) :
    let read := readBytes default (dialect.getD .null)
    let top := Path.normal path
    ((∀ dirs name bytes, s.Finds (.directory entries) dirs name bytes →
        ∃ m, read (Path.joinAll top (dirs ++ [name])) bytes = .ok m) →
      ∃ n, fromPath w default path config = .ok n
        ∧ Mirrors s read (.directory entries) top n
        ∧ ∀ (store : Store) (label : String),
          let root := (store.plant n).1
          let held := (store.plant n).2.hold label (some root)
          ∀ around j, held.Lies root around j → held.ancestors j = around
            ∧ ∃ names, List.Forall₂ (fun i name =>
                held.ask (.node i) (.text .name) = .ok (.text name)) (j :: around).dropLast names
              ∧ held.ask (.node j) (.text .path)
                = .ok (.text (Path.joinAll top names.reverse)))
      ∧ ∀ dirs name bytes fault, s.Finds (.directory entries) dirs name bytes →
        read (Path.joinAll top (dirs ++ [name])) bytes = .error fault →
        ∃ fault', fromPath w default path config = .error fault'
          ∧ ∃ dirs' name' bytes', s.Finds (.directory entries) dirs' name' bytes'
            ∧ read (Path.joinAll top (dirs' ++ [name'])) bytes' = .error fault' := by
  intro read top
  have hload : fromPath w default path config
      = directory (s.plan (dialect.getD .null)) default (.directory entries) top := by
    simp only [fromPath, plan_of_asked hconfig, hfind, bind, Except.bind]
    rfl
  have hmirrors : ∀ n, fromPath w default path config = .ok n →
      Mirrors s read (.directory entries) top n := fun n hn =>
    mirrors_directory hnames (Path.normal_normal path) (hload.symm.trans hn)
  have herror : ∀ fault, fromPath w default path config = .error fault →
      ∃ dirs name bytes, s.Finds (.directory entries) dirs name bytes
        ∧ read (Path.joinAll top (dirs ++ [name])) bytes = .error fault := fun fault hf =>
    exists_of_directory_error hnames rfl (hload.symm.trans hf)
  constructor
  · intro hread
    cases hresult : fromPath w default path config with
    | error fault =>
      obtain ⟨dirs, name, bytes, hfinds, hfault⟩ := herror fault hresult
      obtain ⟨m, hm⟩ := hread dirs name bytes hfinds
      cases hm.symm.trans hfault
    | ok n =>
      have hmirror := hmirrors n hresult
      refine ⟨n, rfl, hmirror, fun store label => ?_⟩
      intro root held around j hlies
      obtain ⟨hrep, hreach, hfree⟩ := Store.represents_hold_plant n store label
      obtain ⟨files, directories, rfl, -⟩ := directory_inv (hload.symm.trans hresult)
      have htop : Path.joinAll top [] = top :=
        (Path.joinAll_nil top).trans (Path.normal_normal path)
      obtain ⟨m, names, hm, -, -, hasked, hpath⟩ := Store.spells_of_lies hmirror
        (by rw [Node.folders_directory]; exact List.mem_cons_self) (by rw [htop]; rfl) hrep hlies
      exact ⟨Store.ancestors_of_lies hlies hrep hreach hfree, names, hasked,
        (hm.unfolds.ask_text .path).trans (congrArg Fault.ofOption hpath)⟩
  · intro dirs name bytes fault hfinds hfault
    cases hresult : fromPath w default path config with
    | error fault' => exact ⟨fault', rfl, herror fault' hresult⟩
    | ok n =>
      obtain ⟨m, hm⟩ := (hmirrors n hresult).readable dirs name bytes hfinds
      cases hm.symm.trans hfault

/-- A directory with an empty document and an empty directory is loaded by its absolute path. -/
theorem fromPath_mirrors_small :
    let s : Selection := ⟨["*.feature".toList], [], [], true⟩
    let entries : List (Text × FileTree) :=
      [("b.feature".toList, .file ⟨#[]⟩), (['a'], .directory [])]
    let w : Workspace := ⟨⟨.directory [(['t'], .directory entries)], true⟩, []⟩
    ∃ n, fromPath w (.text ['e', 'n']) ['/', 't'] (.table Config.defaults) = .ok n
      ∧ Mirrors s (readBytes (.text ['e', 'n']) (.text ['e', 'n'])) (.directory entries) ['/', 't']
        n := by
  intro s entries w
  have hconfig : s.Asked (some (.text ['e', 'n'])) (.table Config.defaults) :=
    ⟨⟨_, _, rfl, rfl, rfl, rfl, rfl, rfl, rfl⟩, by simp [s]⟩
  have hnames : (FileTree.directory entries).WellNamed := by
    refine .directory (by decide) ?_ ?_
    · rintro e he
      rcases List.mem_cons.mp he with rfl | he
      · exact ⟨by decide, by decide, by decide⟩
      · obtain rfl := List.mem_singleton.mp he
        exact ⟨by decide, by decide, by decide⟩
    · rintro e he
      rcases List.mem_cons.mp he with rfl | he
      · exact .file _
      · obtain rfl := List.mem_singleton.mp he
        exact .directory (by simp) (by simp) (by simp)
  have hread : ∀ dirs name bytes, s.Finds (.directory entries) dirs name bytes →
      ∃ m, readBytes (.text ['e', 'n']) (.text ['e', 'n'])
        (Path.joinAll ['/', 't'] (dirs ++ [name])) bytes = .ok m := by
    intro dirs name bytes hfinds
    rcases (Selection.finds_directory (by decide)).mp hfinds with
      ⟨rfl, he⟩ | ⟨e, he, rest, rfl, hrest⟩
    · have hmem := (Selection.mem_files.mp he).1
      simp only [entries, List.mem_cons, Prod.mk.injEq, FileTree.file.injEq, reduceCtorEq,
        and_false, List.not_mem_nil, or_false] at hmem
      obtain ⟨rfl, rfl⟩ := hmem
      exact ⟨_, rfl⟩
    · obtain ⟨hmem, ⟨inner, hinner⟩, -⟩ := Selection.mem_directories.mp he
      simp only [entries, List.mem_cons, List.not_mem_nil, or_false] at hmem
      rcases hmem with rfl | rfl
      · cases hinner
      · cases rest <;> simp [Selection.Finds, FileTree.at?] at hrest
  have hfind : w.find ['/', 't'] = .ok (.directory entries) :=
    Workspace.find_of_at? rfl (by decide) rfl (by decide) rfl
  obtain ⟨n, hn, hmirror, -⟩ := (fromPath_mirrors w (.text ['e', 'n']) _ ['/', 't'] s _ entries
    hconfig hfind hnames).1 hread
  exact ⟨n, hn, hmirror⟩

end Load

end FeatureTree
