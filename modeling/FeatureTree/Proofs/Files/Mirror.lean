import FeatureTree.Proofs.Files.Loading
import FeatureTree.Proofs.Store.Planting

/-!
# Loaded directories mirror file trees

A directory that was loaded has a feature file for every file that is selected and a directory for
every directory that is gone through, each once and at the path that leads there, and no others.
Each directory has what is directly in it, in the order of names.

## Main results

* `Load.mirrors_directory`: what was loaded mirrors the file tree
* `Load.fromPath_mirrors`: a directory whose selected files can all be read is loaded and mirrors
  the file tree, and one with a selected file that cannot be read is not loaded
-/

namespace FeatureTree

namespace Node

/-- The path of a feature file or a directory. -/
def path? (n : Node) : Option Value := n.shape.field? .path

/-- The feature files in a directory and in those below it. -/
def documents : Node → List Node := fold fun _ shape =>
  match shape with
  | .directory _ files directories => files.map (·.1) ++ directories.flatMap (·.2)
  | _ => []

/-- A directory and those below it. -/
def folders : Node → List Node := fold fun origin shape =>
  match shape with
  | .directory path files directories =>
    .mk origin (.directory path (files.map (·.1)) (directories.map (·.1)))
      :: directories.flatMap (·.2)
  | _ => []

/-- The documents of a directory are its own and those of its directories. -/
theorem documents_directory (o : Origin) (path : Value) (files directories : List Node) :
    documents (.mk o (.directory path files directories))
      = files ++ directories.flatMap documents := by
  simp [documents, fold_mk, Shape.map, List.flatMap_map, Function.comp_def]

/-- The directories of a tree are the one at its top and those below. -/
theorem folders_directory (o : Origin) (path : Value) (files directories : List Node) :
    folders (.mk o (.directory path files directories))
      = .mk o (.directory path files directories) :: directories.flatMap folders := by
  simp [folders, fold_mk, Shape.map, List.flatMap_map, Function.comp_def]

/-- A directory in a directory counts among those below whatever that one is below. -/
theorem mem_folders_of_mem {n m d : Node} {path : Value} {files directories : List Node}
    (hm : m ∈ n.folders) (hshape : m.shape = .directory path files directories)
    (hd : d ∈ directories) (hkind : d.kind = .directory) : d ∈ n.folders := by
  have hself : d ∈ d.folders := by
    obtain ⟨o, shape⟩ := d
    cases shape with
    | directory => simp [folders_directory]
    | _ => cases hkind
  induction n using Node.induction with
  | mk o shape ih =>
    cases shape with
    | directory p fs ds =>
      rw [folders_directory] at hm ⊢
      refine List.mem_cons_of_mem _ (List.mem_flatMap.mpr ?_)
      rcases List.mem_cons.mp hm with rfl | hm
      · cases hshape
        exact ⟨d, hd, hself⟩
      · obtain ⟨d', hd', hm⟩ := List.mem_flatMap.mp hm
        exact ⟨d', hd', ih d' (by simp [Shape.parts, Shape.children, hd']) hm⟩
    | _ => simp [folders, fold_mk, Shape.map] at hm

/-- What is directly in a directory of some path: a node of a kind that has a name and the path to
which this name leads. -/
structure IsIn (kind : Kind) (path name : Text) (n : Node) : Prop where
  isName : Path.IsName name
  kind : n.kind = kind
  path : n.path? = some (.text (Path.join path name))
  name : n.nameOf = .ok (.text name)

end Node

namespace FileTree

/-- Entries with names of their own are sorted strictly. -/
theorem sorted_pairwise {β : Type} {entries : List (Text × β)}
    (h : (entries.map Prod.fst).Nodup) : (sorted entries).Pairwise fun a b => a.1 < b.1 := by
  have hle : (sorted entries).Pairwise fun a b => ¬ b.1 < a.1 := by
    refine (List.pairwise_mergeSort (fun a b c hab hbc => ?_) (fun a b => ?_) entries).imp
      fun hab => of_decide_eq_true hab
    · rw [decide_eq_true_eq] at hab hbc ⊢
      exact List.not_lt.mpr (List.le_trans (List.not_lt.mp hab) (List.not_lt.mp hbc))
    · rw [Bool.or_eq_true, decide_eq_true_eq, decide_eq_true_eq]
      exact (List.le_total a.1 b.1).imp List.not_lt.mpr List.not_lt.mpr
  have hne : (sorted entries).Pairwise fun a b => a.1 ≠ b.1 := by
    rw [← List.pairwise_map]
    exact ((List.mergeSort_perm entries _).map Prod.fst).nodup_iff.mpr h
  refine (hle.and hne).imp fun {a b} hab => ?_
  by_contra hlt
  exact hab.2 (List.le_antisymm (List.not_lt.mp hab.1) (List.not_lt.mp hlt))

/-- What a path of names leads past are names. -/
theorem WellNamed.isName_of_at? {t u : FileTree} (h : t.WellNamed) {names : List Text}
    (hat : t.at? names = some u) : ∀ name ∈ names, Path.IsName name := by
  induction h generalizing names with
  | file => cases names <;> simp_all [at?]
  | @directory entries distinct hnames _ ih =>
    cases names with
    | nil => simp
    | cons name names =>
      obtain ⟨v, hv, hat⟩ := (at?_cons distinct).mp hat
      exact List.forall_mem_cons.mpr ⟨hnames _ hv, ih _ hv hat⟩

end FileTree

namespace Load

variable {s : Selection} {default dialect : Value} {t : FileTree}
  {entries : List (Text × FileTree)} {path : Text} {n : Node}

namespace Selection

/-- Files are listed in the order of their names. -/
theorem files_pairwise (h : (entries.map Prod.fst).Nodup) :
    (s.files entries).Pairwise fun a b => a.1 < b.1 := by
  refine (FileTree.sorted_pairwise h).filterMap _ ?_
  rintro ⟨a, t⟩ ⟨b, u⟩ hab x hx y hy
  cases t <;> cases u <;> simp only [Option.ite_none_right_eq_some, reduceCtorEq,
    Option.some.injEq] at hx hy
  rw [← hx.2, ← hy.2]
  exact hab

/-- Directories are listed in the order of their names. -/
theorem directories_pairwise (h : (entries.map Prod.fst).Nodup) :
    (s.directories entries).Pairwise fun a b => a.1 < b.1 :=
  (FileTree.sorted_pairwise h).filter _

end Selection

/-- A feature file that was read has the path that it was read from. -/
theorem exists_of_readBytes {bytes : ByteArray} {m : Node}
    (h : readBytes default dialect path bytes = .ok m) :
    ∃ o held comments, m = .mk o (.featureFile (.text path) held comments) := by
  obtain ⟨text, -, h⟩ := bind_ok h
  obtain ⟨d, -, h⟩ := bind_ok h
  rw [Node.buildFile] at h
  split at h
  · cases h
    exact ⟨_, _, _, rfl⟩
  · cases h

/-- A file that is read is a feature file with the path of its directory and its name. -/
theorem isIn_of_readBytes {name : Text} (hname : Path.IsName name) {bytes : ByteArray} {m : Node}
    (h : readBytes default dialect (Path.join path name) bytes = .ok m) :
    m.IsIn .featureFile path name := by
  obtain ⟨o, held, comments, rfl⟩ := exists_of_readBytes h
  exact ⟨hname, rfl, rfl, congrArg (fun t => Except.ok (Value.text t)) (Path.baseName_join hname)⟩

/-- A directory that is loaded has the path of the directory around it and its name. -/
theorem isIn_of_directory {name : Text} (hname : Path.IsName name)
    (h : directory (s.plan dialect) default t (Path.join path name) = .ok n) :
    n.IsIn .directory path name := by
  cases t with
  | file => cases h
  | directory =>
    obtain ⟨files, directories, rfl, -⟩ := directory_inv h
    exact ⟨hname, rfl, rfl, congrArg (fun t => Except.ok (Value.text t)) (Path.baseName_join hname)⟩

/-! ### What a mirror is -/

/-- A loaded directory mirrors a file tree at a path: it has the feature files that are selected and
the directories that are gone through, each once and at its path, and in each directory what is
directly in it, in the order of names. -/
structure Mirrors (s : Selection) (read : Text → ByteArray → Except Fault Node) (t : FileTree)
    (path : Text) (n : Node) : Prop where
  /-- Every selected file could be read. -/
  readable : ∀ dirs name bytes, s.Finds t dirs name bytes →
    ∃ m, read (Path.joinAll path (dirs ++ [name])) bytes = .ok m
  /-- The feature files are what was read from the selected files. -/
  document : ∀ m, m ∈ n.documents ↔ ∃ dirs name bytes, s.Finds t dirs name bytes
    ∧ m.IsIn .featureFile (Path.joinAll path dirs) name
    ∧ read (Path.joinAll path (dirs ++ [name])) bytes = .ok m
  documentOnce : (n.documents.map Node.path?).Nodup
  /-- The directories are those that are gone through. -/
  folder : ∀ p, (∃ m ∈ n.folders, m.path? = some (.text p))
    ↔ ∃ dirs, s.Visits t dirs ∧ p = Path.joinAll path dirs
  folderOnce : (n.folders.map Node.path?).Nodup
  /-- Every directory has what is in it, in the order of names. -/
  inside : ∀ m ∈ n.folders, ∃ p files directories fileNames directoryNames,
    m.shape = .directory (.text p) files directories
      ∧ List.Forall₂ (Node.IsIn .featureFile p) fileNames files ∧ fileNames.Pairwise (· < ·)
      ∧ List.Forall₂ (Node.IsIn .directory p) directoryNames directories
      ∧ directoryNames.Pairwise (· < ·)

/-- Ways down whose first names differ lead to different paths. -/
theorem joinAll_ne {names names' : List Text} {a b : Text} (hab : a < b)
    (h : ∀ name ∈ a :: names, Path.IsName name) (h' : ∀ name ∈ b :: names', Path.IsName name) :
    Path.joinAll path (a :: names) ≠ Path.joinAll path (b :: names') := by
  intro heq
  obtain ⟨rfl, -⟩ := List.cons.inj (Path.joinAll_injective h h' heq)
  exact List.lt_irrefl _ hab

/-- In lists of nodes below the entries of a directory, one for each entry in the order of names,
no path stands twice if none does in each list. -/
theorem nodup_below {α : Type} {es : List (Text × α)} {ms : List Node}
    {R : Text × α → Node → Prop} (below : Node → List Node) (h : List.Forall₂ R es ms)
    (hes : es.Pairwise fun a b => a.1 < b.1)
    (honce : ∀ e m, R e m → ((below m).map Node.path?).Nodup)
    (hpaths : ∀ e m, R e m → ∀ n ∈ below m, ∃ names, (∀ name ∈ e.1 :: names, Path.IsName name)
      ∧ n.path? = some (.text (Path.joinAll path (e.1 :: names)))) :
    ((ms.flatMap below).map Node.path?).Nodup := by
  rw [List.map_flatMap, List.Nodup, List.pairwise_flatMap]
  refine ⟨fun m hm => ?_, pairwise_of_forall₂ h hes fun e e' m m' hr hr' hlt => ?_⟩
  · obtain ⟨e, -, hr⟩ := exists_left_of_forall₂ h hm
    exact honce e m hr
  · simp only [List.forall_mem_map]
    intro n hn n' hn' heq
    obtain ⟨names, hnames, hpath⟩ := hpaths e m hr n hn
    obtain ⟨names', hnames', hpath'⟩ := hpaths e' m' hr' n' hn'
    rw [hpath, hpath', Option.some.injEq, Value.text.injEq] at heq
    exact joinAll_ne hlt hnames hnames' heq

/-- What is loaded at a path of names below a directory is at this path. -/
theorem Mirrors.paths {read : Text → ByteArray → Except Fault Node} {name : Text}
    (h : t.WellNamed) (hname : Path.IsName name) (hm : Mirrors s read t (Path.join path name) n) :
    (∀ m ∈ n.documents, ∃ dir names,
        (∀ x ∈ name :: dir :: names, Path.IsName x)
          ∧ m.path? = some (.text (Path.joinAll path (name :: dir :: names))))
      ∧ ∀ m ∈ n.folders, ∃ names, (∀ x ∈ name :: names, Path.IsName x)
        ∧ m.path? = some (.text (Path.joinAll path (name :: names))) := by
  constructor
  · intro m hmem
    obtain ⟨dirs, file, bytes, hfinds, hin, -⟩ := (hm.document m).mp hmem
    have hnames := h.isName_of_at? hfinds.1
    rw [Path.joinAll_join hname] at hin
    have hpath := hin.path
    rw [← Path.joinAll_singleton, Path.joinAll_joinAll (List.forall_mem_cons.mpr
      ⟨hname, fun x hx => hnames x (by simp [hx])⟩), List.cons_append] at hpath
    obtain ⟨dir, names, heq⟩ := List.exists_cons_of_ne_nil (l := dirs ++ [file]) (by simp)
    rw [heq] at hpath hnames
    exact ⟨dir, names, List.forall_mem_cons.mpr ⟨hname, hnames⟩, hpath⟩
  · intro m hmem
    obtain ⟨p, _, _, _, _, hshape, -⟩ := hm.inside m hmem
    have hpath : m.path? = some (.text p) := by rw [Node.path?, hshape]; rfl
    obtain ⟨dirs, ⟨⟨_, hat⟩, -⟩, rfl⟩ := (hm.folder p).mp ⟨m, hmem, hpath⟩
    rw [Path.joinAll_join hname] at hpath
    exact ⟨dirs, List.forall_mem_cons.mpr ⟨hname, h.isName_of_at? hat⟩, hpath⟩

/-! ### One directory -/

/-- The lists of a directory at a path: what was read from the selected files among some entries,
and mirrors of the directories that are gone into. -/
structure Lists (s : Selection) (read : Text → ByteArray → Except Fault Node)
    (entries : List (Text × FileTree)) (path : Text) (files directories : List Node) : Prop where
  wellNamed : (FileTree.directory entries).WellNamed
  normal : Path.normal path = path
  files : List.Forall₂ (fun e m => m.IsIn .featureFile path e.1
    ∧ read (Path.join path e.1) e.2 = .ok m) (s.files entries) files
  directories : List.Forall₂ (fun e m => m.IsIn .directory path e.1
    ∧ Mirrors s read e.2 (Path.join path e.1) m) (s.directories entries) directories

namespace Lists

variable {read : Text → ByteArray → Except Fault Node} {files directories : List Node}
  (h : Lists s read entries path files directories)

include h

/-- Names in a directory differ. -/
theorem distinct : (entries.map Prod.fst).Nodup := by
  cases h.wellNamed
  assumption

/-- Names in a directory are names. -/
theorem isName {e : Text × FileTree} (he : e ∈ entries) : Path.IsName e.1 := by
  cases h.wellNamed with
  | directory _ names _ => exact names e he

/-- A path that is in normal form stays as it is where nothing is joined to it. -/
theorem joinAll_nil : Path.joinAll path [] = path := (Path.joinAll_nil path).trans h.normal

/-- The directories in a directory, with all that is known of each. -/
theorem inner : List.Forall₂ (fun e m => (e ∈ s.directories entries ∧ Path.IsName e.1
      ∧ (∀ names, Path.joinAll (Path.join path e.1) names = Path.joinAll path (e.1 :: names))
      ∧ e.2.WellNamed) ∧ m.IsIn .directory path e.1 ∧ Mirrors s read e.2 (Path.join path e.1) m)
    (s.directories entries) directories := by
  refine (forall₂_with_mem h.directories).imp fun e m hm => ⟨?_, hm.2⟩
  have hmem := (Selection.mem_directories.mp hm.1).1
  cases h.wellNamed with
  | directory _ names inner =>
    exact ⟨hm.1, names e hmem, Path.joinAll_join (names e hmem), inner e hmem⟩

/-- Every selected file can be read. -/
theorem readable (dirs : List Text) (name : Text) (bytes : ByteArray)
    (hfinds : s.Finds (.directory entries) dirs name bytes) :
    ∃ m, read (Path.joinAll path (dirs ++ [name])) bytes = .ok m := by
  rcases (Selection.finds_directory h.distinct).mp hfinds with ⟨rfl, he⟩ | ⟨e, he, rest, rfl, hrest⟩
  · obtain ⟨m, -, -, hread⟩ := exists_right_of_forall₂ h.files he
    exact ⟨m, hread⟩
  · obtain ⟨m, -, ⟨-, -, hjoin, -⟩, -, hmirror⟩ := exists_right_of_forall₂ h.inner he
    obtain ⟨m, hread⟩ := hmirror.readable rest name bytes hrest
    exact ⟨m, (hjoin _).symm ▸ hread⟩

/-- Documents are what is read from the files that are found, and nothing else. -/
theorem document (m : Node) :
    m ∈ files ++ directories.flatMap Node.documents
      ↔ ∃ dirs name bytes, s.Finds (.directory entries) dirs name bytes
        ∧ m.IsIn .featureFile (Path.joinAll path dirs) name
        ∧ read (Path.joinAll path (dirs ++ [name])) bytes = .ok m := by
  rw [List.mem_append, List.mem_flatMap]
  constructor
  · rintro (hm | ⟨d, hd, hm⟩)
    · obtain ⟨e, he, hin, hread⟩ := exists_left_of_forall₂ h.files hm
      exact ⟨[], e.1, e.2, (Selection.finds_directory h.distinct).mpr (.inl ⟨rfl, he⟩),
        h.joinAll_nil.symm ▸ hin, hread⟩
    · obtain ⟨e, -, ⟨he, -, hjoin, -⟩, -, hmirror⟩ := exists_left_of_forall₂ h.inner hd
      obtain ⟨dirs, name, bytes, hfinds, hin, hread⟩ := (hmirror.document m).mp hm
      rw [hjoin] at hin hread
      exact ⟨e.1 :: dirs, name, bytes,
        (Selection.finds_directory h.distinct).mpr (.inr ⟨e, he, dirs, rfl, hfinds⟩), hin, hread⟩
  · rintro ⟨dirs, name, bytes, hfinds, hin, hread⟩
    rcases (Selection.finds_directory h.distinct).mp hfinds with
      ⟨rfl, he⟩ | ⟨e, he, rest, rfl, hrest⟩
    · obtain ⟨m', hm', -, hread'⟩ := exists_right_of_forall₂ h.files he
      obtain rfl : m = m' := Except.ok.inj (hread.symm.trans hread')
      exact .inl hm'
    · obtain ⟨d, hd, ⟨-, -, hjoin, -⟩, -, hmirror⟩ := exists_right_of_forall₂ h.inner he
      refine .inr ⟨d, hd, (hmirror.document m).mpr ⟨rest, name, bytes, hrest, ?_, ?_⟩⟩
      · rwa [hjoin]
      · rwa [hjoin]

/-- No two documents have the same path. -/
theorem documentOnce : ((files ++ directories.flatMap Node.documents).map Node.path?).Nodup := by
  rw [List.map_append, List.nodup_append]
  refine ⟨?_, ?_, ?_⟩
  · -- the files themselves, each as the only one below its entry
    have honce := nodup_below (fun m => [m]) (forall₂_with_mem h.files)
      (Selection.files_pairwise h.distinct) (fun e m _ => by simp) fun e m hm n hn => by
        obtain rfl := List.mem_singleton.mp hn
        exact ⟨[], by simpa using h.isName (Selection.mem_files.mp hm.1).1, hm.2.1.path⟩
    simpa using honce
  · exact nodup_below _ h.inner (Selection.directories_pairwise h.distinct)
      (fun e m hm => hm.2.2.documentOnce) fun e m hm n hn => by
        obtain ⟨dir, names, hnames, hpath⟩ := (hm.2.2.paths hm.1.2.2.2 hm.1.2.1).1 n hn
        exact ⟨dir :: names, hnames, hpath⟩
  · simp only [List.forall_mem_map, List.mem_flatMap]
    rintro f hf m ⟨d, hd, hm⟩ heq
    obtain ⟨e, he, hin, -⟩ := exists_left_of_forall₂ h.files hf
    obtain ⟨e', -, ⟨-, hname, -, hwell⟩, -, hmirror⟩ := exists_left_of_forall₂ h.inner hd
    obtain ⟨dir, names, hnames, hpath⟩ := (hmirror.paths hwell hname).1 m hm
    rw [hin.path, hpath, Option.some.injEq, Value.text.injEq] at heq
    have hfile : ∀ name ∈ [e.1], Path.IsName name := by
      simpa using h.isName (Selection.mem_files.mp he).1
    have hsame := Path.joinAll_injective hfile hnames heq
    simp at hsame

/-- Directories stand for the directories that are visited, and for no others. -/
theorem folder (o : Origin) (p : Text) :
    (∃ m ∈ Node.mk o (.directory (.text path) files directories)
        :: directories.flatMap Node.folders, m.path? = some (.text p))
      ↔ ∃ dirs, s.Visits (.directory entries) dirs ∧ p = Path.joinAll path dirs := by
  constructor
  · rintro ⟨m, hm, hp⟩
    rcases List.mem_cons.mp hm with rfl | hm
    · obtain rfl : path = p := by simpa [Node.path?, Node.shape, Shape.field?] using hp
      exact ⟨[], (Selection.visits_directory h.distinct).mpr (.inl rfl), h.joinAll_nil.symm⟩
    · obtain ⟨d, hd, hm⟩ := List.mem_flatMap.mp hm
      obtain ⟨e, -, ⟨he, -, hjoin, -⟩, -, hmirror⟩ := exists_left_of_forall₂ h.inner hd
      obtain ⟨dirs, hvisits, rfl⟩ := (hmirror.folder p).mp ⟨m, hm, hp⟩
      exact ⟨e.1 :: dirs, (Selection.visits_directory h.distinct).mpr
        (.inr ⟨e, he, dirs, rfl, hvisits⟩), hjoin dirs⟩
  · rintro ⟨dirs, hvisits, rfl⟩
    rcases (Selection.visits_directory h.distinct).mp hvisits with rfl | ⟨e, he, rest, rfl, hrest⟩
    · exact ⟨_, List.mem_cons_self, congrArg (fun t => some (Value.text t)) h.joinAll_nil.symm⟩
    · obtain ⟨d, hd, ⟨-, -, hjoin, -⟩, -, hmirror⟩ := exists_right_of_forall₂ h.inner he
      obtain ⟨m, hm, hp⟩ := (hmirror.folder _).mpr ⟨rest, hrest, rfl⟩
      exact ⟨m, List.mem_cons_of_mem _ (List.mem_flatMap.mpr ⟨d, hd, hm⟩), hjoin rest ▸ hp⟩

/-- No two directories have the same path. -/
theorem folderOnce (o : Origin) :
    ((Node.mk o (.directory (.text path) files directories)
      :: directories.flatMap Node.folders).map Node.path?).Nodup := by
  rw [List.map_cons, List.nodup_cons]
  refine ⟨?_, nodup_below _ h.inner (Selection.directories_pairwise h.distinct)
    (fun e m hm => hm.2.2.folderOnce) fun e m hm => (hm.2.2.paths hm.1.2.2.2 hm.1.2.1).2⟩
  simp only [List.mem_map, List.mem_flatMap, not_exists, not_and]
  rintro m ⟨d, hd, hm⟩ heq
  obtain ⟨e, -, ⟨-, hname, -, hwell⟩, -, hmirror⟩ := exists_left_of_forall₂ h.inner hd
  obtain ⟨names, hnames, hpath⟩ := (hmirror.paths hwell hname).2 m hm
  have htop : (Node.mk o (.directory (.text path) files directories)).path?
      = some (.text (Path.joinAll path [])) := by
    rw [h.joinAll_nil]
    rfl
  rw [hpath, htop, Option.some.injEq, Value.text.injEq] at heq
  cases Path.joinAll_injective hnames (by simp) heq

/-- In every directory files and directories stand in the order of their names. -/
theorem inside (o : Origin) :
    ∀ m ∈ Node.mk o (.directory (.text path) files directories)
        :: directories.flatMap Node.folders,
      ∃ p files directories fileNames directoryNames,
        m.shape = .directory (.text p) files directories
          ∧ List.Forall₂ (Node.IsIn .featureFile p) fileNames files
          ∧ fileNames.Pairwise (· < ·)
          ∧ List.Forall₂ (Node.IsIn .directory p) directoryNames directories
          ∧ directoryNames.Pairwise (· < ·) := by
  intro m hm
  rcases List.mem_cons.mp hm with rfl | hm
  · refine ⟨path, files, directories, (s.files entries).map Prod.fst,
      (s.directories entries).map Prod.fst, rfl, ?_, ?_, ?_, ?_⟩
    · exact List.forall₂_map_left_iff.mpr (h.files.imp fun _ _ hm => hm.1)
    · exact List.pairwise_map.mpr (Selection.files_pairwise h.distinct)
    · exact List.forall₂_map_left_iff.mpr (h.directories.imp fun _ _ hm => hm.1)
    · exact List.pairwise_map.mpr (Selection.directories_pairwise h.distinct)
  · obtain ⟨d, hd, hm⟩ := List.mem_flatMap.mp hm
    obtain ⟨_, -, -, -, hmirror⟩ := exists_left_of_forall₂ h.inner hd
    exact hmirror.inside m hm

/-- A directory with such lists mirrors the entries. -/
theorem mirrors (o : Origin) : Mirrors s read (.directory entries) path
    (.mk o (.directory (.text path) files directories)) where
  readable := h.readable
  document m := by rw [Node.documents_directory, h.document]
  documentOnce := by
    rw [Node.documents_directory]
    exact h.documentOnce
  folder p := by rw [Node.folders_directory, h.folder]
  folderOnce := by
    rw [Node.folders_directory]
    exact h.folderOnce o
  inside := by
    rw [Node.folders_directory]
    exact h.inside o

end Lists

/-- What was loaded mirrors the file tree. -/
theorem mirrors_directory (h : t.WellNamed) (hpath : Path.normal path = path)
    (hload : directory (s.plan dialect) default t path = .ok n) :
    Mirrors s (readBytes default dialect) t path n := by
  induction h generalizing path n with
  | file => cases hload
  | @directory entries distinct names inner ih =>
    obtain ⟨files, dirs, rfl, hfiles, hdirs⟩ := directory_inv hload
    refine Lists.mirrors ⟨.directory distinct names inner, hpath,
      (forall₂_with_mem hfiles).imp fun e m hm => ⟨?_, hm.2⟩,
      (forall₂_with_mem hdirs).imp fun e m hm => ⟨?_, ?_⟩⟩ {}
    · exact isIn_of_readBytes (names _ (Selection.mem_files.mp hm.1).1) hm.2
    · exact isIn_of_directory (names _ (Selection.mem_directories.mp hm.1).1) hm.2
    · have hname := names _ (Selection.mem_directories.mp hm.1).1
      refine ih e (Selection.mem_directories.mp hm.1).1 ?_ hm.2
      rw [← Path.joinAll_nil, Path.joinAll_join hname, Path.joinAll_singleton]

end Load

end FeatureTree
