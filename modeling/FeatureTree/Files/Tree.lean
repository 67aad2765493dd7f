import FeatureTree.Files.Path

/-!
# File trees

A file tree is a file with its bytes or a directory with named entries. Directories are always gone
through in the order of names, code point by code point.

## Main results

* `FileTree.fold_directory`: the equation by which a directory is folded
* `FileTree.mem_sorted`: sorting neither adds nor loses entries
-/

namespace FeatureTree

/-- A file, or a directory with its entries. -/
inductive FileTree where
  | file (bytes : ByteArray)
  | directory (entries : List (Text × FileTree))
deriving Inhabited

namespace FileTree

variable {β : Type}

/-- Named things in the order of their names. -/
def sorted (entries : List (Text × β)) : List (Text × β) :=
  entries.mergeSort fun a b => ¬ b.1 < a.1

mutual

/-- Computes a result for a tree from the bytes of a file, or from the entries of a directory, each
next to its own result. -/
def fold (file : ByteArray → β) (directory : List (Text × FileTree × β) → β) : FileTree → β
  | .file bytes => file bytes
  | .directory entries => directory (foldEntries file directory entries)

/-- The entries of a directory with their results. -/
def foldEntries (file : ByteArray → β) (directory : List (Text × FileTree × β) → β) :
    List (Text × FileTree) → List (Text × FileTree × β)
  | [] => []
  | (name, t) :: entries => (name, t, t.fold file directory) :: foldEntries file directory entries

end

/-- Whether a tree is a file. -/
def isFile : FileTree → Bool
  | .file _ => true
  | .directory _ => false

/-- The tree at a path of names. -/
def at? : List Text → FileTree → Option FileTree
  | [], t => some t
  | _ :: _, .file _ => none
  | name :: path, .directory entries => (entries.lookup name).bind (at? path)

/-- Puts an entry in the place of the one with its name, or at the end. -/
def putEntry (name : Text) (t : FileTree) : List (Text × FileTree) → List (Text × FileTree)
  | [] => [(name, t)]
  | (n, u) :: entries =>
    if n = name then (name, t) :: entries else (n, u) :: putEntry name t entries

/-- Changes the tree at a path of names. Directories on the way that are missing are made. -/
def change (f : Option FileTree → FileTree) : List Text → Option FileTree → FileTree
  | [], t => f t
  | name :: path, some (.directory entries) =>
    .directory (putEntry name (change f path (entries.lookup name)) entries)
  | name :: path, _ => .directory [(name, change f path none)]

/-- Puts a file at a path of names. -/
def withFile (t : FileTree) (path : List Text) (bytes : ByteArray) : FileTree :=
  change (fun _ => .file bytes) path (some t)

/-- Makes a directory at a path of names, if nothing is there. -/
def withDirectory (t : FileTree) (path : List Text) : FileTree :=
  change (fun old => old.getD (.directory [])) path (some t)

/-! ### Laws -/

/-- Folding the entries of a directory folds each of them. -/
@[simp] theorem foldEntries_eq_map (file : ByteArray → β)
    (directory : List (Text × FileTree × β) → β) (entries : List (Text × FileTree)) :
    foldEntries file directory entries =
      entries.map fun (name, t) => (name, t, t.fold file directory) := by
  induction entries with
  | nil => rfl
  | cons e entries ih => simp [foldEntries, ih]

/-- A directory is folded from its entries and their folds. -/
theorem fold_directory (file : ByteArray → β) (directory : List (Text × FileTree × β) → β)
    (entries : List (Text × FileTree)) :
    (FileTree.directory entries).fold file directory =
      directory (entries.map fun (name, t) => (name, t, t.fold file directory)) := by
  rw [fold, foldEntries_eq_map]

/-- Sorting neither adds nor loses entries. -/
@[simp] theorem mem_sorted {entries : List (Text × β)} {e : Text × β} :
    e ∈ sorted entries ↔ e ∈ entries := by
  simp [sorted]

end FileTree

end FeatureTree
