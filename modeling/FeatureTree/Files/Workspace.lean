import FeatureTree.Files.Decoding
import FeatureTree.Files.Tree
import FeatureTree.Config.Settings
import FeatureTree.Toml.Document

/-!
# Workspaces

A workspace is a file tree and a directory in it, from which paths start that are not absolute. The
tree can be all files there are: then absolute paths start at its top, and two dots, which lead to
the directory above, lead from the top to itself. Or the tree is a part of them: then it is not
known where absolute paths lead, nor what is above the top. Paths and their parts are of limited
length, and no path has a null character. The settings of a workspace are those of the nearest
configuration file at or above its directory, over the default settings, with the environment over
both.

## Main results

* `Workspace.find_empty`: an empty path leads to the directory that paths start from
* `Workspace.find_absolute`: an absolute path leads to the same from everywhere
* `Workspace.find_of_at?`: and it leads to what is at its names, among all files there are
-/

namespace FeatureTree

/-- A file tree that is all files there are, or a part of them. -/
structure Volume where
  tree : FileTree
  /-- Whether there is nothing above the top of the tree, so that absolute paths start there. -/
  isWhole : Bool := false

/-- A file tree of which nothing else is known is a part. -/
instance : Coe FileTree Volume := ⟨fun tree => { tree }⟩

/-- Files, and the names that lead from the top of their tree to the directory that paths start
from. -/
structure Workspace where
  volume : Volume
  here : List Text := []

namespace Workspace

/-- The file tree of a workspace. -/
def tree (w : Workspace) : FileTree := w.volume.tree

/-- The names that lead from the top of the tree to where a path starts: none if it is absolute, as
long as it is known where absolute paths start. -/
def startOf (w : Workspace) (path : Text) : Option (List Text) :=
  if (Path.root path).isEmpty then some w.here
  else if w.volume.isWhole then some []
  else none

/-- The length of a text in bytes. -/
def byteLength (t : Text) : Nat := t.foldr (fun c n => c.utf8Size + n) 0

/-- Whether a part of a path is longer than names can be, in bytes. -/
def isLongPart (part : Text) : Bool := 255 < byteLength part

/-- A path in its normal form, if there can be such a path at all. -/
def check (path : Text) : Except Fault Unit :=
  if path.contains '\x00' then .error .unusablePath
  else if 4096 ≤ byteLength (Path.normal path) then .error .pathTooLong
  else .ok ()

/-- Goes down from a tree by the parts of a path. The directories above are kept, nearest first.
Where there are none, two dots lead nowhere else if that is the top of all files. -/
def descend (isWhole : Bool) : List FileTree → FileTree → List Text → Except Fault FileTree
  | _, t, [] => .ok t
  | _, .file _, _ :: _ => .error .notADirectory
  | above, .directory entries, part :: path =>
    if isLongPart part then .error .pathTooLong
    else if part = ['.', '.'] then
      match above with
      | t :: above => descend isWhole above t path
      | [] => if isWhole then descend isWhole [] (.directory entries) path else .error .fileNotFound
    else
      match entries.lookup part with
      | some t => descend isWhole (.directory entries :: above) t path
      | none => .error .fileNotFound

/-- What a path leads to. -/
def find (w : Workspace) (path : Text) : Except Fault FileTree := do
  check path
  match w.startOf path with
  | some start => descend w.volume.isWhole [] w.tree (start ++ Path.parts path)
  | none => throw .fileNotFound

/-- The text of the file that a path leads to. -/
def read (w : Workspace) (path : Text) : Except Fault Text := do
  match ← w.find path with
  | .file bytes => Files.decode bytes
  | .directory _ => throw .isADirectory

/-- The entries of the directory that a path leads to. -/
def list (w : Workspace) (path : Text) : Except Fault (List (Text × FileTree)) := do
  match ← w.find path with
  | .file _ => throw .notADirectory
  | .directory entries => return entries

/-! ### The configuration -/

/-- The names that a path spells, whether or not something is there: two dots take the name before
them away. Above the top of the tree nothing is known, unless there is nothing. -/
def spell (w : Workspace) (path : Text) : Option (List Text) := do
  (Path.parts path).foldlM (fun names part =>
    if part = ['.', '.'] then
      (if names.isEmpty && !w.volume.isWhole then none else some names.dropLast)
    else some (names ++ [part])) (← w.startOf path)

/-- Whether a file is at a path of names. -/
def hasFile (w : Workspace) (names : List Text) : Bool :=
  match FileTree.at? names w.tree with
  | some t => t.isFile
  | none => false

/-- The name of configuration files. -/
def configName : Text := ".featuremodel.toml".toList

/-- The nearest configuration file at or above a directory, which is given by its names with the
last one in front. -/
def configAbove (w : Workspace) : List Text → Option (List Text)
  | [] => if w.hasFile [configName] then some [configName] else none
  | name :: above =>
    let names := (name :: above).reverse ++ [configName]
    if w.hasFile names then some names else configAbove w above

/-- The nearest configuration file at or above a path. A path to a file counts as one to the
directory around it. -/
def findConfig (w : Workspace) (path : Text) : Except Fault (Option (List Text)) := do
  check path
  match w.spell path with
  | none => return none
  | some names =>
    match descend w.volume.isWhole [] w.tree names with
    | .error .pathTooLong => throw .pathTooLong
    | .ok (.file _) => return w.configAbove names.dropLast.reverse
    | _ => return w.configAbove names.reverse

/-- The text of the configuration file that is to be used: the one at a path if one is given, else
the nearest one. -/
def configText (w : Workspace) (path : Option Text) : Except Fault (Option Text) := do
  match path with
  | some path => return some (← w.read path)
  | none =>
    match ← w.findConfig [] with
    | none => return none
    | some names =>
      match FileTree.at? names w.tree with
      | some (.file bytes) => return some (← Files.decode bytes)
      | _ => throw .fileNotFound

/-- The settings of a workspace under the variables of an environment, where files of settings are
read in some way. Of what is read only the tables are looked into. So a reader can give what is no
table in any form, dates and times among it, which are no sort of value of their own. -/
def configBy (w : Workspace) (read : Text → Except Fault Config.Fields)
    (environment : List (Text × Text)) (path : Option Text) : Except Fault Config.Fields := do
  let fields ← match ← w.configText path with
    | none => pure []
    | some t => read t
  Config.applyVariables (Config.merge Config.defaults fields) environment

/-- The settings of a workspace under the variables of an environment. Files of settings have no
dates and times in them. -/
def config (w : Workspace) (environment : List (Text × Text)) (path : Option Text) :
    Except Fault Config.Fields :=
  w.configBy Toml.read environment path

/-- An empty path leads to the directory that paths start from. -/
theorem find_empty (w : Workspace) : w.find [] = descend w.volume.isWhole [] w.tree w.here := by
  have h : check [] = .ok () := rfl
  simp [find, h, startOf, Path.root, Path.parts, Text.splitAtChar, bind, Except.bind]

/-- An absolute path leads to the same from everywhere. -/
theorem find_absolute (v : Volume) (here here' : List Text) {path : Text}
    (h : Path.root path ≠ []) : find ⟨v, here⟩ path = find ⟨v, here'⟩ path := by
  have hroot : (Path.root path).isEmpty = false := by simpa using h
  simp only [find, startOf, hroot, tree, Bool.false_eq_true, if_false]

/-- Names lead down from a directory to what they are the path of. -/
theorem descend_of_at? {isWhole : Bool} {above : List FileTree} {t u : FileTree}
    {names : List Text}
    (hnames : ∀ name ∈ names, isLongPart name = false ∧ name ≠ ['.', '.'])
    (h : FileTree.at? names t = some u) : descend isWhole above t names = .ok u := by
  induction names generalizing above t with
  | nil =>
    obtain rfl : t = u := by simpa [FileTree.at?] using h
    cases t <;> rfl
  | cons name names ih =>
    rw [List.forall_mem_cons] at hnames
    cases t with
    | file => cases h
    | directory entries =>
      obtain ⟨v, hv, h⟩ := Option.bind_eq_some_iff.mp h
      simp only [descend, hnames.1.1, Bool.false_eq_true, if_false, hnames.1.2, hv]
      exact ih hnames.2 h

/-- Among all files there are, an absolute path leads to what is at its names. -/
theorem find_of_at? {w : Workspace} {path : Text} {t : FileTree} (hwhole : w.volume.isWhole = true)
    (hroot : Path.root path ≠ []) (hcheck : check path = .ok ())
    (hnames : ∀ name ∈ Path.parts path, isLongPart name = false ∧ name ≠ ['.', '.'])
    (h : FileTree.at? (Path.parts path) w.tree = some t) : w.find path = .ok t := by
  have hstart : w.startOf path = some [] := by simp [startOf, hwhole, hroot]
  simp only [find, hcheck, hstart, List.nil_append, bind, Except.bind]
  exact descend_of_at? hnames h

end Workspace

end FeatureTree
