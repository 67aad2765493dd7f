import FeatureTree.Files.Scanner
import FeatureTree.Files.Workspace
import FeatureTree.Reading

/-!
# Loading

A document is loaded by reading its file. A directory is loaded by loading the documents that a
scanner selects in it and, if asked for, the directories that the scanner goes into, each in the
order of names and the documents first. Loading stops at the first failure.

## Main results

* `Load.directory_file`: a file is no directory
-/

namespace FeatureTree

namespace Load

/-- The dialect that is meant: the one that is given, else the one that a configuration names, null
if there is neither. -/
def dialectOf (given config : Option Value) : Except Fault Value := do
  match given, config with
  | some dialect, _ => return dialect
  | none, some config => return (← Config.dialect? (← Config.fieldsOf config)).getD .null
  | none, none => return .null

/-- Loads a document. -/
def document (w : Workspace) (default : Value) (path : Text) (dialect : Option Value)
    (config : Option Value) : Except Fault Node := do
  let text ← w.read path
  let dialect ← dialectOf dialect config
  Node.readFile default dialect (Path.normal path) text

/-- How directories are loaded. -/
structure Plan where
  scanner : Scanner
  dialect : Value
  /-- Whether directories inside others are loaded too. -/
  recursive : Bool

/-- Loads a directory at a path from its entries, each of which comes with how it would be loaded as
a directory at a path. -/
def entries (plan : Plan) (default : Value)
    (entries : List (Text × FileTree × (Text → Except Fault Node))) (path : Text) :
    Except Fault Node := do
  let entries := FileTree.sorted entries
  let files ← entries.mapM fun (name, t, _) => do
    let text? ← plan.scanner.source? name t
    text?.mapM (Node.readFile default plan.dialect (Path.join path name))
  let inner ← if plan.recursive then entries.filterM fun (name, t, _) => plan.scanner.opens name t
    else pure []
  let directories ← inner.mapM fun (name, _, load) => load (Path.join path name)
  return .mk {} (.directory (.text path) (files.filterMap id) directories)

/-- Loads a directory at a path. -/
def directory (plan : Plan) (default : Value) : FileTree → Text → Except Fault Node :=
  FileTree.fold (fun _ _ => .error .notADirectory) (entries plan default)

/-- How a configuration asks for directories to be loaded. -/
def Plan.ofConfig (config : Value) : Except Fault Plan := do
  let fields ← Config.fieldsOf config
  let scanner ← Scanner.ofConfig fields
  let recursive ← Config.recursive fields
  let dialect ← dialectOf none (some config)
  return ⟨scanner, dialect, recursive⟩

/-- Loads the directory that a path leads to. -/
def fromPath (w : Workspace) (default : Value) (path : Text) (config : Value) :
    Except Fault Node := do
  let plan ← Plan.ofConfig config
  let t ← w.find path
  directory plan default t (Path.normal path)

/-- A file is no directory. -/
theorem directory_file (plan : Plan) (default : Value) (bytes : ByteArray) (path : Text) :
    directory plan default (.file bytes) path = .error .notADirectory := rfl

end Load

end FeatureTree
