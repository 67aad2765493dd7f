import FeatureTree.Config.Settings
import FeatureTree.Files.Decoding
import FeatureTree.Files.Tree
import FeatureTree.Text.Glob
import FeatureTree.Value.Members

/-!
# Scanning directories

A scanner selects the documents of a directory by patterns for their names and knows the names that
are to be skipped. Its settings come from outside, so they can be any values: patterns are the
members of their setting, of which only a text can be used, and a name is skipped if its setting
mentions it.

## Main results

* `Scanner.selects_of_skipped`: a file that is to be skipped is never selected
* `Scanner.ofSettings_nil`: what a scanner without settings selects
* `Scanner.ofConfig_defaults`: what the default settings select
-/

namespace FeatureTree

/-- What is to be found in directories. -/
structure Scanner where
  patterns : Value := .list [.text "*.feature".toList]
  skipDirs : Value := .list []
  skipFiles : Value := .list []

namespace Scanner

/-- Gives a scanner a setting by its name. -/
def set? (s : Scanner) (name : String) (v : Value) : Option Scanner :=
  if name = "patterns" then some { s with patterns := v }
  else if name = "skip_dirs" then some { s with skipDirs := v }
  else if name = "skip_files" then some { s with skipFiles := v }
  else none

/-- The scanner of some settings. One of another name cannot be used. -/
def ofSettings (settings : Value) : Except Fault Scanner :=
  match settings with
  | .table fields =>
    match fields.foldlM (fun s (name, v) => set? s name v) ({} : Scanner) with
    | some s => .ok s
    | none => .error .unusableValue
  | _ => .error .unusableValue

/-- The members of a setting as a list. A setting that is absent or empty gives way to a default. -/
def entriesOf (v default : Value) : Except Fault Value :=
  Value.list <$> (if v.isPresent then v else default).members

/-- The scanner that a configuration describes. -/
def ofConfig (config : Config.Fields) : Except Fault Scanner :=
  match Config.sectionOf config "scanning" with
  | .table fields => do
    let setting (key : String) : Value := (Value.lookup key fields).getD .null
    return {
      patterns := ← entriesOf (setting "patterns") (.list [.text "*.feature".toList])
      skipDirs := ← entriesOf (setting "skip_dirs") (.list [])
      skipFiles := ← entriesOf (setting "skip_files") (.list []) }
  | _ => .error .noAttribute

/-- Whether one of some patterns accepts a name. Patterns are tried in order. -/
def accepts (name : Text) : List Value → Except Fault Bool
  | [] => .ok false
  | .text pattern :: patterns =>
    if Glob.accepts pattern name then .ok true else accepts name patterns
  | _ :: _ => .error .unusableValue

/-- Whether the scanner selects files of a name. -/
def selects (s : Scanner) (name : Text) : Except Fault Bool := do
  if ← s.skipFiles.mentions name then return false else accepts name (← s.patterns.members)

/-- Whether the scanner goes into directories of a name. -/
def enters (s : Scanner) (name : Text) : Except Fault Bool := not <$> s.skipDirs.mentions name

/-- The text of an entry, if it is a file that the scanner selects. -/
def source? (s : Scanner) (name : Text) : FileTree → Except Fault (Option Text)
  | .directory _ => .ok none
  | .file bytes => do
    if ← s.selects name then return some (← Files.decode bytes) else return none

/-- Whether an entry is a directory that the scanner goes into. -/
def opens (s : Scanner) (name : Text) : FileTree → Except Fault Bool
  | .directory _ => s.enters name
  | .file _ => .ok false

/-- The documents among the entries of a directory: their paths and texts, in the order of names. -/
def sources (s : Scanner) (directory : Text) (entries : List (Text × FileTree)) :
    Except Fault (List (Text × Text)) := do
  let found ← (FileTree.sorted entries).mapM fun (name, t) => do
    return (← s.source? name t).map fun text => (Path.join directory name, text)
  return found.filterMap id

/-- The directories among the entries of a directory, in the order of names. -/
def directories (s : Scanner) (directory : Text) (entries : List (Text × FileTree)) :
    Except Fault (List Text) := do
  let found ← (FileTree.sorted entries).filterM fun (name, t) => s.opens name t
  return found.map fun (name, _) => Path.join directory name

/-! ### Laws -/

/-- A file that is to be skipped is never selected. -/
theorem selects_of_skipped {s : Scanner} {name : Text} (h : s.skipFiles.mentions name = .ok true) :
    s.selects name = .ok false := by
  simp [selects, h, bind, Except.bind]
  rfl

/-- A scanner without settings selects by one pattern and skips nothing. -/
theorem ofSettings_nil : ofSettings (.table []) = .ok {} := rfl

/-- The default settings select by one pattern and skip nothing. -/
theorem ofConfig_defaults : ofConfig Config.defaults = .ok {} := by
  rfl

end Scanner

end FeatureTree
