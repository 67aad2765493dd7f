import FeatureTree.Fault
import FeatureTree.Gherkin.Dialect.Table

/-!
# Choosing a dialect

The name of a dialect comes from a tree, a configuration or a caller, so it can be any value. One
that is left out in some way stands for the default dialect. A text that is no dialect's name, a
number or a truth value names no dialect; a list or table cannot be looked up at all.

## Main results

* `Dialect.keywordsFor_absent`: a name that is left out stands for the default dialect
-/

namespace FeatureTree

namespace Dialect

/-- The dialect that a value names, if it names one. -/
def ofValue? : Value → Except Fault (Option Dialect)
  | .text name => .ok (ofName? name)
  | name => if name.isKey then .ok none else .error .unusableValue

/-- The name that is meant: the default one where the given one is left out. -/
def nameOr (default name : Value) : Value := if name.isPresent then name else default

/-- The primary keywords of a named dialect, or of the default one. -/
def keywordsFor (default name : Value) : Except Fault PrimaryKeywords := do
  match ← ofValue? (nameOr default name) with
  | some d => return d.primaryKeywords
  | none => throw (.unknownDialect (nameOr default name))

/-- The outline keywords of a language; of English when the language is left out or unknown. -/
def outlineKeywordsFor (language : Value) : Except Fault (List Text) := do
  return ((← ofValue? (nameOr (.text english.name) language)).getD english).outlineKeywords

/-- A name that is left out stands for the default dialect. -/
theorem keywordsFor_absent {default name : Value} (h : name.isPresent = false)
    (hd : default.isPresent = true) : keywordsFor default name = keywordsFor default default := by
  simp [keywordsFor, nameOr, h, hd]

end Dialect

end FeatureTree
