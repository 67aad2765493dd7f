import FeatureTree.Text.Lines

/-!
# Lines of a document

A document is read line by line. A line knows its number, counted from one, and its text together
with the line feed that ends it.

## Main results

* `Line.texts_ofText`: the texts of the lines of a document, in order, are the document
* `Line.number_getElem_ofText`: the lines are numbered from one
-/

namespace FeatureTree

/-- A place in a document; both numbers count from one. -/
structure Location where
  line : Nat
  column : Nat
deriving DecidableEq, Repr, Inhabited

/-- A line of a document. -/
structure Line where
  number : Nat
  text : Text
deriving DecidableEq, Repr

namespace Line

/-- The text without the blanks before it. -/
def trimmed (l : Line) : Text := l.text.trimStart

/-- The number of blanks before the text. -/
def indent (l : Line) : Nat := l.text.indentOf

/-- The column of the first character that is not blank. -/
def column (l : Line) : Nat := l.indent + 1

/-- The place of the first character that is not blank. -/
def location (l : Line) : Location := ⟨l.number, l.column⟩

/-- Drops the carriage returns and line feeds at the end of a text. -/
def withoutEnd (t : Text) : Text := Text.dropEndWhile (fun c => c = '\r' || c = '\n') t

/-- Numbers line texts from `n` on. -/
def numberFrom (n : Nat) : List Text → List Line
  | [] => []
  | t :: ts => ⟨n, t⟩ :: numberFrom (n + 1) ts

/-- The lines of a document. -/
def ofText (source : Text) : List Line := numberFrom 1 source.sourceLines

/-- Lines keep their texts when they are numbered. -/
@[simp] theorem map_text_numberFrom (n : Nat) (ts : List Text) :
    (numberFrom n ts).map (·.text) = ts := by
  induction ts generalizing n with
  | nil => rfl
  | cons t ts ih => simp [numberFrom, ih]

/-- Lines are numbered without gaps. -/
theorem number_getElem_numberFrom (n : Nat) (ts : List Text) (i : Nat)
    (h : i < (numberFrom n ts).length) : (numberFrom n ts)[i].number = n + i := by
  induction ts generalizing n i with
  | nil => simp [numberFrom] at h
  | cons t ts ih =>
    cases i with
    | zero => simp [numberFrom]
    | succ i =>
      simp only [numberFrom, List.getElem_cons_succ]
      rw [ih (n + 1) i (by simpa [numberFrom] using h)]
      omega

/-- The texts of the lines of a document, in order, are the document. -/
theorem texts_ofText (source : Text) : ((ofText source).map (·.text)).flatten = source := by
  rw [ofText, map_text_numberFrom, Text.flatten_sourceLines]

/-- The lines are numbered from one. -/
theorem number_getElem_ofText (source : Text) (i : Nat) (h : i < (ofText source).length) :
    (ofText source)[i].number = i + 1 := by
  rw [Nat.add_comm]
  exact number_getElem_numberFrom 1 source.sourceLines i h

end Line

end FeatureTree
