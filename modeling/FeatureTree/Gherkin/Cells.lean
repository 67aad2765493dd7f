import FeatureTree.Gherkin.Line

/-!
# Table cells

A table row is a line of cells between pipes. Inside a cell a pipe, a backslash and a line feed are
written with a backslash before them; a backslash before any other character stands for itself.
Blanks around a cell are not part of it, but a line feed that was written as an escape is.

## Main results

* `Cell.unescape_escape`: reading the written form of a cell gives the cell back
-/

namespace FeatureTree

namespace Cell

/-- The pieces between the pipes of a row, escapes kept; there is always at least one piece. A
backslash takes the character after it out of consideration. -/
def pieces : Text → List Text
  | [] => [[]]
  | '|' :: t => [] :: pieces t
  | '\\' :: c :: t =>
    match pieces t with
    | [] => [['\\', c]]
    | piece :: rest => ('\\' :: c :: piece) :: rest
  | c :: t =>
    match pieces t with
    | [] => [[c]]
    | piece :: rest => (c :: piece) :: rest

/-- Resolves the escapes of a cell. -/
def unescape : Text → Text
  | [] => []
  | '\\' :: 'n' :: t => '\n' :: unescape t
  | '\\' :: '|' :: t => '|' :: unescape t
  | '\\' :: '\\' :: t => '\\' :: unescape t
  | c :: t => c :: unescape t

/-- The written form of one character of a cell. -/
def escapeChar (c : Char) : Text :=
  if c = '\\' then ['\\', '\\']
  else if c = '|' then ['\\', '|']
  else if c = '\n' then ['\\', 'n']
  else [c]

/-- The written form of a cell. -/
def escape (value : Text) : Text := value.flatMap escapeChar

/-- Whether a character is a blank that can surround a cell: any but the line feed. -/
def isPadding (c : Char) : Bool := isBlank c && c != '\n'

/-- Drops the padding around a cell. Padding directly before a line feed that ends the cell goes
too. -/
def trim (t : Text) : Text :=
  match (t.dropWhile isPadding).reverse with
  | '\n' :: r => (r.dropWhile isPadding).reverse ++ ['\n']
  | r => (r.dropWhile isPadding).reverse

/-- Gives each piece of a row its value and the column of its first character that is no padding.
`column` is the column at which the first piece starts. -/
def withColumns (column : Nat) : List Text → List (Nat × Text)
  | [] => []
  | piece :: rest =>
    let value := unescape piece
    (column + (value.length - (value.dropWhile isPadding).length), trim value)
      :: withColumns (column + piece.length + 1) rest

/-- The cells of a row that starts with a pipe at a column: what stands between the first and the
last pipe. -/
def ofRow (column : Nat) (row : Text) : List (Nat × Text) :=
  withColumns (column + 1) (pieces row).tail.dropLast

/-! ### Escapes -/

/-- Nothing is escaped in an empty cell. -/
@[simp] theorem escape_nil : escape [] = [] := rfl

/-- Cells are escaped one character after the other. -/
@[simp] theorem escape_cons (c : Char) (t : Text) :
    escape (c :: t) = escapeChar c ++ escape t := rfl

/-- What is no backslash stands for itself. -/
theorem unescape_cons_of_ne {c : Char} (h : c ≠ '\\') (t : Text) :
    unescape (c :: t) = c :: unescape t := by
  rw [unescape.eq_def]
  split <;> simp_all

/-- Reading the written form of a cell gives the cell back. -/
theorem unescape_escape (value : Text) : unescape (escape value) = value := by
  induction value with
  | nil => rfl
  | cons c t ih =>
    rw [escape_cons, escapeChar]
    split
    · next h => subst h; simp [unescape, ih]
    · split
      · next h => subst h; simp [unescape, ih]
      · split
        · next h => subst h; simp [unescape, ih]
        · next h _ _ => simp [unescape_cons_of_ne h, ih]

end Cell

end FeatureTree
