import FeatureTree.Text.Basic

/-!
# Name patterns

Patterns for file names. `*` stands for any run of characters and `?` for one character; `[seq]`
stands for one character of a set and `[!seq]` for one outside it. A `]` that comes first belongs
to the set, an opening bracket that is never closed stands for itself, and there is no way to
escape a character other than putting it into a set. A leading dot is not special.

## Main results

* `Glob.accepts_eq`: the answer, found in one pass over the name, is that of trying every length for
  every run
* `Glob.accepts_star`: the pattern `*` accepts every name
-/

namespace FeatureTree

namespace Glob

/-- One member of a character set: a character, or all from the first to the last of a pair. -/
inductive Member where
  | one (c : Char)
  | range (first last : Char)
deriving DecidableEq, Repr

/-- One element of a pattern. -/
inductive Item where
  /-- Any run of characters. -/
  | many
  /-- Any one character. -/
  | any
  | char (c : Char)
  | oneOf (members : List Member)
  | noneOf (members : List Member)
deriving DecidableEq, Repr

/-- Whether a character belongs to a member of a set. A range whose ends are in the wrong order
holds nothing. -/
def Member.holds (c : Char) : Member → Bool
  | .one d => c = d
  | .range first last => first ≤ c && c ≤ last

/-- Reads the inside of a set. A hyphen makes a range when it has a character on either side that
is not itself an end of a range. -/
def members : Text → List Member
  | first :: '-' :: last :: t => .range first last :: members t
  | c :: t => .one c :: members t
  | [] => []

/-- The text of a set up to its closing bracket, given what follows the opening one: a `]` directly
at the start, or directly after the `!`, does not close the set. -/
def setText (t : Text) : Option Text :=
  let untilBracket (skip : Text) (t : Text) : Option Text :=
    (Text.cutAtChar ']' t).map fun (inside, _) => skip ++ inside
  match t with
  | '!' :: ']' :: t => untilBracket ['!', ']'] t
  | '!' :: t => untilBracket ['!'] t
  | ']' :: t => untilBracket [']'] t
  | t => untilBracket [] t

/-- Leaves out the ranges at the start of a set whose ends are in the wrong order. -/
def afterEmptyRanges : Text → Text
  | first :: '-' :: last :: t =>
    if last < first then afterEmptyRanges t else first :: '-' :: last :: t
  | t => t

/-- The item of a set, given the text between its brackets. The `!` may also stand behind ranges
that hold nothing. -/
def setItem (t : Text) : Item :=
  match t with
  | '!' :: t => .noneOf (members t)
  | t => match afterEmptyRanges t with
    | '!' :: t => .noneOf (members t)
    | t => .oneOf (members t)

/-- Reads a pattern after leaving out `k` characters, which belong to a set already read. -/
def itemsAfter : Nat → Text → List Item
  | _, [] => []
  | k + 1, _ :: t => itemsAfter k t
  | 0, c :: t =>
    match c with
    | '*' => .many :: itemsAfter 0 t
    | '?' => .any :: itemsAfter 0 t
    | '[' =>
      match setText t with
      | some inside => setItem inside :: itemsAfter (inside.length + 1) t
      | none => .char '[' :: itemsAfter 0 t
    | c => .char c :: itemsAfter 0 t

/-- The items of a pattern. -/
def items (pattern : Text) : List Item := itemsAfter 0 pattern

/-- Whether a rest of the name, from some point on, satisfies `p`. -/
def someRest (p : Text → Bool) : Text → Bool
  | [] => p []
  | c :: t => p (c :: t) || someRest p t

/-- Whether an item accepts a single character; a run is no single character. -/
def Item.takes (c : Char) : Item → Bool
  | .many => false
  | .any => true
  | .char d => c = d
  | .oneOf ms => ms.any (·.holds c)
  | .noneOf ms => !ms.any (·.holds c)

/-- Whether the items accept a name as a whole: a run accepts any beginning of the name, and every
other item accepts one character. -/
def itemsAccept : List Item → Text → Bool
  | [], t => t.isEmpty
  | .many :: items, t => someRest (itemsAccept items) t
  | item :: items, t => match t with
    | [] => false
    | c :: t => item.takes c && itemsAccept items t

/-! ### One pass over the name

Trying every length for every run takes exponential time. The answers for all ends of the item list
are therefore kept in a row, which is computed for the empty name and then extended by one character
after the other, from the end of the name to its start. -/

/-- The answer for the whole item list, which stands first in the row. -/
def rowHead (row : List Bool) : Bool := row.headD false

/-- The row for the empty name. -/
def emptyNameRow : List Item → List Bool
  | [] => [true]
  | item :: items =>
    let later := emptyNameRow items
    (item = .many && rowHead later) :: later

/-- The row for a name that begins with `c`, given the row for the rest of the name. -/
def extendRow (c : Char) : List Item → List Bool → List Bool
  | [], _ => [false]
  | item :: items, row =>
    let later := extendRow c items row.tail
    let here := match item with
      | .many => rowHead later || rowHead row
      | item => item.takes c && rowHead row.tail
    here :: later

/-- The row for a name. -/
def nameRow (items : List Item) (name : Text) : List Bool :=
  name.foldr (fun c row => extendRow c items row) (emptyNameRow items)

/-- Whether a pattern accepts a name. -/
def accepts (pattern name : Text) : Bool := rowHead (nameRow (items pattern) name)

/-- The answers for all ends of the item list, the whole list first. -/
def answers (t : Text) : List Item → List Bool
  | [] => [itemsAccept [] t]
  | item :: items => itemsAccept (item :: items) t :: answers t items

/-- The head of a row of answers is its first answer. -/
@[simp] theorem rowHead_cons (b : Bool) (row : List Bool) : rowHead (b :: row) = b := rfl

/-- The head of the answers for a list of items is the answer for all of them. -/
theorem rowHead_answers (t : Text) (items : List Item) :
    rowHead (answers t items) = itemsAccept items t := by
  cases items <;> rfl

/-- What the empty rest satisfies, some rest satisfies. -/
theorem someRest_of_nil {p : Text → Bool} (h : p [] = true) (t : Text) : someRest p t = true := by
  induction t with
  | nil => exact h
  | cons c t ih => simp [someRest, ih]

/-- The answers for an empty name are computed from the items alone. -/
theorem emptyNameRow_eq (items : List Item) : emptyNameRow items = answers [] items := by
  induction items with
  | nil => rfl
  | cons item items ih =>
    rw [emptyNameRow, answers, ih, rowHead_answers]
    congr 1
    cases item <;> simp [itemsAccept, someRest]

/-- The answers for a name are computed from those for the name without its first character. -/
theorem extendRow_eq (c : Char) (t : Text) (items : List Item) :
    extendRow c items (answers t items) = answers (c :: t) items := by
  induction items with
  | nil => rfl
  | cons item items ih =>
    have hhead := rowHead_answers t items
    have hlater := rowHead_answers (c :: t) items
    cases item <;> simp [answers, extendRow, ih, hhead, hlater, itemsAccept, someRest]

/-- The row of a name holds the answers for all ends of the item list. -/
theorem nameRow_eq (items : List Item) (name : Text) :
    nameRow items name = answers name items := by
  induction name with
  | nil => exact emptyNameRow_eq items
  | cons c t ih => rw [nameRow, List.foldr_cons, ← nameRow, ih, extendRow_eq]

/-- A pattern accepts a name when its items do. -/
theorem accepts_eq (pattern name : Text) :
    accepts pattern name = itemsAccept (items pattern) name := by
  rw [accepts, nameRow_eq, rowHead_answers]

/-- The pattern `*` accepts every name. -/
theorem accepts_star (name : Text) : accepts ['*'] name = true := by
  rw [accepts_eq]
  exact someRest_of_nil (by decide) name

end Glob

end FeatureTree
