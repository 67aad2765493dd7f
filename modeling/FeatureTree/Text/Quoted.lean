import FeatureTree.Text.Basic
import FeatureTree.Text.Printable

/-!
# Quoted text

The form in which a text is shown inside labels and messages: between single quotes, or between
double quotes when the text holds a single quote and no double one. Backslashes, the delimiter and
line feed, carriage return and tab are escaped by a backslash; any other character that does not
print is written by its code point in two, four or eight hexadecimal digits.

## Main results

* `Text.quoted_of_plain`: a text of plain characters stands between single quotes as it is
-/

namespace FeatureTree

namespace Text

/-- The code point in hexadecimal, in at least `width` digits. -/
def hexDigits (width : Nat) (n : Nat) : Text :=
  let digits := Nat.toDigits 16 n
  List.replicate (width - digits.length) '0' ++ digits

/-- One character of a quoted text. -/
def quotedChar (delimiter : Char) (c : Char) : Text :=
  if c = '\\' || c = delimiter then ['\\', c]
  else if c = '\n' then ['\\', 'n']
  else if c = '\r' then ['\\', 'r']
  else if c = '\t' then ['\\', 't']
  else if isPrintable c then [c]
  else if c.toNat < 0x100 then '\\' :: 'x' :: hexDigits 2 c.toNat
  else if c.toNat < 0x10000 then '\\' :: 'u' :: hexDigits 4 c.toNat
  else '\\' :: 'U' :: hexDigits 8 c.toNat

/-- The delimiter of a quoted text: a single quote, unless only that one occurs in the text. -/
def quoteMark (t : Text) : Char :=
  if t.contains '\'' && !t.contains '"' then '"' else '\''

/-- The quoted form of a text. -/
def quoted (t : Text) : Text :=
  let mark := quoteMark t
  mark :: t.flatMap (quotedChar mark) ++ [mark]

/-- A text of printable characters without quotes and backslashes stands between single quotes as
it is. -/
theorem quoted_of_plain {t : Text}
    (plain : ∀ c ∈ t, isPrintable c = true ∧ c ≠ '\\' ∧ c ≠ '\'') :
    quoted t = '\'' :: t ++ ['\''] := by
  have hmark : quoteMark t = '\'' := by
    have hmem : '\'' ∉ t := fun h => (plain _ h).2.2 rfl
    simp [quoteMark, hmem]
  have hone : ∀ c ∈ t, quotedChar '\'' c = [c] := by
    intro c hc
    obtain ⟨hp, h1, h2⟩ := plain c hc
    have hn : c ≠ '\n' := by rintro rfl; revert hp; decide
    have hr : c ≠ '\r' := by rintro rfl; revert hp; decide
    have ht : c ≠ '\t' := by rintro rfl; revert hp; decide
    simp [quotedChar, h1, h2, hn, hr, ht, hp]
  have hflat : t.flatMap (quotedChar '\'') = t := by
    clear hmark plain
    induction t with
    | nil => rfl
    | cons c r ih =>
      rw [List.flatMap_cons, hone c (by simp), ih fun d hd => hone d (by simp [hd])]
      rfl
  simp only [quoted, hmark, hflat]

end Text

end FeatureTree
