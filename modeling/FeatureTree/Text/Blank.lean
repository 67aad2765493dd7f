import FeatureTree.Text.Basic

/-!
# Blank characters

The characters that count as white space when text is trimmed: those with the Unicode property
`White_Space`, together with the four separators U+001C to U+001F. The zero-width space U+200B,
the Mongolian vowel separator U+180E and the byte order mark U+FEFF are not among them.

## Main results

* `Text.isBlank_of_isWhitespace`: the class contains the white space of `Char`
* `Text.trim_of_no_blank_ends`: trimming leaves alone a text whose ends are not blank
-/

namespace FeatureTree

/-- Whether a character counts as white space. -/
def isBlank (c : Char) : Bool :=
  let n := c.toNat
  (0x09 ≤ n && n ≤ 0x0D) || (0x1C ≤ n && n ≤ 0x20) || n == 0x85 || n == 0xA0 || n == 0x1680
    || (0x2000 ≤ n && n ≤ 0x200A) || n == 0x2028 || n == 0x2029 || n == 0x202F || n == 0x205F
    || n == 0x3000

namespace Text

/-- Drops the blank characters at the start. -/
def trimStart (t : Text) : Text := t.dropWhile isBlank

/-- Drops the blank characters at the end. -/
def trimEnd (t : Text) : Text := dropEndWhile isBlank t

/-- Drops the blank characters at both ends. -/
def trim (t : Text) : Text := trimEnd (trimStart t)

/-- Whether a text holds nothing but blank characters; the empty text does. -/
def isAllBlank (t : Text) : Bool := t.all isBlank

/-- The number of blank characters at the start. -/
def indentOf (t : Text) : Nat := t.length - (trimStart t).length

/-- The white space of `Char` is blank. -/
theorem isBlank_of_isWhitespace {c : Char} (h : c.isWhitespace = true) : isBlank c = true := by
  simp only [Char.isWhitespace, Bool.or_eq_true, decide_eq_true_eq] at h
  rcases h with ((rfl | rfl) | rfl) | rfl <;> decide

/-- There is nothing to trim in an empty text. -/
@[simp] theorem trimStart_nil : trimStart [] = [] := rfl

/-- Trimming stops in front of what is not blank. -/
theorem trimStart_cons_of_not_blank {c : Char} {t : Text} (h : isBlank c = false) :
    trimStart (c :: t) = c :: t := by
  simp [trimStart, h]

/-- Trimming the end leaves alone a text whose last character is not blank. -/
theorem trimEnd_concat_of_not_blank {c : Char} {t : Text} (h : isBlank c = false) :
    trimEnd (t ++ [c]) = t ++ [c] := by
  simp [trimEnd, dropEndWhile, h]

/-- Trimming leaves alone a text whose first and last characters are not blank. -/
theorem trim_of_no_blank_ends {t : Text} (first : ∀ c ∈ t.head?, isBlank c = false)
    (last : ∀ c ∈ t.getLast?, isBlank c = false) : trim t = t := by
  cases t with
  | nil => rfl
  | cons c r =>
    have h : isBlank c = false := first c (by simp)
    rw [trim, trimStart_cons_of_not_blank h]
    obtain ⟨d, hd⟩ : ∃ d, (c :: r).getLast? = some d := by
      simp [List.getLast?_cons]
    have hl := last d (by simp [hd])
    obtain ⟨s, hs⟩ := List.getLast?_eq_some_iff.mp hd
    rw [hs, trimEnd_concat_of_not_blank hl]

end Text

end FeatureTree
