import FeatureTree.Text.Blank
import FeatureTree.Text.Digit
import FeatureTree.Toml.Quoted

/-!
# Numbers of TOML

Integers are decimal with an optional sign, or hexadecimal, octal or binary without one; floats have
a fraction, an exponent or both, or are infinite or no number. An underscore may stand between two
digits from `0` to `9`. A leading zero is refused, and so is a point without a digit on both sides.
Behind these rules digits of all scripts and blank characters at the end are fine, but not the four
separators U+001C to U+001F. A decimal integer with too many digits is refused.

## Main results

* `Toml.Number.underscore_alone`: an underscore at the start is refused
-/

namespace FeatureTree

namespace Toml

namespace Number

/-- The digits of a base. -/
def isDigitOf (base : Nat) (c : Char) : Bool :=
  match Json.hexValue? c with
  | some n => n < base
  | none => false

/-- Takes out the underscores between two digits of a base. Any other underscore is refused. The
first argument is whether a digit stands before the text. -/
def withoutUnderscores? (base : Nat) : Bool → Text → Option Text
  | _, [] => some []
  | afterDigit, '_' :: t =>
    match t with
    | c :: _ =>
      if afterDigit && isDigitOf base c then withoutUnderscores? base false t else none
    | [] => none
  | _, c :: t => (withoutUnderscores? base (isDigitOf base c) t).map (c :: ·)

/-- The number that digits of a base write; there has to be at least one. -/
def digitsOf? (base : Nat) (digits : Text) : Option Nat :=
  if digits.isEmpty then none
  else digits.foldlM (fun n d => if isDigitOf base d then
      (Json.hexValue? d).map (base * n + ·) else none) 0

/-- The base that a number is written in and its digits after the mark of the base. -/
def baseOf : Text → Nat × Text
  | '0' :: 'b' :: t => (2, t)
  | '0' :: 'o' :: t => (8, t)
  | '0' :: 'x' :: t => (16, t)
  | t => (10, t)

/-- Whether a number without its sign has a zero in front that is not alone before a point, an
exponent or a base. -/
def hasLeadingZero : Text → Bool
  | '0' :: c :: _ => !(c = '.' || c = 'o' || c = 'x' || c = 'b' || c = 'e' || c = 'E')
  | _ => false

/-- Puts a sign before a number. -/
def signed (negative : Bool) (n : Int) : Int := if negative then -n else n

/-- Whether a number without its sign has a point with no digit before or after it: one at its
start or end, or right before the exponent. -/
def hasBarePoint (hasSign : Bool) (t : Text) : Bool :=
  (hasSign && t.head? = some '.') || t.getLast? = some '.' ||
    (t.takeWhile fun c => c != 'e' && c != 'E').getLast? = some '.'

/-- Reads a float without its sign: digits, then a fraction, an exponent or both. -/
def decimal? (negative : Bool) (t : Text) : Option Value := do
  let whole := t.takeWhile Char.isDigit
  let rest := t.dropWhile Char.isDigit
  if whole.isEmpty then none
  let (fraction, rest) := match rest with
    | '.' :: rest => (rest.takeWhile Char.isDigit, rest.dropWhile Char.isDigit)
    | rest => ([], rest)
  let (exponent, rest) ← match rest with
    | [] => some (0, [])
    | rest => Json.exponent? rest
  if !rest.isEmpty then none
  return .float (floatOfDecimal negative (Json.digitsValue (whole ++ fraction))
    (exponent - fraction.length))

/-- Whether a character at the end of a number does not count. -/
def isPadding (c : Char) : Bool := isBlank c && !(0x1C ≤ c.toNat && c.toNat ≤ 0x1F)

/-- Reads a number of digits without its sign. -/
def unsigned? (hasSign negative : Bool) (t : Text) : Option Value := do
  let (base, digits) := baseOf t
  if hasLeadingZero t || (base != 10 && hasSign) then none
  let digits ← withoutUnderscores? base false digits
  if base != 16 && hasBarePoint hasSign digits then none
  let digits := Text.dropEndWhile isPadding (Text.withPlainDigits digits)
  match digitsOf? base digits with
  | some n =>
    if base = 10 && digits.length > maxIntegerDigits then none else some (.int (signed negative n))
  | none => if base = 10 then decimal? negative digits else none

/-- Reads what stands behind the sign of a number. Without a sign a number starts with a digit from
`0` to `9`, and the two words are written in small letters. -/
def afterSign? (hasSign negative : Bool) (t : Text) : Option Value :=
  if t = "inf".toList then
    some (.float (if negative then -1.0 / 0.0 else 1.0 / 0.0))
  else if t = "nan".toList then some (.float (0.0 / 0.0))
  else if hasSign || t.head?.any Char.isDigit then unsigned? hasSign negative t
  else none

/-- Reads a number. -/
def read? : Text → Option Value
  | '+' :: t => afterSign? true false t
  | '-' :: t => afterSign? true true t
  | t => afterSign? false false t

/-- An underscore at the start is refused. -/
theorem underscore_alone (base : Nat) (t : Text) :
    withoutUnderscores? base false ('_' :: t) = none := by
  cases t <;> simp [withoutUnderscores?]

end Number

end Toml

end FeatureTree
