import FeatureTree.Text.Digit
import FeatureTree.Value.Basic

/-!
# Reading JSON

A strict reader for JSON text: white space is space, tab, line feed and carriage return, strings
hold no control characters, a comma stands only between two members. Beyond the standard it knows
the numbers `NaN`, `Infinity` and `-Infinity`. A number with neither fraction nor exponent is an
integer, for which its digits can be too many. A text is read from its start, so that of two
problems the first one counts.

## Main results

* `Json.number_of_short`: an integer that is not too long is a number
-/

namespace FeatureTree

namespace Json

/-- Why a text is not read. -/
inductive Problem where
  | malformed
  /-- An integer has more digits than are read. -/
  | integerTooLong
deriving DecidableEq, Repr

/-- What was read, or the problem that it was not. -/
def Problem.ofOption {α : Type} : Option α → Except Problem α
  | some a => .ok a
  | none => .error .malformed

/-- Drops white space. -/
def skipSpace (t : Text) : Text :=
  t.dropWhile fun c => c = ' ' || c = '\n' || c = '\t' || c = '\r'

/-- The value of a hexadecimal digit. -/
def hexValue? (c : Char) : Option Nat :=
  let n := c.toNat
  if 48 ≤ n && n ≤ 57 then some (n - 48)
  else if 97 ≤ n && n ≤ 102 then some (n - 87)
  else if 65 ≤ n && n ≤ 70 then some (n - 55)
  else none

/-- The number that four hexadecimal digits write. -/
def hex4? (a b c d : Char) : Option Nat := do
  let a ← hexValue? a
  let b ← hexValue? b
  let c ← hexValue? c
  let d ← hexValue? d
  return ((a * 16 + b) * 16 + c) * 16 + d

/-- One unit of a string: a character given by itself or by a short escape, or a UTF-16 unit. -/
inductive Unit16 where
  | char (c : Char)
  | unit (n : Nat)

/-- Reads the units of a string up to its closing quote. -/
def stringUnits : Text → Option (List Unit16 × Text)
  | [] => none
  | '"' :: t => some ([], t)
  | '\\' :: 'u' :: a :: b :: c :: d :: t =>
    match hex4? a b c d, stringUnits t with
    | some n, some (units, rest) => some (.unit n :: units, rest)
    | _, _ => none
  | '\\' :: e :: t =>
    let plain : Option Char := match e with
      | '"' => some '"'
      | '\\' => some '\\'
      | '/' => some '/'
      | 'b' => some (Char.ofNat 8)
      | 'f' => some (Char.ofNat 12)
      | 'n' => some '\n'
      | 'r' => some '\r'
      | 't' => some '\t'
      | _ => none
    match plain, stringUnits t with
    | some c, some (units, rest) => some (.char c :: units, rest)
    | _, _ => none
  | c :: t =>
    if c.toNat < 0x20 || c = '\\' then none
    else (stringUnits t).map fun (units, rest) => (.char c :: units, rest)

/-- The text of a list of units: a high and a low surrogate in a row make one character, and a
surrogate that stands alone is replaced. -/
def unitsText : List Unit16 → Text
  | [] => []
  | .char c :: units => c :: unitsText units
  | .unit high :: .unit low :: units =>
    if 0xD800 ≤ high && high < 0xDC00 && 0xDC00 ≤ low && low < 0xE000 then
      Char.ofNat (0x10000 + (high - 0xD800) * 0x400 + (low - 0xDC00)) :: unitsText units
    else unitChar high :: unitsText (.unit low :: units)
  | .unit n :: units => unitChar n :: unitsText units
where
  /-- The character of a single unit. -/
  unitChar (n : Nat) : Char :=
    if 0xD800 ≤ n && n < 0xE000 then Char.ofNat 0xFFFD else Char.ofNat n

/-- Reads a string after its opening quote. -/
def string? (t : Text) : Option (Text × Text) :=
  (stringUnits t).map fun (units, rest) => (unitsText units, rest)

/-- The number that decimal digits write. -/
def digitsValue (digits : Text) : Nat :=
  digits.foldl (fun n d => 10 * n + (d.toNat - 48)) 0

/-- Reads a fraction: a point and at least one digit. -/
def fraction? : Text → Option (Text × Text)
  | '.' :: t =>
    let digits := t.takeWhile Char.isDigit
    if digits.isEmpty then none else some (digits, t.dropWhile Char.isDigit)
  | _ => none

/-- Reads an exponent: the letter, an optional sign and at least one digit. -/
def exponent? : Text → Option (Int × Text)
  | c :: t =>
    if c = 'e' || c = 'E' then
      let (negative, t) := match t with
        | '-' :: t => (true, t)
        | '+' :: t => (false, t)
        | t => (false, t)
      let digits := t.takeWhile Char.isDigit
      if digits.isEmpty then none
      else
        let n : Int := digitsValue digits
        some (if negative then -n else n, t.dropWhile Char.isDigit)
    else none
  | [] => none

/-- Reads a number without its sign: digits without a leading zero, then a fraction and an exponent
if they are there. -/
def number (negative : Bool) (t : Text) : Except Problem (Value × Text) := do
  let whole := match t with
    | '0' :: _ => ['0']
    | t => t.takeWhile Char.isDigit
  if whole.isEmpty then throw .malformed
  let rest := t.drop whole.length
  let fraction := fraction? rest
  let afterFraction := (fraction.map (·.2)).getD rest
  let exponent := exponent? afterFraction
  let afterExponent := (exponent.map (·.2)).getD afterFraction
  if fraction.isNone && exponent.isNone then
    if whole.length > maxIntegerDigits then throw .integerTooLong
    let n : Int := digitsValue whole
    return (.int (if negative then -n else n), rest)
  else
    let digits := (fraction.map (·.1)).getD []
    let scale := (exponent.map (·.1)).getD 0
    let x := floatOfDecimal negative (digitsValue (whole ++ digits)) (scale - digits.length)
    return (.float x, afterExponent)

/-- Reads a word if the text starts with it. -/
def word? (word : Text) (value : Value) (t : Text) : Option (Value × Text) :=
  if word.isPrefixOf t then some (value, t.drop word.length) else none

/-- Reads a value that is neither a list nor a table. -/
def scalar (t : Text) : Except Problem (Value × Text) :=
  match t with
  | '"' :: t => Problem.ofOption ((string? t).map fun (s, rest) => (.text s, rest))
  | 'n' :: _ => Problem.ofOption (word? "null".toList .null t)
  | 't' :: _ => Problem.ofOption (word? "true".toList (.bool true) t)
  | 'f' :: _ => Problem.ofOption (word? "false".toList (.bool false) t)
  | 'N' :: _ => Problem.ofOption (word? "NaN".toList (.float (0.0 / 0.0)) t)
  | 'I' :: _ => Problem.ofOption (word? "Infinity".toList (.float (1.0 / 0.0)) t)
  | '-' :: 'I' :: _ => Problem.ofOption (word? "-Infinity".toList (.float (-1.0 / 0.0)) t)
  | '-' :: t => number true t
  | t => number false t

mutual

/-- Reads one value; the first argument bounds the nesting and length. -/
def value : Nat → Text → Except Problem (Value × Text)
  | 0, _ => .error .malformed
  | fuel + 1, t =>
    match t with
    | '[' :: t =>
      match skipSpace t with
      | ']' :: rest => .ok (.list [], rest)
      | t => do
        let (vs, rest) ← items fuel t
        return (.list vs, rest)
    | '{' :: t =>
      match skipSpace t with
      | '}' :: rest => .ok (.table [], rest)
      | t => do
        let (pairs, rest) ← fields fuel t
        return (.table (Value.ofPairs pairs), rest)
    | t => scalar t

/-- Reads the members of a list up to the closing bracket. -/
def items : Nat → Text → Except Problem (List Value × Text)
  | 0, _ => .error .malformed
  | fuel + 1, t => do
    let (v, rest) ← value fuel t
    match skipSpace rest with
    | ']' :: rest => return ([v], rest)
    | ',' :: rest => do
      let (vs, rest) ← items fuel (skipSpace rest)
      return (v :: vs, rest)
    | _ => throw .malformed

/-- Reads the fields of a table up to the closing brace. -/
def fields : Nat → Text → Except Problem (List (String × Value) × Text)
  | 0, _ => .error .malformed
  | fuel + 1, t =>
    match t with
    | '"' :: t => do
      let (key, rest) ← Problem.ofOption (string? t)
      match skipSpace rest with
      | ':' :: rest => do
        let (v, rest) ← value fuel (skipSpace rest)
        match skipSpace rest with
        | '}' :: rest => return ([(String.ofList key, v)], rest)
        | ',' :: rest => do
          let (fs, rest) ← fields fuel (skipSpace rest)
          return ((String.ofList key, v) :: fs, rest)
        | _ => throw .malformed
      | _ => throw .malformed
    | _ => .error .malformed

end

/-- Reads a text that holds one value and white space around it. -/
def read (t : Text) : Except Problem Value := do
  let (v, rest) ← value (2 * t.length + 2) (skipSpace t)
  if (skipSpace rest).isEmpty then return v else throw .malformed

/-- An integer that is not too long is a number. -/
theorem number_of_short {negative : Bool} {c : Char} {digits : Text} (first : c ≠ '0')
    (all : ∀ d ∈ c :: digits, d.isDigit = true) (short : digits.length < maxIntegerDigits) :
    number negative (c :: digits) =
      .ok (.int (if negative then -digitsValue (c :: digits)
        else digitsValue (c :: digits)), []) := by
  have whole : (c :: digits).takeWhile Char.isDigit = c :: digits := by
    generalize c :: digits = t at all
    induction t <;> simp_all
  unfold number
  split
  · simp_all
  · rw [whole]
    simp [fraction?, exponent?, Nat.not_lt.mpr short]
    rfl

end Json

end FeatureTree
