import FeatureTree.Text.Basic

/-!
# Shortest decimals

A binary floating point number is shown by the fewest decimal digits that read back as the same
number; of several such decimals the nearest one, and of two at the same distance the one whose
last digit is even. The search runs in exact arithmetic over natural numbers: the reals that read
back as the number form an interval around it, and the decimals of `n` digits form a grid, of which
only the two neighbours of the number need a look.

## Contents

* `Binary`: the exact value `mantissa * 2 ^ exponent` of a finite number
* `Binary.shortest`: the digits and the place of the point
* `floatText`: the written form, positional from `0.0001` up to below `10 ^ 16`
* `floatOfDecimal`: the number nearest to a decimal
-/

namespace FeatureTree

/-- The exact value of a finite positive number, `mantissa * 2 ^ exponent`, and whether the next
smaller number is only half as far away as the next larger one. -/
structure Binary where
  mantissa : Nat
  exponent : Int
  narrowBelow : Bool
deriving DecidableEq, Repr

namespace Binary

/-- The value of the bits of a finite number, its sign left out. -/
def ofBits (bits : UInt64) : Binary :=
  let field := ((bits >>> 52) &&& 0x7FF).toNat
  let fraction := (bits &&& 0xFFFFFFFFFFFFF).toNat
  if field = 0 then ⟨fraction, -1074, false⟩
  else ⟨fraction + Nat.pow 2 52, (field : Int) - 1075, fraction = 0 && 1 < field⟩

/-- `scaled b k` is the pair `(v, u)` of naturals with `v / u = 4 * value / 10 ^ k`, together with
the quarter steps below and above in the same unit. -/
structure Scaled where
  /-- Four times the value. -/
  value : Nat
  /-- Four times the lower end of the interval that reads back. -/
  low : Nat
  /-- Four times the upper end. -/
  high : Nat
  /-- Four times the grid step. -/
  step : Nat

/-- The value, its interval and the grid of step `10 ^ k` in one common unit. -/
def scale (b : Binary) (k : Int) : Scaled :=
  let up := Nat.pow 2 b.exponent.toNat * Nat.pow 10 (-k).toNat
  let down := Nat.pow 2 (-b.exponent).toNat * Nat.pow 10 k.toNat
  let below := if b.narrowBelow then 1 else 2
  ⟨4 * b.mantissa * up, (4 * b.mantissa - below) * up, (4 * b.mantissa + 2) * up, 4 * down⟩

/-- The decimal on the grid of step `10 ^ k` that reads back as the number and is nearest to it. -/
def nearestOnGrid? (b : Binary) (k : Int) : Option Nat :=
  let s := b.scale k
  let floor := s.value / s.step
  let readsBack (d : Nat) : Bool :=
    if b.mantissa % 2 = 0 then s.low ≤ d * s.step && d * s.step ≤ s.high
    else s.low < d * s.step && d * s.step < s.high
  let belowGap := s.value - floor * s.step
  let aboveGap := (floor + 1) * s.step - s.value
  match readsBack floor && floor != 0, readsBack (floor + 1) with
  | true, true =>
    if belowGap < aboveGap then some floor
    else if aboveGap < belowGap then some (floor + 1)
    else if floor % 2 = 0 then some floor else some (floor + 1)
  | true, false => some floor
  | false, true => some (floor + 1)
  | false, false => none

/-- The least `p` among the candidates, tried from `p` on, with the value below `10 ^ p`. -/
def magnitudeFrom (b : Binary) : Nat → Int → Int
  | 0, p => p
  | fuel + 1, p =>
    let s := b.scale p
    if s.value < s.step then p else magnitudeFrom b fuel (p + 1)

/-- The least `p` with the value below `10 ^ p`. -/
def magnitude (b : Binary) : Int := magnitudeFrom b 700 (-330)

/-- The first grid from `n` digits on that has a decimal reading back as the number. -/
def shortestFrom (b : Binary) (magnitude : Int) : Nat → Nat → Nat × Int
  | 0, n => (0, magnitude - n)
  | fuel + 1, n =>
    let k := magnitude - n
    match b.nearestOnGrid? k with
    | some d => (d, k)
    | none => shortestFrom b magnitude fuel (n + 1)

/-- The shortest decimal `(d, k)`, standing for `d * 10 ^ k`. -/
def shortest (b : Binary) : Nat × Int := shortestFrom b b.magnitude 17 1

end Binary

/-- Drops zeros at the end of a digit string, counting them. -/
def dropZeros (digits : Text) : Text × Nat :=
  let kept := Text.dropEndWhile (· = '0') digits
  (kept, digits.length - kept.length)

/-- Writes `0.digits * 10 ^ point`: positionally, with a fraction that is never empty, for a point
from -3 to 16, else with one digit before the point and an exponent of at least two digits. -/
def decimalText (digits : Text) (point : Int) : Text :=
  if -4 < point && point ≤ 16 then
    if point ≤ 0 then
      '0' :: '.' :: List.replicate (-point).toNat '0' ++ digits
    else
      let n := point.toNat
      let whole := digits.take n ++ List.replicate (n - digits.length) '0'
      let fraction := digits.drop n
      whole ++ '.' :: (if fraction.isEmpty then ['0'] else fraction)
  else
    let e := point - 1
    let exponent := Nat.toDigits 10 e.natAbs
    let padded := if exponent.length < 2 then '0' :: exponent else exponent
    let sign := if e < 0 then '-' else '+'
    let lead := digits.take 1
    let rest := digits.drop 1
    lead ++ (if rest.isEmpty then [] else '.' :: rest) ++ 'e' :: sign :: padded

/-- The written form of a floating point number. -/
def floatText (x : Float) : Text :=
  let bits := x.toBits
  let sign : Text := if bits >>> 63 = 1 then ['-'] else []
  if x.isNaN then ['n', 'a', 'n']
  else if x.isInf then sign ++ ['i', 'n', 'f']
  else
    let b := Binary.ofBits (bits &&& 0x7FFFFFFFFFFFFFFF)
    if b.mantissa = 0 then sign ++ ['0', '.', '0']
    else
      let (d, k) := b.shortest
      let (digits, zeros) := dropZeros (Nat.toDigits 10 d)
      sign ++ decimalText digits (digits.length + zeros + k)

/-- The numerator and the denominator of a finite floating point number. -/
def floatFraction? (x : Float) : Option (Int × Nat) :=
  if x.isNaN || x.isInf then none
  else
    let bits := x.toBits
    let b := Binary.ofBits (bits &&& 0x7FFFFFFFFFFFFFFF)
    let numerator : Int := (b.mantissa * Nat.pow 2 b.exponent.toNat : Nat)
    some (if bits >>> 63 = 1 then -numerator else numerator, Nat.pow 2 (-b.exponent).toNat)

/-- The integer that a floating point number is equal to, if it is one. -/
def floatInt? (x : Float) : Option Int :=
  (floatFraction? x).bind fun (numerator, denominator) =>
    if numerator % denominator = 0 then some (numerator / denominator) else none

/-- The floating point number nearest to `mantissa * 10 ^ exponent`, infinite when the decimal is
beyond the largest one. -/
def floatOfDecimal (negative : Bool) (mantissa : Nat) (exponent : Int) : Float :=
  let digits := (Nat.toDigits 10 mantissa).length
  let size := exponent + digits
  let magnitude : Float :=
    if mantissa = 0 || size < -400 then 0.0
    else if 400 < size then 1.0 / 0.0
    else if exponent < 0 then Float.ofScientific mantissa true (-exponent).toNat
    else Float.ofScientific mantissa false exponent.toNat
  if negative then -magnitude else magnitude

end FeatureTree
