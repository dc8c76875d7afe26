import DeriveKit.Text

/-!
Binary64 numbers as exact data.

A finite number is `± significand · 2 ^ exponent`. `ofRatio` rounds a ratio of naturals to the
nearest such number, a tie going to the even significand, and gives infinity beyond the greatest
one. The two zeros are different data and the same number.
-/
namespace DeriveKit

namespace Binary64

/-- The exponent of the least positive number. -/
def minExponent : Int := -1074

/-- The exponent of the greatest finite number. -/
def maxExponent : Int := 971

/-- The significands and exponents of numbers: 53 bits, and the first of them is set above the least
exponent. -/
structure Legal (significand : Nat) (exponent : Int) : Prop where
  significand_lt : significand < Nat.pow 2 53
  minExponent_le : minExponent ≤ exponent
  le_maxExponent : exponent ≤ maxExponent
  le_significand : minExponent < exponent → Nat.pow 2 52 ≤ significand

instance (significand : Nat) (exponent : Int) : Decidable (Legal significand exponent) :=
  decidable_of_iff
    (significand < Nat.pow 2 53 ∧ minExponent ≤ exponent ∧ exponent ≤ maxExponent ∧
      (minExponent < exponent → Nat.pow 2 52 ≤ significand))
    ⟨fun ⟨h, hmin, hmax, hfirst⟩ => ⟨h, hmin, hmax, hfirst⟩,
      fun h => ⟨h.significand_lt, h.minExponent_le, h.le_maxExponent, h.le_significand⟩⟩

/-- A finite number. -/
structure Finite where
  negative : Bool
  significand : Nat
  exponent : Int
  legal : Legal significand exponent
deriving DecidableEq, Repr

end Binary64

inductive Binary64 where
  | finite (x : Binary64.Finite)
  | infinite (negative : Bool)
  /-- No number. One NaN equals another only if they are the same object, so which one it is belongs
  to it. -/
  | nan (object : Nat)
deriving DecidableEq, Repr

namespace Binary64

def zero (negative : Bool) : Binary64 :=
  finite ⟨negative, 0, minExponent, ⟨by decide, by decide, by decide, by decide⟩⟩

/-- Equality of numbers: the sign of a zero does not count. -/
def same : Binary64 → Binary64 → Bool
  | finite x, finite y =>
    x.significand == y.significand && x.exponent == y.exponent
      && (x.negative == y.negative || x.significand == 0)
  | infinite s, infinite s' => s == s'
  | nan n, nan n' => n == n'
  | _, _ => false

/-! ## Rounding -/

/-- The number `± significand · 2 ^ exponent`, infinite where there is none. -/
def ofParts (negative : Bool) (significand : Nat) (exponent : Int) : Binary64 :=
  if h : Legal significand exponent then finite ⟨negative, significand, exponent, h⟩
  else infinite negative

/-- The integer nearest to `a / b`, the even one of two. -/
def divNearest (a b : Nat) : Nat :=
  let q := a / b
  let twice := 2 * (a % b)
  if twice < b || (twice == b && q % 2 == 0) then q else q + 1

/-- The ratio `num / den` times `2 ^ k`, again as a ratio. -/
def scale (k : Int) (num den : Nat) : Nat × Nat :=
  if 0 ≤ k then (num * Nat.pow 2 k.toNat, den) else (num, den * Nat.pow 2 (-k).toNat)

/-- The greatest `k` with `2 ^ k ≤ num / den`, for positive `num` and `den`. -/
def floorLog2 (num den : Nat) : Int :=
  let guess : Int := Int.ofNat num.log2 - Int.ofNat den.log2
  let (a, b) := scale (-guess) num den
  if b ≤ a then guess else guess - 1

/-- Significand and exponent of the number nearest to `num / den`, for positive `num` and `den` and as
if there were no greatest exponent. -/
def rounded (num den : Nat) : Nat × Int :=
  let exponent := max (floorLog2 num den - 52) minExponent
  let (a, b) := scale (-exponent) num den
  let significand := divNearest a b
  -- Rounding up may reach the next power of two.
  if significand = Nat.pow 2 53 then (Nat.pow 2 52, exponent + 1) else (significand, exponent)

/-- The number nearest to `± num / den`. -/
def ofRatio (negative : Bool) (num den : Nat) : Binary64 :=
  if num = 0 then zero negative
  else ofParts negative (rounded num den).1 (rounded num den).2

/-- The number of digits of `n` in base ten. -/
def decimalLength (n : Nat) : Nat := (Nat.toDigits 10 n).length

/-- The number nearest to `± digits · 10 ^ exponent`. Far beyond either end of the range the power
is not formed. -/
def ofDecimal (negative : Bool) (digits : Nat) (exponent : Int) : Binary64 :=
  let magnitude := Int.ofNat (decimalLength digits) + exponent
  if digits = 0 ∨ magnitude < -330 then zero negative
  else if 310 < magnitude then infinite negative
  else if 0 ≤ exponent then ofRatio negative (digits * Nat.pow 10 exponent.toNat) 1
  else ofRatio negative digits (Nat.pow 10 (-exponent).toNat)

/-! ## The decimal text of a number

`shortest` finds the fewest decimal digits that read back as the number, and of those the nearest
to it. `render` lays them out: with a point for decimal exponents from -4 to 15, otherwise with an
exponent that has a sign and at least two digits. -/

/-- The ratio `num / den` divided by `10 ^ k`, again as a ratio. -/
def unscaleTen (k : Int) (num den : Nat) : Nat × Nat :=
  if 0 ≤ k then (num, den * Nat.pow 10 k.toNat) else (num * Nat.pow 10 (-k).toNat, den)

/-- The numbers that round to one value: `value / den` lies between `low / den` and `high / den`,
and the ends belong to it when `closed`. -/
structure Interval where
  low : Nat
  value : Nat
  high : Nat
  den : Nat
  closed : Bool

/-- The interval of `significand · 2 ^ exponent`. Below a power of two the gap is half as wide. -/
def interval (significand : Nat) (exponent : Int) : Interval :=
  let below := if significand = Nat.pow 2 52 ∧ minExponent < exponent then 1 else 2
  let unit := scale (exponent - 2) 1 1
  { low := (4 * significand - below) * unit.1
    value := 4 * significand * unit.1
    high := (4 * significand + 2) * unit.1
    den := unit.2
    closed := significand % 2 == 0 }

/-- Whether `digits · 10 ^ k` lies in the interval. -/
def Interval.has (i : Interval) (digits : Nat) (k : Int) : Bool :=
  let low := unscaleTen k i.low i.den
  let high := unscaleTen k i.high i.den
  if i.closed then low.1 ≤ digits * low.2 && digits * high.2 ≤ high.1
  else low.1 < digits * low.2 && digits * high.2 < high.1

/-- A multiple of `10 ^ k` in the interval, the nearer of the value's two neighbours. -/
def Interval.onGrid? (i : Interval) (k : Int) : Option Nat :=
  let (num, den) := unscaleTen k i.value i.den
  let down := num / den
  let up := down + 1
  match i.has down k, i.has up k with
  | true, true =>
    let middle := (2 * down + 1) * den
    if 2 * num < middle || (2 * num == middle && down % 2 == 0) then some down else some up
  | true, false => some down
  | false, true => some up
  | false, false => none

/-- The decimal exponent of the interval's value: the `k` with `10 ^ k ≤ value < 10 ^ (k + 1)`. -/
def Interval.magnitude (i : Interval) : Int :=
  -- No positive number is below `10 ^ -400`.
  Int.ofNat (decimalLength (i.value * Nat.pow 10 400 / i.den)) - 401

/-- Digits and power of ten of the shortest decimal that reads back as the positive number
`significand · 2 ^ exponent`: a point of the coarsest decimal grid that meets the interval. No point
of it ends in a zero, for such a point lies on a coarser grid. Seventeen digits are always enough. -/
def shortest (significand : Nat) (exponent : Int) : Nat × Int :=
  let i := interval significand exponent
  let top := i.magnitude + 1
  let found := (List.range 18).findSome? fun n =>
    let k := top - Int.ofNat n
    (i.onGrid? k).map (·, k)
  found.getD (0, 0)

/-- The exponent part: a sign and at least two digits. -/
def exponentText (k : Int) : String :=
  let ds := Nat.toDigits 10 k.natAbs
  String.ofList ('e' :: (if k < 0 then '-' else '+') :: (List.replicate (2 - ds.length) '0' ++ ds))

/-- Lays out the digits `ds` of a number whose first digit has weight `10 ^ k`. -/
def layout (ds : List Char) (k : Int) : String :=
  if 0 ≤ k ∧ k < 16 then
    let whole := ds.take (k.toNat + 1)
    let part := ds.drop (k.toNat + 1)
    String.ofList (whole ++ List.replicate (k.toNat + 1 - ds.length) '0' ++ '.' ::
      if part.isEmpty then ['0'] else part)
  else if -4 ≤ k ∧ k < 0 then
    String.ofList ('0' :: '.' :: (List.replicate (k.natAbs - 1) '0' ++ ds))
  else
    String.ofList (ds.take 1 ++ if ds.length ≤ 1 then [] else '.' :: ds.drop 1) ++ exponentText k

/-- The text of a number's absolute value. -/
def renderAbs : Binary64 → String
  | nan _ => "nan"
  | infinite _ => "inf"
  | finite x =>
    if x.significand = 0 then "0.0"
    else
      let (digits, k) := shortest x.significand x.exponent
      let ds := Nat.toDigits 10 digits
      layout ds (k + Int.ofNat ds.length - 1)

def isNegative : Binary64 → Bool
  | nan _ => false
  | infinite negative => negative
  | finite x => x.negative

def render (x : Binary64) : String :=
  if x.isNegative then "-" ++ x.renderAbs else x.renderAbs

/-! ## Reading a number from decimal text

A numeral is a run of digits with at most one point, at least one digit and perhaps an exponent.
One underscore may stand between two digits. `inf` and `infinity` are read in any case, a sign may
come first, and blanks around the whole are passed over. The digits may be those of any script. -/

open DeriveKit.Text

/-- Splits off the run of digits that `cs` starts with. A single underscore between two digits is
passed over; `inside` tells whether a digit stands before `cs`. -/
def takeDigitsFrom : Bool → List Char → List Char × List Char
  | _, [] => ([], [])
  | inside, c :: rest =>
    if isDigit c then
      let (ds, after) := takeDigitsFrom true rest
      (c :: ds, after)
    else if c = '_' ∧ inside ∧ rest.head?.any isDigit then takeDigitsFrom false rest
    else ([], c :: rest)

def takeDigits (cs : List Char) : List Char × List Char := takeDigitsFrom false cs

/-- Splits off a sign; `true` is minus. -/
def takeSign : List Char → Bool × List Char
  | '-' :: rest => (true, rest)
  | '+' :: rest => (false, rest)
  | rest => (false, rest)

/-- An exponent that takes up the whole of `cs`, or nothing. -/
def exponent? : List Char → Option Int
  | [] => some 0
  | c :: rest =>
    if c = 'e' ∨ c = 'E' then
      let (negative, rest) := takeSign rest
      match takeDigits rest with
      | ([], _) => none
      | (ds, []) =>
        let n := Int.ofNat (decimalValue ds)
        some (if negative then -n else n)
      | _ => none
    else none

/-- An unsigned numeral. -/
def numeral? (negative : Bool) (cs : List Char) : Option Binary64 :=
  let (whole, rest) := takeDigits cs
  let (part, rest) := match rest with
    | '.' :: more => takeDigits more
    | _ => ([], rest)
  if whole.isEmpty && part.isEmpty then none
  else
    (exponent? rest).map fun e =>
      ofDecimal negative (decimalValue (whole ++ part)) (e - Int.ofNat part.length)

/-- The number that `s` writes, rounded to the nearest. -/
def ofText? (s : String) : Option Binary64 :=
  let (negative, cs) := takeSign ((trim s.toList).map asciiDigit)
  let word := String.ofList (cs.map Char.toLower)
  if word = "inf" ∨ word = "infinity" then some (infinite negative) else numeral? negative cs

end Binary64

end DeriveKit
