import BlockScript.Decimal.Binary

/-!
# Shortest decimals

The text of a double is the decimal with the fewest digits that reads back as the same
double, and of those the nearest.  Every double is the nearest one to an interval of reals;
for one, two, and up to seventeen digits the two neighbours of the value on that decimal grid
are tested against the interval, in exact arithmetic.
-/

namespace BlockScript.Decimal

/-- A positive decimal `0.d₁d₂… · 10 ^ point`. -/
structure Digits where
  digits : List Char
  point : Int

/-- `num / den` with a common denominator for the value and the ends of its interval. -/
structure Interval where
  low : Nat
  value : Nat
  high : Nat
  den : Nat
  /-- Whether the ends themselves read back as the value. -/
  closed : Bool

/-- The reals that round to `mantissa · 2 ^ exponent`.  Below a power of two the doubles lie
twice as close. -/
def interval (mantissa : Nat) (exponent : Int) : Interval :=
  let down := if mantissa == 0x10000000000000 && -1074 < exponent then 1 else 2
  let scale := Nat.pow 2 (exponent - 2).toNat
  { low := (4 * mantissa - down) * scale
    value := 4 * mantissa * scale
    high := (4 * mantissa + 2) * scale
    den := Nat.pow 2 (2 - exponent).toNat
    closed := mantissa % 2 == 0 }

/-- Whether `n · 10 ^ power` lies in the interval. -/
def Interval.holds (i : Interval) (n : Nat) (power : Int) : Bool :=
  let left := n * Nat.pow 10 power.toNat * i.den
  let unit := Nat.pow 10 (-power).toNat
  if i.closed then i.low * unit ≤ left && left ≤ i.high * unit
  else i.low * unit < left && left < i.high * unit

/-- How many digits stand before the point: the least `p` with `value < 10 ^ p`. -/
def Interval.point (i : Interval) : Int :=
  if i.den ≤ i.value then (Nat.toDigits 10 (i.value / i.den)).length
  else
    let zeros := (List.range 400).find? fun k => i.den ≤ i.value * Nat.pow 10 (k + 1)
    Int.negOfNat (zeros.getD 0)

/-- The neighbour of the value on the grid of `count` digits that reads back: the nearer one
first, and of two equally near the even one. -/
def Interval.onGrid? (i : Interval) (count : Nat) : Option Digits :=
  let power := i.point - count
  let num := i.value * Nat.pow 10 (-power).toNat
  let den := i.den * Nat.pow 10 power.toNat
  let below := num / den
  let twice := 2 * (num % den)
  let candidates :=
    if twice < den || (twice == den && below % 2 == 0) then [below, below + 1]
    else [below + 1, below]
  (candidates.find? fun n => 0 < n && i.holds n power).map fun n =>
    let digits := Nat.toDigits 10 n
    ⟨digits, power + digits.length⟩

/-- The shortest decimal of `mantissa · 2 ^ exponent`, for a positive mantissa. -/
def shortest (mantissa : Nat) (exponent : Int) : Digits :=
  let i := interval mantissa exponent
  ((List.range 17).findSome? fun count => i.onGrid? (count + 1)).getD ⟨['0'], 1⟩

/-- Digits with the point among or around them, and at least one digit on either side. -/
def positional (d : Digits) : String :=
  let n := d.digits.length
  if d.point ≤ 0 then "0." ++ String.ofList (List.replicate d.point.natAbs '0' ++ d.digits)
  else if d.point.toNat < n then
    String.ofList (d.digits.take d.point.toNat) ++ "." ++ String.ofList (d.digits.drop d.point.toNat)
  else String.ofList (d.digits ++ List.replicate (d.point.toNat - n) '0') ++ ".0"

/-- One digit before the point, and an exponent of at least two digits with its sign. -/
def scientific (d : Digits) : String :=
  let power := d.point - 1
  let size := Nat.toDigits 10 power.natAbs
  let fraction := d.digits.drop 1
  String.ofList (d.digits.take 1) ++
    (if fraction.isEmpty then "" else "." ++ String.ofList fraction) ++ "e" ++
    (if power < 0 then "-" else "+") ++
    String.ofList (List.replicate (2 - size.length) '0' ++ size)

/-- Drops the zeros that a short grid leaves at the end. -/
def Digits.strip (d : Digits) : Digits :=
  match (d.digits.reverse.dropWhile (· == '0')).reverse with
  | [] => ⟨['0'], 1⟩
  | ds => ⟨ds, d.point⟩

/-- The text of a finite double: positional from a ten-thousandth up to sixteen digits,
scientific beyond. -/
def text (b : Binary) : String :=
  let sign := if b.negative then "-" else ""
  if b.mantissa == 0 then sign ++ "0.0"
  else
    let d := (shortest b.mantissa b.exponent).strip
    sign ++ if -3 ≤ d.point && d.point ≤ 16 then positional d else scientific d

end BlockScript.Decimal
