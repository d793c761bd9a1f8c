import BlockScript.Json.Basic

/-!
# Binary values of numbers

A number with a fraction or an exponent counts as the nearest double.  `Binary` is the exact
value of a finite double, and `Number.binary` the value a written number takes.
-/

namespace BlockScript

/-- The exact value `± mantissa · 2 ^ exponent` of a finite double. -/
structure Binary where
  negative : Bool
  mantissa : Nat
  exponent : Int
  deriving DecidableEq, Repr

namespace Binary

/-- The exact value of a double; `none` for the infinities and for no number. -/
def ofFloat? (x : Float) : Option Binary :=
  let bits := x.toBits.toNat
  let negative := bits / 0x8000000000000000 == 1
  let biased : Nat := bits / 0x10000000000000 % 0x800
  let fraction : Nat := bits % 0x10000000000000
  if biased == 0x7FF then none
  else if biased == 0 then some ⟨negative, fraction, -1074⟩
  else some ⟨negative, fraction + 0x10000000000000, (biased : Int) - 1075⟩

/-- The integer this is, if it has no fractional part. -/
def toInt? (b : Binary) : Option Int :=
  let signed (n : Nat) : Int := if b.negative then -(n : Int) else n
  if 0 ≤ b.exponent then some (signed (b.mantissa * Nat.pow 2 b.exponent.toNat))
  else
    let scale := Nat.pow 2 (-b.exponent).toNat
    if b.mantissa % scale == 0 then some (signed (b.mantissa / scale)) else none

end Binary

namespace Number

/-- The decimal numbers beyond these powers of ten round to an infinity or to zero, whatever
their digits. -/
def overflowPower : Int := 400

/-- The double nearest to `± mantissa · 10 ^ exponent`. -/
def nearestFloat (negative : Bool) (mantissa : Nat) (exponent : Int) : Float :=
  let power := exponent + (Nat.toDigits 10 mantissa).length
  let size :=
    if mantissa == 0 || power < -overflowPower then 0.0
    else if overflowPower < power then 1.0 / 0.0
    else Float.ofScientific mantissa (decide (exponent < 0)) exponent.natAbs
  if negative then -size else size

/-- The exact value of a number; `none` when it is not finite. -/
def binary? : Number → Option Binary
  | .int n => some ⟨decide (n < 0), n.natAbs, 0⟩
  | .decimal negative mantissa exponent => Binary.ofFloat? (nearestFloat negative mantissa exponent)
  | .nan => none
  | .infinity _ => none

end Number

end BlockScript
