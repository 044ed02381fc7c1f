/-!
The shortest decimal that reads back as a given finite float.

A float is `significand * 2 ^ exponent`. Every real number between the midpoints to its
two neighbours rounds to it; the midpoints themselves do when the significand is even.
For one, two, ... digits the two decimals next to the float are tried on the grid of that
many digits, and the first grid with a hit wins.
-/

namespace ScopedClauses

structure Decimal where
  digits : Nat
  exponent : Int
deriving Repr, DecidableEq

structure Binary where
  significand : Nat
  exponent : Int
  narrow : Bool
deriving Repr, DecidableEq

namespace Binary

def ofBits (bits : UInt64) : Binary :=
  let fraction := (bits &&& 0xFFFFFFFFFFFFF).toNat
  let biased := ((bits >>> 52) &&& 0x7FF).toNat
  if biased = 0 then ⟨fraction, -1074, false⟩
  else ⟨fraction + Nat.pow 2 52, (biased : Int) - 1075, fraction = 0 && biased > 1⟩

end Binary

namespace Decimal

def ratio (significand : Nat) (binary decimal : Int) : Nat × Nat :=
  (significand * Nat.pow 2 binary.toNat * Nat.pow 10 decimal.toNat,
    Nat.pow 2 (-binary).toNat * Nat.pow 10 (-decimal).toNat)

def digitCount (number : Nat) : Nat := (Nat.toDigits 10 number).length

def leadingPlace (value : Binary) : Int :=
  let (numerator, denominator) := ratio value.significand value.exponent 400
  (digitCount (numerator / denominator) : Int) - 400

def roundsTo (value : Binary) (place : Int) (candidate : Nat) : Bool :=
  let center := 4 * value.significand
  let lower := if value.narrow then center - 1 else center - 2
  let upper := center + 2
  -- both sides are scaled to natural numbers, with quarters of the last binary place as unit
  let (scale, unit) := ratio 1 (2 - value.exponent) place
  let point := candidate * scale
  if value.significand % 2 = 0 then lower * unit ≤ point && point ≤ upper * unit
  else lower * unit < point && point < upper * unit

def onGrid? (value : Binary) (digits : Nat) : Option Decimal :=
  let place := leadingPlace value - digits
  let (numerator, denominator) := ratio value.significand value.exponent (-place)
  let below := numerator / denominator
  let above := below + 1
  let remainder := numerator % denominator
  let belowHits := roundsTo value place below
  let aboveHits := roundsTo value place above
  let nearerBelow := 2 * remainder < denominator ||
    (2 * remainder = denominator && below % 2 = 0)
  if belowHits && (nearerBelow || !aboveHits) then some ⟨below, place⟩
  else if aboveHits then some ⟨above, place⟩
  else none

def trim (decimal : Decimal) : Nat → Decimal
  | 0 => decimal
  | steps + 1 =>
      if decimal.digits ≠ 0 && decimal.digits % 10 = 0 then
        trim ⟨decimal.digits / 10, decimal.exponent + 1⟩ steps
      else decimal

def shortest (value : Binary) : Decimal :=
  match (List.range 17).findSome? fun extra => onGrid? value (extra + 1) with
  | some decimal => decimal.trim 17
  | none => ⟨0, 0⟩

end Decimal

end ScopedClauses
