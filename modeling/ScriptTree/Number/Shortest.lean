import ScriptTree.Number.Double

/-! The fewest decimal digits that read back to a double. For one digit, two digits and so on, the
value's two neighbours among the decimals with that many digits are read back; the first count with
a hit wins, and of two hits the nearer. Seventeen digits always hit, so the exact expansion that
ends the search is never needed. -/
namespace ScriptTree

/-- The decimal `0.d₁d₂… * 10 ^ point`. -/
structure Decimal where
  digits : List Char
  point : Int
deriving DecidableEq, Repr

/-- Where an exact half goes. -/
inductive Tie where
  | toEven
  | up
deriving DecidableEq, Repr

namespace Decimal

/-- `coefficient * 10 ^ exponent` without zeros at its end. -/
def ofScaled (coefficient : Nat) (exponent : Int) : Decimal :=
  let ds := Nat.toDigits 10 coefficient
  { digits := (ds.reverse.dropWhile (· == '0')).reverse, point := ds.length + exponent }

/-- The least `p` with `units` below `10 ^ p`, where `units` counts least positive doubles. -/
def pointOf (units : Nat) : Int :=
  if Double.oneInUnits ≤ units then (Double.digitCount (units / Double.oneInUnits) : Int)
  else 1 - (Double.digitCount ((Double.oneInUnits - 1) / units) : Int)

/-- `units` as a quotient of naturals, scaled by `10 ^ -exponent`. -/
def scaled (units : Nat) : (exponent : Int) → Nat × Nat
  | .ofNat e => (units, Double.oneInUnits * Nat.pow 10 e)
  | .negSucc e => (units * Nat.pow 10 (e + 1), Double.oneInUnits)

/-- The nearer of the two neighbours `low` and `low + 1` of a quotient that pass the test. -/
def nearer (tie : Tie) (quotient : Nat × Nat) (passes : Nat → Bool) : Option Nat :=
  let low := quotient.1 / quotient.2
  let twice := 2 * (quotient.1 % quotient.2)
  let below := twice < quotient.2 ||
    (twice == quotient.2 && tie == .toEven && low % 2 == 0)
  match passes low, passes (low + 1) with
  | true, true => some (if below then low else low + 1)
  | true, false => some low
  | false, true => some (low + 1)
  | false, false => none

/-- A decimal of `count` digits that reads back to the double at `rank`. -/
def withDigits? (tie : Tie) (rank : Fin finiteCount) (count : Nat) : Option Decimal :=
  let units := Double.unitsAt rank
  let exponent := pointOf units - count
  let readsBack := fun n => Double.ofDecimal n exponent == .finite false rank
  (nearer tie (scaled units exponent) readsBack).map (ofScaled · exponent)

def shortest (tie : Tie) (rank : Fin finiteCount) : Decimal :=
  let units := Double.unitsAt rank
  if units = 0 then ⟨['0'], 1⟩
  else
    ((List.range' 1 17).findSome? (withDigits? tie rank)).getD
      (ofScaled (units * Nat.pow 5 1074) (-1074))

end Decimal
end ScriptTree
