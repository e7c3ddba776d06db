import ScriptTree.Text.Class

/-! Doubles, kept exact. Every finite double is a whole number of units of `2 ^ -1074`, the least
positive one, and the nonnegative finite doubles in increasing order are numbered from 0. A value is
stored as that rank, so equal doubles are equal data and rounding is arithmetic on naturals. -/
namespace ScriptTree

/-- How many nonnegative finite doubles there are. -/
def finiteCount : Nat := 0x7ff0000000000000

inductive Double where
  | finite (negative : Bool) (rank : Fin finiteCount)
  | infinite (negative : Bool)
  | nan
deriving DecidableEq, Repr

namespace Double

/-- One in units of the least positive double. -/
def oneInUnits : Nat := Nat.pow 2 1074

/-- The magnitude at a rank, in units of the least positive double. Below `2 ^ 53` the doubles are
one unit apart; from there on the distance doubles every `2 ^ 52` ranks. -/
def unitsAt (rank : Nat) : Nat :=
  if rank < Nat.pow 2 53 then rank
  else (Nat.pow 2 52 + rank % Nat.pow 2 52) * Nat.pow 2 (rank / Nat.pow 2 52 - 1)

/-- The quotient rounded to the nearest natural, a half going to the even one. -/
def roundDiv (num den : Nat) : Nat :=
  let q := num / den
  let twice := 2 * (num % den)
  if twice < den || (twice == den && q % 2 == 0) then q else q + 1

/-- The rank nearest to `num / den` units: the leading 53 bits are rounded, and a carry out of them
lands on the next rank by itself. -/
def nearestRank (num den : Nat) : Nat :=
  let shift := (num / den).log2 - 52
  shift * Nat.pow 2 52 + roundDiv num (den * Nat.pow 2 shift)

/-- The double at a rank; past the last finite one is infinity. -/
def ofRank (rank : Nat) : Double :=
  if h : rank < finiteCount then .finite false ⟨rank, h⟩ else .infinite false

def zero : Double := ofRank 0

/-- The double nearest to `num / den`. -/
def ofRatio (num den : Nat) : Double := ofRank (nearestRank (num * oneInUnits) den)

def digitCount (n : Nat) : Nat := (Nat.toDigits 10 n).length

/-- The double nearest to `coefficient * 10 ^ exponent`. A number with more than 310 digits before
the point is past the largest double, and one with 330 zeros after it is below half the least. -/
def ofDecimal (coefficient : Nat) (exponent : Int) : Double :=
  let point := digitCount coefficient + exponent
  if coefficient = 0 ∨ point < -330 then zero
  else if 310 < point then .infinite false
  else match exponent with
    | .ofNat e => ofRatio (coefficient * Nat.pow 10 e) 1
    | .negSucc e => ofRatio coefficient (Nat.pow 10 (e + 1))

/-- Another double for the rank of a finite one. -/
def onRank (f : Nat → Double) : Double → Double
  | .finite _ rank => f rank
  | other => other

/-- One more digit in a base: the product is rounded, then the sum. -/
def appendDigit (base : Nat) (digit : Nat) (x : Double) : Double :=
  let product := x.onRank fun rank => ofRank (nearestRank (unitsAt rank * base) 1)
  product.onRank fun rank => ofRank (nearestRank (unitsAt rank + digit * oneInUnits) 1)

/-- Digits read one by one in a base, with rounding at each step. -/
def ofDigits (base : Nat) (ds : List Char) : Double :=
  ds.foldl (fun x d => appendDigit base (Text.digitValue d) x) zero

/-- The magnitude of a double that is a natural number. -/
def natural? : Double → Option Nat
  | .finite _ rank =>
    if unitsAt rank % oneInUnits = 0 then some (unitsAt rank / oneInUnits) else none
  | _ => none

end Double
end ScriptTree
