import ScriptTree.Number.Shortest

/-! How numbers are written. Scripts and messages use plain decimals at any size; JSON changes to an
exponent outside `10 ^ -5 ≤ x < 10 ^ 16` and marks a number that is not an integer literal. -/
namespace ScriptTree.Decimal

/-- Positional form, with no point after an integer. -/
def plain (d : Decimal) : List Char :=
  match d.point with
  | .negSucc n => '0' :: '.' :: (List.replicate (n + 1) '0' ++ d.digits)
  | .ofNat 0 => '0' :: '.' :: d.digits
  | .ofNat n =>
    if d.digits.length ≤ n then d.digits ++ List.replicate (n - d.digits.length) '0'
    else d.digits.take n ++ '.' :: d.digits.drop n

/-- One digit before the point, and the exponent always signed. -/
def scientific (d : Decimal) : List Char :=
  let fraction := if d.digits.length ≤ 1 then [] else '.' :: d.digits.drop 1
  let exponent := d.point - 1
  d.digits.take 1 ++ fraction ++ 'e' :: (if exponent < 0 then '-' else '+') ::
    Nat.toDigits 10 exponent.natAbs

/-- JSON's spelling of a number that is not written as an integer. -/
def fractional (d : Decimal) : List Char :=
  if -5 < d.point ∧ d.point ≤ 16 then
    if d.digits.length ≤ d.point.toNat then d.plain ++ ['.', '0'] else d.plain
  else d.scientific

end ScriptTree.Decimal

namespace ScriptTree.Double

def sign (negative : Bool) : List Char := if negative then ['-'] else []

/-- The text of a number in messages. -/
def text : Double → List Char
  | .nan => "NaN".toList
  | .infinite negative => sign negative ++ "Infinity".toList
  | .finite negative rank => sign negative ++ (Decimal.shortest .up rank).plain

/-- The literal that reads as a number. An infinity is written as a literal that overflows again. -/
def literal : Double → List Char
  | .infinite _ => "1e999".toList
  | x => x.text

/-- JSON's spelling of a finite number. -/
def fractional : Double → List Char
  | .finite negative rank => sign negative ++ (Decimal.shortest .toEven rank).fractional
  | x => x.text

end ScriptTree.Double
