import ScriptTree.Lexer.Scan

/-! Number literals: hexadecimal after `0x`, octal after a plain `0` (decimal again if an `8` or a
`9` occurs), and decimal with a point and an exponent. A name may not touch a number. -/
namespace ScriptTree.Numeral

/-- Where a walk over a decimal literal stands. -/
inductive Phase where
  | whole
  | fraction
  | exponent (hasDigit : Bool)
deriving DecidableEq, Repr

def Phase.afterDigit : Phase → Phase
  | .exponent _ => .exponent true
  | phase => phase

/-- Whether a literal may end here: an exponent needs a digit. -/
def Phase.complete : Phase → Bool
  | .exponent hasDigit => hasDigit
  | _ => true

def Phase.inExponent : Phase → Bool
  | .exponent _ => true
  | _ => false

def decimalExtent (phase : Phase) : List Char → Extent
  | [] => ⟨0, phase.complete⟩
  | c :: cs =>
    if Text.isDigit c then (decimalExtent phase.afterDigit cs).after 1
    else if c = '.' ∧ phase = .whole then (decimalExtent .fraction cs).after 1
    else if (c = 'e' ∨ c = 'E') ∧ !phase.inExponent then
      match cs with
      | '+' :: cs | '-' :: cs => (decimalExtent (.exponent false) cs).after 2
      | cs => (decimalExtent (.exponent false) cs).after 1
    else ⟨0, phase.complete && !Text.isWordPart c⟩

/-- The exponent that is written after the marker. -/
def exponentValue : List Char → Int
  | '-' :: ds => -(Text.ofDigits 10 ds : Int)
  | '+' :: ds | ds => Text.ofDigits 10 ds

/-- The double that a well-formed decimal literal spells. -/
def decimalValue (literal : List Char) : Double :=
  let mantissa := literal.takeWhile fun c => c != 'e' && c != 'E'
  let exponent := literal.drop (mantissa.length + 1)
  let whole := mantissa.takeWhile (· != '.')
  let fraction := mantissa.drop (whole.length + 1)
  Double.ofDecimal (Text.ofDigits 10 (whole ++ fraction)) (exponentValue exponent - fraction.length)

/-- A run of digits of some class, after which no name may begin. -/
def runExtent (isDigit : Char → Bool) (cs : List Char) : Extent :=
  let run := cs.takeWhile isDigit
  ⟨run.length, !((cs.drop run.length).head?.any Text.isWordStart)⟩

def report (e : Extent) (value : Double) : Scan :=
  ⟨e.length, if e.valid then .ok (.number value) else .error .invalidNumber⟩

def scanDecimal (cs : List Char) : Scan :=
  let e := decimalExtent .whole cs
  report e (decimalValue (cs.take e.length))

/-- The digits after `0x`. -/
def scanHex (cs : List Char) : Scan :=
  let e := runExtent Text.isHexDigit cs
  report ⟨2 + e.length, e.valid && e.length != 0⟩ (Double.ofDigits 16 (cs.take e.length))

/-- The digits after a leading `0`. -/
def scanOctal (cs : List Char) : Scan :=
  let e := runExtent Text.isDigit cs
  let digits := cs.take e.length
  let base := if digits.any fun d => d == '8' || d == '9' then 10 else 8
  report ⟨1 + e.length, e.valid⟩ (Double.ofDigits base digits)

/-- The literal at a digit, or at a point before a digit. -/
def scan (cs : List Char) : Scan :=
  match cs with
  | '0' :: rest =>
    match rest.head? with
    | some 'x' | some 'X' => scanHex (rest.drop 1)
    | some '.' | some 'e' | some 'E' => scanDecimal cs
    | _ => scanOctal rest
  | _ => scanDecimal cs

end ScriptTree.Numeral
