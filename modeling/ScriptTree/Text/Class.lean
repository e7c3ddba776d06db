/-! Character classes of scripts. Words and numbers are ASCII; blanks and line breaks are not. -/
namespace ScriptTree.Text

/-- The four characters that end a line. `\r\n` is one break of two characters. -/
def isLineBreak (c : Char) : Bool :=
  c == '\n' || c == '\r' || c == '\u2028' || c == '\u2029'

/-- The Unicode property White_Space, and the byte order mark. -/
def isBlank (c : Char) : Bool :=
  let n := c.toNat
  (0x9 ≤ n && n ≤ 0xd) || n == 0x20 || n == 0x85 || n == 0xa0 || n == 0x1680 ||
    (0x2000 ≤ n && n ≤ 0x200a) || n == 0x2028 || n == 0x2029 || n == 0x202f || n == 0x205f ||
    n == 0x3000 || n == 0xfeff

/-- The general category Cc. -/
def isControl (c : Char) : Bool :=
  c.toNat < 0x20 || (0x7f ≤ c.toNat && c.toNat < 0xa0)

def isDigit (c : Char) : Bool := '0' ≤ c && c ≤ '9'

def isHexDigit (c : Char) : Bool :=
  isDigit c || ('a' ≤ c && c ≤ 'f') || ('A' ≤ c && c ≤ 'F')

/-- A character that may begin a name. -/
def isWordStart (c : Char) : Bool :=
  ('a' ≤ c && c ≤ 'z') || ('A' ≤ c && c ≤ 'Z') || c == '_' || c == '$'

/-- A character that may continue a name. -/
def isWordPart (c : Char) : Bool := isWordStart c || isDigit c

/-- Value of a digit in any base up to sixteen; zero for any other character. -/
def digitValue (c : Char) : Nat :=
  if isDigit c then c.toNat - '0'.toNat
  else if 'a' ≤ c && c ≤ 'f' then c.toNat - 'a'.toNat + 10
  else if 'A' ≤ c && c ≤ 'F' then c.toNat - 'A'.toNat + 10
  else 0

/-- The number that digits spell in a base. -/
def ofDigits (base : Nat) (ds : List Char) : Nat :=
  ds.foldl (fun n d => n * base + digitValue d) 0

/-- The first number an unsigned 64-bit word cannot hold. -/
def wordLimit : Nat := Nat.pow 2 64

/-- Reads an unsigned 64-bit word: decimal digits, possibly after one `+`. -/
def readWord? (cs : List Char) : Option Nat :=
  let ds := if cs.head? == some '+' then cs.drop 1 else cs
  if ds.isEmpty || !ds.all isDigit then none
  else
    let n := ofDigits 10 ds
    if n < wordLimit then some n else none

/-- Whoever ends a line also separates tokens. -/
theorem isBlank_of_isLineBreak {c : Char} (h : isLineBreak c = true) : isBlank c = true := by
  simp only [isLineBreak, Bool.or_eq_true, beq_iff_eq] at h
  rcases h with ((rfl | rfl) | rfl) | rfl <;> decide

end ScriptTree.Text
