import ScriptTree.Json.Value

/-! The text of a JSON value, on one line or indented. Each writer puts its text in front of what
follows, so a value's text is built once, however deep it is nested. -/
namespace ScriptTree.Json

/-- Sixteen digits, lower case. -/
def hexDigit (n : Nat) : Char := Nat.digitChar (n % 16)

/-- A character inside quotes. Only quotes, backslashes and the first 32 characters are escaped. -/
def escape (c : Char) : List Char :=
  match c with
  | '\x22' => ['\\', '\x22']
  | '\\' => ['\\', '\\']
  | '\x08' => ['\\', 'b']
  | '\t' => ['\\', 't']
  | '\n' => ['\\', 'n']
  | '\x0c' => ['\\', 'f']
  | '\r' => ['\\', 'r']
  | c =>
    if c.toNat < 0x20 then ['\\', 'u', '0', '0', hexDigit (c.toNat / 16), hexDigit c.toNat] else [c]

def writeString (s : String) (k : List Char) : List Char :=
  '\x22' :: s.toList.foldr (fun c k => escape c ++ k) ('\x22' :: k)

def intText (i : Int) : List Char :=
  if i < 0 then '-' :: Nat.toDigits 10 i.natAbs else Nat.toDigits 10 i.natAbs

mutual
/-- The text on one line, followed by `k`. -/
def writeCompact : Json → List Char → List Char
  | .null, k => "null".toList ++ k
  | .bool true, k => "true".toList ++ k
  | .bool false, k => "false".toList ++ k
  | .int i, k => intText i ++ k
  | .double x, k => x.fractional ++ k
  | .string s, k => writeString s k
  | .array [], k => '[' :: ']' :: k
  | .array (v :: vs), k => '[' :: writeCompact v (writeCompactItems vs k)
  | .object [], k => '\x7b' :: '\x7d' :: k
  | .object ((name, v) :: fs), k =>
    '\x7b' :: writeString name (':' :: writeCompact v (writeCompactFields fs k))
/-- The items after the first, and the bracket. -/
def writeCompactItems : List Json → List Char → List Char
  | [], k => ']' :: k
  | v :: vs, k => ',' :: writeCompact v (writeCompactItems vs k)
/-- The fields after the first, and the brace. -/
def writeCompactFields : List (String × Json) → List Char → List Char
  | [], k => '\x7d' :: k
  | (name, v) :: fs, k =>
    ',' :: writeString name (':' :: writeCompact v (writeCompactFields fs k))
end

/-- A new line, two spaces in for each level. -/
def newLine (level : Nat) (k : List Char) : List Char :=
  '\n' :: (List.replicate (2 * level) ' ' ++ k)

mutual
/-- The indented text at a level, followed by `k`. -/
def writePretty (level : Nat) : Json → List Char → List Char
  | .array (v :: vs), k =>
    '[' :: newLine (level + 1) (writePretty (level + 1) v (writePrettyItems level vs k))
  | .object ((name, v) :: fs), k =>
    '\x7b' :: newLine (level + 1) (writeString name (':' :: ' ' ::
      writePretty (level + 1) v (writePrettyFields level fs k)))
  | .array [], k => '[' :: ']' :: k
  | .object [], k => '\x7b' :: '\x7d' :: k
  | .null, k => writeCompact .null k
  | .bool b, k => writeCompact (.bool b) k
  | .int i, k => writeCompact (.int i) k
  | .double x, k => writeCompact (.double x) k
  | .string s, k => writeCompact (.string s) k
/-- The items after the first, and the bracket, of an array at a level. -/
def writePrettyItems (level : Nat) : List Json → List Char → List Char
  | [], k => newLine level (']' :: k)
  | v :: vs, k =>
    ',' :: newLine (level + 1) (writePretty (level + 1) v (writePrettyItems level vs k))
/-- The fields after the first, and the brace, of an object at a level. -/
def writePrettyFields (level : Nat) : List (String × Json) → List Char → List Char
  | [], k => newLine level ('\x7d' :: k)
  | (name, v) :: fs, k =>
    ',' :: newLine (level + 1) (writeString name (':' :: ' ' ::
      writePretty (level + 1) v (writePrettyFields level fs k)))
end

def compact (v : Json) : String := String.ofList (writeCompact v [])

def pretty (v : Json) : String := String.ofList (writePretty 0 v [])

end ScriptTree.Json
