import ScriptTree.Text.Class

/-! String literals to be written. What is escaped reads back as one character, and what is left
holds no control character and no line break. -/
namespace ScriptTree

/-- Four digits, lower case. -/
def hex4 (n : Nat) : List Char :=
  [n / 0x1000, n / 0x100, n / 0x10, n].map fun d => Nat.digitChar (d % 16)

def quoteChar (c : Char) : List Char :=
  match c with
  | '\\' => ['\\', '\\']
  | '\x22' => ['\\', '\x22']
  | '\n' => ['\\', 'n']
  | '\r' => ['\\', 'r']
  | '\t' => ['\\', 't']
  | '\x0b' => ['\\', 'v']
  | '\x0c' => ['\\', 'f']
  | c => if Text.isControl c || Text.isLineBreak c then '\\' :: 'u' :: hex4 c.toNat else [c]

/-- The literal in double quotes that reads as `s`. -/
def quote (s : String) : List Char := '\x22' :: s.toList.flatMap quoteChar ++ ['\x22']

end ScriptTree
