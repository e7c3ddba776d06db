import ScriptTree.Lexer.Scan

/-! String literals. The body is cut into plain characters and 16-bit code units written as
escapes; then the units are decoded, a surrogate pair becoming one character. -/
namespace ScriptTree.Quoted

inductive Element where
  | char (c : Char)
  | unit (n : Nat)
deriving DecidableEq, Repr

/-- The character a backslash and a letter stand for; most stand for themselves. -/
def escaped : Char → Char
  | 'n' => '\n'
  | 'f' => '\x0c'
  | 'r' => '\r'
  | 't' => '\t'
  | 'v' => '\x0b'
  | c => c

structure Body where
  length : Nat
  found : Except Cause (List Element)

/-- A body that begins with an element of `n` characters. -/
def Body.after (n : Nat) (e : Element) (b : Body) : Body := ⟨n + b.length, b.found.map (e :: ·)⟩

/-- The body of a literal after its opening quote, through its closing quote. -/
def body (quote : Char) : List Char → Body
  | [] => ⟨0, .error .unterminatedString⟩
  | c :: cs =>
    if c = quote then ⟨1, .ok []⟩
    else if c = '\\' then
      match cs with
      | [] => ⟨1, .error .unterminatedString⟩
      | 'u' :: a :: b :: c :: d :: cs =>
        if [a, b, c, d].all Text.isHexDigit then
          (body quote cs).after 6 (.unit (Text.ofDigits 16 [a, b, c, d]))
        else ⟨2, .error .invalidUnicodeEscape⟩
      | 'u' :: _ => ⟨2, .error .invalidUnicodeEscape⟩
      | e :: cs => (body quote cs).after 2 (.char (escaped e))
    else (body quote cs).after 1 (.char c)

def isHighSurrogate (n : Nat) : Bool := 0xd800 ≤ n && n ≤ 0xdbff

def isLowSurrogate (n : Nat) : Bool := 0xdc00 ≤ n && n ≤ 0xdfff

/-- The character a single unit stands for; an unpaired surrogate is replaced. -/
def ofUnit (n : Nat) : Char :=
  if isHighSurrogate n || isLowSurrogate n then '\ufffd' else Char.ofNat n

def ofPair (high low : Nat) : Char :=
  Char.ofNat (0x10000 + (high - 0xd800) * 0x400 + (low - 0xdc00))

def decode : List Element → List Char
  | [] => []
  | .char c :: es => c :: decode es
  | .unit high :: .unit low :: es =>
    if isHighSurrogate high && isLowSurrogate low then ofPair high low :: decode es
    else ofUnit high :: decode (.unit low :: es)
  | .unit n :: es => ofUnit n :: decode es

/-- The literal after its opening quote. -/
def scan (quote : Char) (cs : List Char) : Scan :=
  let b := body quote cs
  ⟨1 + b.length, b.found.map fun es => .string (String.ofList (decode es))⟩

end ScriptTree.Quoted
