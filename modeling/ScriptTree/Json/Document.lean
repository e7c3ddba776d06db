import ScriptTree.Lexer.Quoted

/-! JSON texts to be read. A document keeps what a reader may still refuse: whether a number is
written as a natural one, and whether a string has an unpaired surrogate. Repeated fields are
kept. -/
namespace ScriptTree

inductive Document where
  | null
  | bool (value : Bool)
  /-- The value of plain digits; none for a sign, a fraction or an exponent. -/
  | number (natural : Option Nat)
  /-- None if a surrogate is not paired. -/
  | string (text : Option String)
  | array (items : List Document)
  | object (fields : List (Option String × Document))

namespace Document

def isSpace (c : Char) : Bool := c == ' ' || c == '\n' || c == '\t' || c == '\r'

def skipSpace (cs : List Char) : List Char := cs.dropWhile isSpace

def escaped? : Char → Option Char
  | '\x22' => some '\x22'
  | '\\' => some '\\'
  | '/' => some '/'
  | 'b' => some '\x08'
  | 'f' => some '\x0c'
  | 'n' => some '\n'
  | 'r' => some '\r'
  | 't' => some '\t'
  | _ => none

/-- The characters and code units up to a closing quote, and the text after it. -/
def readElements : List Char → Option (List Quoted.Element × List Char)
  | [] => none
  | '\x22' :: cs => some ([], cs)
  | '\\' :: 'u' :: a :: b :: c :: d :: cs =>
    if [a, b, c, d].all Text.isHexDigit then
      (readElements cs).map fun (es, rest) => (.unit (Text.ofDigits 16 [a, b, c, d]) :: es, rest)
    else none
  | '\\' :: e :: cs =>
    (escaped? e).bind fun c => (readElements cs).map fun (es, rest) => (.char c :: es, rest)
  | c :: cs =>
    if c.toNat < 0x20 || c == '\\' then none
    else (readElements cs).map fun (es, rest) => (.char c :: es, rest)

/-- The characters of a string without unpaired surrogates. -/
def decode? : List Quoted.Element → Option (List Char)
  | [] => some []
  | .char c :: es => (decode? es).map (c :: ·)
  | .unit high :: .unit low :: es =>
    if Quoted.isHighSurrogate high && Quoted.isLowSurrogate low then
      (decode? es).map (Quoted.ofPair high low :: ·)
    else if Quoted.isHighSurrogate high || Quoted.isLowSurrogate high then none
    else (decode? (.unit low :: es)).map (Char.ofNat high :: ·)
  | .unit n :: es =>
    if Quoted.isHighSurrogate n || Quoted.isLowSurrogate n then none
    else (decode? es).map (Char.ofNat n :: ·)

/-- A string after its opening quote. -/
def readString (cs : List Char) : Option (Option String × List Char) :=
  (readElements cs).map fun (es, rest) => ((decode? es).map String.ofList, rest)

/-- A run of at least one digit, and the text after it. -/
def readDigits (cs : List Char) : Option (List Char × List Char) :=
  let ds := cs.takeWhile Text.isDigit
  if ds.isEmpty then none else some (ds, cs.drop ds.length)

/-- What is left after a fraction, if there is one. -/
def skipFraction : List Char → Option (List Char)
  | '.' :: cs => (readDigits cs).map (·.2)
  | cs => some cs

/-- What is left after an exponent, if there is one. -/
def skipExponent : List Char → Option (List Char)
  | 'e' :: cs | 'E' :: cs =>
    match cs with
    | '+' :: cs | '-' :: cs => (readDigits cs).map (·.2)
    | cs => (readDigits cs).map (·.2)
  | cs => some cs

/-- The digits before any fraction: a lone zero, or digits that do not begin with one. -/
def readWhole : List Char → Option (List Char × List Char)
  | '0' :: cs => some (['0'], cs)
  | cs => readDigits cs

def readNumber (cs : List Char) : Option (Document × List Char) := do
  let unsigned := if cs.head? == some '-' then cs.drop 1 else cs
  let (digits, afterWhole) ← readWhole unsigned
  let rest ← (skipFraction afterWhole).bind skipExponent
  let plain := cs.head? != some '-' && rest.length == afterWhole.length
  return (.number (if plain then some (Text.ofDigits 10 digits) else none), rest)

mutual
/-- One value at the front of a text, and the text after it. Every call that does not take a
character is followed by one that does, so twice the length of the text is enough fuel. -/
def readValue : (fuel : Nat) → List Char → Option (Document × List Char)
  | 0, _ => none
  | fuel + 1, cs =>
    match skipSpace cs with
    | '\x7b' :: cs =>
      match skipSpace cs with
      | '\x7d' :: cs => some (.object [], cs)
      | cs => (readFields fuel cs).map fun (fs, rest) => (.object fs, rest)
    | '[' :: cs =>
      match skipSpace cs with
      | ']' :: cs => some (.array [], cs)
      | cs => (readItems fuel cs).map fun (vs, rest) => (.array vs, rest)
    | '\x22' :: cs => (readString cs).map fun (s, rest) => (.string s, rest)
    | 'n' :: 'u' :: 'l' :: 'l' :: cs => some (.null, cs)
    | 't' :: 'r' :: 'u' :: 'e' :: cs => some (.bool true, cs)
    | 'f' :: 'a' :: 'l' :: 's' :: 'e' :: cs => some (.bool false, cs)
    | cs => readNumber cs
/-- One item or more, through the closing bracket. -/
def readItems : (fuel : Nat) → List Char → Option (List Document × List Char)
  | 0, _ => none
  | fuel + 1, cs => do
    let (v, rest) ← readValue fuel cs
    match skipSpace rest with
    | ',' :: rest => (readItems fuel rest).map fun (vs, rest) => (v :: vs, rest)
    | ']' :: rest => some ([v], rest)
    | _ => none
/-- One field or more, through the closing brace. -/
def readFields : (fuel : Nat) → List Char → Option (List (Option String × Document) × List Char)
  | 0, _ => none
  | fuel + 1, cs =>
    match skipSpace cs with
    | '\x22' :: cs => do
      let (name, rest) ← readString cs
      match skipSpace rest with
      | ':' :: rest => do
        let (v, rest) ← readValue fuel rest
        match skipSpace rest with
        | ',' :: rest => (readFields fuel rest).map fun (fs, rest) => ((name, v) :: fs, rest)
        | '\x7d' :: rest => some ([(name, v)], rest)
        | _ => none
      | _ => none
    | _ => none
end

/-- The document that a whole text spells. -/
def read? (text : String) : Option Document :=
  let cs := text.toList
  match readValue (2 * cs.length + 2) cs with
  | some (v, rest) => if (skipSpace rest).isEmpty then some v else none
  | none => none

end Document
end ScriptTree
