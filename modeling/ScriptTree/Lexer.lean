import ScriptTree.Lexer.Numeral
import ScriptTree.Lexer.Pattern
import ScriptTree.Lexer.Quoted
import ScriptTree.Lexer.Trivia

/-! One token at a time. The caller says whether an operator may come next: that alone tells a
division from a regular expression. -/
namespace ScriptTree.Lexer

/-- The token a word stands for: an operator, a literal word, a keyword or else a name. -/
def wordKind (word : String) : TokenKind :=
  match Operator.ofWord? word with
  | some op => .operator op
  | none =>
    match word with
    | "true" => .boolean true
    | "false" => .boolean false
    | "null" => .null
    | "undefined" => .undefined
    | "this" => .this
    | _ =>
      match Keyword.ofText? word with
      | some k => .keyword k
      | none => .identifier word

def punctuation? : Char → Option TokenKind
  | '(' => some .leftParen
  | ')' => some .rightParen
  | ';' => some .semicolon
  | ',' => some .comma
  | '[' => some .leftBracket
  | ']' => some .rightBracket
  | '\x7b' => some .leftBrace
  | '\x7d' => some .rightBrace
  | ':' => some .colon
  | _ => none

/-- The longest symbolic operator at the front of a text. -/
def symbol? (cs : List Char) : Option Operator :=
  [4, 3, 2, 1].findSome? fun n => Operator.ofSymbol? (String.ofList (cs.take n))

/-- The token at the front of a text without trivia. -/
def scan (expectOperator : Bool) : List Char → Scan
  | [] => ⟨0, .ok .endOfInput⟩
  | c :: cs =>
    if Text.isWordStart c then
      let word := (c :: cs).takeWhile Text.isWordPart
      ⟨word.length, .ok (wordKind (String.ofList word))⟩
    else if let some kind := punctuation? c then ⟨1, .ok kind⟩
    else if c = '\x22' ∨ c = '\x27' then Quoted.scan c cs
    else if Text.isDigit c || (c == '.' && cs.head?.any Text.isDigit) then Numeral.scan (c :: cs)
    else if c = '.' then ⟨1, .ok (.operator .dot)⟩
    else if c = '/' ∧ !expectOperator then Pattern.scan cs
    else if let some op := symbol? (c :: cs) then ⟨op.text.length, .ok (.operator op)⟩
    else ⟨0, .error (.unexpectedCharacter c)⟩

/-- Skips trivia and reads one token. The cursor returned is where reading stopped, after a fault
too; a fault is located at the start of the token or comment it concerns. -/
def next (expectOperator : Bool) (c : Cursor) : Except Fault Token × Cursor :=
  let trivia := Trivia.skip c.rest
  let start := c.advance trivia.length
  if trivia.valid then
    let scanned := scan expectOperator start.rest
    let stop := start.advance scanned.length
    match scanned.found with
    | .ok kind => (.ok ⟨kind, start.offset, stop.offset⟩, stop)
    | .error cause => (.error ⟨cause, start.offset⟩, stop)
  else (.error ⟨.unterminatedComment, start.offset⟩, start.advance 2)

/-- The trivia in front of the next token. -/
def gap (c : Cursor) : List Char := c.rest.take (Trivia.skip c.rest).length

/-- One call of `next` for each flag, going on after faults. -/
def run : List Bool → Cursor → List (Except Fault Token)
  | [], _ => []
  | flag :: flags, c =>
    let (result, c) := next flag c
    result :: run flags c

/-- The tokens up to the end of input; an operator may come after whatever ends an operand. Each
token takes a character, so `fuel` above the number of characters left is enough. -/
def collect : (fuel : Nat) → (expectOperator : Bool) → Cursor → Except Fault (List Token)
  | 0, _, _ => .ok []
  | fuel + 1, expectOperator, c =>
    match next expectOperator c with
    | (.error fault, _) => .error fault
    | (.ok token, c) =>
      if token.kind = .endOfInput then .ok []
      else (collect fuel token.kind.endsOperand c).map (token :: ·)

def tokensOf (cs : List Char) : Except Fault (List Token) :=
  collect (cs.length + 1) false (Cursor.ofText cs)

/-- The tokens of a text, without the end of input. -/
def tokenize (source : String) : Except Failure (List Token) :=
  let cs := source.toList
  (tokensOf cs).mapError (Fault.resolve (LineTable.ofText cs))

end ScriptTree.Lexer
