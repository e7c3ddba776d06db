import ScriptTree.Keyword
import ScriptTree.Number.Spelling
import ScriptTree.Operator
import ScriptTree.Position

/-! Tokens: what the lexer finds, and where. -/
namespace ScriptTree

inductive TokenKind where
  | number (value : Double)
  | string (value : String)
  /-- The pattern keeps its slashes. -/
  | regex (pattern flags : String)
  | identifier (name : String)
  | this
  | null
  | undefined
  | boolean (value : Bool)
  | keyword (word : Keyword)
  | operator (op : Operator)
  | leftParen | rightParen | leftBrace | rightBrace | leftBracket | rightBracket
  | semicolon | comma | colon
  | endOfInput
deriving DecidableEq, Repr

structure Token where
  kind : TokenKind
  span : Span
deriving DecidableEq, Repr

namespace TokenKind

/-- The name of the kind in messages. -/
def label : TokenKind → String
  | .number _ => "num"
  | .string _ => "string"
  | .regex _ _ => "regx"
  | .identifier _ => "name"
  | .this => "this"
  | .null => "null"
  | .undefined => "undefined"
  | .boolean true => "true"
  | .boolean false => "false"
  | .keyword _ => "keyword"
  | .operator _ => "operator"
  | .leftParen => "("
  | .rightParen => ")"
  | .leftBrace => "\x7b"
  | .rightBrace => "\x7d"
  | .leftBracket => "["
  | .rightBracket => "]"
  | .semicolon => ";"
  | .comma => ","
  | .colon => ":"
  | .endOfInput => "eof"

/-- The value in messages: decoded for a string, and the kind itself where there is no other. -/
def valueText : TokenKind → String
  | .number x => String.ofList x.text
  | .string s | .identifier s => s
  | .regex pattern flags => pattern ++ flags
  | .keyword k => k.text
  | .operator op => op.text
  | .endOfInput => "undefined"
  | kind => kind.label

def isLiteral : TokenKind → Bool
  | .number _ | .string _ | .regex _ _ | .null | .undefined | .boolean _ => true
  | _ => false

/-- Whether an operand is complete after this token, so that a slash divides. -/
def endsOperand : TokenKind → Bool
  | .identifier _ | .this | .rightParen | .rightBracket | .rightBrace => true
  | kind => kind.isLiteral

/-- How strongly the token binds after an operand, if it can go on with an expression. -/
def priority? : TokenKind → Option Nat
  | .operator op => some (Priority.of op .trailing)
  | .leftParen => some Priority.call
  | .leftBracket => some Priority.member
  | _ => none

end TokenKind

/-- The line a token is listed as. -/
def Token.display (t : Token) : String :=
  toString t.span.start ++ ".." ++ toString t.span.stop ++ " " ++ t.kind.label ++ " " ++
    t.kind.valueText

end ScriptTree
