import ScriptTree.Template
import ScriptTree.Token

/-! What can go wrong. A fault is a cause and a byte offset; a failure adds the resolved position.
The wording lives in one table of templates. -/
namespace ScriptTree

/-- The two statements that leave or restart another one. -/
inductive Jump where
  | «break»
  | «continue»
deriving DecidableEq, Repr

def Jump.text : Jump → String
  | .break => "break"
  | .continue => "continue"

inductive Cause where
  | unexpectedCharacter (c : Char)
  | unterminatedComment
  | unterminatedRegex
  | invalidRegexFlags
  | invalidNumber
  | unterminatedString
  | invalidUnicodeEscape
  | unexpectedToken (kind : TokenKind)
  /-- The token cannot begin an expression. -/
  | unexpectedOperand (kind : TokenKind)
  | unexpectedOperator (op : Operator)
  /-- The operator cannot follow an operand. -/
  | unknownOperator (op : Operator)
  | unknownKeyword (word : Keyword)
  | throwWithoutArgument
  | invalidJump (jump : Jump)
  | duplicateDefault
  | manyBindings
  | duplicateLabel (name : String)
  | nestingTooDeep (limit : Nat)
  | invalidAssignmentTarget
  | invalidUpdateTarget
deriving DecidableEq, Repr

/-- The broad kinds of failure: a bad token, a bad order of tokens, a bad target. -/
inductive FaultKind where
  | lexical
  | grammar
  | reference
deriving DecidableEq, Repr

def FaultKind.text : FaultKind → String
  | .lexical => "lexical"
  | .grammar => "syntax"
  | .reference => "reference"

namespace Cause

def kind : Cause → FaultKind
  | .unexpectedCharacter _ | .unterminatedComment | .unterminatedRegex | .invalidRegexFlags
  | .invalidNumber | .unterminatedString | .invalidUnicodeEscape => .lexical
  | .invalidAssignmentTarget | .invalidUpdateTarget => .reference
  | _ => .grammar

/-- The template of the message. -/
def template : Cause → String
  | .unexpectedCharacter _ => "Unexpected character: \x7b0\x7d"
  | .unterminatedComment => "Block comment missing \"*/\""
  | .unterminatedRegex => "Invalid regular expression: missing /"
  | .invalidRegexFlags => "Invalid regular expression flags"
  | .invalidNumber => "Invalid or unexpected token"
  | .unterminatedString => "Unterminated string constant"
  | .invalidUnicodeEscape => "Invalid Unicode escape sequence"
  | .unexpectedToken _ => "Unexpected token: \x7b0\x7d(\x7b1\x7d)"
  | .unexpectedOperand _ => "Unexpected token: \x7b0\x7d"
  | .unexpectedOperator _ => "Unexpected operator: \x7b0\x7d"
  | .unknownOperator _ => "Unknown operator: \x7b0\x7d"
  | .unknownKeyword _ => "Unknown keyword: \x7b0\x7d"
  | .throwWithoutArgument => "throw statement needs an argument"
  | .invalidJump _ => "Unexpected \x7b0\x7d or can't find valid label"
  | .duplicateDefault => "More than one default clause in switch statement"
  | .manyBindings => "Invalid left-hand side in for-in loop: Must have a single binding"
  | .duplicateLabel _ => "Label '\x7b0\x7d' is already declared"
  | .nestingTooDeep _ => "Maximum nesting depth of \x7b0\x7d exceeded"
  | .invalidAssignmentTarget => "Invalid left-hand side expression in assignment"
  | .invalidUpdateTarget => "Invalid expression in update operation"

/-- What the template's placeholders stand for. -/
def arguments : Cause → List String
  | .unexpectedCharacter c => [String.singleton c]
  | .unexpectedToken kind => [kind.label, kind.valueText]
  | .unexpectedOperand kind => [kind.label]
  | .unexpectedOperator op | .unknownOperator op => [op.text]
  | .unknownKeyword word => [word.text]
  | .invalidJump jump => [jump.text]
  | .duplicateLabel name => [name]
  | .nestingTooDeep limit => [toString limit]
  | _ => []

def message (c : Cause) : String := Template.fill c.template c.arguments

end Cause

/-- A cause at a byte offset. -/
structure Fault where
  cause : Cause
  offset : Nat
deriving DecidableEq, Repr

/-- A fault whose place in the text is resolved. -/
structure Failure where
  cause : Cause
  offset : Nat
  position : Position
deriving DecidableEq, Repr

def Fault.resolve (lines : LineTable) (f : Fault) : Failure :=
  ⟨f.cause, f.offset, lines.position f.offset⟩

namespace Failure

def message (f : Failure) : String := f.cause.message

def display (f : Failure) : String :=
  f.message ++ " (" ++ toString f.position.line ++ ":" ++ toString f.position.column ++ ")"

end Failure
end ScriptTree
