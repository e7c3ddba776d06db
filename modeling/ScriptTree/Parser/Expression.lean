import ScriptTree.Parser.Basic

/-! Expressions: an operand, then operators that bind tighter than a floor. Each production is given
the readers for its parts, one level of nesting further in. -/
namespace ScriptTree.Parser

def identifier : Parse (Identifier Span) := do
  let start ← here
  match ← kind with
  | .identifier name =>
    advance true
    return ⟨← finish start, name⟩
  | _ => unexpected

def literalValue? : TokenKind → Option LiteralValue
  | .number x => some (.number x)
  | .string s => some (.string s)
  | .regex pattern flags => some (.regex pattern flags)
  | .boolean b => some (.boolean b)
  | .null => some .null
  | .undefined => some .undefined
  | _ => none

def literal : Parse (Literal Span) := do
  let start ← here
  match literalValue? (← kind) with
  | some value =>
    advance true
    return ⟨← finish start, value⟩
  | none => unexpected

/-- Statements in braces. -/
def block (inner : Readers) : Parse (Block Span) := do
  let start ← here
  eat .leftBrace
  let body ← upTo (· == .rightBrace) inner.statement
  advance false
  return .mk (← finish start) body

def parameters : Parse (List (Identifier Span)) := do
  eat .leftParen
  closedList .rightParen identifier

/-- Expressions joined by commas; a single one stays as it is. -/
def commaExpression (inner : Readers) (forHead : Bool) : Parse (Expr Span) := do
  let start ← here
  let first ← inner.expression 0 forHead
  match ← moreItems (inner.expression 0 forHead) with
  | [] => return first
  | rest => return .sequence (← finish start) (first :: rest)

def group (inner : Readers) : Parse (Expr Span) := do
  let start ← here
  eat .leftParen
  let items ← separated (inner.expression 0 false)
  close .rightParen
  return .sequence (← finish start) items

def array (inner : Readers) : Parse (Expr Span) := do
  let start ← here
  advance false
  let elements ← closedList .rightBracket (inner.expression 0 false)
  return .array (← finish start) elements

def propertyKey : Parse (PropertyKey Span) := do
  match ← kind with
  | .identifier _ => return .identifier (← identifier)
  | _ => return .literal (← literal)

def property (inner : Readers) : Parse (Property Span) := do
  let start ← here
  let key ← propertyKey
  eat .colon
  let value ← inner.expression 0 false
  return .mk (← finish start) key value

def object (inner : Readers) : Parse (Expr Span) := do
  let start ← here
  advance false
  let properties ← closedList .rightBrace (property inner)
  return .object (← finish start) properties

def functionExpression (inner : Readers) : Parse (Expr Span) := do
  let start ← here
  advance false
  let id ← match ← kind with
    | .identifier _ => some <$> identifier
    | _ => pure none
  let params ← parameters
  let body ← block inner
  return .function (← finish start) id params body

/-- Construction. A call that was read as the operand gives its callee and its arguments. -/
def construction (inner : Readers) : Parse (Expr Span) := do
  let start ← here
  advance false
  let operand ← inner.expression (Priority.of .new .leading - 1) false
  let note ← finish start
  match operand with
  | .call _ callee arguments => return .new note callee arguments
  | callee => return .new note callee []

/-- Requires an expression that can be assigned to. -/
def checkTarget (cause : Cause) (target : Expr Span) (offset : Nat) : Parse Unit := do
  if !target.isTarget then fault cause offset

def leadingOperator (inner : Readers) (op : Operator) : Parse (Expr Span) := do
  let start ← here
  if !op.canLead then fault (.unexpectedOperator op) start
  advance false
  let operandStart ← here
  let operand ← inner.expression (Priority.of op .leading) false
  if op.isUpdate then
    checkTarget .invalidUpdateTarget operand operandStart
    return .update (← finish start) op operand true
  else
    return .unary (← finish start) op operand

def operand (inner : Readers) : Parse (Expr Span) := do
  match ← kind with
  | .leftParen => group inner
  | .leftBracket => array inner
  | .operator .new => construction inner
  | .operator op => leadingOperator inner op
  | .number _ | .string _ | .regex _ _ | .boolean _ | .null | .undefined => .literal <$> literal
  | .identifier _ => .identifier <$> identifier
  | .this =>
    let start ← here
    advance true
    return .this (← finish start)
  | .keyword .function => functionExpression inner
  | .leftBrace => object inner
  | other => faultHere (.unexpectedOperand other)

/-- Goes on with the operator `op`, of strength `priority`, after the expression `left` that began
at `start`. -/
def afterOperator (inner : Readers) (start : Nat) (forHead : Bool) (left : Expr Span)
    (priority : Nat) (op : Operator) : Parse (Expr Span) := do
  if op.isBinary then
    advance false
    let right ← inner.expression priority forHead
    return .binary (← finish start) op left right
  else if op.isAssignment then
    checkTarget .invalidAssignmentTarget left start
    advance false
    let right ← inner.expression (priority - 1) forHead
    return .assignment (← finish start) op left right
  else if op.isLogical then
    advance false
    let right ← inner.expression priority forHead
    return .logical (← finish start) op left right
  else if op = .dot then
    advance false
    let property ← inner.expression priority forHead
    return .member (← finish start) left property true
  else if op = .question then
    advance false
    let consequent ← inner.expression 0 forHead
    eat .colon
    let alternate ← inner.expression 0 forHead
    return .conditional (← finish start) left consequent alternate
  else if op.isUpdate then
    checkTarget .invalidUpdateTarget left start
    advance true
    return .update (← finish start) op left false
  else
    faultHere (.unknownOperator op)

/-- Goes on after the expression `left` with the token that follows it. -/
def extend (inner : Readers) (start : Nat) (forHead : Bool) (left : Expr Span)
    (priority : Nat) : Parse (Expr Span) := do
  match ← kind with
  | .leftParen =>
    advance false
    let arguments ← closedList .rightParen (inner.expression 0 false)
    return .call (← finish start) left arguments
  | .leftBracket =>
    advance false
    let property ← commaExpression inner false
    close .rightBracket
    return .member (← finish start) left property false
  | .operator op => afterOperator inner start forHead left priority op
  | _ => unexpected

/-- The strength of the current token, if it goes on with the expression. -/
def continuation? (floor : Nat) (forHead : Bool) (k : TokenKind) : Option Nat :=
  k.priority?.filter fun priority => floor < priority && !(forHead && k == .operator .in)

/-- Takes operators as long as they bind tighter than the floor. Each takes a token, so the fuel
does not run out. -/
def extendAll (inner : Readers) (start floor : Nat) (forHead : Bool) :
    (fuel : Nat) → Expr Span → Parse (Expr Span)
  | 0, _ => unexpected
  | fuel + 1, left => do
    match continuation? floor forHead (← kind) with
    | none => return left
    | some priority =>
      extendAll inner start floor forHead fuel (← extend inner start forHead left priority)

def expression (inner : Readers) (floor : Nat) (forHead : Bool) : Parse (Expr Span) := do
  let start ← here
  let first ← operand inner
  extendAll inner start floor forHead (← read).budget first

end ScriptTree.Parser
