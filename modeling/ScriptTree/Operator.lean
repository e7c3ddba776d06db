/-! Operators and how strongly they bind. Higher binds tighter. Reading goes on while an operator
binds strictly tighter than the floor, so equal strength groups to the left. -/
namespace ScriptTree

inductive Operator where
  | dot | question
  | plus | minus | times | divide | remainder | power | increment | decrement
  | equal | strictEqual | notEqual | strictNotEqual | less | lessEqual | greater | greaterEqual
  | bitAnd | bitOr | bitXor | bitNot | shiftLeft | shiftRight | shiftRightZero
  | and | or | not
  | assign | plusAssign | minusAssign | timesAssign | divideAssign | remainderAssign
  | shiftLeftAssign | shiftRightAssign | shiftRightZeroAssign | bitAndAssign | bitOrAssign
  | bitXorAssign
  | «in» | «instanceof» | typeof | void | delete | new
deriving DecidableEq, Repr

/-- Whether an operator stands before its operand or after one. -/
inductive Fixity where
  | leading
  | trailing
deriving DecidableEq, Repr

namespace Operator

def text : Operator → String
  | .dot => "."
  | .question => "?"
  | .plus => "+"
  | .minus => "-"
  | .times => "*"
  | .divide => "/"
  | .remainder => "%"
  | .power => "**"
  | .increment => "++"
  | .decrement => "--"
  | .equal => "=="
  | .strictEqual => "==="
  | .notEqual => "!="
  | .strictNotEqual => "!=="
  | .less => "<"
  | .lessEqual => "<="
  | .greater => ">"
  | .greaterEqual => ">="
  | .bitAnd => "&"
  | .bitOr => "|"
  | .bitXor => "^"
  | .bitNot => "~"
  | .shiftLeft => "<<"
  | .shiftRight => ">>"
  | .shiftRightZero => ">>>"
  | .and => "&&"
  | .or => "||"
  | .not => "!"
  | .assign => "="
  | .plusAssign => "+="
  | .minusAssign => "-="
  | .timesAssign => "*="
  | .divideAssign => "/="
  | .remainderAssign => "%="
  | .shiftLeftAssign => "<<="
  | .shiftRightAssign => ">>="
  | .shiftRightZeroAssign => ">>>="
  | .bitAndAssign => "&="
  | .bitOrAssign => "|="
  | .bitXorAssign => "^="
  | .in => "in"
  | .instanceof => "instanceof"
  | .typeof => "typeof"
  | .void => "void"
  | .delete => "delete"
  | .new => "new"

def assignments : List Operator :=
  [.assign, .plusAssign, .minusAssign, .timesAssign, .divideAssign, .remainderAssign,
    .shiftLeftAssign, .shiftRightAssign, .shiftRightZeroAssign, .bitAndAssign, .bitOrAssign,
    .bitXorAssign]

/-- The operators written with symbols. The dot is apart, because it may begin a number. -/
def symbols : List Operator :=
  [.question, .plus, .minus, .times, .divide, .remainder, .power, .increment, .decrement, .equal,
    .strictEqual, .notEqual, .strictNotEqual, .less, .lessEqual, .greater, .greaterEqual, .bitAnd,
    .bitOr, .bitXor, .bitNot, .shiftLeft, .shiftRight, .shiftRightZero, .and, .or, .not] ++
  assignments

/-- The operators written as words. -/
def words : List Operator := [.in, .instanceof, .typeof, .void, .delete, .new]

def ofSymbol? (text : String) : Option Operator := symbols.find? (·.text == text)

def ofWord? (word : String) : Option Operator := words.find? (·.text == word)

def isBinary : Operator → Bool
  | .equal | .notEqual | .strictEqual | .strictNotEqual | .less | .lessEqual | .greater
  | .greaterEqual | .shiftLeft | .shiftRight | .shiftRightZero | .plus | .minus | .times | .divide
  | .remainder | .power | .bitOr | .bitXor | .bitAnd | .in | .instanceof => true
  | _ => false

def isAssignment (op : Operator) : Bool := assignments.contains op

def isLogical (op : Operator) : Bool := op == .and || op == .or

def isUpdate (op : Operator) : Bool := op == .increment || op == .decrement

/-- Whether the operator may stand before its operand. -/
def canLead : Operator → Bool
  | .not | .bitNot | .plus | .minus | .increment | .decrement | .typeof | .void | .delete => true
  | _ => false

end Operator

namespace Priority

def call : Nat := 20
def member : Nat := 19
def postUpdate : Nat := 17
def unary : Nat := 16
def power : Nat := 15
def multiplicative : Nat := 14
def additive : Nat := 13
def shift : Nat := 12
def relational : Nat := 11
def equality : Nat := 10
def bitAnd : Nat := 9
def bitXor : Nat := 8
def bitOr : Nat := 7
def logicalAnd : Nat := 6
def logicalOr : Nat := 5
def conditional : Nat := 4
def assignment : Nat := 3

/-- How strongly an operator binds. Only signs and updates depend on their side. -/
def of (op : Operator) (side : Fixity) : Nat :=
  match op with
  | .dot | .new => member
  | .increment | .decrement => if side = .leading then unary else postUpdate
  | .plus | .minus => if side = .leading then unary else additive
  | .not | .bitNot | .typeof | .void | .delete => unary
  | .power => power
  | .times | .divide | .remainder => multiplicative
  | .shiftLeft | .shiftRight | .shiftRightZero => shift
  | .less | .lessEqual | .greater | .greaterEqual | .in | .instanceof => relational
  | .equal | .notEqual | .strictEqual | .strictNotEqual => equality
  | .bitAnd => bitAnd
  | .bitXor => bitXor
  | .bitOr => bitOr
  | .and => logicalAnd
  | .or => logicalOr
  | .question => conditional
  | .assign | .plusAssign | .minusAssign | .timesAssign | .divideAssign | .remainderAssign
  | .shiftLeftAssign | .shiftRightAssign | .shiftRightZeroAssign | .bitAndAssign | .bitOrAssign
  | .bitXorAssign => assignment

end Priority

namespace Operator

theorem text_of_ofSymbol? {s : String} {op : Operator} (h : ofSymbol? s = some op) :
    op.text = s := by
  simpa using List.find?_some h

theorem text_of_ofWord? {s : String} {op : Operator} (h : ofWord? s = some op) :
    op.text = s := by
  simpa using List.find?_some h

theorem ofSymbol?_text {op : Operator} (h : op ∈ symbols) : ofSymbol? op.text = some op := by
  revert op; decide +kernel

theorem ofWord?_text {op : Operator} (h : op ∈ words) : ofWord? op.text = some op := by
  revert op; decide +kernel

/-- No operator is of two kinds. -/
theorem kinds_disjoint (op : Operator) :
    [op.isBinary, op.isAssignment, op.isLogical, op.isUpdate].count true ≤ 1 := by
  cases op <;> decide

end Operator
end ScriptTree
