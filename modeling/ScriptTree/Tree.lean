import ScriptTree.Number.Double
import ScriptTree.Operator

/-! Script trees. Every node carries a note of type `α`; reading puts a span there, and whatever
works on any `α` cannot depend on it. A group in parentheses stays in the tree as a sequence, so the
tree needs no further grouping when it is written. -/
namespace ScriptTree

structure Identifier (α : Type) where
  note : α
  name : String
deriving DecidableEq, Repr

inductive LiteralValue where
  | number (value : Double)
  | string (value : String)
  | boolean (value : Bool)
  | null
  | undefined
  /-- The pattern keeps its slashes. -/
  | regex (pattern flags : String)
deriving DecidableEq, Repr

structure Literal (α : Type) where
  note : α
  value : LiteralValue
deriving DecidableEq, Repr

inductive PropertyKey (α : Type) where
  | literal (l : Literal α)
  | identifier (i : Identifier α)
deriving DecidableEq, Repr

mutual
inductive Expr (α : Type) where
  | identifier (i : Identifier α)
  | literal (l : Literal α)
  | this (note : α)
  | array (note : α) (elements : List (Expr α))
  | object (note : α) (properties : List (Property α))
  | function (note : α) (id : Option (Identifier α)) (params : List (Identifier α)) (body : Block α)
  | unary (note : α) (op : Operator) (operand : Expr α)
  /-- An increment or a decrement, `leading` if it stands before its operand. -/
  | update (note : α) (op : Operator) (operand : Expr α) (leading : Bool)
  | binary (note : α) (op : Operator) (left right : Expr α)
  | logical (note : α) (op : Operator) (left right : Expr α)
  | assignment (note : α) (op : Operator) (left right : Expr α)
  | conditional (note : α) (test consequent alternate : Expr α)
  /-- `a.b` if `dotted`, else `a[b]`. What follows a dot is an expression of its own, so a call of
  a member is inside the property. -/
  | member (note : α) (object property : Expr α) (dotted : Bool)
  | call (note : α) (callee : Expr α) (arguments : List (Expr α))
  | new (note : α) (callee : Expr α) (arguments : List (Expr α))
  /-- Expressions joined by commas, and every group in parentheses. -/
  | sequence (note : α) (expressions : List (Expr α))
inductive Property (α : Type) where
  | mk (note : α) (key : PropertyKey α) (value : Expr α)
/-- Statements in braces. -/
inductive Block (α : Type) where
  | mk (note : α) (body : List (Stmt α))
inductive Declarator (α : Type) where
  | mk (note : α) (id : Identifier α) (init : Option (Expr α))
inductive Declaration (α : Type) where
  | mk (note : α) (declarators : List (Declarator α))
/-- A case, or the default if there is no test. -/
inductive SwitchCase (α : Type) where
  | mk (note : α) (test : Option (Expr α)) (consequent : List (Stmt α))
inductive CatchClause (α : Type) where
  | mk (note : α) (param : Identifier α) (body : Block α)
/-- What a counted loop begins with. -/
inductive ForInit (α : Type) where
  | declaration (d : Declaration α)
  | expression (e : Expr α)
/-- What a loop over names binds. -/
inductive ForTarget (α : Type) where
  | declaration (d : Declaration α)
  | identifier (i : Identifier α)
inductive Stmt (α : Type) where
  | empty (note : α)
  | block (b : Block α)
  | expression (note : α) (e : Expr α)
  | declaration (d : Declaration α)
  | «if» (note : α) (test : Expr α) (consequent : Stmt α) (alternate : Option (Stmt α))
  | debugger (note : α)
  | «with» (note : α) (object : Expr α) (body : Stmt α)
  | «return» (note : α) (argument : Option (Expr α))
  | throw (note : α) (argument : Expr α)
  | «break» (note : α) (label : Option (Identifier α))
  | «continue» (note : α) (label : Option (Identifier α))
  | switch (note : α) (discriminant : Expr α) (cases : List (SwitchCase α))
  | «try» (note : α) (block : Block α) (handler : Option (CatchClause α))
      (finalizer : Option (Block α))
  | while (note : α) (test : Expr α) (body : Stmt α)
  | doWhile (note : α) (body : Stmt α) (test : Expr α)
  | «for» (note : α) (init : Option (ForInit α)) (test update : Option (Expr α)) (body : Stmt α)
  | forIn (note : α) (target : ForTarget α) (object : Expr α) (body : Stmt α)
  | function (note : α) (id : Identifier α) (params : List (Identifier α)) (body : Block α)
  | labeled (note : α) (label : Identifier α) (body : Stmt α)
end

structure Program (α : Type) where
  note : α
  body : List (Stmt α)

namespace Block

def note : Block α → α
  | .mk note _ => note

def body : Block α → List (Stmt α)
  | .mk _ body => body

end Block

def Declaration.note : Declaration α → α
  | .mk note _ => note

namespace Expr

def note : Expr α → α
  | .identifier i => i.note
  | .literal l => l.note
  | .this note | .array note _ | .object note _ | .function note _ _ _ | .unary note _ _
  | .update note _ _ _ | .binary note _ _ _ | .logical note _ _ _ | .assignment note _ _ _
  | .conditional note _ _ _ | .member note _ _ _ | .call note _ _ | .new note _ _
  | .sequence note _ => note

/-- Whether the expression may be assigned to: a name, a member, or one of them in parentheses. -/
def isTarget : Expr α → Bool
  | .identifier _ | .member _ _ _ _ => true
  | .sequence _ [e] => e.isTarget
  | _ => false

end Expr

def Stmt.note : Stmt α → α
  | .block b => b.note
  | .declaration d => d.note
  | .empty note | .expression note _ | .if note _ _ _ | .debugger note | .with note _ _
  | .return note _ | .throw note _ | .break note _ | .continue note _ | .switch note _ _
  | .try note _ _ _ | .while note _ _ | .doWhile note _ _ | .for note _ _ _ _ | .forIn note _ _ _
  | .function note _ _ _ | .labeled note _ _ => note

end ScriptTree
