import ScriptTree.Json.Value
import ScriptTree.Position
import ScriptTree.Tree

/-! The JSON shape of trees. A node is an object that begins with its type and its location. Some
names are the format's own spellings: `Programs`, `binaryExpression`, `exression`, `Discriminant`,
and `arguments` for the one operand of an operator. A member is called computed if it is dotted. -/
namespace ScriptTree

/-- The production as the format names it. -/
def Expr.typeName : Expr α → String
  | .identifier _ => "Identifier"
  | .literal _ => "Literal"
  | .this _ => "ThisExpression"
  | .array _ _ => "ArrayExpression"
  | .object _ _ => "ObjectExpression"
  | .function _ _ _ _ => "FunctionExpression"
  | .unary _ _ _ => "UnaryExpression"
  | .update _ _ _ _ => "UpdateExpression"
  | .binary _ _ _ _ => "binaryExpression"
  | .logical _ _ _ _ => "LogicalExpression"
  | .assignment _ _ _ _ => "AssignmentExpression"
  | .conditional _ _ _ _ => "ConditionalExpression"
  | .member _ _ _ _ => "MemberExpression"
  | .call _ _ _ => "CallExpression"
  | .new _ _ _ => "NewExpression"
  | .sequence _ _ => "SequenceExpression"

def Stmt.typeName : Stmt α → String
  | .empty _ => "EmptyStatement"
  | .block _ => "BlockStatement"
  | .expression _ _ => "ExpressionStatement"
  | .declaration _ => "VariableDeclaration"
  | .if _ _ _ _ => "IfStatement"
  | .debugger _ => "DebuggerStatement"
  | .with _ _ _ => "WithStatement"
  | .return _ _ => "ReturnStatement"
  | .throw _ _ => "ThrowStatement"
  | .break _ _ => "BreakStatement"
  | .continue _ _ => "ContinueStatement"
  | .switch _ _ _ => "SwitchStatement"
  | .try _ _ _ _ => "TryStatement"
  | .while _ _ _ => "WhileStatement"
  | .doWhile _ _ _ => "DoWhileStatement"
  | .for _ _ _ _ _ => "ForStatement"
  | .forIn _ _ _ _ => "ForInStatement"
  | .function _ _ _ _ => "FunctionDeclaration"
  | .labeled _ _ _ => "LabeledStatement"

def Position.toJson (p : Position) : Json :=
  .object [("line", .nat p.line), ("column", .nat p.column)]

def Location.toJson (l : Location) : Json :=
  .object [("source", .string l.source), ("start", l.start.toJson), ("end", l.stop.toJson)]

namespace Shape

/-- An object for a node of a type at a location. -/
def node (type : String) (loc : Location) (fields : List (String × Json)) : Json :=
  .object (("type", .string type) :: ("loc", loc.toJson) :: fields)

def identifier (i : Identifier Location) : Json :=
  node "Identifier" i.note [("name", .string i.name)]

def identifiers (is : List (Identifier Location)) : Json := .array (is.map identifier)

/-- A regular expression has its parts beside an empty value, and `undefined` has no value. -/
def literalFields : LiteralValue → List (String × Json)
  | .number x => [("value", .ofDouble x)]
  | .string s => [("value", .string s)]
  | .boolean b => [("value", .bool b)]
  | .null => [("value", .null)]
  | .undefined => []
  | .regex pattern flags =>
    [("regex", .object [("pattern", .string pattern), ("flags", .string flags)]),
      ("value", .object [])]

def literal (l : Literal Location) : Json := node "Literal" l.note (literalFields l.value)

def propertyKey : PropertyKey Location → Json
  | .literal l => literal l
  | .identifier i => identifier i

def operator (op : Operator) : Json := .string op.text

mutual
def expr : Expr Location → Json
  | .identifier i => identifier i
  | .literal l => literal l
  | .this loc => node "ThisExpression" loc []
  | .array loc es => node "ArrayExpression" loc [("elements", .array (exprs es))]
  | .object loc ps => node "ObjectExpression" loc [("properties", .array (properties ps))]
  | .function loc id params body =>
    let name := match id with
      | some id => [("id", identifier id)]
      | none => []
    node "FunctionExpression" loc (name ++ [("params", identifiers params), ("body", block body)])
  | .unary loc op e =>
    node "UnaryExpression" loc
      [("operator", operator op), ("arguments", expr e), ("prefix", .bool true)]
  | .update loc op e leading =>
    node "UpdateExpression" loc
      [("operator", operator op), ("arguments", expr e), ("prefix", .bool leading)]
  | .binary loc op l r =>
    node "binaryExpression" loc [("operator", operator op), ("left", expr l), ("right", expr r)]
  | .logical loc op l r =>
    node "LogicalExpression" loc [("operator", operator op), ("left", expr l), ("right", expr r)]
  | .assignment loc op l r =>
    node "AssignmentExpression" loc
      [("operator", operator op), ("left", expr l), ("right", expr r)]
  | .conditional loc t c a =>
    node "ConditionalExpression" loc
      [("test", expr t), ("consequent", expr c), ("alternate", expr a)]
  | .member loc o p dotted =>
    node "MemberExpression" loc
      [("object", expr o), ("property", expr p), ("computed", .bool dotted)]
  | .call loc f es =>
    node "CallExpression" loc [("callee", expr f), ("arguments", .array (exprs es))]
  | .new loc f es =>
    node "NewExpression" loc [("callee", expr f), ("arguments", .array (exprs es))]
  | .sequence loc es => node "SequenceExpression" loc [("expressions", .array (exprs es))]
def exprs : List (Expr Location) → List Json
  | [] => []
  | e :: es => expr e :: exprs es
def exprOrNull : Option (Expr Location) → Json
  | none => .null
  | some e => expr e
def property : Property Location → Json
  | .mk loc key value =>
    node "Property" loc
      [("key", propertyKey key), ("value", expr value), ("kind", .string "init")]
def properties : List (Property Location) → List Json
  | [] => []
  | p :: ps => property p :: properties ps
def block : Block Location → Json
  | .mk loc body => node "BlockStatement" loc [("body", .array (stmts body))]
def blockOrNull : Option (Block Location) → Json
  | none => .null
  | some b => block b
def declarator : Declarator Location → Json
  | .mk loc id init =>
    node "VariableDeclarator" loc [("id", identifier id), ("init", exprOrNull init)]
def declarators : List (Declarator Location) → List Json
  | [] => []
  | d :: ds => declarator d :: declarators ds
def declaration : Declaration Location → Json
  | .mk loc ds =>
    node "VariableDeclaration" loc
      [("kind", .string "var"), ("declarations", .array (declarators ds))]
def switchCase : SwitchCase Location → Json
  | .mk loc test consequent =>
    node "SwitchCase" loc
      [("test", exprOrNull test), ("consequent", .array (stmts consequent))]
def switchCases : List (SwitchCase Location) → List Json
  | [] => []
  | c :: cs => switchCase c :: switchCases cs
def catchOrNull : Option (CatchClause Location) → Json
  | none => .null
  | some c => catchClause c
def catchClause : CatchClause Location → Json
  | .mk loc param body =>
    node "CatchClause" loc [("param", identifier param), ("body", block body)]
def forInit : ForInit Location → Json
  | .declaration d => declaration d
  | .expression e => expr e
def forInitOrNull : Option (ForInit Location) → Json
  | none => .null
  | some i => forInit i
def forTarget : ForTarget Location → Json
  | .declaration d => declaration d
  | .identifier i => identifier i
def stmt : Stmt Location → Json
  | .empty loc => node "EmptyStatement" loc []
  | .block b => block b
  | .expression loc e => node "ExpressionStatement" loc [("exression", expr e)]
  | .declaration d => declaration d
  | .if loc t c a =>
    node "IfStatement" loc
      [("test", expr t), ("consequent", stmt c), ("alternate", stmtOrNull a)]
  | .debugger loc => node "DebuggerStatement" loc []
  | .with loc o b => node "WithStatement" loc [("object", expr o), ("body", stmt b)]
  | .return loc e => node "ReturnStatement" loc [("argument", exprOrNull e)]
  | .throw loc e => node "ThrowStatement" loc [("argument", expr e)]
  | .break loc l => node "BreakStatement" loc [("label", .ofOption identifier l)]
  | .continue loc l => node "ContinueStatement" loc [("label", .ofOption identifier l)]
  | .switch loc d cs =>
    node "SwitchStatement" loc [("Discriminant", expr d), ("cases", .array (switchCases cs))]
  | .try loc b h f =>
    node "TryStatement" loc
      [("block", block b), ("handler", catchOrNull h), ("finalizer", blockOrNull f)]
  | .while loc t b => node "WhileStatement" loc [("test", expr t), ("body", stmt b)]
  | .doWhile loc b t => node "DoWhileStatement" loc [("body", stmt b), ("test", expr t)]
  | .for loc i t u b =>
    node "ForStatement" loc
      [("init", forInitOrNull i), ("test", exprOrNull t), ("update", exprOrNull u),
        ("body", stmt b)]
  | .forIn loc t o b =>
    node "ForInStatement" loc [("left", forTarget t), ("right", expr o), ("body", stmt b)]
  | .function loc id params body =>
    node "FunctionDeclaration" loc
      [("id", identifier id), ("params", identifiers params), ("body", block body)]
  | .labeled loc l b => node "LabeledStatement" loc [("body", stmt b), ("label", identifier l)]
def stmtOrNull : Option (Stmt Location) → Json
  | none => .null
  | some s => stmt s
def stmts : List (Stmt Location) → List Json
  | [] => []
  | s :: ss => stmt s :: stmts ss
end

end Shape

def Program.toJson (p : Program Location) : Json :=
  Shape.node "Programs" p.note [("body", .array (Shape.stmts p.body))]

end ScriptTree
