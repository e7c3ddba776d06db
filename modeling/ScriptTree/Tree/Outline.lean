import ScriptTree.Tree.Shape

/-! A short view of a tree: types and locations, the bodies of blocks, loops and labels, and for
each expression whether it can be assigned to. -/
namespace ScriptTree.Outline

def expr : Expr Location → Json
  | .assignment loc op l r =>
    .object [("type", .string (Expr.assignment loc op l r).typeName), ("loc", loc.toJson),
      ("valid_target", .bool false), ("right", expr r)]
  | e => .object [("type", .string e.typeName), ("loc", e.note.toJson),
      ("valid_target", .bool e.isTarget)]

/-- An object that begins like the node it describes. -/
def entry (s : Stmt Location) (fields : List (String × Json)) : Json :=
  .object (("type", .string s.typeName) :: ("loc", s.note.toJson) :: fields)

mutual
def stmt : Stmt Location → Json
  | .expression loc e => entry (.expression loc e) [("expression", expr e)]
  | .block b => entry (.block b) [("body", .array (block b))]
  | .while loc t b => entry (.while loc t b) [("body", stmt b)]
  | .labeled loc l b => entry (.labeled loc l b) [("body", stmt b)]
  | s => entry s []
def block : Block Location → List Json
  | .mk _ body => stmts body
def stmts : List (Stmt Location) → List Json
  | [] => []
  | s :: ss => stmt s :: stmts ss
end

end ScriptTree.Outline

namespace ScriptTree

def Program.outline (p : Program Location) : Json :=
  .object [("statements", .array (Outline.stmts p.body))]

end ScriptTree
