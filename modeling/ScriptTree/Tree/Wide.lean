import ScriptTree.Tree.Shape

/-! Trees with every value that the types of the format have room for. Reading leaves some of them
out, and so does `Tree`: a throw statement without an argument, an operator that is not in front of
its one operand, and a literal with the parts of a regular expression beside any value. A tree that
is read is one of these, and its JSON is the same. -/
namespace ScriptTree.Wide

structure RegexParts where
  pattern : String
  flags : String
deriving DecidableEq, Repr

/-- A regular expression has its parts beside it. -/
inductive LiteralValue where
  | number (value : Double)
  | string (value : String)
  | boolean (value : Bool)
  | null
  | undefined
  | regex
deriving DecidableEq, Repr

structure Literal where
  loc : Location
  regex : Option RegexParts
  value : LiteralValue
deriving DecidableEq, Repr

inductive PropertyKey where
  | literal (l : Literal)
  | identifier (i : Identifier Location)
deriving DecidableEq, Repr

mutual
inductive Expr where
  | identifier (i : Identifier Location)
  | literal (l : Literal)
  | this (loc : Location)
  | array (loc : Location) (elements : List Expr)
  | object (loc : Location) (properties : List Property)
  | function (loc : Location) (id : Option (Identifier Location))
      (params : List (Identifier Location)) (body : Block)
  | unary (loc : Location) (op : Operator) (operand : Expr) (leading : Bool)
  | update (loc : Location) (op : Operator) (operand : Expr) (leading : Bool)
  | binary (loc : Location) (op : Operator) (left right : Expr)
  | logical (loc : Location) (op : Operator) (left right : Expr)
  | assignment (loc : Location) (op : Operator) (left right : Expr)
  | conditional (loc : Location) (test consequent alternate : Expr)
  | member (loc : Location) (object property : Expr) (dotted : Bool)
  | call (loc : Location) (callee : Expr) (arguments : List Expr)
  | new (loc : Location) (callee : Expr) (arguments : List Expr)
  | sequence (loc : Location) (expressions : List Expr)
inductive Property where
  | mk (loc : Location) (key : PropertyKey) (value : Expr)
inductive Block where
  | mk (loc : Location) (body : List Stmt)
inductive Declarator where
  | mk (loc : Location) (id : Identifier Location) (init : Option Expr)
inductive Declaration where
  | mk (loc : Location) (declarators : List Declarator)
inductive SwitchCase where
  | mk (loc : Location) (test : Option Expr) (consequent : List Stmt)
inductive CatchClause where
  | mk (loc : Location) (param : Identifier Location) (body : Block)
inductive ForInit where
  | declaration (d : Declaration)
  | expression (e : Expr)
inductive ForTarget where
  | declaration (d : Declaration)
  | identifier (i : Identifier Location)
inductive Stmt where
  | empty (loc : Location)
  | block (b : Block)
  | expression (loc : Location) (e : Expr)
  | declaration (d : Declaration)
  | «if» (loc : Location) (test : Expr) (consequent : Stmt) (alternate : Option Stmt)
  | debugger (loc : Location)
  | «with» (loc : Location) (object : Expr) (body : Stmt)
  | «return» (loc : Location) (argument : Option Expr)
  | throw (loc : Location) (argument : Option Expr)
  | «break» (loc : Location) (label : Option (Identifier Location))
  | «continue» (loc : Location) (label : Option (Identifier Location))
  | switch (loc : Location) (discriminant : Expr) (cases : List SwitchCase)
  | «try» (loc : Location) (block : Block) (handler : Option CatchClause)
      (finalizer : Option Block)
  | while (loc : Location) (test : Expr) (body : Stmt)
  | doWhile (loc : Location) (body : Stmt) (test : Expr)
  | «for» (loc : Location) (init : Option ForInit) (test update : Option Expr) (body : Stmt)
  | forIn (loc : Location) (target : ForTarget) (object : Expr) (body : Stmt)
  | function (loc : Location) (id : Identifier Location) (params : List (Identifier Location))
      (body : Block)
  | labeled (loc : Location) (label : Identifier Location) (body : Stmt)
end

structure Program where
  loc : Location
  body : List Stmt

/-! ## The JSON shape -/

/-- No field stands for `undefined`. -/
def LiteralValue.fields : LiteralValue → List (String × Json)
  | .number x => [("value", .ofDouble x)]
  | .string s => [("value", .string s)]
  | .boolean b => [("value", .bool b)]
  | .null => [("value", .null)]
  | .undefined => []
  | .regex => [("value", .object [])]

def RegexParts.toJson (r : RegexParts) : Json :=
  .object [("pattern", .string r.pattern), ("flags", .string r.flags)]

/-- A field for a part that may be missing. -/
def optionalField (name : String) (f : α → Json) : Option α → List (String × Json)
  | some a => [(name, f a)]
  | none => []

def Literal.toJson (l : Literal) : Json :=
  Shape.node "Literal" l.loc (optionalField "regex" RegexParts.toJson l.regex ++ l.value.fields)

def PropertyKey.toJson : PropertyKey → Json
  | .literal l => l.toJson
  | .identifier i => Shape.identifier i

open Shape (node identifier identifiers operator)

mutual
def Expr.toJson : Expr → Json
  | .identifier i => identifier i
  | .literal l => l.toJson
  | .this loc => node "ThisExpression" loc []
  | .array loc es => node "ArrayExpression" loc [("elements", .array (Expr.toJsonList es))]
  | .object loc ps => node "ObjectExpression" loc [("properties", .array (Property.toJsonList ps))]
  | .function loc id params body =>
    node "FunctionExpression" loc (optionalField "id" identifier id ++
      [("params", identifiers params), ("body", body.toJson)])
  | .unary loc op e leading =>
    node "UnaryExpression" loc
      [("operator", operator op), ("arguments", e.toJson), ("prefix", .bool leading)]
  | .update loc op e leading =>
    node "UpdateExpression" loc
      [("operator", operator op), ("arguments", e.toJson), ("prefix", .bool leading)]
  | .binary loc op l r =>
    node "binaryExpression" loc [("operator", operator op), ("left", l.toJson), ("right", r.toJson)]
  | .logical loc op l r =>
    node "LogicalExpression" loc
      [("operator", operator op), ("left", l.toJson), ("right", r.toJson)]
  | .assignment loc op l r =>
    node "AssignmentExpression" loc
      [("operator", operator op), ("left", l.toJson), ("right", r.toJson)]
  | .conditional loc t c a =>
    node "ConditionalExpression" loc
      [("test", t.toJson), ("consequent", c.toJson), ("alternate", a.toJson)]
  | .member loc o p dotted =>
    node "MemberExpression" loc
      [("object", o.toJson), ("property", p.toJson), ("computed", .bool dotted)]
  | .call loc f es =>
    node "CallExpression" loc [("callee", f.toJson), ("arguments", .array (Expr.toJsonList es))]
  | .new loc f es =>
    node "NewExpression" loc [("callee", f.toJson), ("arguments", .array (Expr.toJsonList es))]
  | .sequence loc es =>
    node "SequenceExpression" loc [("expressions", .array (Expr.toJsonList es))]
def Expr.toJsonList : List Expr → List Json
  | [] => []
  | e :: es => e.toJson :: Expr.toJsonList es
def Expr.toJsonOption : Option Expr → Json
  | none => .null
  | some e => e.toJson
def Property.toJson : Property → Json
  | .mk loc key value =>
    node "Property" loc
      [("key", key.toJson), ("value", value.toJson), ("kind", .string "init")]
def Property.toJsonList : List Property → List Json
  | [] => []
  | p :: ps => p.toJson :: Property.toJsonList ps
def Block.toJson : Block → Json
  | .mk loc body => node "BlockStatement" loc [("body", .array (Stmt.toJsonList body))]
def Block.toJsonOption : Option Block → Json
  | none => .null
  | some b => b.toJson
def Declarator.toJson : Declarator → Json
  | .mk loc id init =>
    node "VariableDeclarator" loc [("id", identifier id), ("init", Expr.toJsonOption init)]
def Declarator.toJsonList : List Declarator → List Json
  | [] => []
  | d :: ds => d.toJson :: Declarator.toJsonList ds
def Declaration.toJson : Declaration → Json
  | .mk loc ds =>
    node "VariableDeclaration" loc
      [("kind", .string "var"), ("declarations", .array (Declarator.toJsonList ds))]
def SwitchCase.toJson : SwitchCase → Json
  | .mk loc test consequent =>
    node "SwitchCase" loc
      [("test", Expr.toJsonOption test), ("consequent", .array (Stmt.toJsonList consequent))]
def SwitchCase.toJsonList : List SwitchCase → List Json
  | [] => []
  | c :: cs => c.toJson :: SwitchCase.toJsonList cs
def CatchClause.toJson : CatchClause → Json
  | .mk loc param body =>
    node "CatchClause" loc [("param", identifier param), ("body", body.toJson)]
def CatchClause.toJsonOption : Option CatchClause → Json
  | none => .null
  | some c => c.toJson
def ForInit.toJson : ForInit → Json
  | .declaration d => d.toJson
  | .expression e => e.toJson
def ForInit.toJsonOption : Option ForInit → Json
  | none => .null
  | some i => i.toJson
def ForTarget.toJson : ForTarget → Json
  | .declaration d => d.toJson
  | .identifier i => identifier i
def Stmt.toJson : Stmt → Json
  | .empty loc => node "EmptyStatement" loc []
  | .block b => b.toJson
  | .expression loc e => node "ExpressionStatement" loc [("exression", e.toJson)]
  | .declaration d => d.toJson
  | .if loc t c a =>
    node "IfStatement" loc
      [("test", t.toJson), ("consequent", c.toJson), ("alternate", Stmt.toJsonOption a)]
  | .debugger loc => node "DebuggerStatement" loc []
  | .with loc o b => node "WithStatement" loc [("object", o.toJson), ("body", b.toJson)]
  | .return loc e => node "ReturnStatement" loc [("argument", Expr.toJsonOption e)]
  | .throw loc e => node "ThrowStatement" loc [("argument", Expr.toJsonOption e)]
  | .break loc l => node "BreakStatement" loc [("label", .ofOption identifier l)]
  | .continue loc l => node "ContinueStatement" loc [("label", .ofOption identifier l)]
  | .switch loc d cs =>
    node "SwitchStatement" loc
      [("Discriminant", d.toJson), ("cases", .array (SwitchCase.toJsonList cs))]
  | .try loc b h f =>
    node "TryStatement" loc
      [("block", b.toJson), ("handler", CatchClause.toJsonOption h),
        ("finalizer", Block.toJsonOption f)]
  | .while loc t b => node "WhileStatement" loc [("test", t.toJson), ("body", b.toJson)]
  | .doWhile loc b t => node "DoWhileStatement" loc [("body", b.toJson), ("test", t.toJson)]
  | .for loc i t u b =>
    node "ForStatement" loc
      [("init", ForInit.toJsonOption i), ("test", Expr.toJsonOption t),
        ("update", Expr.toJsonOption u), ("body", b.toJson)]
  | .forIn loc t o b =>
    node "ForInStatement" loc [("left", t.toJson), ("right", o.toJson), ("body", b.toJson)]
  | .function loc id params body =>
    node "FunctionDeclaration" loc
      [("id", identifier id), ("params", identifiers params), ("body", body.toJson)]
  | .labeled loc l b => node "LabeledStatement" loc [("body", b.toJson), ("label", identifier l)]
def Stmt.toJsonOption : Option Stmt → Json
  | none => .null
  | some s => s.toJson
def Stmt.toJsonList : List Stmt → List Json
  | [] => []
  | s :: ss => s.toJson :: Stmt.toJsonList ss
end

def Program.toJson (p : Program) : Json :=
  node "Programs" p.loc [("body", .array (Stmt.toJsonList p.body))]

/-! ## Number literals -/

def Literal.numbers (l : Literal) : List Double :=
  match l.value with
  | .number x => [x]
  | _ => []

def PropertyKey.numbers : PropertyKey → List Double
  | .literal l => l.numbers
  | .identifier _ => []

mutual
def Expr.numbers : Expr → List Double
  | .identifier _ | .this _ => []
  | .literal l => l.numbers
  | .array _ es | .sequence _ es => Expr.numbersList es
  | .object _ ps => Property.numbersList ps
  | .function _ _ _ body => body.numbers
  | .unary _ _ e _ | .update _ _ e _ => e.numbers
  | .binary _ _ l r | .logical _ _ l r | .assignment _ _ l r | .member _ l r _ =>
    l.numbers ++ r.numbers
  | .conditional _ t c a => t.numbers ++ (c.numbers ++ a.numbers)
  | .call _ f es | .new _ f es => f.numbers ++ Expr.numbersList es
def Expr.numbersList : List Expr → List Double
  | [] => []
  | e :: es => e.numbers ++ Expr.numbersList es
def Expr.numbersOption : Option Expr → List Double
  | none => []
  | some e => e.numbers
def Property.numbers : Property → List Double
  | .mk _ key value => key.numbers ++ value.numbers
def Property.numbersList : List Property → List Double
  | [] => []
  | p :: ps => p.numbers ++ Property.numbersList ps
def Block.numbers : Block → List Double
  | .mk _ body => Stmt.numbersList body
def Block.numbersOption : Option Block → List Double
  | none => []
  | some b => b.numbers
def Declarator.numbers : Declarator → List Double
  | .mk _ _ init => Expr.numbersOption init
def Declarator.numbersList : List Declarator → List Double
  | [] => []
  | d :: ds => d.numbers ++ Declarator.numbersList ds
def Declaration.numbers : Declaration → List Double
  | .mk _ ds => Declarator.numbersList ds
def SwitchCase.numbers : SwitchCase → List Double
  | .mk _ test consequent => Expr.numbersOption test ++ Stmt.numbersList consequent
def SwitchCase.numbersList : List SwitchCase → List Double
  | [] => []
  | c :: cs => c.numbers ++ SwitchCase.numbersList cs
def CatchClause.numbers : CatchClause → List Double
  | .mk _ _ body => body.numbers
def CatchClause.numbersOption : Option CatchClause → List Double
  | none => []
  | some c => c.numbers
def ForInit.numbers : ForInit → List Double
  | .declaration d => d.numbers
  | .expression e => e.numbers
def ForInit.numbersOption : Option ForInit → List Double
  | none => []
  | some i => i.numbers
def ForTarget.numbers : ForTarget → List Double
  | .declaration d => d.numbers
  | .identifier _ => []
def Stmt.numbers : Stmt → List Double
  | .empty _ | .debugger _ | .break _ _ | .continue _ _ => []
  | .block b => b.numbers
  | .expression _ e => e.numbers
  | .declaration d => d.numbers
  | .if _ t c a => t.numbers ++ (c.numbers ++ Stmt.numbersOption a)
  | .with _ e b | .while _ e b | .doWhile _ b e => e.numbers ++ b.numbers
  | .return _ e | .throw _ e => Expr.numbersOption e
  | .switch _ d cs => d.numbers ++ SwitchCase.numbersList cs
  | .try _ b h f => b.numbers ++ (CatchClause.numbersOption h ++ Block.numbersOption f)
  | .for _ i t u b =>
    ForInit.numbersOption i ++ (Expr.numbersOption t ++ (Expr.numbersOption u ++ b.numbers))
  | .forIn _ t o b => t.numbers ++ (o.numbers ++ b.numbers)
  | .function _ _ _ body => body.numbers
  | .labeled _ _ b => b.numbers
def Stmt.numbersOption : Option Stmt → List Double
  | none => []
  | some s => s.numbers
def Stmt.numbersList : List Stmt → List Double
  | [] => []
  | s :: ss => s.numbers ++ Stmt.numbersList ss
end

def Program.numbers (p : Program) : List Double := Stmt.numbersList p.body

/-! ## The trees of `Tree` among these -/

def Literal.ofTree (l : ScriptTree.Literal Location) : Literal :=
  match l.value with
  | .number x => ⟨l.note, none, .number x⟩
  | .string s => ⟨l.note, none, .string s⟩
  | .boolean b => ⟨l.note, none, .boolean b⟩
  | .null => ⟨l.note, none, .null⟩
  | .undefined => ⟨l.note, none, .undefined⟩
  | .regex pattern flags => ⟨l.note, some ⟨pattern, flags⟩, .regex⟩

def PropertyKey.ofTree : ScriptTree.PropertyKey Location → PropertyKey
  | .literal l => .literal (.ofTree l)
  | .identifier i => .identifier i

mutual
def Expr.ofTree : ScriptTree.Expr Location → Expr
  | .identifier i => .identifier i
  | .literal l => .literal (.ofTree l)
  | .this loc => .this loc
  | .array loc es => .array loc (Expr.ofTreeList es)
  | .object loc ps => .object loc (Property.ofTreeList ps)
  | .function loc id params body => .function loc id params (Block.ofTree body)
  | .unary loc op e => .unary loc op (Expr.ofTree e) true
  | .update loc op e leading => .update loc op (Expr.ofTree e) leading
  | .binary loc op l r => .binary loc op (Expr.ofTree l) (Expr.ofTree r)
  | .logical loc op l r => .logical loc op (Expr.ofTree l) (Expr.ofTree r)
  | .assignment loc op l r => .assignment loc op (Expr.ofTree l) (Expr.ofTree r)
  | .conditional loc t c a => .conditional loc (Expr.ofTree t) (Expr.ofTree c) (Expr.ofTree a)
  | .member loc o p dotted => .member loc (Expr.ofTree o) (Expr.ofTree p) dotted
  | .call loc f es => .call loc (Expr.ofTree f) (Expr.ofTreeList es)
  | .new loc f es => .new loc (Expr.ofTree f) (Expr.ofTreeList es)
  | .sequence loc es => .sequence loc (Expr.ofTreeList es)
def Expr.ofTreeList : List (ScriptTree.Expr Location) → List Expr
  | [] => []
  | e :: es => Expr.ofTree e :: Expr.ofTreeList es
def Expr.ofTreeOption : Option (ScriptTree.Expr Location) → Option Expr
  | none => none
  | some e => some (Expr.ofTree e)
def Property.ofTree : ScriptTree.Property Location → Property
  | .mk loc key value => .mk loc (.ofTree key) (Expr.ofTree value)
def Property.ofTreeList : List (ScriptTree.Property Location) → List Property
  | [] => []
  | p :: ps => Property.ofTree p :: Property.ofTreeList ps
def Block.ofTree : ScriptTree.Block Location → Block
  | .mk loc body => .mk loc (Stmt.ofTreeList body)
def Block.ofTreeOption : Option (ScriptTree.Block Location) → Option Block
  | none => none
  | some b => some (Block.ofTree b)
def Declarator.ofTree : ScriptTree.Declarator Location → Declarator
  | .mk loc id init => .mk loc id (Expr.ofTreeOption init)
def Declarator.ofTreeList : List (ScriptTree.Declarator Location) → List Declarator
  | [] => []
  | d :: ds => Declarator.ofTree d :: Declarator.ofTreeList ds
def Declaration.ofTree : ScriptTree.Declaration Location → Declaration
  | .mk loc ds => .mk loc (Declarator.ofTreeList ds)
def SwitchCase.ofTree : ScriptTree.SwitchCase Location → SwitchCase
  | .mk loc test consequent => .mk loc (Expr.ofTreeOption test) (Stmt.ofTreeList consequent)
def SwitchCase.ofTreeList : List (ScriptTree.SwitchCase Location) → List SwitchCase
  | [] => []
  | c :: cs => SwitchCase.ofTree c :: SwitchCase.ofTreeList cs
def CatchClause.ofTree : ScriptTree.CatchClause Location → CatchClause
  | .mk loc param body => .mk loc param (Block.ofTree body)
def CatchClause.ofTreeOption : Option (ScriptTree.CatchClause Location) → Option CatchClause
  | none => none
  | some c => some (CatchClause.ofTree c)
def ForInit.ofTree : ScriptTree.ForInit Location → ForInit
  | .declaration d => .declaration (Declaration.ofTree d)
  | .expression e => .expression (Expr.ofTree e)
def ForInit.ofTreeOption : Option (ScriptTree.ForInit Location) → Option ForInit
  | none => none
  | some i => some (ForInit.ofTree i)
def ForTarget.ofTree : ScriptTree.ForTarget Location → ForTarget
  | .declaration d => .declaration (Declaration.ofTree d)
  | .identifier i => .identifier i
def Stmt.ofTree : ScriptTree.Stmt Location → Stmt
  | .empty loc => .empty loc
  | .block b => .block (Block.ofTree b)
  | .expression loc e => .expression loc (Expr.ofTree e)
  | .declaration d => .declaration (Declaration.ofTree d)
  | .if loc t c a => .if loc (Expr.ofTree t) (Stmt.ofTree c) (Stmt.ofTreeOption a)
  | .debugger loc => .debugger loc
  | .with loc o b => .with loc (Expr.ofTree o) (Stmt.ofTree b)
  | .return loc e => .return loc (Expr.ofTreeOption e)
  | .throw loc e => .throw loc (some (Expr.ofTree e))
  | .break loc l => .break loc l
  | .continue loc l => .continue loc l
  | .switch loc d cs => .switch loc (Expr.ofTree d) (SwitchCase.ofTreeList cs)
  | .try loc b h f =>
    .try loc (Block.ofTree b) (CatchClause.ofTreeOption h) (Block.ofTreeOption f)
  | .while loc t b => .while loc (Expr.ofTree t) (Stmt.ofTree b)
  | .doWhile loc b t => .doWhile loc (Stmt.ofTree b) (Expr.ofTree t)
  | .for loc i t u b =>
    .for loc (ForInit.ofTreeOption i) (Expr.ofTreeOption t) (Expr.ofTreeOption u) (Stmt.ofTree b)
  | .forIn loc t o b => .forIn loc (ForTarget.ofTree t) (Expr.ofTree o) (Stmt.ofTree b)
  | .function loc id params body => .function loc id params (Block.ofTree body)
  | .labeled loc l b => .labeled loc l (Stmt.ofTree b)
def Stmt.ofTreeOption : Option (ScriptTree.Stmt Location) → Option Stmt
  | none => none
  | some s => some (Stmt.ofTree s)
def Stmt.ofTreeList : List (ScriptTree.Stmt Location) → List Stmt
  | [] => []
  | s :: ss => Stmt.ofTree s :: Stmt.ofTreeList ss
end

def Program.ofTree (p : ScriptTree.Program Location) : Program :=
  ⟨p.note, Stmt.ofTreeList p.body⟩

theorem Literal.toJson_ofTree (l : ScriptTree.Literal Location) :
    (Literal.ofTree l).toJson = Shape.literal l := by
  obtain ⟨loc, value⟩ := l
  cases value <;> rfl

theorem PropertyKey.toJson_ofTree (k : ScriptTree.PropertyKey Location) :
    (PropertyKey.ofTree k).toJson = Shape.propertyKey k := by
  cases k with
  | literal l => exact Literal.toJson_ofTree l
  | identifier i => rfl

section
variable {type : String} {loc : Location} {a b c d : String} {u v w x u' v' w' x' : Json}

theorem node_congr₁ (hu : u = u') : node type loc [(a, u)] = node type loc [(a, u')] := by
  rw [hu]

theorem node_congr₂ (hu : u = u') (hv : v = v') :
    node type loc [(a, u), (b, v)] = node type loc [(a, u'), (b, v')] := by
  rw [hu, hv]

theorem node_congr₃ (hu : u = u') (hv : v = v') (hw : w = w') :
    node type loc [(a, u), (b, v), (c, w)] = node type loc [(a, u'), (b, v'), (c, w')] := by
  rw [hu, hv, hw]

theorem node_congr₄ (hu : u = u') (hv : v = v') (hw : w = w') (hx : x = x') :
    node type loc [(a, u), (b, v), (c, w), (d, x)] =
      node type loc [(a, u'), (b, v'), (c, w'), (d, x')] := by
  rw [hu, hv, hw, hx]

end

mutual
theorem Expr.toJson_ofTree : ∀ e : ScriptTree.Expr Location, (Expr.ofTree e).toJson = Shape.expr e
  | .identifier _ | .this _ => rfl
  | .literal l => Literal.toJson_ofTree l
  | .array _ es | .sequence _ es => node_congr₁ (congrArg Json.array (Expr.toJsonList_ofTree es))
  | .object _ ps => node_congr₁ (congrArg Json.array (Property.toJsonList_ofTree ps))
  | .function _ none _ body => node_congr₂ rfl (Block.toJson_ofTree body)
  | .function _ (some _) _ body => node_congr₃ rfl rfl (Block.toJson_ofTree body)
  | .unary _ _ e | .update _ _ e _ => node_congr₃ rfl (Expr.toJson_ofTree e) rfl
  | .binary _ _ l r | .logical _ _ l r | .assignment _ _ l r =>
    node_congr₃ rfl (Expr.toJson_ofTree l) (Expr.toJson_ofTree r)
  | .member _ o p _ => node_congr₃ (Expr.toJson_ofTree o) (Expr.toJson_ofTree p) rfl
  | .conditional _ t c a =>
    node_congr₃ (Expr.toJson_ofTree t) (Expr.toJson_ofTree c) (Expr.toJson_ofTree a)
  | .call _ f es | .new _ f es =>
    node_congr₂ (Expr.toJson_ofTree f) (congrArg Json.array (Expr.toJsonList_ofTree es))
theorem Expr.toJsonList_ofTree : ∀ es : List (ScriptTree.Expr Location),
    Expr.toJsonList (Expr.ofTreeList es) = Shape.exprs es
  | [] => rfl
  | e :: es => List.cons_eq_cons.2 ⟨Expr.toJson_ofTree e, Expr.toJsonList_ofTree es⟩
theorem Expr.toJsonOption_ofTree : ∀ e : Option (ScriptTree.Expr Location),
    Expr.toJsonOption (Expr.ofTreeOption e) = Shape.exprOrNull e
  | none => rfl
  | some e => Expr.toJson_ofTree e
theorem Property.toJson_ofTree : ∀ p : ScriptTree.Property Location,
    (Property.ofTree p).toJson = Shape.property p
  | .mk _ key value =>
    node_congr₃ (PropertyKey.toJson_ofTree key) (Expr.toJson_ofTree value) rfl
theorem Property.toJsonList_ofTree : ∀ ps : List (ScriptTree.Property Location),
    Property.toJsonList (Property.ofTreeList ps) = Shape.properties ps
  | [] => rfl
  | p :: ps => List.cons_eq_cons.2 ⟨Property.toJson_ofTree p, Property.toJsonList_ofTree ps⟩
theorem Block.toJson_ofTree : ∀ b : ScriptTree.Block Location,
    (Block.ofTree b).toJson = Shape.block b
  | .mk _ body => node_congr₁ (congrArg Json.array (Stmt.toJsonList_ofTree body))
theorem Block.toJsonOption_ofTree : ∀ b : Option (ScriptTree.Block Location),
    Block.toJsonOption (Block.ofTreeOption b) = Shape.blockOrNull b
  | none => rfl
  | some b => Block.toJson_ofTree b
theorem Declarator.toJson_ofTree : ∀ d : ScriptTree.Declarator Location,
    (Declarator.ofTree d).toJson = Shape.declarator d
  | .mk _ _ init => node_congr₂ rfl (Expr.toJsonOption_ofTree init)
theorem Declarator.toJsonList_ofTree : ∀ ds : List (ScriptTree.Declarator Location),
    Declarator.toJsonList (Declarator.ofTreeList ds) = Shape.declarators ds
  | [] => rfl
  | d :: ds => List.cons_eq_cons.2 ⟨Declarator.toJson_ofTree d, Declarator.toJsonList_ofTree ds⟩
theorem Declaration.toJson_ofTree : ∀ d : ScriptTree.Declaration Location,
    (Declaration.ofTree d).toJson = Shape.declaration d
  | .mk _ ds => node_congr₂ rfl (congrArg Json.array (Declarator.toJsonList_ofTree ds))
theorem SwitchCase.toJson_ofTree : ∀ c : ScriptTree.SwitchCase Location,
    (SwitchCase.ofTree c).toJson = Shape.switchCase c
  | .mk _ test body => node_congr₂ (Expr.toJsonOption_ofTree test)
      (congrArg Json.array (Stmt.toJsonList_ofTree body))
theorem SwitchCase.toJsonList_ofTree : ∀ cs : List (ScriptTree.SwitchCase Location),
    SwitchCase.toJsonList (SwitchCase.ofTreeList cs) = Shape.switchCases cs
  | [] => rfl
  | c :: cs => List.cons_eq_cons.2 ⟨SwitchCase.toJson_ofTree c, SwitchCase.toJsonList_ofTree cs⟩
theorem CatchClause.toJsonOption_ofTree : ∀ c : Option (ScriptTree.CatchClause Location),
    CatchClause.toJsonOption (CatchClause.ofTreeOption c) = Shape.catchOrNull c
  | none => rfl
  | some (.mk _ _ body) => node_congr₂ rfl (Block.toJson_ofTree body)
theorem ForInit.toJsonOption_ofTree : ∀ i : Option (ScriptTree.ForInit Location),
    ForInit.toJsonOption (ForInit.ofTreeOption i) = Shape.forInitOrNull i
  | none => rfl
  | some (.declaration d) => Declaration.toJson_ofTree d
  | some (.expression e) => Expr.toJson_ofTree e
theorem ForTarget.toJson_ofTree : ∀ t : ScriptTree.ForTarget Location,
    (ForTarget.ofTree t).toJson = Shape.forTarget t
  | .declaration d => Declaration.toJson_ofTree d
  | .identifier _ => rfl
theorem Stmt.toJson_ofTree : ∀ s : ScriptTree.Stmt Location, (Stmt.ofTree s).toJson = Shape.stmt s
  | .empty _ | .debugger _ | .break _ _ | .continue _ _ => rfl
  | .block b => Block.toJson_ofTree b
  | .declaration d => Declaration.toJson_ofTree d
  | .expression _ e | .throw _ e => node_congr₁ (Expr.toJson_ofTree e)
  | .return _ e => node_congr₁ (Expr.toJsonOption_ofTree e)
  | .if _ t c a =>
    node_congr₃ (Expr.toJson_ofTree t) (Stmt.toJson_ofTree c) (Stmt.toJsonOption_ofTree a)
  | .with _ e b | .while _ e b => node_congr₂ (Expr.toJson_ofTree e) (Stmt.toJson_ofTree b)
  | .doWhile _ b t => node_congr₂ (Stmt.toJson_ofTree b) (Expr.toJson_ofTree t)
  | .switch _ d cs =>
    node_congr₂ (Expr.toJson_ofTree d) (congrArg Json.array (SwitchCase.toJsonList_ofTree cs))
  | .try _ b h f => node_congr₃ (Block.toJson_ofTree b) (CatchClause.toJsonOption_ofTree h)
      (Block.toJsonOption_ofTree f)
  | .for _ i t u b => node_congr₄ (ForInit.toJsonOption_ofTree i) (Expr.toJsonOption_ofTree t)
      (Expr.toJsonOption_ofTree u) (Stmt.toJson_ofTree b)
  | .forIn _ t o b =>
    node_congr₃ (ForTarget.toJson_ofTree t) (Expr.toJson_ofTree o) (Stmt.toJson_ofTree b)
  | .function _ _ _ body => node_congr₃ rfl rfl (Block.toJson_ofTree body)
  | .labeled _ _ b => node_congr₂ (Stmt.toJson_ofTree b) rfl
theorem Stmt.toJsonOption_ofTree : ∀ s : Option (ScriptTree.Stmt Location),
    Stmt.toJsonOption (Stmt.ofTreeOption s) = Shape.stmtOrNull s
  | none => rfl
  | some s => Stmt.toJson_ofTree s
theorem Stmt.toJsonList_ofTree : ∀ ss : List (ScriptTree.Stmt Location),
    Stmt.toJsonList (Stmt.ofTreeList ss) = Shape.stmts ss
  | [] => rfl
  | s :: ss => List.cons_eq_cons.2 ⟨Stmt.toJson_ofTree s, Stmt.toJsonList_ofTree ss⟩
end

/-- A tree that is read has the same JSON among the wide ones. -/
theorem Program.toJson_ofTree (p : ScriptTree.Program Location) :
    (ofTree p).toJson = p.toJson := by
  rw [ScriptTree.Program.toJson, ← Stmt.toJsonList_ofTree]
  rfl

end ScriptTree.Wide
