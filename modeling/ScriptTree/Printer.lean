import ScriptTree.Keyword
import ScriptTree.Number.Spelling
import ScriptTree.Printer.Piece
import ScriptTree.Printer.Quote
import ScriptTree.Tree

/-! Trees written as scripts. Groups are in the tree, so the nodes are written in order and binding
strength plays no part. A writer puts its pieces in front of those that follow; writers are
composed, so a piece is put down once, however deep it is nested. -/
namespace ScriptTree.Printer

/-- Puts pieces in front of others. -/
abbrev Writer := List Piece → List Piece

def tok (text : String) : Writer := (.token text :: ·)

def space : Writer := (.space :: ·)

def blank : Writer := (.blank :: ·)

def newline (level : Nat) : Writer := (.newline level :: ·)

/-- Puts nothing. -/
def nothing : Writer := id

def word (k : Keyword) : Writer := tok k.text

def symbol (op : Operator) : Writer := tok op.text

/-- Parts with a comma and a space between them. -/
def commas : List Writer → Writer
  | [] => nothing
  | [w] => w
  | w :: ws => w ∘ tok "," ∘ space ∘ commas ws

def name (i : Identifier α) : Writer := tok i.name

def optionalName : Option (Identifier α) → Writer
  | none => nothing
  | some i => name i

def literalText : LiteralValue → List Char
  | .number x => x.literal
  | .string s => quote s
  | .boolean true => "true".toList
  | .boolean false => "false".toList
  | .null => "null".toList
  | .undefined => "undefined".toList
  | .regex pattern flags => pattern.toList ++ flags.toList

def literal (l : Literal α) : Writer := tok (String.ofList (literalText l.value))

/-- A number without a point or an exponent: a dot right after it would belong to it. -/
def isInteger : Expr α → Bool
  | .literal ⟨_, .number x⟩ => !x.literal.any fun c => c == '.' || c == 'e'
  | _ => false

def key : PropertyKey α → Writer
  | .literal l => literal l
  | .identifier i => name i

/-- `keyword (inside) `, before the statement that it governs. -/
def header (k : Keyword) (inside : Writer) : Writer :=
  word k ∘ space ∘ tok "(" ∘ inside ∘ tok ")" ∘ space

def jump (k : Keyword) (label : Option (Identifier α)) : Writer :=
  word k ∘ optionalName label ∘ tok ";"

/-- What comes before the body of a function. -/
def signature (id : Option (Identifier α)) (params : List (Identifier α)) : Writer :=
  word .function ∘ optionalName id ∘ tok "(" ∘ commas (params.map name) ∘ tok ")" ∘ space

mutual
/-- An expression inside a statement at a level of indentation. -/
def expr (level : Nat) : Expr α → Writer
  | .identifier i => name i
  | .literal l => literal l
  | .this _ => tok "this"
  | .array _ es => tok "[" ∘ commas (exprs level es) ∘ tok "]"
  | .object _ ps => tok "\x7b" ∘ commas (properties level ps) ∘ tok "\x7d"
  | .function _ id params body => signature id params ∘ block level body
  | .unary _ op e => symbol op ∘ expr level e
  | .update _ op e true => symbol op ∘ expr level e
  | .update _ op e false => expr level e ∘ symbol op
  | .binary _ op l r | .logical _ op l r | .assignment _ op l r =>
    expr level l ∘ space ∘ symbol op ∘ space ∘ expr level r
  | .conditional _ t c a =>
    expr level t ∘ space ∘ tok "?" ∘ space ∘ expr level c ∘ space ∘ tok ":" ∘ space ∘ expr level a
  | .member _ o p true =>
    expr level o ∘ (if isInteger o then blank else nothing) ∘ symbol .dot ∘ expr level p
  | .member _ o p false => expr level o ∘ tok "[" ∘ expr level p ∘ tok "]"
  | .call _ f es => expr level f ∘ tok "(" ∘ commas (exprs level es) ∘ tok ")"
  | .new _ f [] => symbol .new ∘ space ∘ expr level f
  | .new _ f (e :: es) =>
    symbol .new ∘ space ∘ expr level f ∘ tok "(" ∘ commas (expr level e :: exprs level es) ∘ tok ")"
  | .sequence _ es => tok "(" ∘ commas (exprs level es) ∘ tok ")"
def exprs (level : Nat) : List (Expr α) → List Writer
  | [] => []
  | e :: es => expr level e :: exprs level es
def property (level : Nat) : Property α → Writer
  | .mk _ k value => key k ∘ tok ":" ∘ space ∘ expr level value
def properties (level : Nat) : List (Property α) → List Writer
  | [] => []
  | p :: ps => property level p :: properties level ps
/-- Nothing, or a space and the expression. -/
def spaced (level : Nat) : Option (Expr α) → Writer
  | none => nothing
  | some e => space ∘ expr level e
def declarator (level : Nat) : Declarator α → Writer
  | .mk _ id none => name id
  | .mk _ id (some e) => name id ∘ space ∘ symbol .assign ∘ space ∘ expr level e
def declarators (level : Nat) : List (Declarator α) → List Writer
  | [] => []
  | d :: ds => declarator level d :: declarators level ds
def declaration (level : Nat) : Declaration α → Writer
  | .mk _ ds => word .var ∘ commas (declarators level ds)
def block (level : Nat) : Block α → Writer
  | .mk _ [] => tok "\x7b" ∘ tok "\x7d"
  | .mk _ (s :: ss) =>
    tok "\x7b" ∘ newline (level + 1) ∘ stmt (level + 1) s ∘ lines (level + 1) ss ∘ newline level ∘
      tok "\x7d"
/-- Statements, each on a line of its own. -/
def lines (level : Nat) : List (Stmt α) → Writer
  | [] => nothing
  | s :: ss => newline level ∘ stmt level s ∘ lines level ss
def switchCase (level : Nat) : SwitchCase α → Writer
  | .mk _ none ss => word .default ∘ tok ":" ∘ lines (level + 1) ss
  | .mk _ (some e) ss =>
    word .case ∘ space ∘ expr level e ∘ tok ":" ∘ lines (level + 1) ss
def switchCases (level : Nat) : List (SwitchCase α) → Writer
  | [] => nothing
  | c :: cs => newline level ∘ switchCase level c ∘ switchCases level cs
def catchClause (level : Nat) : CatchClause α → Writer
  | .mk _ param body =>
    space ∘ word .catch ∘ space ∘ tok "(" ∘ name param ∘ tok ")" ∘ space ∘ block level body
def handler (level : Nat) : Option (CatchClause α) → Writer
  | none => nothing
  | some c => catchClause level c
def finalizer (level : Nat) : Option (Block α) → Writer
  | none => nothing
  | some b => space ∘ word .finally ∘ space ∘ block level b
def alternate (level : Nat) : Option (Stmt α) → Writer
  | none => nothing
  | some s => space ∘ word .else ∘ space ∘ stmt level s
def forInit (level : Nat) : ForInit α → Writer
  | .declaration d => declaration level d
  | .expression e => expr level e
def forStart (level : Nat) : Option (ForInit α) → Writer
  | none => nothing
  | some i => forInit level i
def forTarget (level : Nat) : ForTarget α → Writer
  | .declaration d => declaration level d
  | .identifier i => name i
def stmt (level : Nat) : Stmt α → Writer
  | .empty _ => tok ";"
  | .block b => block level b
  | .expression _ e => expr level e ∘ tok ";"
  | .declaration d => declaration level d ∘ tok ";"
  | .if _ t c a => header .if (expr level t) ∘ stmt level c ∘ alternate level a
  | .debugger _ => word .debugger ∘ tok ";"
  | .with _ o b => header .with (expr level o) ∘ stmt level b
  | .return _ e => word .return ∘ spaced level e ∘ tok ";"
  | .throw _ e => word .throw ∘ space ∘ expr level e ∘ tok ";"
  | .break _ l => jump .break l
  | .continue _ l => jump .continue l
  | .switch _ d cs =>
    header .switch (expr level d) ∘ tok "\x7b" ∘ switchCases (level + 1) cs ∘ newline level ∘
      tok "\x7d"
  | .try _ b h f => word .try ∘ space ∘ block level b ∘ handler level h ∘ finalizer level f
  | .while _ t b => header .while (expr level t) ∘ stmt level b
  | .doWhile _ b t =>
    word .do ∘ space ∘ stmt level b ∘ space ∘ word .while ∘ space ∘ tok "(" ∘ expr level t ∘ tok ")"
  | .for _ i t u b =>
    word .for ∘ space ∘ tok "(" ∘ forStart level i ∘ tok ";" ∘ spaced level t ∘ tok ";" ∘
      spaced level u ∘ tok ")" ∘ space ∘ stmt level b
  | .forIn _ t o b =>
    word .for ∘ space ∘ tok "(" ∘ forTarget level t ∘ space ∘ symbol .in ∘ space ∘ expr level o ∘
      tok ")" ∘ space ∘ stmt level b
  | .function _ id params body => signature (some id) params ∘ block level body
  | .labeled _ l b => name l ∘ tok ":" ∘ space ∘ stmt level b
end

/-- A script, one statement a line. -/
def program : List (Stmt α) → Writer
  | [] => nothing
  | s :: ss => stmt 0 s ∘ lines 0 ss

end ScriptTree.Printer

namespace ScriptTree

/-- The script text of a tree. Unless it is minified, it ends with a line break. -/
def Program.print (style : Style) (p : Program α) : String :=
  let cs := Piece.render style none (Printer.program p.body [])
  String.ofList (if style.minified || cs.isEmpty then cs else cs ++ ['\n'])

end ScriptTree
