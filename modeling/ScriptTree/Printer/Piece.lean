import ScriptTree.Text.Class

/-! Laid-out text. A printer gives pieces: the texts of tokens, and the places where space or a line
break looks good. Rendering joins them, and parts two tokens that would read as one or open a
comment. -/
namespace ScriptTree

inductive Piece where
  | token (text : String)
  /-- A space that is needed in any style. -/
  | blank
  | space
  | newline (level : Nat)
deriving DecidableEq, Repr

/-- How script text is laid out. -/
structure Style where
  minified : Bool
  indent : Option String
deriving DecidableEq, Repr

namespace Style

/-- One level of indentation: two spaces if nothing else is said. -/
def indentation (s : Style) : List Char := (s.indent.getD "  ").toList

def lineStart (s : Style) (level : Nat) : List Char :=
  '\n' :: (List.replicate level s.indentation).flatten

end Style

namespace Piece

/-- Whether text ending in `last` and text beginning with `first` would run together. -/
def merges (last first : Char) : Bool :=
  (Text.isWordPart last && Text.isWordPart first) ||
    (last == '+' && first == '+') || (last == '-' && first == '-') ||
    (last == '/' && (first == '/' || first == '*' || Text.isWordPart first))

def parted : (last : Option Char) → List Char → List Char
  | some last, first :: cs => if merges last first then ' ' :: first :: cs else first :: cs
  | _, cs => cs

/-- The text of pieces after output that ends in `last`. -/
def render (style : Style) : (last : Option Char) → List Piece → List Char
  | _, [] => []
  | last, .token text :: ps =>
    let cs := text.toList
    parted last cs ++ render style (cs.getLast?.or last) ps
  | _, .blank :: ps => ' ' :: render style (some ' ') ps
  | last, .space :: ps =>
    if style.minified then render style last ps else ' ' :: render style (some ' ') ps
  | last, .newline level :: ps =>
    if style.minified then render style last ps
    else
      let cs := style.lineStart level
      cs ++ render style cs.getLast? ps

end Piece
end ScriptTree
