import ScriptTree.Parser
import ScriptTree.Printer

/-! Laying a script out anew: the tree keeps all that matters, and the style decides the rest. -/
namespace ScriptTree

/-- Reads a script and writes it back. -/
def transform (source : String) (maxDepth : Nat) (style : Style) : Except Failure String :=
  (parseSpans source maxDepth).map (·.print style)

end ScriptTree
