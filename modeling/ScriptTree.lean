import ScriptTree.Command.Directory
import ScriptTree.Diagnostic
import ScriptTree.Main
import ScriptTree.Proofs.Agreement
import ScriptTree.Proofs.Characters
import ScriptTree.Proofs.Decimals
import ScriptTree.Proofs.Division
import ScriptTree.Proofs.Foresight
import ScriptTree.Proofs.JsonShape
import ScriptTree.Proofs.Labels
import ScriptTree.Proofs.Layers
import ScriptTree.Proofs.LineBreaks
import ScriptTree.Proofs.Locations
import ScriptTree.Proofs.Nesting
import ScriptTree.Proofs.NumberLiterals
import ScriptTree.Proofs.Numerals
import ScriptTree.Proofs.Partition
import ScriptTree.Proofs.PatternLiterals
import ScriptTree.Proofs.Placeholders
import ScriptTree.Proofs.Precedence
import ScriptTree.Proofs.Progress
import ScriptTree.Proofs.Respacing
import ScriptTree.Proofs.Restoration
import ScriptTree.Proofs.Safety
import ScriptTree.Proofs.Shapes
import ScriptTree.Proofs.SingleLine
import ScriptTree.Proofs.Slashes
import ScriptTree.Proofs.Spelling
import ScriptTree.Proofs.StringLiterals
import ScriptTree.Proofs.Yield
import ScriptTree.Tree.Outline
