import ScriptTree.Fault

/-! What jumps may refer to. A loop or a switch is entered without a name; labels that stand
directly in front of the same statement all share what that statement is. Function bodies do not
close the scope they are in. -/
namespace ScriptTree

/-- A statement that a jump without a label can refer to. -/
inductive JumpTarget where
  | loop
  | switch
deriving DecidableEq, Repr

/-- An entry of the scope: its name, if it has one, and what it stands in front of. -/
structure Label where
  name : Option String
  target : Option JumpTarget
deriving DecidableEq, Repr

/-- The labels around the current place, innermost first. The first `stacked` of them stand directly
in front of the statement that is about to be read. -/
structure Scope where
  labels : List Label
  stacked : Nat
deriving DecidableEq, Repr

namespace Scope

def empty : Scope := ⟨[], 0⟩

/-- Inside a statement, where no label is directly in front any more. -/
def settle (s : Scope) : Scope := ⟨s.labels, 0⟩

/-- Inside a loop or a switch. -/
def enter (target : JumpTarget) (s : Scope) : Scope := ⟨⟨none, some target⟩ :: s.labels, 0⟩

/-- After one more label, when `stacked` labels stand directly in front of it. -/
def label (stacked : Nat) (name : String) (target : Option JumpTarget) (s : Scope) : Scope :=
  let shared := (s.labels.take stacked).map fun l => ⟨l.name, target⟩
  ⟨⟨some name, target⟩ :: shared ++ s.labels.drop stacked, stacked + 1⟩

def declares (s : Scope) (name : String) : Bool := s.labels.any (·.name == some name)

/-- Whether a jump without a label may refer to a target: only loops can be continued. -/
def reaches : Jump → Option JumpTarget → Bool
  | _, none => false
  | .break, some _ => true
  | .continue, some target => target == .loop

/-- Whether a jump has somewhere to go. A break may leave any statement by its label. -/
def allows (s : Scope) (jump : Jump) : Option String → Bool
  | none => s.labels.any fun l => reaches jump l.target
  | some name =>
    s.labels.any fun l => l.name == some name && (jump == .break || reaches jump l.target)

end Scope
end ScriptTree
