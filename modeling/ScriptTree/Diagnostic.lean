import ScriptTree.Fault

/-! Failures as they are shown beside the source: the message, and a mark under the one character
that it is about. -/
namespace ScriptTree

structure Diagnostic where
  message : String
  code : String
  label : String
  offset : Nat
  /-- In bytes: nothing is marked at the end of the source. -/
  length : Nat
deriving DecidableEq, Repr

def Failure.diagnostic (source : List Char) (f : Failure) : Diagnostic :=
  let offset := min f.offset (Text.bytes source)
  { message := f.display
    code := "sparse::parse"
    label := "here"
    offset
    length := match Text.dropBytes offset source with
      | some (c :: _) => c.utf8Size
      | _ => 0 }

/-- A mark stays inside the source. -/
theorem Failure.diagnostic_inside (source : List Char) (f : Failure) :
    (f.diagnostic source).offset + (f.diagnostic source).length ≤ Text.bytes source := by
  simp only [diagnostic]
  split
  · rename_i c cs h
    have := Text.bytes_dropBytes h
    simp only [Text.bytes] at this
    omega
  · omega

end ScriptTree
