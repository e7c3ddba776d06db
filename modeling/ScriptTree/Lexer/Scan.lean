import ScriptTree.Fault

/-! A cursor into the source and what a scan at it reports. Scanners never move the cursor: they say
how many characters they used, also when they fail, and `Cursor.advance` is the only way forward. -/
namespace ScriptTree

/-- A place in the source: its byte offset and the text from there on. -/
structure Cursor where
  offset : Nat
  rest : List Char
deriving DecidableEq, Repr

namespace Cursor

def ofText (cs : List Char) : Cursor := ⟨0, cs⟩

/-- Moves over the next `n` characters, or to the end if there are fewer. -/
def advance (c : Cursor) (n : Nat) : Cursor :=
  ⟨c.offset + Text.bytes (c.rest.take n), c.rest.drop n⟩

/-- Moving loses no text. -/
theorem take_append_rest (c : Cursor) (n : Nat) : c.rest.take n ++ (c.advance n).rest = c.rest :=
  List.take_append_drop n c.rest

/-- Moving does not change where the text ends. -/
@[simp] theorem offset_add_bytes_advance (c : Cursor) (n : Nat) :
    (c.advance n).offset + Text.bytes (c.advance n).rest = c.offset + Text.bytes c.rest := by
  have h := congrArg Text.bytes (c.take_append_rest n)
  simp only [Text.bytes_append] at h
  simp only [advance] at h ⊢
  omega

end Cursor

/-- How many characters a scan used, and what they are. -/
structure Scan where
  length : Nat
  found : Except Cause TokenKind

/-- How many characters belong to something, and whether it is well formed. -/
structure Extent where
  length : Nat
  valid : Bool
deriving DecidableEq, Repr

/-- The extent of a text whose remainder is already measured. -/
def Extent.after (n : Nat) (e : Extent) : Extent := ⟨n + e.length, e.valid⟩

end ScriptTree
