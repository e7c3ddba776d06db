import ScriptTree.Number.Spelling

/-! JSON values to be written. Fields keep their order. Integers and other numbers are apart,
because they are spelled apart. -/
namespace ScriptTree

inductive Json where
  | null
  | bool (value : Bool)
  | int (value : Int)
  | double (value : Double)
  | string (value : String)
  | array (items : List Json)
  | object (fields : List (String × Json))

namespace Json

def nat (n : Nat) : Json := .int n

/-- The largest number up to which every integer is a double. -/
def maxSafeInteger : Nat := 9007199254740991

/-- The value of a number: none if it is not finite, an integer if it is a safe one. -/
def ofDouble (x : Double) : Json :=
  match x with
  | .finite negative _ =>
    match x.natural? with
    | some n => if n ≤ maxSafeInteger then .int (if negative then -n else n) else .double x
    | none => .double x
  | _ => .null

/-- The value if there is one. -/
def ofOption (f : α → Json) : Option α → Json
  | some a => f a
  | none => .null

end Json
end ScriptTree
