/-! Statement keywords. -/
namespace ScriptTree

inductive Keyword where
  | «break» | «case» | «catch» | «continue» | debugger | default | «do» | «else» | «finally» | «for»
  | function | «if» | «return» | switch | throw | «try» | var | while | «with»
deriving DecidableEq, Repr

namespace Keyword

def text : Keyword → String
  | .break => "break"
  | .case => "case"
  | .catch => "catch"
  | .continue => "continue"
  | .debugger => "debugger"
  | .default => "default"
  | .do => "do"
  | .else => "else"
  | .finally => "finally"
  | .for => "for"
  | .function => "function"
  | .if => "if"
  | .return => "return"
  | .switch => "switch"
  | .throw => "throw"
  | .try => "try"
  | .var => "var"
  | .while => "while"
  | .with => "with"

def all : List Keyword :=
  [.break, .case, .catch, .continue, .debugger, .default, .do, .else, .finally, .for, .function,
    .if, .return, .switch, .throw, .try, .var, .while, .with]

def ofText? (word : String) : Option Keyword := all.find? (·.text == word)

theorem mem_all (k : Keyword) : k ∈ all := by cases k <;> decide

theorem ofText?_text (k : Keyword) : ofText? k.text = some k := by cases k <;> decide +kernel

theorem text_of_ofText? {word : String} {k : Keyword} (h : ofText? word = some k) :
    k.text = word := by
  simpa using List.find?_some h

end Keyword
end ScriptTree
