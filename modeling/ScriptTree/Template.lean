import ScriptTree.Text.Class

/-! Message templates. A placeholder is a brace, the index of an argument and a closing brace; all
else is literal, and what an argument brings in is never read as a placeholder. -/
namespace ScriptTree.Template

/-- What stands after an opening brace, if it completes a placeholder: the argument that replaces it
and the number of characters up to and including the closing brace. -/
def placeholder? (args : List (List Char)) (cs : List Char) : Option (List Char × Nat) :=
  let body := cs.takeWhile fun c => c != '\x7b' && c != '\x7d'
  if (cs.drop body.length).head? = some '\x7d' then
    (Text.readWord? body).bind fun i => args[i]?.map fun arg => (arg, body.length + 1)
  else none

/-- Replaces the placeholders of a text whose first `skip` characters are already dealt with. -/
def fillAfter (args : List (List Char)) : (skip : Nat) → List Char → List Char
  | _, [] => []
  | skip + 1, _ :: cs => fillAfter args skip cs
  | 0, c :: cs =>
    match if c = '\x7b' then placeholder? args cs else none with
    | some (arg, width) => arg ++ fillAfter args width cs
    | none => c :: fillAfter args 0 cs

def fill (template : String) (args : List String) : String :=
  String.ofList (fillAfter (args.map String.toList) 0 template.toList)

end ScriptTree.Template
