import ScriptTree.Lexer.Scan

/-! Regular expression literals. Only what is needed to find the end is looked at: escapes, and the
brackets that are open, since a slash inside a class does not end the pattern. -/
namespace ScriptTree.Pattern

/-- The brackets open after an unescaped character; inside a class only its end counts. -/
def brackets (c : Char) (opened : List Char) : List Char :=
  match c, opened with
  | ']', '[' :: outer => outer
  | _, '[' :: outer => '[' :: outer
  | ')', '(' :: outer => outer
  | '(', opened => '(' :: opened
  | '[', opened => '[' :: opened
  | _, opened => opened

/-- The pattern after its opening slash, through its closing slash. -/
def bodyExtent (isEscaped : Bool) (opened : List Char) : List Char → Extent
  | [] => ⟨0, false⟩
  | c :: cs =>
    if Text.isLineBreak c then ⟨0, false⟩
    else if isEscaped then (bodyExtent false opened cs).after 1
    else if c = '\\' then (bodyExtent true opened cs).after 1
    else if c = '/' ∧ !opened.contains '[' then ⟨1, true⟩
    else (bodyExtent false (brackets c opened) cs).after 1

def isFlag (c : Char) : Bool := c == 'g' || c == 'i' || c == 'm'

/-- The flags after a pattern, each at most once; no name may go on after them. -/
def flagExtent (seen : List Char) : List Char → Extent
  | [] => ⟨0, true⟩
  | c :: cs =>
    if isFlag c && !seen.contains c then (flagExtent (c :: seen) cs).after 1
    else ⟨0, !Text.isWordStart c⟩

/-- The literal after its opening slash. -/
def scan (cs : List Char) : Scan :=
  let body := bodyExtent false [] cs
  if body.valid then
    let tail := cs.drop body.length
    let flags := flagExtent [] tail
    let length := 1 + body.length + flags.length
    if flags.valid then
      ⟨length, .ok (.regex (String.ofList ('/' :: cs.take body.length))
        (String.ofList (tail.take flags.length)))⟩
    else ⟨length, .error .invalidRegexFlags⟩
  else ⟨1 + body.length, .error .unterminatedRegex⟩

end ScriptTree.Pattern
