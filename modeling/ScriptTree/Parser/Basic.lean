import ScriptTree.Lexer
import ScriptTree.Parser.Scope
import ScriptTree.Tree

/-! The state of reading and its small steps. One token is current; those before it are kept, newest
first. Nothing is read ahead, because the lexer has to be told what may come next. Nodes are noted
with the bytes that they span. -/
namespace ScriptTree.Parser

/-- What a reader is told from outside. Reading without `checkLabels` takes jumps and labels as they
come. -/
structure Context where
  limit : Nat
  /-- More steps than any list of items can take: each takes a token, and each token but the end of
  input takes a character. -/
  budget : Nat
  checkLabels : Bool
  scope : Scope

structure State where
  current : Token
  /-- The trivia in front of the current token. -/
  gap : List Char
  earlier : List Token
  cursor : Cursor

namespace State

/-- Where the last token before the current one ends. -/
def lastEnd (s : State) : Nat :=
  match s.earlier with
  | [] => 0
  | t :: _ => t.span.stop

/-- All tokens obtained so far, in order. -/
def tokens (s : State) : List Token := (s.current :: s.earlier).reverse

end State

/-- Reading something: it may look at the context, moves through the tokens, and stops at the first
fault. -/
abbrev Parse := ReaderT Context (EStateM Fault State)

def inScope (f : Scope → Scope) (p : Parse α) : Parse α :=
  fun c => p { c with scope := f c.scope }

def kind : Parse TokenKind := return (← get).current.kind

/-- Where the current token starts. -/
def here : Parse Nat := return (← get).current.span.start

def fault (cause : Cause) (offset : Nat) : Parse α := throw ⟨cause, offset⟩

def faultHere (cause : Cause) : Parse α := do fault cause (← here)

def unexpected : Parse α := do faultHere (.unexpectedToken (← kind))

/-- Moves to the next token. -/
def advance (expectOperator : Bool) : Parse Unit := do
  let s ← get
  match Lexer.next expectOperator s.cursor with
  | (.ok token, cursor) =>
    set (⟨token, Lexer.gap s.cursor, s.current :: s.earlier, cursor⟩ : State)
  | (.error f, _) => throw f

def expect (k : TokenKind) : Parse Unit := do
  if (← kind) ≠ k then unexpected

/-- Requires a token and moves past it to where an operand may begin. -/
def eat (k : TokenKind) : Parse Unit := do
  expect k
  advance false

/-- Requires the token that completes an operand and moves past it. -/
def close (k : TokenKind) : Parse Unit := do
  expect k
  advance true

/-- The span from `start` to the end of the last token before the current one. -/
def finish (start : Nat) : Parse Span := do
  return ⟨start, max (← get).lastEnd start⟩

/-- Whether a line ends between the last token and the current one. -/
def afterLineBreak : Parse Bool := return (← get).gap.any Text.isLineBreak

/-- Whether a statement may end here; takes a semicolon if there is one. -/
def atEnd : Parse Bool := do
  match ← kind with
  | .endOfInput | .rightBrace => return true
  | .semicolon =>
    advance false
    return true
  | _ => afterLineBreak

def endStatement : Parse Unit := do
  if !(← atEnd) then unexpected

/-- Items up to a token that ends them. Every item takes a token, so the fuel does not run out. -/
def itemsUntil (isLast : TokenKind → Bool) (item : Parse α) : (fuel : Nat) → Parse (List α)
  | 0 => unexpected
  | fuel + 1 => do
    if isLast (← kind) then return []
    let x ← item
    return x :: (← itemsUntil isLast item fuel)

def upTo (isLast : TokenKind → Bool) (item : Parse α) : Parse (List α) := do
  itemsUntil isLast item (← read).budget

/-- Further items, each after a comma. -/
def itemsAfterCommas (item : Parse α) : (fuel : Nat) → Parse (List α)
  | 0 => unexpected
  | fuel + 1 => do
    if (← kind) ≠ .comma then return []
    advance false
    let x ← item
    return x :: (← itemsAfterCommas item fuel)

def moreItems (item : Parse α) : Parse (List α) := do
  itemsAfterCommas item (← read).budget

/-- One item or more, separated by commas. -/
def separated (item : Parse α) : Parse (List α) := do
  let x ← item
  return x :: (← moreItems item)

/-- Items separated by commas, possibly none, through the token that closes them. -/
def closedList (last : TokenKind) (item : Parse α) : Parse (List α) := do
  let items ← if (← kind) = last then pure [] else separated item
  close last
  return items

/-- How nested parts are read. -/
structure Readers where
  statement : Parse (Stmt Span)
  /-- Reads on while operators bind tighter than `floor`; in the head of a counted loop an `in`
  ends the expression. -/
  expression : (floor : Nat) → (forHead : Bool) → Parse (Expr Span)

end ScriptTree.Parser
