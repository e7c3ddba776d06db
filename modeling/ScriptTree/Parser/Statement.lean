import ScriptTree.Parser.Expression

/-! Statements, chosen by their first token. A label is an expression that turns out to be a lone
name before a colon. -/
namespace ScriptTree.Parser

/-- An expression in parentheses, in the head of a statement. -/
def condition (inner : Readers) : Parse (Expr Span) := do
  eat .leftParen
  let e ← commaExpression inner false
  eat .rightParen
  return e

def ifStatement (inner : Readers) (start : Nat) : Parse (Stmt Span) := do
  advance false
  let test ← condition inner
  let consequent ← inner.statement
  let alternate ←
    if (← kind) = .keyword .else then
      advance false
      some <$> inner.statement
    else pure none
  return .if (← finish start) test consequent alternate

def debuggerStatement (start : Nat) : Parse (Stmt Span) := do
  advance false
  endStatement
  return .debugger (← finish start)

def withStatement (inner : Readers) (start : Nat) : Parse (Stmt Span) := do
  advance false
  let object ← condition inner
  let body ← inner.statement
  return .with (← finish start) object body

/-- What a statement hands over, if it does not end at once. -/
def argument (inner : Readers) : Parse (Option (Expr Span)) := do
  advance false
  if ← atEnd then return none
  let e ← commaExpression inner false
  endStatement
  return some e

def returnStatement (inner : Readers) (start : Nat) : Parse (Stmt Span) := do
  let e ← argument inner
  return .return (← finish start) e

def throwStatement (inner : Readers) (start : Nat) : Parse (Stmt Span) := do
  match ← argument inner with
  | some e => return .throw (← finish start) e
  | none => faultHere .throwWithoutArgument

def jumpStatement (jump : Jump) (start : Nat) : Parse (Stmt Span) := do
  advance false
  let label ←
    if ← atEnd then pure none
    else do
      let label ← identifier
      endStatement
      pure (some label)
  let c ← read
  if c.checkLabels && !c.scope.allows jump (label.map (·.name)) then fault (.invalidJump jump) start
  let note ← finish start
  match jump with
  | .break => return .break note label
  | .continue => return .continue note label

def endsCase : TokenKind → Bool
  | .rightBrace | .keyword .case | .keyword .default => true
  | _ => false

def switchCase (inner : Readers) : Parse (SwitchCase Span) := do
  let start ← here
  let test ← match ← kind with
    | .keyword .case =>
      advance false
      some <$> commaExpression inner false
    | .keyword .default =>
      advance false
      pure none
    | _ => unexpected
  eat .colon
  let consequent ← upTo endsCase inner.statement
  return .mk (← finish start) test consequent

/-- The cases up to the closing brace, of which one at most is the default. -/
def switchCases (inner : Readers) :
    (fuel : Nat) → (hasDefault : Bool) → Parse (List (SwitchCase Span))
  | 0, _ => unexpected
  | fuel + 1, hasDefault => do
    if (← kind) = .rightBrace then return []
    let start ← here
    let c ← switchCase inner
    let isDefault := match c with
      | .mk _ test _ => test.isNone
    if isDefault && hasDefault then fault .duplicateDefault start
    return c :: (← switchCases inner fuel (hasDefault || isDefault))

def switchStatement (inner : Readers) (start : Nat) : Parse (Stmt Span) := do
  advance false
  let discriminant ← condition inner
  eat .leftBrace
  let cases ← inScope (Scope.enter .switch) do switchCases inner (← read).budget false
  advance false
  return .switch (← finish start) discriminant cases

def catchClause (inner : Readers) : Parse (CatchClause Span) := do
  let start ← here
  advance false
  eat .leftParen
  let param ← identifier
  eat .rightParen
  let body ← block inner
  return .mk (← finish start) param body

def tryStatement (inner : Readers) (start : Nat) : Parse (Stmt Span) := do
  advance false
  let body ← block inner
  let handler ←
    if (← kind) = .keyword .catch then some <$> catchClause inner
    else do
      expect (.keyword .finally)
      pure none
  let finalizer ←
    if (← kind) = .keyword .finally then
      advance false
      some <$> block inner
    else pure none
  return .try (← finish start) body handler finalizer

def loopBody (inner : Readers) : Parse (Stmt Span) :=
  inScope (Scope.enter .loop) inner.statement

def whileStatement (inner : Readers) (start : Nat) : Parse (Stmt Span) := do
  advance false
  let test ← condition inner
  let body ← loopBody inner
  return .while (← finish start) test body

/-- A semicolon after the condition is left to be a statement of its own. -/
def doWhileStatement (inner : Readers) (start : Nat) : Parse (Stmt Span) := do
  advance false
  let body ← loopBody inner
  eat (.keyword .while)
  let test ← condition inner
  return .doWhile (← finish start) body test

def declarator (inner : Readers) (forHead : Bool) : Parse (Declarator Span) := do
  let start ← here
  let id ← identifier
  let init ←
    if (← kind) = .operator .assign then
      advance false
      some <$> inner.expression 0 forHead
    else pure none
  return .mk (← finish start) id init

/-- Declarations; in the head of a loop they need no end. -/
def declaration (inner : Readers) (forHead : Bool) : Parse (Declaration Span) := do
  let start ← here
  advance false
  let declarators ← separated (declarator inner forHead)
  if !forHead then endStatement
  return .mk (← finish start) declarators

/-- A counted loop after its first part. -/
def forRest (inner : Readers) (start : Nat) (init : Option (ForInit Span)) :
    Parse (Stmt Span) := do
  eat .semicolon
  let test ← if (← kind) = .semicolon then pure none else some <$> commaExpression inner false
  eat .semicolon
  let update ← if (← kind) = .rightParen then pure none else some <$> commaExpression inner false
  eat .rightParen
  let body ← loopBody inner
  return .for (← finish start) init test update body

/-- A loop over names after what it binds. -/
def forInRest (inner : Readers) (start : Nat) (target : ForTarget Span) :
    Parse (Stmt Span) := do
  match target with
  | .declaration (.mk _ (_ :: _ :: _)) => fault .manyBindings start
  | _ => pure ()
  eat (.operator .in)
  let object ← commaExpression inner false
  eat .rightParen
  let body ← loopBody inner
  return .forIn (← finish start) target object body

def forStatement (inner : Readers) (start : Nat) : Parse (Stmt Span) := do
  advance false
  eat .leftParen
  match ← kind with
  | .keyword .var =>
    let d ← declaration inner true
    match ← kind with
    | .semicolon => forRest inner start (some (.declaration d))
    | .operator .in => forInRest inner start (.declaration d)
    | _ => unexpected
  | .semicolon => forRest inner start none
  | _ =>
    let e ← commaExpression inner true
    match e, ← kind with
    | .identifier i, .operator .in => forInRest inner start (.identifier i)
    | e, _ => forRest inner start (some (.expression e))

def functionStatement (inner : Readers) (start : Nat) : Parse (Stmt Span) := do
  advance false
  let id ← identifier
  let params ← parameters
  let body ← block inner
  return .function (← finish start) id params body

/-- What a label stands in front of, by the first token after it. -/
def targetAt : TokenKind → Option JumpTarget
  | .keyword .for | .keyword .while | .keyword .do => some .loop
  | .keyword .switch => some .switch
  | _ => none

/-- The statement after a label, when `stacked` labels stand directly in front of that label. -/
def labeledStatement (inner : Readers) (stacked start : Nat) (label : Identifier Span) :
    Parse (Stmt Span) := do
  let c ← read
  if c.checkLabels && c.scope.declares label.name then fault (.duplicateLabel label.name) start
  let target := targetAt (← kind)
  let body ← inScope (Scope.label stacked label.name target) inner.statement
  return .labeled (← finish start) label body

def expressionStatement (inner : Readers) (stacked start : Nat) : Parse (Stmt Span) := do
  let e ← commaExpression inner false
  match e, ← kind with
  | .identifier label, .colon =>
    advance false
    labeledStatement inner stacked start label
  | e, _ =>
    endStatement
    return .expression (← finish start) e

/-- The statement that a keyword begins. -/
def keywordStatement (inner : Readers) (start : Nat) : Keyword → Parse (Stmt Span)
  | .if => ifStatement inner start
  | .debugger => debuggerStatement start
  | .with => withStatement inner start
  | .return => returnStatement inner start
  | .throw => throwStatement inner start
  | .break => jumpStatement .break start
  | .continue => jumpStatement .continue start
  | .switch => switchStatement inner start
  | .try => tryStatement inner start
  | .while => whileStatement inner start
  | .do => doWhileStatement inner start
  | .var => .declaration <$> declaration inner false
  | .for => forStatement inner start
  | .function => functionStatement inner start
  | other => fault (.unknownKeyword other) start

def statement (inner : Readers) : Parse (Stmt Span) := do
  let stacked := (← read).scope.stacked
  inScope Scope.settle do
    let start ← here
    match ← kind with
    | .keyword word => keywordStatement inner start word
    | .semicolon =>
      advance false
      return .empty (← finish start)
    | .leftBrace => .block <$> block inner
    | _ => expressionStatement inner stacked start

end ScriptTree.Parser
