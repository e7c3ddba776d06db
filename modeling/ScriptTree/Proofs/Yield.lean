import ScriptTree.Proofs.StatementForms

/-! # The tree keeps every token that speaks

The yield of a tree is what it says, read in order: names, literals, `this` and operators. Keywords
and punctuation only shape the tree. Every production reads its parts in the order of the yield, so
what a reader has taken is what its tree says. -/
namespace ScriptTree

/-- Whether the token stands in the tree and not only behind its shape. -/
def TokenKind.speaks : TokenKind → Bool
  | .keyword _ | .leftParen | .rightParen | .leftBrace | .rightBrace | .leftBracket
  | .rightBracket | .semicolon | .comma | .colon | .endOfInput => false
  | _ => true

/-- The token that a literal is read from. -/
def LiteralValue.token : LiteralValue → TokenKind
  | .number x => .number x
  | .string s => .string s
  | .boolean b => .boolean b
  | .null => .null
  | .undefined => .undefined
  | .regex pattern flags => .regex pattern flags

def Identifier.yield (i : Identifier α) : List TokenKind := [.identifier i.name]

def Literal.yield (l : Literal α) : List TokenKind := [l.value.token]

def PropertyKey.yield : PropertyKey α → List TokenKind
  | .literal l => l.yield
  | .identifier i => i.yield

def Identifier.yieldOption : Option (Identifier α) → List TokenKind
  | none => []
  | some i => i.yield

mutual
def Expr.yield : Expr α → List TokenKind
  | .identifier i => i.yield
  | .literal l => l.yield
  | .this _ => [.this]
  | .array _ es | .sequence _ es => Expr.yieldList es
  | .object _ ps => Property.yieldList ps
  | .function _ id params body =>
    Identifier.yieldOption id ++ params.flatMap (·.yield) ++ body.yield
  | .unary _ op e | .update _ op e true => .operator op :: e.yield
  | .update _ op e false => e.yield ++ [.operator op]
  | .binary _ op l r | .logical _ op l r | .assignment _ op l r =>
    l.yield ++ .operator op :: r.yield
  | .conditional _ t x y => t.yield ++ .operator .question :: x.yield ++ y.yield
  | .member _ o p true => o.yield ++ .operator .dot :: p.yield
  | .member _ o p false => o.yield ++ p.yield
  | .call _ f es => f.yield ++ Expr.yieldList es
  | .new _ f es => .operator .new :: f.yield ++ Expr.yieldList es
def Expr.yieldList : List (Expr α) → List TokenKind
  | [] => []
  | e :: es => e.yield ++ Expr.yieldList es
def Expr.yieldOption : Option (Expr α) → List TokenKind
  | none => []
  | some e => e.yield
def Property.yield : Property α → List TokenKind
  | .mk _ key value => key.yield ++ value.yield
def Property.yieldList : List (Property α) → List TokenKind
  | [] => []
  | p :: ps => p.yield ++ Property.yieldList ps
def Block.yield : Block α → List TokenKind
  | .mk _ body => Stmt.yieldList body
def Block.yieldOption : Option (Block α) → List TokenKind
  | none => []
  | some b => b.yield
def Declarator.yield : Declarator α → List TokenKind
  | .mk _ id none => id.yield
  | .mk _ id (some e) => id.yield ++ .operator .assign :: e.yield
def Declarator.yieldList : List (Declarator α) → List TokenKind
  | [] => []
  | d :: ds => d.yield ++ Declarator.yieldList ds
def Declaration.yield : Declaration α → List TokenKind
  | .mk _ ds => Declarator.yieldList ds
def SwitchCase.yield : SwitchCase α → List TokenKind
  | .mk _ test body => Expr.yieldOption test ++ Stmt.yieldList body
def SwitchCase.yieldList : List (SwitchCase α) → List TokenKind
  | [] => []
  | c :: cs => c.yield ++ SwitchCase.yieldList cs
def CatchClause.yield : CatchClause α → List TokenKind
  | .mk _ param body => param.yield ++ body.yield
def CatchClause.yieldOption : Option (CatchClause α) → List TokenKind
  | none => []
  | some c => c.yield
def ForInit.yield : ForInit α → List TokenKind
  | .declaration d => d.yield
  | .expression e => e.yield
def ForInit.yieldOption : Option (ForInit α) → List TokenKind
  | none => []
  | some i => i.yield
def ForTarget.yield : ForTarget α → List TokenKind
  | .declaration d => d.yield
  | .identifier i => i.yield
def Stmt.yield : Stmt α → List TokenKind
  | .empty _ | .debugger _ => []
  | .block b => b.yield
  | .expression _ e | .throw _ e => e.yield
  | .declaration d => d.yield
  | .if _ t x y => t.yield ++ x.yield ++ Stmt.yieldOption y
  | .with _ e b | .while _ e b => e.yield ++ b.yield
  | .return _ e => Expr.yieldOption e
  | .break _ l | .continue _ l => Identifier.yieldOption l
  | .switch _ e cs => e.yield ++ SwitchCase.yieldList cs
  | .try _ b h f => b.yield ++ CatchClause.yieldOption h ++ Block.yieldOption f
  | .doWhile _ b e => b.yield ++ e.yield
  | .for _ i t u b =>
    ForInit.yieldOption i ++ Expr.yieldOption t ++ Expr.yieldOption u ++ b.yield
  | .forIn _ t e b => t.yield ++ .operator .in :: e.yield ++ b.yield
  | .function _ id params body => id.yield ++ params.flatMap (·.yield) ++ body.yield
  | .labeled _ l b => l.yield ++ b.yield
def Stmt.yieldOption : Option (Stmt α) → List TokenKind
  | none => []
  | some s => s.yield
def Stmt.yieldList : List (Stmt α) → List TokenKind
  | [] => []
  | s :: ss => s.yield ++ Stmt.yieldList ss
end

theorem Expr.yieldList_eq (es : List (Expr α)) : Expr.yieldList es = es.flatMap Expr.yield := by
  induction es with
  | nil => rfl
  | cons e es ih => simp [Expr.yieldList, ih]

theorem Property.yieldList_eq (ps : List (Property α)) :
    Property.yieldList ps = ps.flatMap Property.yield := by
  induction ps with
  | nil => rfl
  | cons p ps ih => simp [Property.yieldList, ih]

theorem Declarator.yieldList_eq (ds : List (Declarator α)) :
    Declarator.yieldList ds = ds.flatMap Declarator.yield := by
  induction ds with
  | nil => rfl
  | cons d ds ih => simp [Declarator.yieldList, ih]

theorem Stmt.yieldList_eq (ss : List (Stmt α)) : Stmt.yieldList ss = ss.flatMap Stmt.yield := by
  induction ss with
  | nil => rfl
  | cons s ss ih => simp [Stmt.yieldList, ih]

/-- What a script says, in order. -/
def Program.yield (p : Program α) : List TokenKind := Stmt.yieldList p.body

@[simp] theorem Identifier.yield_map (f : α → β) (i : Identifier α) : (i.map f).yield = i.yield := rfl

@[simp] theorem Literal.yield_map (f : α → β) (l : Literal α) : (l.map f).yield = l.yield := rfl

@[simp] theorem PropertyKey.yield_map (f : α → β) (k : PropertyKey α) :
    (k.map f).yield = k.yield := by
  cases k <;> rfl

@[simp] theorem Identifier.yieldOption_map (f : α → β) (i : Option (Identifier α)) :
    Identifier.yieldOption (i.map (·.map f)) = Identifier.yieldOption i := by
  cases i <;> rfl

@[simp] theorem Identifier.flatMap_yield_mapList (f : α → β) (is : List (Identifier α)) :
    (Identifier.mapList f is).flatMap (·.yield) = is.flatMap (·.yield) := by
  simp [Identifier.mapList, List.flatMap_map]

mutual
theorem Expr.yield_map (f : α → β) : ∀ e : Expr α, (e.map f).yield = e.yield
  | .identifier _ | .literal _ | .this _ => rfl
  | .array _ es | .sequence _ es => Expr.yieldList_map f es
  | .object _ ps => Property.yieldList_map f ps
  | .function _ id params body => by simp [Expr.map, Expr.yield, Block.yield_map f body]
  | .unary _ op e | .update _ op e true | .update _ op e false => by
    simp [Expr.map, Expr.yield, Expr.yield_map f e]
  | .binary _ op l r | .logical _ op l r | .assignment _ op l r
  | .member _ l r true | .member _ l r false => by
    simp [Expr.map, Expr.yield, Expr.yield_map f l, Expr.yield_map f r]
  | .conditional _ t x y => by
    simp [Expr.map, Expr.yield, Expr.yield_map f t, Expr.yield_map f x, Expr.yield_map f y]
  | .call _ g es | .new _ g es => by
    simp [Expr.map, Expr.yield, Expr.yield_map f g, Expr.yieldList_map f es]
theorem Expr.yieldList_map (f : α → β) : ∀ es : List (Expr α),
    Expr.yieldList (Expr.mapList f es) = Expr.yieldList es
  | [] => rfl
  | e :: es => by simp [Expr.mapList, Expr.yieldList, Expr.yield_map f e, Expr.yieldList_map f es]
theorem Property.yieldList_map (f : α → β) : ∀ ps : List (Property α),
    Property.yieldList (Property.mapList f ps) = Property.yieldList ps
  | [] => rfl
  | .mk _ k v :: ps => by
    simp [Property.mapList, Property.map, Property.yieldList, Property.yield, Expr.yield_map f v,
      Property.yieldList_map f ps]
theorem Block.yield_map (f : α → β) : ∀ b : Block α, (b.map f).yield = b.yield
  | .mk _ ss => Stmt.yieldList_map f ss
theorem Stmt.yieldList_map (f : α → β) : ∀ ss : List (Stmt α),
    Stmt.yieldList (Stmt.mapList f ss) = Stmt.yieldList ss
  | [] => rfl
  | s :: ss => by simp [Stmt.mapList, Stmt.yieldList, Stmt.yield_map f s, Stmt.yieldList_map f ss]
theorem Stmt.yield_map (f : α → β) : ∀ s : Stmt α, (s.map f).yield = s.yield
  | .empty _ | .debugger _ => rfl
  | .block b => Block.yield_map f b
  | .expression _ e | .throw _ e => Expr.yield_map f e
  | .declaration d => Declaration.yield_map f d
  | .if _ t x y => by
    simp [Stmt.map, Stmt.yield, Expr.yield_map f t, Stmt.yield_map f x, Stmt.yieldOption_map f y]
  | .with _ e b | .while _ e b | .doWhile _ b e => by
    simp [Stmt.map, Stmt.yield, Expr.yield_map f e, Stmt.yield_map f b]
  | .return _ e => Expr.yieldOption_map f e
  | .break _ l | .continue _ l => by simp [Stmt.map, Stmt.yield]
  | .switch _ e cs => by
    simp [Stmt.map, Stmt.yield, Expr.yield_map f e, SwitchCase.yieldList_map f cs]
  | .try _ b h e => by
    simp [Stmt.map, Stmt.yield, Block.yield_map f b, CatchClause.yieldOption_map f h,
      Block.yieldOption_map f e]
  | .for _ i t u b => by
    simp [Stmt.map, Stmt.yield, ForInit.yieldOption_map f i, Expr.yieldOption_map f t,
      Expr.yieldOption_map f u, Stmt.yield_map f b]
  | .forIn _ t e b => by
    simp [Stmt.map, Stmt.yield, ForTarget.yield_map f t, Expr.yield_map f e, Stmt.yield_map f b]
  | .function _ id params body => by simp [Stmt.map, Stmt.yield, Block.yield_map f body]
  | .labeled _ l b => by simp [Stmt.map, Stmt.yield, Stmt.yield_map f b]
theorem Expr.yieldOption_map (f : α → β) : ∀ e : Option (Expr α),
    Expr.yieldOption (Expr.mapOption f e) = Expr.yieldOption e
  | none => rfl
  | some e => Expr.yield_map f e
theorem Stmt.yieldOption_map (f : α → β) : ∀ s : Option (Stmt α),
    Stmt.yieldOption (Stmt.mapOption f s) = Stmt.yieldOption s
  | none => rfl
  | some s => Stmt.yield_map f s
theorem Block.yieldOption_map (f : α → β) : ∀ b : Option (Block α),
    Block.yieldOption (Block.mapOption f b) = Block.yieldOption b
  | none => rfl
  | some b => Block.yield_map f b
theorem Declaration.yield_map (f : α → β) : ∀ d : Declaration α, (d.map f).yield = d.yield
  | .mk _ ds => Declarator.yieldList_map f ds
theorem Declarator.yieldList_map (f : α → β) : ∀ ds : List (Declarator α),
    Declarator.yieldList (Declarator.mapList f ds) = Declarator.yieldList ds
  | [] => rfl
  | .mk _ id none :: ds => by
    simp [Declarator.mapList, Declarator.map, Declarator.yieldList, Declarator.yield,
      Expr.mapOption, Declarator.yieldList_map f ds]
  | .mk _ id (some e) :: ds => by
    simp [Declarator.mapList, Declarator.map, Declarator.yieldList, Declarator.yield,
      Expr.mapOption, Expr.yield_map f e, Declarator.yieldList_map f ds]
theorem SwitchCase.yieldList_map (f : α → β) : ∀ cs : List (SwitchCase α),
    SwitchCase.yieldList (SwitchCase.mapList f cs) = SwitchCase.yieldList cs
  | [] => rfl
  | .mk _ test body :: cs => by
    simp [SwitchCase.mapList, SwitchCase.map, SwitchCase.yieldList, SwitchCase.yield,
      Expr.yieldOption_map f test, Stmt.yieldList_map f body, SwitchCase.yieldList_map f cs]
theorem CatchClause.yieldOption_map (f : α → β) : ∀ c : Option (CatchClause α),
    CatchClause.yieldOption (CatchClause.mapOption f c) = CatchClause.yieldOption c
  | none => rfl
  | some (.mk _ param body) => by
    simp [CatchClause.mapOption, CatchClause.map, CatchClause.yieldOption, CatchClause.yield,
      Block.yield_map f body]
theorem ForInit.yieldOption_map (f : α → β) : ∀ i : Option (ForInit α),
    ForInit.yieldOption (ForInit.mapOption f i) = ForInit.yieldOption i
  | none => rfl
  | some (.declaration d) => Declaration.yield_map f d
  | some (.expression e) => Expr.yield_map f e
theorem ForTarget.yield_map (f : α → β) : ∀ t : ForTarget α, (t.map f).yield = t.yield
  | .declaration d => Declaration.yield_map f d
  | .identifier _ => rfl
end

/-- The notes of a tree say nothing. -/
theorem Program.yield_map (f : α → β) (p : Program α) : (p.map f).yield = p.yield :=
  Stmt.yieldList_map f p.body

namespace Parser

/-- What the tokens before the current one say. -/
def State.said (s : State) : List TokenKind :=
  (s.earlier.reverse.map (·.kind)).filter (·.speaks)

theorem Moves.said {flag s t} (h : Moves flag s t) :
    t.said = s.said ++ [s.current.kind].filter (·.speaks) := by
  simp only [State.said, h.earlier, List.reverse_cons, List.map_append, List.map_cons,
    List.map_nil, List.filter_append]

theorem Ends.said {s t} (h : Ends s t) : t.said = s.said := by
  cases h with
  | before _ => rfl
  | semicolon hk hm => rw [hm.said, hk]; simp [TokenKind.speaks]
  | line _ _ => rfl

/-- A token that says nothing moves the reader on and leaves what was said. -/
theorem Moves.silent {flag s t k} (h : Moves flag s t) (hk : s.current.kind = k)
    (hs : k.speaks = false) : t.said = s.said := by
  rw [h.said, hk]
  simp [hs]

theorem Moves.spoken {flag s t k} (h : Moves flag s t) (hk : s.current.kind = k)
    (hs : k.speaks = true) : t.said = s.said ++ [k] := by
  rw [h.said, hk]
  simp [hs]

/-- A part says what is put down for it. -/
def Says (item : State → α → State → Prop) (f : α → List TokenKind) : Prop :=
  ∀ ⦃s x t⦄, item s x t → t.said = s.said ++ f x

variable {item : State → α → State → Prop} {f : α → List TokenKind}

theorem Items.said {isLast} (hf : Says item f) : Says (Items isLast item) (List.flatMap f) := by
  intro s xs t h
  induction h with
  | done _ => simp
  | more _ hx _ ih => rw [ih, hf hx]; simp

theorem AfterCommas.said (hf : Says item f) : Says (AfterCommas item) (List.flatMap f) := by
  intro s xs t h
  induction h with
  | done _ => simp
  | more hk hm hx _ ih => rw [ih, hf hx, hm.silent hk rfl]; simp

theorem ClosedList.said {last} (hl : last.speaks = false) (hf : Says item f) :
    Says (ClosedList last item) (List.flatMap f) := by
  intro s xs t h
  cases h with
  | empty hk hm => rw [hm.silent hk hl]; simp
  | filled _ hx hxs hk hm => rw [hm.silent hk hl, AfterCommas.said hf hxs, hf hx]; simp

theorem separated_said {p : Parse α} {c} (hf : Says (Returns p c) f) :
    Says (Returns (separated p) c) (List.flatMap f) := by
  intro s xs t h
  obtain ⟨x, u, ys, rfl, hx, hys, -⟩ := returns_separated.1 h
  rw [AfterCommas.said hf hys, hf hx]
  simp

theorem closedList_said {p : Parse α} {c last} (hl : last.speaks = false)
    (hf : Says (Returns p c) f) : Says (Returns (closedList last p) c) (List.flatMap f) :=
  fun _ _ _ h => ClosedList.said hl hf (returns_closedList.1 h).1

theorem identifier_said {c} : Says (Returns identifier c) Identifier.yield := by
  intro s i t h
  obtain ⟨name, hk, hm, rfl⟩ := returns_identifier.1 h
  exact hm.spoken hk rfl

theorem literalValue?_token {k v} (h : literalValue? k = some v) :
    v.token = k ∧ k.speaks = true := by
  cases k <;> cases h <;> exact ⟨rfl, rfl⟩

theorem literal_said {c} : Says (Returns literal c) Literal.yield := by
  intro s l t h
  obtain ⟨v, hv, hm, rfl⟩ := returns_literal.1 h
  obtain ⟨hk, hs⟩ := literalValue?_token hv
  rw [hm.spoken rfl hs, Literal.yield, hk]

theorem propertyKey_said {c} : Says (Returns propertyKey c) PropertyKey.yield := by
  intro s key t h
  rcases returns_propertyKey.1 h with ⟨i, hi, rfl⟩ | ⟨l, hl, rfl⟩
  · exact identifier_said hi
  · exact literal_said hl

theorem parameters_said {c} :
    Says (Returns parameters c) (List.flatMap Identifier.yield) := by
  intro s ids t h
  obtain ⟨s₁, hk, hm, hl, -⟩ := returns_parameters.1 h
  rw [ClosedList.said rfl identifier_said hl, hm.silent hk rfl]

/-- What the trees of some readers say is what the readers have taken. -/
structure Faithful (R : Readers) : Prop where
  statement {c} : Says (Returns R.statement c) Stmt.yield
  expression {floor forHead c} : Says (Returns (R.expression floor forHead) c) Expr.yield

section
variable {R : Readers} (hR : Faithful R) {c : Context}
include hR

theorem block_said : Says (Returns (block R) c) Block.yield := by
  intro s b t h
  obtain ⟨s₁, body, s₂, hk, hm, hb, -, hm', rfl⟩ := returns_block.1 h
  have hl : s₂.current.kind = .rightBrace := by simpa using hb.last
  rw [hm'.silent hl rfl, Items.said hR.statement hb, hm.silent hk rfl, Block.yield,
    Stmt.yieldList_eq]

theorem commaForm_said {forHead} : Says (CommaForm R c forHead) Expr.yield := by
  intro s e t h
  cases h with
  | single he _ _ => exact hR.expression he
  | joined he hes _ =>
    rw [AfterCommas.said hR.expression hes, hR.expression he, Expr.yield, Expr.yieldList_eq]
    simp

theorem property_said : Says (Returns (property R) c) Property.yield := by
  intro s p t h
  obtain ⟨key, s₁, s₂, value, hkey, hk, hm, hv, rfl⟩ := returns_property.1 h
  rw [hR.expression hv, hm.silent hk rfl, propertyKey_said hkey, Property.yield]
  simp

theorem operand_said : Says (OperandForm R c) Expr.yield := by
  intro s e t h
  cases h with
  | group hk hm hes hl hm' =>
    rw [hm'.silent hl rfl, separated_said hR.expression hes, hm.silent hk rfl, Expr.yield,
      Expr.yieldList_eq]
  | array hk hm hes =>
    rw [closedList_said rfl hR.expression hes, hm.silent hk rfl, Expr.yield, Expr.yieldList_eq]
  | newCall hk hm he =>
    rw [hR.expression he, hm.spoken hk rfl, Expr.yield, Expr.yield]
    simp
  | newPlain hk hm he _ =>
    rw [hR.expression he, hm.spoken hk rfl, Expr.yield]
    simp [Expr.yieldList]
  | unary hk _ _ hm he =>
    rw [hR.expression he, hm.spoken hk rfl, Expr.yield]
    simp
  | update hk _ hm he _ =>
    rw [hR.expression he, hm.spoken hk rfl, Expr.yield]
    simp
  | literal hl => exact literal_said hl
  | identifier hi => exact identifier_said hi
  | this hk hm => exact hm.spoken hk rfl
  | function hk hm hid hp hb =>
    rw [block_said hR hb, parameters_said hp, Expr.yield]
    rcases hid with ⟨rfl, rfl, -⟩ | ⟨i, rfl, hi⟩
    · rw [hm.silent hk rfl]
      simp [Identifier.yieldOption]
    · rw [identifier_said hi, hm.silent hk rfl]
      simp [Identifier.yieldOption]
  | object hk hm hps =>
    rw [closedList_said rfl (property_said hR) hps, hm.silent hk rfl, Expr.yield,
      Property.yieldList_eq]

/-- One step after an operand says the rest of the new node. -/
theorem extendForm_said {start forHead left q s e t} (h : ExtendForm R c start forHead left q s e t)
    {before : List TokenKind} (hs : s.said = before ++ left.yield) :
    t.said = before ++ e.yield := by
  cases h with
  | call hk hm ha =>
    rw [closedList_said rfl hR.expression ha, hm.silent hk rfl, hs, Expr.yield, Expr.yieldList_eq]
    simp
  | index hk hm hp hl hm' =>
    rw [hm'.silent hl rfl, commaForm_said hR hp, hm.silent hk rfl, hs, Expr.yield]
    simp
  | binary hk _ hm hr =>
    rw [hR.expression hr, hm.spoken hk rfl, hs, Expr.yield]
    simp
  | assignment hk _ _ hm hr =>
    rw [hR.expression hr, hm.spoken hk rfl, hs, Expr.yield]
    simp
  | logical hk _ hm hr =>
    rw [hR.expression hr, hm.spoken hk rfl, hs, Expr.yield]
    simp
  | dot hk hm hp =>
    rw [hR.expression hp, hm.spoken hk rfl, hs, Expr.yield]
    simp
  | conditional hk hm hx hc hm' hy =>
    rw [hR.expression hy, hm'.silent hc rfl, hR.expression hx, hm.spoken hk rfl, hs, Expr.yield]
    simp
  | update hk _ _ hm =>
    rw [hm.spoken hk rfl, hs, Expr.yield]
    simp

theorem extended_said {start floor forHead n left s e t}
    (h : Extended R c start floor forHead n left s e t) {before : List TokenKind}
    (hs : s.said = before ++ left.yield) : t.said = before ++ e.yield := by
  induction h with
  | stop _ => exact hs
  | more _ he _ ih => exact ih (extendForm_said hR he hs)

theorem expression_said {floor forHead} :
    Says (Returns (expression R floor forHead) c) Expr.yield := by
  intro s e t h
  obtain ⟨first, u, n, ho, hx, -⟩ := returns_expression.1 h
  exact extended_said hR hx (operand_said hR ho)

theorem condition_said : Says (Returns (condition R) c) Expr.yield := by
  intro s e t h
  obtain ⟨s₁, s₂, hk, hm, he, hl, hm'⟩ := returns_condition.1 h
  rw [hm'.silent hl rfl, commaForm_said hR he, hm.silent hk rfl]

theorem loopBody_said : Says (Returns (loopBody R) c) Stmt.yield :=
  fun _ _ _ h => hR.statement (returns_inScope.1 h)

theorem commaExpression_said {forHead} :
    Says (Returns (commaExpression R forHead) c) Expr.yield :=
  fun _ _ _ h => commaForm_said hR (returns_commaExpression.1 h)

theorem declarator_said {forHead} : Says (Returns (declarator R forHead) c) Declarator.yield := by
  intro s d t h
  obtain ⟨id, s₁, init, hi, ha, rfl⟩ := returns_declarator.1 h
  cases ha with
  | absent _ => rw [identifier_said hi, Declarator.yield]
  | present hk hm he =>
    rw [hR.expression he, hm.spoken hk rfl, identifier_said hi, Declarator.yield]
    simp

theorem declaration_said {forHead s d t} (h : Returns (declaration R forHead) c s d t)
    (hk : s.current.kind = .keyword .var) : t.said = s.said ++ d.yield := by
  obtain ⟨s₁, ds, s₂, hm, hds, hend, rfl⟩ := returns_declaration.1 h
  have he : t.said = s₂.said := by
    rcases hend with ⟨_, rfl⟩ | ⟨_, he⟩
    · rfl
    · exact he.said
  rw [he, separated_said (declarator_said hR) hds, hm.silent hk rfl, Declaration.yield,
    Declarator.yieldList_eq]

theorem switchCase_said : Says (Returns (switchCase R) c) SwitchCase.yield := by
  intro s x t h
  obtain ⟨test, s₁, s₂, body, hh, hc, hm, hb, -, rfl⟩ := returns_switchCase.1 h
  rw [Items.said hR.statement hb, hm.silent hc rfl, SwitchCase.yield, Stmt.yieldList_eq]
  cases hh with
  | case hk hm' he =>
    rw [commaForm_said hR he, hm'.silent hk rfl]
    simp [Expr.yieldOption]
  | default hk hm' =>
    rw [hm'.silent hk rfl]
    simp [Expr.yieldOption]

theorem cases_said {b} : Says (Cases R c b) SwitchCase.yieldList := by
  intro s xs t h
  induction h with
  | done _ => simp [SwitchCase.yieldList]
  | more _ hx _ _ ih => rw [ih, switchCase_said hR hx]; simp [SwitchCase.yieldList]

theorem handlerForm_said : Says (HandlerForm R c) CatchClause.yieldOption := by
  intro s x t h
  cases h with
  | present hk hx =>
    obtain ⟨s₁, s₂, param, s₃, s₄, body, hm, hl, hm₁, hp, hr, hm₂, hb, rfl⟩ := returns_catchClause.1 hx
    rw [block_said hR hb, hm₂.silent hr rfl, identifier_said hp, hm₁.silent hl rfl,
      hm.silent hk rfl, CatchClause.yieldOption, CatchClause.yield]
    simp
  | absent _ => simp [CatchClause.yieldOption]

theorem Unless.said {k} : Says (Unless k (commaExpression R false) c) Expr.yieldOption := by
  intro s x t h
  cases h with
  | absent _ => simp [Expr.yieldOption]
  | present _ he => rw [commaExpression_said hR he, Expr.yieldOption]

theorem forTail_said {s test update body t} (h : ForTail R c s test update body t) :
    t.said = s.said ++ Expr.yieldOption test ++ Expr.yieldOption update ++ body.yield := by
  obtain ⟨hk, hm, ht, hk', hm', hu, hl, hm'', hb⟩ := h
  rw [loopBody_said hR hb, hm''.silent hl rfl, Unless.said hR hu, hm'.silent hk' rfl,
    Unless.said hR ht, hm.silent hk rfl]

theorem forInTail_said {s object body t} (h : ForInTail R c s object body t) :
    t.said = s.said ++ .operator .in :: object.yield ++ body.yield := by
  obtain ⟨hk, hm, ho, hl, hm', hb⟩ := h
  rw [loopBody_said hR hb, hm'.silent hl rfl, commaForm_said hR ho, hm.spoken hk rfl]
  simp

theorem forForm_said {start} : Says (ForForm R c start) Stmt.yield := by
  intro s x t h
  cases h with
  | counted hk hd ht =>
    rw [forTail_said hR ht, declaration_said hR hd hk, Stmt.yield]
    simp [ForInit.yieldOption, ForInit.yield]
  | bound hk hd _ ht =>
    rw [forInTail_said hR ht, declaration_said hR hd hk, Stmt.yield]
    simp [ForTarget.yield]
  | bare ht =>
    rw [forTail_said hR ht, Stmt.yield]
    simp [ForInit.yieldOption]
  | named _ _ he ht =>
    rw [forInTail_said hR ht, commaForm_said hR he, Stmt.yield, Expr.yield]
    simp [ForTarget.yield]
  | started _ _ he ht =>
    rw [forTail_said hR ht, commaForm_said hR he, Stmt.yield]
    simp [ForInit.yieldOption, ForInit.yield]

theorem statementForm_said {stacked} : Says (StatementForm R c stacked) Stmt.yield := by
  intro s x t h
  cases h with
  | empty hk hm => rw [hm.silent hk rfl]; simp [Stmt.yield]
  | block _ hb => rw [block_said hR hb, Stmt.yield]
  | expression _ he _ hend => rw [hend.said, commaForm_said hR he, Stmt.yield]
  | labeled _ he hc hm _ hb =>
    rw [hR.statement hb, hm.silent hc rfl, commaForm_said hR he, Stmt.yield, Expr.yield]
    simp
  | «if» hk hm hc hx hy =>
    have hs := (hR.statement hx).trans (congrArg (· ++ _) ((condition_said hR hc).trans
      (congrArg (· ++ _) (hm.silent hk rfl))))
    cases hy with
    | absent _ => simpa [Stmt.yield, Stmt.yieldOption] using hs
    | present hk' hm' hz =>
      rw [hR.statement hz, hm'.silent hk' rfl, hs]
      simp [Stmt.yield, Stmt.yieldOption]
  | debugger hk hm hend => rw [hend.said, hm.silent hk rfl]; simp [Stmt.yield]
  | «with» hk hm he hb =>
    rw [hR.statement hb, condition_said hR he, hm.silent hk rfl, Stmt.yield]
    simp
  | «return» hk hm he =>
    cases he with
    | absent hend => rw [hend.said, hm.silent hk rfl]; simp [Stmt.yield, Expr.yieldOption]
    | present _ _ he hend =>
      rw [hend.said, commaExpression_said hR he, hm.silent hk rfl, Stmt.yield, Expr.yieldOption]
  | throw hk hm he =>
    cases he with
    | present _ _ he hend =>
      rw [hend.said, commaExpression_said hR he, hm.silent hk rfl, Stmt.yield]
  | @jump j _ label _ hk hm hl _ =>
    have hy : (jumpNode (t.since s.current.span.start) label j).yield
        = Identifier.yieldOption label := by cases j <;> rfl
    rw [hy]
    cases hl with
    | absent hend => rw [hend.said, hm.silent hk rfl]; simp [Identifier.yieldOption]
    | present _ _ hi hend =>
      rw [hend.said, identifier_said hi, hm.silent hk rfl, Identifier.yieldOption]
  | switch hk hm he hl hm' hc _ hm'' =>
    rw [hm''.silent hc.last rfl, cases_said hR hc, hm'.silent hl rfl, condition_said hR he,
      hm.silent hk rfl, Stmt.yield]
    simp
  | «try» hk hm hb hh hf =>
    have hs : _ = _ ++ _ := (handlerForm_said hR hh).trans (congrArg (· ++ _)
      ((block_said hR hb).trans (congrArg (· ++ _) (hm.silent hk rfl))))
    cases hf with
    | absent _ => simpa [Stmt.yield, Block.yieldOption] using hs
    | present hk' hm' hf =>
      rw [block_said hR hf, hm'.silent hk' rfl, hs]
      simp [Stmt.yield, Block.yieldOption]
  | «while» hk hm he hb =>
    rw [loopBody_said hR hb, condition_said hR he, hm.silent hk rfl, Stmt.yield]
    simp
  | doWhile hk hm hb hw hm' he =>
    rw [condition_said hR he, hm'.silent hw rfl, loopBody_said hR hb, hm.silent hk rfl, Stmt.yield]
    simp
  | declaration hk hd => rw [declaration_said hR hd hk, Stmt.yield]
  | «for» hk hm hl hm' hf => rw [forForm_said hR hf, hm'.silent hl rfl, hm.silent hk rfl]
  | function hk hm hi hp hb =>
    rw [block_said hR hb, parameters_said hp, identifier_said hi, hm.silent hk rfl, Stmt.yield]
    simp

theorem statement_said : Says (Returns (statement R) c) Stmt.yield :=
  fun _ _ _ h => statementForm_said hR (returns_statement.1 h)

end

/-- The readers of every level are faithful, because each level only combines the one below. -/
theorem readers_faithful (n : Nat) : Faithful (readers n) := by
  induction n with
  | zero =>
    constructor
    · intro c s x t h
      exact absurd h returns_tooDeep
    · intro floor forHead c s e t h
      exact absurd h returns_tooDeep
  | succ n ih =>
    constructor
    · intro c
      exact statement_said ih
    · intro floor forHead c
      exact expression_said ih

theorem program_said {n c s p t} (h : Returns (program (readers n)) c s p t) :
    t.said = s.said ++ p.yield ∧ t.current.kind = .endOfInput := by
  obtain ⟨body, hb, -, rfl⟩ := returns_program.1 h
  refine ⟨?_, by simpa using hb.last⟩
  rw [Items.said (readers_faithful n).statement hb, Program.yield, Stmt.yieldList_eq]

/-- The kinds of the tokens that a finished script was read from, without those that only shape
it, are the yield of its tree. -/
theorem run_yield {c : Context} {source : List Char} {p : Program Span}
    (h : (run c source).result = .ok p) :
    ((run c source).tokens.map (·.kind)).filter (·.speaks) = p.yield := by
  obtain ⟨s, t, hb, hp⟩ := run_eq_ok.1 h
  obtain ⟨hy, hk⟩ := program_said hp
  have hs : s.said = [] := by simp [State.said, hb.1]
  rw [hs, List.nil_append] at hy
  rw [run_tokens hb hp, State.tokens, ← hy, State.said]
  simp [hk, TokenKind.speaks]

end Parser

/-- No token is lost, doubled or moved: the tree of a script says, in order, what the tokens say
that it was read from. -/
theorem parse_yield_eq_tokens {source : String} {maxDepth : Nat} {p : Program Location}
    (h : parse source maxDepth = .ok p) :
    p.yield = ((Parser.run (Parser.Context.ofText source.toList maxDepth)
      source.toList).tokens.map (·.kind)).filter (·.speaks) := by
  obtain ⟨q, hq, rfl⟩ := parse_eq_ok.1 h
  rw [Program.locate, Program.yield_map, Parser.run_yield hq]

/-- A script with a label, an operator and a call that `new` takes apart. -/
theorem parse_yield_eq_tokens_construction : ∃ p, parse "l: x = new y(z)" 9 = .ok p ∧
    p.yield = ((Parser.run (Parser.Context.ofText "l: x = new y(z)".toList 9)
      "l: x = new y(z)".toList).tokens.map (·.kind)).filter (·.speaks) := by
  have hok : (parse "l: x = new y(z)" 9).isOk = true := by decide +kernel
  obtain ⟨p, hp⟩ := exists_parse_of_isOk hok
  exact ⟨p, hp, parse_yield_eq_tokens hp⟩

end ScriptTree
