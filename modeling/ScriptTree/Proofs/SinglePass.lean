import ScriptTree.Proofs.Budget
import ScriptTree.Proofs.Faults

/-! # A script is read in a single pass

A reader asks the lexer for a further token only while the current one is not the end of input. So the
calls that it makes are one run of the lexer over the source, in which every call but the last takes a
byte. What a reader of statements, expressions, properties or cases returns with is a later token, and
so each round of a loop stands further on than the one before; neither the budget of the loops nor a
great limit on nesting has any part in how reading ends. -/
namespace ScriptTree
namespace Parser

/-! ## Never past the end -/

/-- Some tokens further, none of them behind the end of input. -/
inductive Walks (s : State) : State → Prop
  | refl : Walks s s
  | step {flag t u} : Walks s t → t.current.kind ≠ .endOfInput → Moves flag t u → Walks s u

/-- The lexer was asked for one more token and has refused it. -/
def State.Refused (s : State) (f : Fault) : Prop :=
  s.current.kind ≠ .endOfInput ∧ ∃ flag d, Lexer.next flag s.cursor = (.error f, d)

/-- A reader that never asks for a token behind the end of input, and whose faults of the text are the
lexer's. Under the condition `P` the current token is known to be another one. -/
structure Careful (P : Prop) (p : Parse α) : Prop where
  returns {c s a t} : Returns p c s a t → (P → s.current.kind ≠ .endOfInput) → Walks s t
  stops {c s f u} : Stops p c s f u → (P → s.current.kind ≠ .endOfInput) →
    Walks s u ∧ (f.cause.kind = .lexical → u.Refused f)

section
variable {s t u : State} {P : Prop} {p : Parse α}

theorem Walks.trans (h : Walks s t) (h' : Walks t u) : Walks s u := by
  induction h' with
  | refl => exact h
  | step _ hk hm ih => exact ih.step hk hm

theorem Careful.weaken (h : Careful False p) : Careful P p where
  returns hr _ := h.returns hr False.elim
  stops hf _ := h.stops hf False.elim

theorem Careful.bind {q : α → Parse β} (hp : Careful P p) (hq : ∀ a, Careful False (q a)) :
    Careful P (p >>= q) where
  returns h hs := by
    obtain ⟨a, t, ha, hb⟩ := returns_bind.1 h
    exact (hp.returns ha hs).trans ((hq a).returns hb False.elim)
  stops h hs := by
    rcases stops_bind.1 h with hf | ⟨a, t, ha, hf⟩
    · exact hp.stops hf hs
    · obtain ⟨hw, hl⟩ := (hq a).stops hf False.elim
      exact ⟨(hp.returns ha hs).trans hw, hl⟩

/-- Sequencing after a reader that returns at a token which is not the end of input. -/
theorem Careful.bindTo {q : α → Parse β} (hp : Careful P p)
    (hk : ∀ {c s a t}, Returns p c s a t → t.current.kind ≠ .endOfInput)
    (hq : ∀ a, Careful True (q a)) : Careful P (p >>= q) where
  returns h hs := by
    obtain ⟨a, t, ha, hb⟩ := returns_bind.1 h
    exact (hp.returns ha hs).trans ((hq a).returns hb fun _ => hk ha)
  stops h hs := by
    rcases stops_bind.1 h with hf | ⟨a, t, ha, hf⟩
    · exact hp.stops hf hs
    · obtain ⟨hw, hl⟩ := (hq a).stops hf fun _ => hk ha
      exact ⟨(hp.returns ha hs).trans hw, hl⟩

theorem Careful.map {f : α → β} (h : Careful P p) : Careful P (f <$> p) where
  returns hr hs := by
    obtain ⟨a, ha, -⟩ := returns_map.1 hr
    exact h.returns ha hs
  stops hf hs := by
    rw [map_eq_pure_bind] at hf
    rcases stops_bind.1 hf with hf | ⟨a, t, -, hf⟩
    · exact h.stops hf hs
    · exact absurd hf (looks_pure _).not_stops

/-- A reader that does in every state what some such reader does there. -/
theorem Careful.of_pointwise {q : Parse α}
    (h : ∀ c s, ∃ (Q : Prop) (p : Parse α) (d : Context), Careful Q p ∧
      (Q → P ∨ s.current.kind ≠ .endOfInput) ∧ q c s = p d s) : Careful P q where
  returns {c s a t} hr hs := by
    obtain ⟨Q, p, d, hp, hQ, hq⟩ := h c s
    exact hp.returns (hq.symm.trans hr) fun hh => (hQ hh).elim hs id
  stops {c s f u} hf hs := by
    obtain ⟨Q, p, d, hp, hQ, hq⟩ := h c s
    exact hp.stops (hq.symm.trans hf) fun hh => (hQ hh).elim hs id

theorem Careful.inScope {g} (h : Careful P p) : Careful P (inScope g p) :=
  .of_pointwise fun c _ => ⟨P, p, { c with scope := g c.scope }, h, .inl, rfl⟩

theorem Careful.ite {c : Prop} [Decidable c] {q : Parse α} (hp : c → Careful P p)
    (hq : ¬ c → Careful P q) : Careful P (if c then p else q) := by
  split
  · exact hp ‹_›
  · exact hq ‹_›

end

/-! ## Small steps -/

section
variable {P : Prop} {β : Type}

theorem careful_of_looks {p : Parse α} {g : State → α} (h : Looks p g) : Careful P p where
  returns hr _ := by
    obtain ⟨-, rfl⟩ := h.returns.1 hr
    exact .refl
  stops hf _ := absurd hf h.not_stops

theorem Looks.careful {p : Parse α} {g : State → α} (h : Looks p g) {q : α → Parse β}
    (hq : ∀ a, Careful P (q a)) : Careful P (p >>= q) :=
  .of_pointwise fun c s => ⟨P, q (g s), c, hq _, .inl, by rw [bind_apply, h c s]⟩

theorem careful_read {q : Context → Parse α} (hq : ∀ c, Careful P (q c)) : Careful P (read >>= q) :=
  .of_pointwise fun c _ => ⟨P, q c, c, hq c, .inl, rfl⟩

theorem careful_pure {a : α} : Careful P (pure a) := careful_of_looks (looks_pure a)

/-- What follows may be told the kind of the current token. -/
theorem careful_kind {q : TokenKind → Parse α} (hq : ∀ k, Careful (k ≠ .endOfInput) (q k)) :
    Careful P (kind >>= q) :=
  .of_pointwise fun c s => ⟨_, q s.current.kind, c, hq _, .inr, by rw [bind_apply, looks_kind c s]⟩

theorem careful_node {start : Nat} {f : Span → α} :
    Careful P (do return f (← finish start)) := (looks_finish start).careful fun _ => careful_pure

theorem careful_fault {cause offset} (h : cause.kind ≠ .lexical) :
    Careful P (fault cause offset : Parse α) where
  returns hr _ := absurd hr returns_fault
  stops hf _ := by
    obtain ⟨rfl, rfl⟩ := stops_fault.1 hf
    exact ⟨.refl, fun hl => absurd hl h⟩

/-- What would come after a fault is not reached. -/
theorem careful_raise {cause offset} {q : α → Parse β} (h : cause.kind ≠ .lexical) :
    Careful P (fault cause offset >>= q) where
  returns hr _ := by
    obtain ⟨a, t, ha, -⟩ := returns_bind.1 hr
    exact absurd ha returns_fault
  stops hf hs := by
    rcases stops_bind.1 hf with hf | ⟨a, t, ha, -⟩
    · exact (careful_fault h).stops hf hs
    · exact absurd ha returns_fault

theorem careful_faultHere {cause} (h : cause.kind ≠ .lexical) :
    Careful P (faultHere cause : Parse α) := looks_here.careful fun _ => careful_fault h

theorem careful_unexpected : Careful P (unexpected : Parse α) :=
  careful_kind fun _ => careful_faultHere nofun

theorem careful_advance {flag} (hP : P) : Careful P (advance flag) where
  returns hr hs := .step .refl (hs hP) (returns_advance.1 hr)
  stops hf hs := by
    obtain ⟨⟨d, hn⟩, rfl⟩ := stops_advance.1 hf
    exact ⟨.refl, fun _ => ⟨hs hP, flag, d, hn⟩⟩

theorem careful_expect {k} : Careful P (expect k) :=
  careful_kind fun _ => .ite (fun _ => careful_unexpected) fun _ => careful_pure

theorem careful_expect_advance {k flag} (hk : k ≠ .endOfInput) :
    Careful P (do expect k; advance flag) := by
  refine careful_expect.bindTo (fun hr => ?_) fun _ => careful_advance trivial
  obtain ⟨hkind, rfl⟩ := returns_expect.1 hr
  rw [hkind]
  exact hk

theorem careful_eat {k} (hk : k ≠ .endOfInput) : Careful P (eat k) := careful_expect_advance hk

theorem careful_close {k} (hk : k ≠ .endOfInput) : Careful P (close k) := careful_expect_advance hk

theorem careful_atEnd : Careful P atEnd := by
  refine careful_kind fun k => ?_
  split
  · exact careful_pure
  · exact careful_pure
  · exact (careful_advance nofun).bind fun _ => careful_pure
  · exact careful_of_looks looks_afterLineBreak

theorem careful_endStatement : Careful P endStatement :=
  careful_atEnd.bind fun _ => .ite (fun _ => careful_unexpected) fun _ => careful_pure

/-! ## Lists -/

section
variable {item : Parse α} (hi : Careful False item)
include hi

theorem careful_upTo {isLast} : Careful P (upTo isLast item) := by
  refine careful_read fun c => ?_
  generalize c.budget = fuel
  induction fuel generalizing P with
  | zero => exact careful_unexpected
  | succ fuel ih =>
    exact careful_kind fun _ => .ite (fun _ => careful_pure) fun _ =>
      hi.weaken.bind fun _ => ih.bind fun _ => careful_pure

theorem careful_moreItems : Careful P (moreItems item) := by
  refine careful_read fun c => ?_
  generalize c.budget = fuel
  induction fuel generalizing P with
  | zero => exact careful_unexpected
  | succ fuel ih =>
    refine careful_kind fun k => .ite (fun _ => careful_pure) fun hk => ?_
    have hcomma : k = .comma := not_not.1 hk
    exact (careful_advance (by rw [hcomma]; nofun)).bind fun _ => hi.bind fun _ =>
      ih.bind fun _ => careful_pure

theorem careful_separated : Careful P (separated item) :=
  hi.weaken.bind fun _ => (careful_moreItems hi).bind fun _ => careful_pure

theorem careful_closedList {last} (hl : last ≠ .endOfInput) : Careful P (closedList last item) := by
  have rest (xs : List α) : Careful False (do close last; return xs) :=
    (careful_close hl).bind fun _ => careful_pure
  exact careful_kind fun _ => .ite (fun _ => careful_pure.bind rest)
    fun _ => (careful_separated hi).bind rest

end

theorem careful_identifier : Careful P identifier := by
  refine looks_here.careful fun _ => careful_kind fun k => ?_
  split
  · exact (careful_advance nofun).bind fun _ => careful_node
  · exact careful_unexpected

theorem literalValue?_ne_end {k : TokenKind} {v : LiteralValue} (h : literalValue? k = some v) :
    k ≠ .endOfInput := by
  rintro rfl
  cases h

theorem careful_literal : Careful P literal := by
  refine looks_here.careful fun _ => careful_kind fun k => ?_
  split
  · rename_i hv
    exact (careful_advance (literalValue?_ne_end hv)).bind fun _ => careful_node
  · exact careful_unexpected

theorem careful_parameters : Careful P parameters :=
  (careful_eat (by nofun)).bind fun _ => careful_closedList careful_identifier (by nofun)

theorem careful_propertyKey : Careful P propertyKey := by
  refine careful_kind fun k => ?_
  split
  · exact careful_identifier.bind fun _ => careful_pure
  · exact careful_literal.bind fun _ => careful_pure

theorem careful_checkTarget {cause e offset} {q : PUnit → Parse α} (h : cause.kind ≠ .lexical)
    (hq : Careful P (q ⟨⟩)) : Careful P (checkTarget cause e offset >>= q) := by
  rw [checkTarget]
  split
  · exact careful_raise h
  · exact hq

end

/-- Careful readers of statements and expressions. -/
structure Readers.Careful (R : Readers) : Prop where
  statement : Parser.Careful False R.statement
  expression {floor forHead} : Parser.Careful False (R.expression floor forHead)

/-! ## Expressions -/

section
variable {R : Readers} {P : Prop} (hR : R.Careful)
include hR

theorem careful_block : Careful P (block R) := by
  refine looks_here.careful fun start => (careful_eat (by nofun)).bind fun _ =>
    (careful_upTo hR.statement).bindTo ?_ fun _ =>
    (careful_advance trivial).bind fun _ => careful_node
  intro c s xs t hr hk
  have hlast := (returns_upTo.1 hr).1.last
  rw [hk] at hlast
  cases hlast

theorem careful_commaExpression {forHead} : Careful P (commaExpression R forHead) := by
  refine looks_here.careful fun _ => hR.expression.weaken.bind fun _ =>
    (careful_moreItems hR.expression).bind fun rest => ?_
  split
  · exact careful_pure
  · exact careful_node

theorem careful_property : Careful P (property R) :=
  looks_here.careful fun _ => careful_propertyKey.bind fun _ => (careful_eat (by nofun)).bind fun _ =>
    hR.expression.bind fun _ => careful_node

theorem careful_functionExpression (hP : P) : Careful P (functionExpression R) := by
  have rest (start : Nat) (id : Option (Identifier Span)) : Careful False
      (do let params ← parameters
          let body ← block R
          return Expr.function (← finish start) id params body) :=
    careful_parameters.bind fun _ => (careful_block hR).bind fun _ => careful_node
  refine looks_here.careful fun _ => (careful_advance hP).bind fun _ => careful_kind fun k => ?_
  split
  · exact careful_identifier.map.bind (rest _)
  · exact careful_pure.bind (rest _)

theorem careful_construction (hP : P) : Careful P (construction R) := by
  rw [construction_eq]
  exact looks_here.careful fun _ => (careful_advance hP).bind fun _ => hR.expression.bind fun _ =>
    careful_node

theorem careful_leadingOperator {op} (hP : P) : Careful P (leadingOperator R op) := by
  refine looks_here.careful fun _ => .ite (fun _ => careful_raise (by nofun)) fun _ => ?_
  exact (careful_advance hP).bind fun _ => looks_here.careful fun _ => hR.expression.bind fun _ =>
    .ite (fun _ => careful_checkTarget (by nofun) careful_node) fun _ => careful_node

theorem careful_operand : Careful P (operand R) := by
  refine careful_kind fun k => ?_
  split
  case h_1 =>
    exact looks_here.careful fun _ => (careful_eat (by nofun)).bind fun _ =>
      (careful_separated hR.expression).bind fun _ => (careful_close (by nofun)).bind fun _ =>
      careful_node
  case h_2 =>
    exact looks_here.careful fun _ => (careful_advance (by nofun)).bind fun _ =>
      (careful_closedList hR.expression (by nofun)).bind fun _ => careful_node
  case h_3 => exact careful_construction hR (by nofun)
  case h_4 => exact careful_leadingOperator hR (by nofun)
  case h_11 => exact careful_identifier.map
  case h_12 =>
    exact looks_here.careful fun _ => (careful_advance (by nofun)).bind fun _ => careful_node
  case h_13 => exact careful_functionExpression hR (by nofun)
  case h_14 =>
    exact looks_here.careful fun _ => (careful_advance (by nofun)).bind fun _ =>
      (careful_closedList (careful_property hR) (by nofun)).bind fun _ => careful_node
  case h_15 => exact careful_faultHere (by nofun)
  all_goals exact careful_literal.map

theorem careful_afterOperator {start forHead left priority op} (hP : P) :
    Careful P (afterOperator R start forHead left priority op) := by
  have operand {floor} {f : Expr Span → Span → Expr Span} (hP : P) : Careful P
      (do advance false
          let right ← R.expression floor forHead
          return f right (← finish start)) :=
    (careful_advance hP).bind fun _ => hR.expression.bind fun _ => careful_node
  refine .ite (fun _ => operand hP) fun _ => .ite (fun _ => ?_) fun _ => .ite (fun _ => operand hP)
    fun _ => .ite (fun _ => operand hP) fun _ => .ite (fun _ => ?_) fun _ => .ite (fun _ => ?_)
    fun _ => careful_faultHere (by nofun)
  · exact careful_checkTarget (by nofun) (operand hP)
  · exact (careful_advance hP).bind fun _ => hR.expression.bind fun _ =>
      (careful_eat (by nofun)).bind fun _ => hR.expression.bind fun _ => careful_node
  · exact careful_checkTarget (by nofun) ((careful_advance hP).bind fun _ => careful_node)

theorem careful_extend {start forHead left priority} :
    Careful P (extend R start forHead left priority) := by
  refine careful_kind fun k => ?_
  split
  · exact (careful_advance (by nofun)).bind fun _ =>
      (careful_closedList hR.expression (by nofun)).bind fun _ => careful_node
  · exact (careful_advance (by nofun)).bind fun _ => (careful_commaExpression hR).bind fun _ =>
      (careful_close (by nofun)).bind fun _ => careful_node
  · exact careful_afterOperator hR (by nofun)
  · exact careful_unexpected

theorem careful_extendAll {start floor forHead left fuel} :
    Careful P (extendAll R start floor forHead fuel left) := by
  induction fuel generalizing P left with
  | zero => exact careful_unexpected
  | succ fuel ih =>
    refine careful_kind fun _ => ?_
    split
    · exact careful_pure
    · exact (careful_extend hR).bind fun _ => ih

theorem careful_expression {floor forHead} : Careful P (expression R floor forHead) :=
  looks_here.careful fun _ => (careful_operand hR).bind fun _ => careful_read fun _ =>
    careful_extendAll hR

/-! ## Statements -/

theorem careful_condition : Careful P (condition R) :=
  (careful_eat (by nofun)).bind fun _ => (careful_commaExpression hR).bind fun _ =>
    (careful_eat (by nofun)).bind fun _ => careful_pure

theorem careful_argument (hP : P) : Careful P (argument R) :=
  (careful_advance hP).bind fun _ => careful_atEnd.bind fun _ => .ite (fun _ => careful_pure)
    fun _ => (careful_commaExpression hR).bind fun _ => careful_endStatement.bind fun _ =>
    careful_pure

omit hR in
theorem careful_jumpStatement {jump start} (hP : P) : Careful P (jumpStatement jump start) := by
  refine (careful_advance hP).bind fun _ => careful_atEnd.bind fun _ => .ite
    (fun _ => careful_pure.bind ?_) fun _ => careful_identifier.bind fun _ =>
    careful_endStatement.bind fun _ => careful_pure.bind ?_
  all_goals
    intro label
    refine careful_read fun _ => .ite (fun _ => careful_raise (by nofun)) fun _ =>
      (looks_finish start).careful fun _ => ?_
    cases jump with
    | «break» => exact careful_pure
    | «continue» => exact careful_pure

theorem careful_switchCase : Careful P (switchCase R) := by
  have rest (start : Nat) (test : Option (Expr Span)) : Careful False
      (do eat .colon
          let consequent ← upTo endsCase R.statement
          return SwitchCase.mk (← finish start) test consequent) :=
    (careful_eat (by nofun)).bind fun _ => (careful_upTo hR.statement).bind fun _ => careful_node
  refine looks_here.careful fun start => careful_kind fun k => ?_
  split
  · exact (careful_advance (by nofun)).bind fun _ => (careful_commaExpression hR).map.bind (rest start)
  · exact (careful_advance (by nofun)).bind fun _ => careful_pure.bind (rest start)
  · exact careful_unexpected.bind (rest start)

theorem careful_switchCases {fuel hasDefault} : Careful P (switchCases R fuel hasDefault) := by
  induction fuel generalizing P hasDefault with
  | zero => exact careful_unexpected
  | succ fuel ih =>
    refine careful_kind fun _ => .ite (fun _ => careful_pure) fun _ => looks_here.careful fun _ =>
      (careful_switchCase hR).bind fun x => .ite (fun _ => careful_raise (by nofun)) fun _ =>
      ih.bind fun _ => careful_pure

theorem careful_catchClause (hP : P) : Careful P (catchClause R) :=
  looks_here.careful fun _ => (careful_advance hP).bind fun _ => (careful_eat (by nofun)).bind fun _ =>
    careful_identifier.bind fun _ => (careful_eat (by nofun)).bind fun _ =>
    (careful_block hR).bind fun _ => careful_node

theorem careful_tryStatement {start} (hP : P) : Careful P (tryStatement R start) := by
  have last (body : Block Span) (handler : Option (CatchClause Span))
      (finalizer : Option (Block Span)) : Careful False
      (do return Stmt.try (← finish start) body handler finalizer) := careful_node
  have rest (body : Block Span) (handler : Option (CatchClause Span)) : Careful False
      (do let finalizer ←
            if (← kind) = .keyword .finally then
              advance false
              some <$> block R
            else pure none
          return Stmt.try (← finish start) body handler finalizer) :=
    careful_kind fun k => .ite
      (fun hk => (careful_advance (by rw [hk]; nofun)).bind fun _ =>
        (careful_block hR).map.bind (last body handler))
      fun _ => careful_pure.bind (last body handler)
  exact (careful_advance hP).bind fun _ => (careful_block hR).bind fun body =>
    careful_kind fun k => .ite
      (fun hk => (careful_catchClause hR (by rw [hk]; nofun)).map.bind (rest body))
      fun _ => careful_expect.bind fun _ => careful_pure.bind (rest body)

theorem careful_loopBody : Careful P (loopBody R) := hR.statement.weaken.inScope

theorem careful_declarator {forHead} : Careful P (declarator R forHead) := by
  have last (start : Nat) (id : Identifier Span) (init : Option (Expr Span)) : Careful False
      (do return Declarator.mk (← finish start) id init) := careful_node
  exact looks_here.careful fun start => careful_identifier.bind fun id => careful_kind fun k => .ite
    (fun hk => (careful_advance (by rw [hk]; nofun)).bind fun _ =>
      hR.expression.map.bind (last start id))
    fun _ => careful_pure.bind (last start id)

theorem careful_declaration {forHead} (hP : P) : Careful P (declaration R forHead) :=
  looks_here.careful fun _ => (careful_advance hP).bind fun _ =>
    (careful_separated (careful_declarator hR)).bind fun _ => .ite
      (fun _ => careful_endStatement.bind fun _ => careful_node) fun _ => careful_node

theorem careful_forRest {start init} : Careful P (forRest R start init) := by
  have body (test update : Option (Expr Span)) : Careful False
      (do eat .rightParen
          let body ← loopBody R
          return Stmt.for (← finish start) init test update body) :=
    (careful_eat (by nofun)).bind fun _ => (careful_loopBody hR).bind fun _ => careful_node
  have rest (test : Option (Expr Span)) : Careful False
      (do eat .semicolon
          let update ← if (← kind) = .rightParen then pure none
            else some <$> commaExpression R false
          eat .rightParen
          let body ← loopBody R
          return Stmt.for (← finish start) init test update body) :=
    (careful_eat (by nofun)).bind fun _ => careful_kind fun _ => .ite
      (fun _ => careful_pure.bind (body test))
      fun _ => (careful_commaExpression hR).map.bind (body test)
  exact (careful_eat (by nofun)).bind fun _ => careful_kind fun _ => .ite
    (fun _ => careful_pure.bind rest) fun _ => (careful_commaExpression hR).map.bind rest

theorem careful_forInRest {start target} : Careful P (forInRest R start target) := by
  rw [forInRest_eq]
  exact .ite
    (fun _ => (careful_eat (by nofun)).bind fun _ => (careful_commaExpression hR).bind fun _ =>
      (careful_eat (by nofun)).bind fun _ => (careful_loopBody hR).bind fun _ => careful_node)
    fun _ => careful_raise (by nofun)

theorem careful_forStatement {start} (hP : P) : Careful P (forStatement R start) := by
  refine (careful_advance hP).bind fun _ => (careful_eat (by nofun)).bind fun _ =>
    careful_kind fun _ => ?_
  split
  · refine (careful_declaration hR (by nofun)).bind fun _ => careful_kind fun _ => ?_
    split
    · exact careful_forRest hR
    · exact careful_forInRest hR
    · exact careful_unexpected
  · exact careful_forRest hR
  · refine (careful_commaExpression hR).bind fun _ => careful_kind fun _ => ?_
    split
    · exact careful_forInRest hR
    · exact careful_forRest hR

theorem careful_labeledStatement {stacked start label} :
    Careful P (labeledStatement R stacked start label) :=
  careful_read fun _ => .ite (fun _ => careful_raise (by nofun)) fun _ => careful_kind fun _ =>
    hR.statement.weaken.inScope.bind fun _ => careful_node

theorem careful_expressionStatement {stacked start} :
    Careful P (expressionStatement R stacked start) := by
  refine (careful_commaExpression hR).bind fun _ => careful_kind fun _ => ?_
  split
  · exact (careful_advance (by nofun)).bind fun _ => careful_labeledStatement hR
  · exact careful_endStatement.bind fun _ => careful_node

theorem careful_keywordStatement {start word} (hP : P) :
    Careful P (keywordStatement R start word) := by
  cases word with
  | «if» =>
    have last (test : Expr Span) (x : Stmt Span) (y : Option (Stmt Span)) : Careful False
        (do return Stmt.if (← finish start) test x y) := careful_node
    exact (careful_advance hP).bind fun _ => (careful_condition hR).bind fun test =>
      hR.statement.bind fun x => careful_kind fun k => .ite
        (fun hk => (careful_advance (by rw [hk]; nofun)).bind fun _ =>
          hR.statement.map.bind (last test x))
        fun _ => careful_pure.bind (last test x)
  | debugger =>
    exact (careful_advance hP).bind fun _ => careful_endStatement.bind fun _ => careful_node
  | «with» =>
    exact (careful_advance hP).bind fun _ => (careful_condition hR).bind fun _ =>
      hR.statement.bind fun _ => careful_node
  | «return» => exact (careful_argument hR hP).bind fun _ => careful_node
  | throw =>
    refine (careful_argument hR hP).bind fun e => ?_
    cases e with
    | none => exact careful_faultHere (by nofun)
    | some e => exact careful_node
  | «break» => exact careful_jumpStatement hP
  | «continue» => exact careful_jumpStatement hP
  | switch =>
    refine (careful_advance hP).bind fun _ => (careful_condition hR).bind fun _ =>
      (careful_eat (by nofun)).bind fun _ =>
      (Careful.inScope (careful_read fun _ => careful_switchCases hR)).bindTo ?_ fun _ =>
      (careful_advance trivial).bind fun _ => careful_node
    intro c s xs t hr
    obtain ⟨_, _, -, hcases⟩ := returns_bind.1 (returns_inScope.1 hr)
    rw [(returns_switchCases.1 hcases).1.last]
    nofun
  | «try» => exact careful_tryStatement hR hP
  | «while» =>
    exact (careful_advance hP).bind fun _ => (careful_condition hR).bind fun _ =>
      (careful_loopBody hR).bind fun _ => careful_node
  | «do» =>
    exact (careful_advance hP).bind fun _ => (careful_loopBody hR).bind fun _ =>
      (careful_eat (by nofun)).bind fun _ => (careful_condition hR).bind fun _ => careful_node
  | var => exact (careful_declaration hR hP).map
  | «for» => exact careful_forStatement hR hP
  | function =>
    exact (careful_advance hP).bind fun _ => careful_identifier.bind fun _ =>
      careful_parameters.bind fun _ => (careful_block hR).bind fun _ => careful_node
  | _ => exact careful_fault (by nofun)

theorem careful_statement : Careful P (statement R) := by
  refine careful_read fun c => .inScope (looks_here.careful fun _ => careful_kind fun _ => ?_)
  split
  · exact careful_keywordStatement hR (by nofun)
  · exact (careful_advance (by nofun)).bind fun _ => careful_node
  · exact (careful_block hR).map
  · exact careful_expressionStatement hR

theorem careful_program : Careful P (program R) :=
  looks_here.careful fun _ => (careful_upTo hR.statement).bind fun _ => careful_node

end

theorem careful_tooDeep {P : Prop} : Careful P (tooDeep : Parse α) :=
  careful_read fun _ => careful_faultHere (by nofun)

theorem readers_careful (n : Nat) : (readers n).Careful := by
  induction n with
  | zero => exact ⟨careful_tooDeep, careful_tooDeep⟩
  | succ n ih => exact ⟨careful_statement ih, careful_expression ih⟩

/-! ## Calls of the lexer -/

theorem Walks.reaches {s t : State} (h : Walks s t) : Reaches s t := by
  induction h with
  | refl => exact .refl
  | step _ _ hm ih => exact ih.step hm

end Parser

namespace Lexer

theorem run_append (flags flags' : List Bool) (c : Cursor) :
    run (flags ++ flags') c = run flags c ++ run flags' (after flags c) := by
  induction flags generalizing c with
  | nil => rfl
  | cons flag flags ih => exact congrArg (_ :: ·) (ih _)

theorem after_append (flags flags' : List Bool) (c : Cursor) :
    after (flags ++ flags') c = after flags' (after flags c) := by
  induction flags generalizing c with
  | nil => rfl
  | cons flag flags ih => exact ih _

@[simp] theorem length_run (flags : List Bool) (c : Cursor) :
    (run flags c).length = flags.length := by
  induction flags generalizing c with
  | nil => rfl
  | cons flag flags ih => exact congrArg (· + 1) (ih _)

/-- Where only the last call reports something final, there is no more than one call more than there
are bytes. -/
theorem length_le_of_run_dropLast {source : List Char} {flags : List Bool}
    (h : (run flags (Cursor.ofText source)).dropLast.any isFinal = false) :
    flags.length ≤ Text.bytes source + 1 := by
  rcases List.eq_nil_or_concat flags with rfl | ⟨front, last, rfl⟩
  · exact Nat.zero_le _
  · have hlast : (run [last] (after front (Cursor.ofText source))).length = 1 := length_run _ _
    obtain ⟨r, hr⟩ := List.length_eq_one_iff.1 hlast
    rw [List.concat_eq_append, run_append, hr, List.dropLast_concat] at h
    have hrun := length_le_of_run front h
    have hle := (after_stands front (Cursor.stands_ofText source)).offset_le
    rw [List.length_concat]
    omega

end Lexer

namespace Parser

/-- What the lexer has reported in a run: the tokens obtained, and the fault of the text that ended
it, if one did. Each call gives one report. -/
def Ending.reports (e : Ending) : List (Except Fault Token) :=
  e.tokens.map .ok ++ match e.result with
    | .error f => if f.cause.kind = .lexical then [.error f] else []
    | .ok _ => []

section
variable {source : List Char} {s t u : State}

/-- The tokens obtained so far are those of calls with some flags. -/
theorem Reaches.calls (hb : s.Begins source) (h : Reaches s t) :
    ∃ flags, Lexer.run flags (Cursor.ofText source) = t.tokens.map .ok ∧
      Lexer.after flags (Cursor.ofText source) = t.cursor := by
  induction h with
  | refl =>
    obtain ⟨he, -, hn⟩ := hb
    refine ⟨[false], ?_, ?_⟩
    · simp only [State.tokens, he, Lexer.run, hn]
      rfl
    · simp only [Lexer.after, hn]
  | @step flag t u _ hm ih =>
    obtain ⟨flags, hrun, hafter⟩ := ih
    refine ⟨flags ++ [flag], ?_, ?_⟩
    · rw [Lexer.run_append, hrun, hafter, hm.tokens, List.map_append]
      simp only [Lexer.run, hm.next]
      rfl
    · rw [Lexer.after_append, hafter]
      simp only [Lexer.after, hm.next]

/-- The tokens that a reader has gone on from are not the end of input. -/
theorem Walks.earlier (hb : s.Begins source) (h : Walks s t) :
    ∀ token ∈ t.earlier, token.kind ≠ .endOfInput := by
  induction h with
  | refl =>
    rw [hb.1]
    nofun
  | step _ hk hm ih =>
    rw [hm.earlier]
    exact List.forall_mem_cons.2 ⟨hk, ih⟩

theorem not_isFinal_of_ne_end {tokens : List Token} (h : ∀ token ∈ tokens, token.kind ≠ .endOfInput) :
    (tokens.map .ok).any Lexer.isFinal = false := by
  rw [List.any_eq_false]
  intro r hr
  obtain ⟨token, hmem, rfl⟩ := List.mem_map.1 hr
  simpa [Lexer.isFinal] using h token hmem

/-- A run that goes no further than some tokens makes one run of calls, each of a byte but the
last. -/
theorem Walks.reports (hb : s.Begins source) (h : Walks s t) :
    ∃ flags, Lexer.run flags (Cursor.ofText source) = t.tokens.map .ok ∧
      flags.length ≤ Text.bytes source + 1 := by
  obtain ⟨flags, hrun, -⟩ := h.reaches.calls hb
  refine ⟨flags, hrun, Lexer.length_le_of_run_dropLast ?_⟩
  rw [hrun, State.tokens, List.reverse_cons, List.map_append, List.map_singleton,
    List.dropLast_concat]
  exact not_isFinal_of_ne_end fun token hmem => h.earlier hb token (List.mem_reverse.1 hmem)

theorem Walks.reports_refused {f : Fault} (hb : s.Begins source) (h : Walks s t) (hf : t.Refused f) :
    ∃ flags, Lexer.run flags (Cursor.ofText source) = t.tokens.map .ok ++ [.error f] ∧
      flags.length ≤ Text.bytes source + 1 := by
  obtain ⟨hk, flag, d, hn⟩ := hf
  obtain ⟨flags, hrun, hafter⟩ := h.reaches.calls hb
  have hreports : Lexer.run (flags ++ [flag]) (Cursor.ofText source) =
      t.tokens.map .ok ++ [.error f] := by
    rw [Lexer.run_append, hrun, hafter]
    simp only [Lexer.run, hn]
  refine ⟨flags ++ [flag], hreports, Lexer.length_le_of_run_dropLast ?_⟩
  rw [hreports, List.dropLast_concat]
  refine not_isFinal_of_ne_end fun token hmem => ?_
  rcases List.mem_cons.1 (List.mem_reverse.1 hmem) with rfl | hmem
  · exact hk
  · exact h.earlier hb token hmem

end

/-- What the lexer reports in a run is one run of it over the source, of no more than one call more
than there are bytes. -/
theorem run_reports (c : Context) (source : List Char) : ∃ flags,
    Lexer.run flags (Cursor.ofText source) = (run c source).reports ∧
      flags.length ≤ Text.bytes source + 1 := by
  have hcareful := @careful_program _ False (readers_careful c.limit)
  cases hr : (run c source).result with
  | ok p =>
    obtain ⟨s, t, hb, hp⟩ := run_eq_ok.1 hr
    rw [Ending.reports, hr, run_tokens hb hp, List.append_nil]
    exact (hcareful.returns hp False.elim).reports hb
  | error f =>
    rcases run_eq_error.1 hr with ⟨d, hn⟩ | ⟨s, hb, u, hu⟩
    · have htokens : (run c source).tokens = [] := by simp only [run, hn]
      rw [Ending.reports, hr, htokens]
      dsimp only
      rw [if_pos (Lexer.lexical_of_next hn)]
      refine ⟨[false], ?_, by rw [List.length_singleton]; omega⟩
      simp only [Lexer.run, hn]
      rfl
    · obtain ⟨hw, hl⟩ := hcareful.stops hu False.elim
      rw [Ending.reports, hr, run_tokens_of_stops hb hu]
      dsimp only
      split
      · exact hw.reports_refused hb (hl ‹_›)
      · rw [List.append_nil]
        exact hw.reports hb

/-! ## Ever further on -/

/-- At least one further token has been obtained, and the current one starts later. -/
structure Onward (s t : State) : Prop where
  reaches : Reaches s t
  tokens : ∃ token more, t.tokens = s.tokens ++ token :: more
  start : s.current.span.start < t.current.span.start

/-- The cursor is behind the current token, which takes a byte unless it is the end of input. -/
structure State.Past (s : State) : Prop where
  ordered : s.Ordered
  lt : s.current.kind ≠ .endOfInput → s.current.span.start < s.cursor.offset

section
variable {source : List Char} {s t u : State}

theorem State.Past.of_finds {flag : Bool} {c : Cursor} {text : List Char}
    (h : Lexer.Finds flag c t.current text t.cursor) : t.Past := by
  have hstop := h.stop
  have hoffset := h.offset
  refine ⟨?_, fun hk => ?_⟩
  · unfold State.Ordered
    omega
  · have hbytes : Text.bytes text ≠ 0 := fun hz =>
      h.text_ne_nil hk (Text.eq_nil_of_bytes_eq_zero hz)
    omega

theorem Moves.past {flag} (h : Moves flag s t) : t.Past := by
  obtain ⟨text, hf⟩ := h.finds
  exact .of_finds hf

theorem Reaches.past (hs : s.Past) (h : Reaches s t) : t.Past := by
  cases h with
  | refl => exact hs
  | step _ hm => exact hm.past

theorem State.Begins.past (h : s.Begins source) : s.Past := by
  obtain ⟨text, hf⟩ := h.finds
  exact .of_finds hf

theorem Reaches.start_le (hs : s.Past) (h : Reaches s t) :
    s.current.span.start ≤ t.current.span.start := by
  induction h with
  | refl => exact Nat.le_refl _
  | step hr hm ih => exact Nat.le_trans ih (Nat.le_trans (hr.past hs).ordered hm.ordered.2)

/-- Behind a token that is not the end of input the next one starts later. -/
theorem Reaches.start_lt (hs : s.Past) (h : Reaches s t) (hr : s.rank < t.rank) :
    s.current.span.start < t.current.span.start := by
  induction h with
  | refl => exact absurd hr (Nat.lt_irrefl _)
  | @step flag t u hst hm ih =>
    have ht := hst.past hs
    by_cases hk : t.current.kind = .endOfInput
    · have hrank : u.rank = t.rank := by
        rw [State.rank, State.rank, hm.earlier, List.filter_cons_of_neg (by simpa using hk)]
      exact Nat.lt_of_lt_of_le (ih (hrank ▸ hr)) (Nat.le_trans ht.ordered hm.ordered.2)
    · exact Nat.lt_of_le_of_lt (hst.start_le hs) (Nat.lt_of_lt_of_le (ht.lt hk) hm.ordered.2)

theorem Reaches.onward (hs : s.Past) (h : Reaches s t) (hr : s.rank < t.rank) : Onward s t := by
  refine ⟨h, ?_, h.start_lt hs hr⟩
  obtain ⟨more, hmore⟩ := h.tokens
  cases more with
  | nil =>
    have hcurrent : t.current :: t.earlier = s.current :: s.earlier := by
      simpa [State.tokens, and_comm] using hmore
    rw [State.rank, State.rank, (List.cons.inj hcurrent).2] at hr
    exact absurd hr (Nat.lt_irrefl _)
  | cons token more => exact ⟨token, more, hmore⟩

/-- A round of a loop, and then `k` more. -/
theorem Onward.round {k : Nat} (hs : s.Past) (h : Onward s t)
    (hk : t.Past → t.current.span.start + k ≤ u.current.span.start) :
    s.current.span.start + (k + 1) ≤ u.current.span.start := by
  have hlt := h.start
  have hle := hk (h.reaches.past hs)
  omega

end

theorem propertyKey_starts {c s key t} (h : Returns propertyKey c s key t) :
    s.current.kind ≠ .endOfInput := by
  rcases returns_propertyKey.1 h with ⟨i, hi, -⟩ | ⟨l, hl, -⟩
  · obtain ⟨name, hk, -⟩ := returns_identifier.1 hi
    rw [hk]
    nofun
  · obtain ⟨v, hv, -⟩ := returns_literal.1 hl
    exact literalValue?_ne_end hv

theorem Taking.property {R : Readers} (hR : Taking R) {c s p t}
    (h : Returns (property R) c s p t) : s.rank < t.rank := by
  obtain ⟨key, s₁, s₂, value, hkey, -⟩ := returns_property.1 h
  exact ((leads_invariant s).coupling.property (w := .all) (hR.coupled s)).takes h
    (propertyKey_starts hkey)

section
variable {n : Nat} {c : Context} {s t : State} (hs : s.Past)
include hs

theorem statement_onward {x} (h : Returns (readers n).statement c s x t) : Onward s t :=
  ((readers_locate n).statement (w := .all) |>.returns h).onward hs ((readers_taking n).statement h)

theorem expression_onward {floor forHead e}
    (h : Returns ((readers n).expression floor forHead) c s e t) : Onward s t :=
  ((readers_locate n).expression (w := .all) |>.returns h).onward hs ((readers_taking n).expression h)

theorem property_onward {p} (h : Returns (property (readers n)) c s p t) : Onward s t :=
  (locates_coupling.property (w := .all) (readers_locate n) (b := true) |>.returns h).onward hs
    ((readers_taking n).property h)

theorem switchCase_onward {x} (h : Returns (switchCase (readers n)) c s x t) : Onward s t :=
  (locates_coupling.switchCase (w := .all) (readers_locate n) (b := true) |>.returns h).onward hs
    ((readers_taking n).switchCase h)

theorem extend_onward {start floor forHead left q e}
    (hq : continuation? floor forHead s.current.kind = some q)
    (h : Returns (extend (readers n) start forHead left q) c s e t) : Onward s t :=
  (@Coupling.extend _ _ _ .all locates_coupling _ _ (readers_locate n) true start start _ _ _ _
    trivial rfl |>.returns h).onward hs ((readers_taking n).extend hq h)

/-! Each round of a loop stands further on, so a loop takes no more rounds than bytes. -/

theorem Items.start_add_length_le {isLast xs}
    (h : Items isLast (Returns (readers n).statement c) s xs t) :
    s.current.span.start + xs.length ≤ t.current.span.start := by
  induction h with
  | done _ => exact Nat.le_refl _
  | more _ hx _ ih => exact (statement_onward hs hx).round hs ih

theorem Cases.start_add_length_le {b xs} (h : Cases (readers n) c b s xs t) :
    s.current.span.start + xs.length ≤ t.current.span.start := by
  induction h with
  | done _ => exact Nat.le_refl _
  | more _ hx _ _ ih => exact (switchCase_onward hs hx).round hs ih

theorem Extended.start_add_le {start floor forHead k left e}
    (h : Extended (readers n) c start floor forHead k left s e t) :
    s.current.span.start + k ≤ t.current.span.start := by
  induction h with
  | stop _ => exact Nat.le_refl _
  | more hq hx _ ih => exact (extend_onward hs hq (returns_extend.2 hx)).round hs ih

end

/-! ## No bound shows -/

/-- With any budget above its length a script is read alike. -/
theorem run_budget {c : Context} {source : List Char} (budget : Nat)
    (hc : source.length < c.budget) (hb : source.length < budget) :
    (run { c with budget } source).tokens = (run c source).tokens ∧
      (run { c with budget } source).result.map (·.locate source) =
        (run c source).result.map (·.locate source) := by
  cases hr : (run c source).result with
  | ok p =>
    obtain ⟨s, t, hs, hp⟩ := run_eq_ok.1 hr
    have hagree := (enough_coupling hb).program (w := Eq) (readers_enough hb c.limit)
      (fun _ _ h => h) c s hc hs.fits
    rw [show program (readers c.limit) c s = .ok p t from hp] at hagree
    generalize hp' : program (readers c.limit) { c with budget } s = r at hagree
    cases hagree with
    | @ok _ p' _ _ hkey =>
      have hlocate := congrArg (Program.map (·.locate source (LineTable.ofText source))) hkey
      rw [Program.map_map, Program.map_map] at hlocate
      rw [run_tokens hs hp, run_tokens (c := { c with budget }) hs hp',
        run_eq_ok.2 ⟨s, t, hs, hp'⟩]
      exact ⟨rfl, congrArg Except.ok hlocate.symm⟩
  | error f =>
    rcases run_eq_error.1 hr with ⟨d, hn⟩ | ⟨s, hs, u, hu⟩
    · simp only [run, hn, and_self]
    · have hu' := stops_budget budget hs hc hb hu
      rw [run_tokens_of_stops hs hu, run_tokens_of_stops (c := { c with budget }) hs hu',
        run_eq_error.2 (.inr ⟨s, hs, u, hu'⟩)]
      exact ⟨rfl, rfl⟩

end Parser

/-- A script is read in a single pass, within any bounds. Neither a budget of the loops above the
length of the source nor a limit on nesting above twice that length has any part in how it ends. The
lexer is called at most once more than there are bytes, and is never set back. And wherever a reader
stands: what it has read when it returns took a further token, each round of a loop stands further on
than the one before, and so a loop takes no more rounds than bytes. -/
theorem parse_single_pass (source : String) :
    (∀ limit budget, source.toList.length < budget →
      let c := Parser.Context.ofText source.toList limit
      (Parser.run { c with budget } source.toList).tokens =
          (Parser.run c source.toList).tokens ∧
        (Parser.run { c with budget } source.toList).result.map (·.locate source.toList) =
          (Parser.run c source.toList).result.map (·.locate source.toList)) ∧
    (∀ limit, 2 * source.toList.length + 2 ≤ limit → exceeds source limit = false ∧
      parse source limit = parse source (2 * source.toList.length + 2)) ∧
    (∀ limit, ∃ flags, Lexer.run flags (Cursor.ofText source.toList) =
        (Parser.run (Parser.Context.ofText source.toList limit) source.toList).reports ∧
      flags.length ≤ Text.bytes source.toList + 1) ∧
    ∀ start s n c t, start.Begins source.toList → Parser.Reaches start s →
      (∀ x, Parser.Returns (Parser.readers n).statement c s x t → Parser.Onward s t) ∧
      (∀ floor forHead e, Parser.Returns ((Parser.readers n).expression floor forHead) c s e t →
        Parser.Onward s t) ∧
      (∀ p, Parser.Returns (Parser.property (Parser.readers n)) c s p t → Parser.Onward s t) ∧
      (∀ x, Parser.Returns (Parser.switchCase (Parser.readers n)) c s x t → Parser.Onward s t) ∧
      (∀ first floor forHead left q e,
        Parser.continuation? floor forHead s.current.kind = some q →
        Parser.Returns (Parser.extend (Parser.readers n) first forHead left q) c s e t →
        Parser.Onward s t) ∧
      (∀ isLast xs, Parser.Items isLast (Parser.Returns (Parser.readers n).statement c) s xs t →
        s.current.span.start + xs.length ≤ t.current.span.start) ∧
      (∀ hasDefault xs, Parser.Cases (Parser.readers n) c hasDefault s xs t →
        s.current.span.start + xs.length ≤ t.current.span.start) ∧
      ∀ first floor forHead rounds left e,
        Parser.Extended (Parser.readers n) c first floor forHead rounds left s e t →
        s.current.span.start + rounds ≤ t.current.span.start := by
  refine ⟨fun limit budget hb => ?_, fun limit hl => ?_, fun limit => ?_, ?_⟩
  · exact Parser.run_budget budget (Nat.lt_succ_of_lt (Nat.lt_succ_self _)) hb
  · exact ⟨Parser.exceeds_eq_false_of_le hl,
      Parser.parse_eq_of_le hl (Parser.exceeds_eq_false_of_le (Nat.le_refl _))⟩
  · exact Parser.run_reports _ _
  · intro start s n c t hb hreach
    have hs := hreach.past hb.past
    exact ⟨fun x h => Parser.statement_onward hs h, fun _ _ e h => Parser.expression_onward hs h,
      fun p h => Parser.property_onward hs h, fun x h => Parser.switchCase_onward hs h,
      fun _ _ _ _ q e hq h => Parser.extend_onward hs hq h, fun _ xs h => h.start_add_length_le hs,
      fun _ xs h => h.start_add_length_le hs, fun _ _ _ _ _ e h => h.start_add_le hs⟩

end ScriptTree
