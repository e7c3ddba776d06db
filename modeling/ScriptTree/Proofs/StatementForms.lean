import ScriptTree.Proofs.ExpressionForms

/-! # Statements, form by form

The same for statements, and for whole scripts. A statement is read with the labels that stand
directly in front of it set apart, so a form carries their number. -/
namespace ScriptTree.Parser

/-! ## Parts -/

/-- Something that is there unless a token stands in its place. -/
inductive Unless (k : TokenKind) (p : Parse α) (c : Context) (s : State) : Option α → State → Prop
  | absent : s.current.kind = k → Unless k p c s none s
  | present {a t} : s.current.kind ≠ k → Returns p c s a t → Unless k p c s (some a) t

/-- Something that is there if a token announces it. -/
inductive Announced (k : TokenKind) (p : Parse α) (c : Context) (s : State) :
    Option α → State → Prop
  | absent : s.current.kind ≠ k → Announced k p c s none s
  | present {t a u} : s.current.kind = k → Moves false s t → Returns p c t a u →
      Announced k p c s (some a) u

/-- Something that is there unless the statement ends first; then the statement ends. -/
inductive Trailing (p : Parse α) (c : Context) (s : State) : Option α → State → Prop
  | absent {t} : Ends s t → Trailing p c s none t
  | present {a t u} : endsStatement s.current.kind = false →
      s.gap.any Text.isLineBreak = false → Returns p c s a t → Ends t u → Trailing p c s (some a) u

/-- What stands before the body of a case. -/
inductive CaseHead (R : Readers) (c : Context) (s : State) : Option (Expr Span) → State → Prop
  | case {e t u} : s.current.kind = .keyword .case → Moves false s t → CommaForm R c false t e u →
      CaseHead R c s (some e) u
  | default {t} : s.current.kind = .keyword .default → Moves false s t → CaseHead R c s none t

def isDefault : SwitchCase Span → Bool
  | .mk _ test _ => test.isNone

/-- The cases up to the closing brace. -/
inductive Cases (R : Readers) (c : Context) :
    (hasDefault : Bool) → State → List (SwitchCase Span) → State → Prop
  | done {b s} : s.current.kind = .rightBrace → Cases R c b s [] s
  | more {b s x t xs u} : s.current.kind ≠ .rightBrace → Returns (switchCase R) c s x t →
      (isDefault x && b) = false → Cases R c (b || isDefault x) t xs u → Cases R c b s (x :: xs) u

/-- A counted loop after its first part. -/
inductive ForTail (R : Readers) (c : Context) (s : State) :
    Option (Expr Span) → Option (Expr Span) → Stmt Span → State → Prop
  | mk {s₁ test s₂ s₃ update s₄ s₅ body t} : s.current.kind = .semicolon → Moves false s s₁ →
      Unless .semicolon (commaExpression R false) c s₁ test s₂ → s₂.current.kind = .semicolon →
      Moves false s₂ s₃ → Unless .rightParen (commaExpression R false) c s₃ update s₄ →
      s₄.current.kind = .rightParen → Moves false s₄ s₅ → Returns (loopBody R) c s₅ body t →
      ForTail R c s test update body t

def bindsOne : ForTarget α → Bool
  | .declaration (.mk _ (_ :: _ :: _)) => false
  | _ => true

/-- A loop over names after what it binds. -/
inductive ForInTail (R : Readers) (c : Context) (s : State) : Expr Span → Stmt Span → State → Prop
  | mk {s₁ object s₂ s₃ body t} : s.current.kind = .operator .in → Moves false s s₁ →
      CommaForm R c false s₁ object s₂ → s₂.current.kind = .rightParen → Moves false s₂ s₃ →
      Returns (loopBody R) c s₃ body t → ForInTail R c s object body t

/-- What a counted loop or a loop over names begins with, and how it goes on. -/
inductive ForForm (R : Readers) (c : Context) (start : Nat) (s : State) : Stmt Span → State → Prop
  | counted {d s₁ test update body t} : s.current.kind = .keyword .var →
      Returns (declaration R true) c s d s₁ → ForTail R c s₁ test update body t →
      ForForm R c start s (.for (t.since start) (some (.declaration d)) test update body) t
  | bound {d s₁ object body t} : s.current.kind = .keyword .var →
      Returns (declaration R true) c s d s₁ → bindsOne (.declaration d) = true →
      ForInTail R c s₁ object body t →
      ForForm R c start s (.forIn (t.since start) (.declaration d) object body) t
  | bare {test update body t} : ForTail R c s test update body t →
      ForForm R c start s (.for (t.since start) none test update body) t
  | named {i s₁ object body t} : s.current.kind ≠ .keyword .var → s.current.kind ≠ .semicolon →
      CommaForm R c true s (.identifier i) s₁ → ForInTail R c s₁ object body t →
      ForForm R c start s (.forIn (t.since start) (.identifier i) object body) t
  | started {e s₁ test update body t} : s.current.kind ≠ .keyword .var →
      s.current.kind ≠ .semicolon → CommaForm R c true s e s₁ → ForTail R c s₁ test update body t →
      ForForm R c start s (.for (t.since start) (some (.expression e)) test update body) t

/-- What a try statement has after its block: a handler, or else the word `finally` ahead. -/
inductive HandlerForm (R : Readers) (c : Context) (s : State) :
    Option (CatchClause Span) → State → Prop
  | present {h t} : s.current.kind = .keyword .catch → Returns (catchClause R) c s h t →
      HandlerForm R c s (some h) t
  | absent : s.current.kind = .keyword .finally → HandlerForm R c s none s

/-- The statement that a jump is. -/
def jumpNode (note : α) (label : Option (Identifier α)) : Jump → Stmt α
  | .break => .break note label
  | .continue => .continue note label

def jumpWord : Jump → Keyword
  | .break => .break
  | .continue => .continue

/-- Kinds with which a statement begins that is not an expression. -/
def opensStatement : TokenKind → Bool
  | .keyword _ | .semicolon | .leftBrace => true
  | _ => false

/-- How a statement was read, with `stacked` labels directly in front of it. -/
inductive StatementForm (R : Readers) (c : Context) (stacked : Nat) (s : State) :
    Stmt Span → State → Prop
  | empty {t} : s.current.kind = .semicolon → Moves false s t →
      StatementForm R c stacked s (.empty (t.since s.current.span.start)) t
  | block {b t} : s.current.kind = .leftBrace → Returns (block R) c s b t →
      StatementForm R c stacked s (.block b) t
  | expression {e s₁ t} : opensStatement s.current.kind = false → CommaForm R c false s e s₁ →
      (∀ i, e = .identifier i → s₁.current.kind ≠ .colon) → Ends s₁ t →
      StatementForm R c stacked s (.expression (t.since s.current.span.start) e) t
  | labeled {i s₁ s₂ body t} : opensStatement s.current.kind = false →
      CommaForm R c false s (.identifier i) s₁ → s₁.current.kind = .colon → Moves false s₁ s₂ →
      (c.checkLabels = true → c.scope.declares i.name = false) →
      Returns R.statement
        { c with scope := c.scope.label stacked i.name (targetAt s₂.current.kind) } s₂ body t →
      StatementForm R c stacked s (.labeled (t.since s.current.span.start) i body) t
  | «if» {s₁ test s₂ x s₃ y t} : s.current.kind = .keyword .if → Moves false s s₁ →
      Returns (condition R) c s₁ test s₂ → Returns R.statement c s₂ x s₃ →
      Announced (.keyword .else) R.statement c s₃ y t →
      StatementForm R c stacked s (.if (t.since s.current.span.start) test x y) t
  | debugger {s₁ t} : s.current.kind = .keyword .debugger → Moves false s s₁ → Ends s₁ t →
      StatementForm R c stacked s (.debugger (t.since s.current.span.start)) t
  | «with» {s₁ object s₂ body t} : s.current.kind = .keyword .with → Moves false s s₁ →
      Returns (condition R) c s₁ object s₂ → Returns R.statement c s₂ body t →
      StatementForm R c stacked s (.with (t.since s.current.span.start) object body) t
  | «return» {s₁ e t} : s.current.kind = .keyword .return → Moves false s s₁ →
      Trailing (commaExpression R false) c s₁ e t →
      StatementForm R c stacked s (.return (t.since s.current.span.start) e) t
  | throw {s₁ e t} : s.current.kind = .keyword .throw → Moves false s s₁ →
      Trailing (commaExpression R false) c s₁ (some e) t →
      StatementForm R c stacked s (.throw (t.since s.current.span.start) e) t
  | jump {j s₁ label t} : s.current.kind = .keyword (jumpWord j) → Moves false s s₁ →
      Trailing identifier c s₁ label t →
      (c.checkLabels = true → c.scope.allows j (label.map (·.name)) = true) →
      StatementForm R c stacked s (jumpNode (t.since s.current.span.start) label j) t
  | switch {s₁ e s₂ s₃ cases s₄ t} : s.current.kind = .keyword .switch → Moves false s s₁ →
      Returns (condition R) c s₁ e s₂ → s₂.current.kind = .leftBrace → Moves false s₂ s₃ →
      Cases R { c with scope := c.scope.enter .switch } false s₃ cases s₄ →
      cases.length < c.budget → Moves false s₄ t →
      StatementForm R c stacked s (.switch (t.since s.current.span.start) e cases) t
  | «try» {s₁ body s₂ handler s₃ finalizer t} : s.current.kind = .keyword .try →
      Moves false s s₁ → Returns (Parser.block R) c s₁ body s₂ → HandlerForm R c s₂ handler s₃ →
      Announced (.keyword .finally) (Parser.block R) c s₃ finalizer t →
      StatementForm R c stacked s (.try (t.since s.current.span.start) body handler finalizer) t
  | while {s₁ test s₂ body t} : s.current.kind = .keyword .while → Moves false s s₁ →
      Returns (condition R) c s₁ test s₂ → Returns (loopBody R) c s₂ body t →
      StatementForm R c stacked s (.while (t.since s.current.span.start) test body) t
  | doWhile {s₁ body s₂ s₃ test t} : s.current.kind = .keyword .do → Moves false s s₁ →
      Returns (loopBody R) c s₁ body s₂ → s₂.current.kind = .keyword .while → Moves false s₂ s₃ →
      Returns (condition R) c s₃ test t →
      StatementForm R c stacked s (.doWhile (t.since s.current.span.start) body test) t
  | declaration {d t} : s.current.kind = .keyword .var → Returns (declaration R false) c s d t →
      StatementForm R c stacked s (.declaration d) t
  | «for» {s₁ s₂ x t} : s.current.kind = .keyword .for → Moves false s s₁ →
      s₁.current.kind = .leftParen → Moves false s₁ s₂ →
      ForForm R c s.current.span.start s₂ x t → StatementForm R c stacked s x t
  | function {s₁ id s₂ params s₃ body t} : s.current.kind = .keyword .function → Moves false s s₁ →
      Returns identifier c s₁ id s₂ → Returns parameters c s₂ params s₃ →
      Returns (Parser.block R) c s₃ body t →
      StatementForm R c stacked s (.function (t.since s.current.span.start) id params body) t

variable {R : Readers} {c : Context} {s t : State}

theorem returns_unless {k} {p : Parse α} {f : Option α → Parse β} {b} :
    Returns (if s.current.kind = k then pure none >>= f else (some <$> p) >>= f) c s b t ↔
      ∃ a u, Unless k p c s a u ∧ Returns (f a) c u b t := by
  by_cases hk : s.current.kind = k
  · simp only [hk, if_true, returns_bind, returns_pure]
    constructor
    · rintro ⟨_, _, ⟨rfl, rfl⟩, h⟩
      exact ⟨none, s, .absent hk, h⟩
    · rintro ⟨_, _, ⟨_⟩ | ⟨hn, _⟩, h⟩
      · exact ⟨none, s, ⟨rfl, rfl⟩, h⟩
      · exact absurd hk hn
  · simp only [hk, if_false, returns_bind, returns_map]
    constructor
    · rintro ⟨_, u, ⟨a, ha, rfl⟩, h⟩
      exact ⟨some a, u, .present hk ha, h⟩
    · rintro ⟨_, u, ⟨hn⟩ | ⟨_, ha⟩, h⟩
      · exact absurd hn hk
      · exact ⟨_, u, ⟨_, ha, rfl⟩, h⟩

theorem returns_announced {k} {p : Parse α} {f : Option α → Parse β} {b} :
    Returns (if s.current.kind = k then advance false >>= fun _ => (some <$> p) >>= f
        else pure none >>= f) c s b t ↔
      ∃ a u, Announced k p c s a u ∧ Returns (f a) c u b t := by
  by_cases hk : s.current.kind = k
  · simp only [hk, if_true, returns_bind, returns_advance, returns_map]
    constructor
    · rintro ⟨_, s₁, hm, _, u, ⟨a, ha, rfl⟩, h⟩
      exact ⟨some a, u, .present hk hm ha, h⟩
    · rintro ⟨_, u, ⟨hn⟩ | ⟨_, hm, ha⟩, h⟩
      · exact absurd hk hn
      · exact ⟨(), _, hm, _, u, ⟨_, ha, rfl⟩, h⟩
  · simp only [hk, if_false, returns_bind, returns_pure]
    constructor
    · rintro ⟨_, _, ⟨rfl, rfl⟩, h⟩
      exact ⟨none, s, .absent hk, h⟩
    · rintro ⟨_, _, ⟨_⟩ | ⟨hn, _, _⟩, h⟩
      · exact ⟨none, s, ⟨rfl, rfl⟩, h⟩
      · exact absurd hn hk

theorem returns_condition {e} :
    Returns (condition R) c s e t ↔ ∃ s₁ s₂, s.current.kind = .leftParen ∧ Moves false s s₁ ∧
      CommaForm R c false s₁ e s₂ ∧ s₂.current.kind = .rightParen ∧ Moves false s₂ t := by
  simp only [condition, returns_bind, returns_eat, returns_commaExpression, returns_pure]
  constructor
  · rintro ⟨_, s₁, ⟨hk, hm⟩, e, s₂, he, _, _, ⟨hl, hm'⟩, rfl, rfl⟩
    exact ⟨s₁, s₂, hk, hm, he, hl, hm'⟩
  · rintro ⟨s₁, s₂, hk, hm, he, hl, hm'⟩
    exact ⟨(), s₁, ⟨hk, hm⟩, e, s₂, he, (), t, ⟨hl, hm'⟩, rfl, rfl⟩

theorem returns_argument {e} :
    Returns (argument R) c s e t ↔ ∃ s₁, Moves false s s₁ ∧
      Trailing (commaExpression R false) c s₁ e t := by
  simp only [argument, returns_bind, returns_advance]
  constructor
  · rintro ⟨_, s₁, hm, b, s₂, hb, h⟩
    refine ⟨s₁, hm, ?_⟩
    cases b with
    | true =>
      obtain ⟨rfl, rfl⟩ := returns_pure.1 h
      exact .absent (returns_atEnd_true.1 hb)
    | false =>
      obtain ⟨hk, hg, rfl⟩ := returns_atEnd_false.1 hb
      simp only [returns_bind, returns_endStatement, returns_pure, Bool.false_eq_true,
        if_false] at h
      obtain ⟨e, s₂, he, _, _, hend, rfl, rfl⟩ := h
      exact .present hk hg he hend
  · rintro ⟨s₁, hm, h⟩
    cases h with
    | absent hend =>
      exact ⟨(), s₁, hm, true, t, returns_atEnd_true.2 hend, returns_pure.2 ⟨rfl, rfl⟩⟩
    | @present e s₂ _ hk hg he hend =>
      refine ⟨(), s₁, hm, false, s₁, returns_atEnd_false.2 ⟨hk, hg, rfl⟩, ?_⟩
      simp only [returns_bind, returns_endStatement, returns_pure, Bool.false_eq_true, if_false]
      exact ⟨e, s₂, he, (), t, hend, rfl, rfl⟩

theorem returns_switchCase {x : SwitchCase Span} :
    Returns (switchCase R) c s x t ↔ ∃ test s₁ s₂ body, CaseHead R c s test s₁ ∧
      s₁.current.kind = .colon ∧ Moves false s₁ s₂ ∧
      Items endsCase (Returns R.statement c) s₂ body t ∧ body.length < c.budget ∧
      x = .mk (t.since s.current.span.start) test body := by
  simp only [switchCase, returns_bind, returns_here, returns_kind]
  constructor
  · rintro ⟨_, _, ⟨rfl, rfl⟩, _, _, ⟨rfl, rfl⟩, h⟩
    split at h
    · rename_i hk
      simp only [returns_bind, returns_advance, returns_map, returns_eat, returns_upTo,
        returns_finish, returns_pure, returns_commaExpression] at h
      obtain ⟨_, s₀, hm, _, s₁, ⟨e, he, rfl⟩, _, s₂, ⟨hc, hm'⟩, body, _, ⟨hi, hn⟩, _, _, ⟨rfl, rfl⟩,
        rfl, rfl⟩ := h
      exact ⟨some e, s₁, s₂, body, .case hk hm he, hc, hm', hi, hn, rfl⟩
    · rename_i hk
      simp only [returns_bind, returns_advance, returns_eat, returns_upTo,
        returns_finish, returns_pure] at h
      obtain ⟨_, s₁, hm, _, _, ⟨rfl, rfl⟩, _, s₂, ⟨hc, hm'⟩, body, _, ⟨hi, hn⟩, _, _, ⟨rfl, rfl⟩,
        rfl, rfl⟩ := h
      exact ⟨none, s₁, s₂, body, .default hk hm, hc, hm', hi, hn, rfl⟩
    · obtain ⟨_, _, hu, -⟩ := returns_bind.1 h
      exact absurd hu returns_unexpected
  · rintro ⟨test, s₁, s₂, body, hh, hc, hm', hi, hn, rfl⟩
    refine ⟨_, s, ⟨rfl, rfl⟩, _, s, ⟨rfl, rfl⟩, ?_⟩
    cases hh with
    | case hk hm he =>
      rw [hk]
      simp only [returns_bind, returns_advance, returns_map, returns_eat, returns_upTo,
        returns_finish, returns_pure, returns_commaExpression]
      exact ⟨(), _, hm, _, s₁, ⟨_, he, rfl⟩, (), s₂, ⟨hc, hm'⟩, body, t, ⟨hi, hn⟩, _, t, ⟨rfl, rfl⟩,
        rfl, rfl⟩
    | default hk hm =>
      rw [hk]
      simp only [returns_bind, returns_advance, returns_eat, returns_upTo,
        returns_finish, returns_pure]
      exact ⟨(), _, hm, _, s₁, ⟨rfl, rfl⟩, (), s₂, ⟨hc, hm'⟩, body, t, ⟨hi, hn⟩, _, t, ⟨rfl, rfl⟩,
        rfl, rfl⟩

theorem returns_switchCases {fuel b xs} :
    Returns (switchCases R fuel b) c s xs t ↔ Cases R c b s xs t ∧ xs.length < fuel := by
  induction fuel generalizing s b xs t with
  | zero => simp [switchCases]
  | succ fuel ih =>
    simp only [switchCases, returns_bind, returns_kind, returns_ite, returns_here, returns_pure, ih]
    constructor
    · rintro ⟨_, _, ⟨rfl, rfl⟩, ⟨hk, rfl, rfl⟩ | ⟨hk, _, _, ⟨rfl, rfl⟩, ⟨_, _, _⟩, s₁,
        hx, ⟨_, _, _, h, -⟩ | ⟨hd, xs, _, ⟨hc, hn⟩, rfl, rfl⟩⟩⟩
      · exact ⟨.done hk, by simp⟩
      · exact absurd h returns_fault
      · exact ⟨.more hk hx (by simpa [isDefault] using hd) hc, by simpa using hn⟩
    · rintro ⟨h, hn⟩
      refine ⟨_, s, ⟨rfl, rfl⟩, ?_⟩
      cases h with
      | done hk => exact .inl ⟨hk, rfl, rfl⟩
      | @more _ _ x _ _ _ hk hx hd hc =>
        obtain ⟨_, _, _⟩ := x
        exact .inr ⟨hk, _, s, ⟨rfl, rfl⟩, _, _, hx,
          .inr ⟨by simpa [isDefault] using hd, _, t, ⟨hc, by simpa using hn⟩, rfl, rfl⟩⟩

theorem Cases.last {b xs} (h : Cases R c b s xs t) : t.current.kind = .rightBrace := by
  induction h with
  | done h => exact h
  | more _ _ _ _ ih => exact ih

theorem returns_catchClause {x : CatchClause Span} :
    Returns (catchClause R) c s x t ↔ ∃ s₁ s₂ param s₃ s₄ body, Moves false s s₁ ∧
      s₁.current.kind = .leftParen ∧ Moves false s₁ s₂ ∧ Returns identifier c s₂ param s₃ ∧
      s₃.current.kind = .rightParen ∧ Moves false s₃ s₄ ∧ Returns (block R) c s₄ body t ∧
      x = .mk (t.since s.current.span.start) param body := by
  simp only [catchClause, returns_bind, returns_here, returns_advance, returns_eat, returns_finish,
    returns_pure]
  constructor
  · rintro ⟨_, _, ⟨rfl, rfl⟩, _, s₁, hm, _, s₂, ⟨hk, hm₁⟩, param, s₃, hp, _, s₄, ⟨hl, hm₂⟩, body, _,
      hb, _, _, ⟨rfl, rfl⟩, rfl, rfl⟩
    exact ⟨s₁, s₂, param, s₃, s₄, body, hm, hk, hm₁, hp, hl, hm₂, hb, rfl⟩
  · rintro ⟨s₁, s₂, param, s₃, s₄, body, hm, hk, hm₁, hp, hl, hm₂, hb, rfl⟩
    exact ⟨_, s, ⟨rfl, rfl⟩, (), s₁, hm, (), s₂, ⟨hk, hm₁⟩, param, s₃, hp, (), s₄, ⟨hl, hm₂⟩, body, t,
      hb, _, t, ⟨rfl, rfl⟩, rfl, rfl⟩

theorem returns_declarator {forHead} {x : Declarator Span} :
    Returns (declarator R forHead) c s x t ↔ ∃ id s₁ init, Returns identifier c s id s₁ ∧
      Announced (.operator .assign) (R.expression 0 forHead) c s₁ init t ∧
      x = .mk (t.since s.current.span.start) id init := by
  simp only [declarator, returns_bind, returns_here, returns_kind]
  constructor
  · rintro ⟨_, _, ⟨rfl, rfl⟩, id, s₁, hi, _, _, ⟨rfl, rfl⟩, h⟩
    obtain ⟨init, _, ha, h⟩ := returns_announced.1 h
    obtain ⟨_, _, hf, hr⟩ := returns_bind.1 h
    obtain ⟨rfl, rfl⟩ := returns_finish.1 hf
    obtain ⟨rfl, rfl⟩ := returns_pure.1 hr
    exact ⟨id, s₁, init, hi, ha, rfl⟩
  · rintro ⟨id, s₁, init, hi, ha, rfl⟩
    refine ⟨_, s, ⟨rfl, rfl⟩, id, s₁, hi, _, s₁, ⟨rfl, rfl⟩, returns_announced.2 ⟨init, t, ha, ?_⟩⟩
    exact returns_bind.2 ⟨_, t, returns_finish.2 ⟨rfl, rfl⟩, returns_pure.2 ⟨rfl, rfl⟩⟩

theorem returns_declaration {forHead} {d : Declaration Span} :
    Returns (declaration R forHead) c s d t ↔ ∃ s₁ ds s₂, Moves false s s₁ ∧
      Returns (separated (declarator R forHead)) c s₁ ds s₂ ∧
      (forHead = true ∧ s₂ = t ∨ forHead = false ∧ Ends s₂ t) ∧
      d = .mk (t.since s.current.span.start) ds := by
  simp only [declaration, returns_bind, returns_here, returns_advance, returns_ite,
    returns_endStatement, returns_finish, returns_pure]
  constructor
  · rintro ⟨_, _, ⟨rfl, rfl⟩, _, s₁, hm, ds, s₂, hd, ⟨hf, _, _, he, _, _, ⟨rfl, rfl⟩, rfl, rfl⟩ |
      ⟨hf, _, _, ⟨rfl, rfl⟩, rfl, rfl⟩⟩
    · exact ⟨s₁, ds, s₂, hm, hd, .inr ⟨by simpa using hf, he⟩, rfl⟩
    · exact ⟨s₁, ds, s₂, hm, hd, .inl ⟨by simpa using hf, rfl⟩, rfl⟩
  · rintro ⟨s₁, ds, s₂, hm, hd, h, rfl⟩
    refine ⟨_, s, ⟨rfl, rfl⟩, (), s₁, hm, ds, s₂, hd, ?_⟩
    rcases h with ⟨rfl, rfl⟩ | ⟨rfl, he⟩
    · exact .inr ⟨by simp, _, s₂, ⟨rfl, rfl⟩, rfl, rfl⟩
    · exact .inl ⟨by simp, (), t, he, _, t, ⟨rfl, rfl⟩, rfl, rfl⟩

theorem ForTail.kind {test update body} (h : ForTail R c s test update body t) :
    s.current.kind = .semicolon := by
  obtain ⟨hk, -⟩ := h
  exact hk

theorem ForInTail.kind {object body} (h : ForInTail R c s object body t) :
    s.current.kind = .operator .in := by
  obtain ⟨hk, -⟩ := h
  exact hk

theorem returns_forRest {start init x} :
    Returns (forRest R start init) c s x t ↔ ∃ test update body,
      ForTail R c s test update body t ∧ x = .for (t.since start) init test update body := by
  simp only [forRest, returns_bind, returns_eat, returns_kind]
  constructor
  · rintro ⟨_, s₁, ⟨hk, hm⟩, _, _, ⟨rfl, rfl⟩, h⟩
    obtain ⟨test, s₂, ht, h⟩ := returns_unless.1 h
    simp only [returns_bind, returns_eat, returns_kind] at h
    obtain ⟨_, s₃, ⟨hk', hm'⟩, _, _, ⟨rfl, rfl⟩, h⟩ := h
    obtain ⟨update, s₄, hu, h⟩ := returns_unless.1 h
    simp only [returns_bind, returns_eat, returns_finish, returns_pure] at h
    obtain ⟨_, s₅, ⟨hl, hm''⟩, body, _, hb, _, _, ⟨rfl, rfl⟩, rfl, rfl⟩ := h
    exact ⟨test, update, body, .mk hk hm ht hk' hm' hu hl hm'' hb, rfl⟩
  · rintro ⟨test, update, body, ⟨hk, hm, ht, hk', hm', hu, hl, hm'', hb⟩, rfl⟩
    refine ⟨(), _, ⟨hk, hm⟩, _, _, ⟨rfl, rfl⟩, returns_unless.2 ⟨test, _, ht, ?_⟩⟩
    simp only [returns_bind, returns_eat, returns_kind]
    refine ⟨(), _, ⟨hk', hm'⟩, _, _, ⟨rfl, rfl⟩, returns_unless.2 ⟨update, _, hu, ?_⟩⟩
    simp only [returns_bind, returns_eat, returns_finish, returns_pure]
    exact ⟨(), _, ⟨hl, hm''⟩, body, t, hb, _, t, ⟨rfl, rfl⟩, rfl, rfl⟩

theorem returns_forInRest {start} {target : ForTarget Span} {x} :
    Returns (forInRest R start target) c s x t ↔ bindsOne target = true ∧ ∃ object body,
      ForInTail R c s object body t ∧ x = .forIn (t.since start) target object body := by
  unfold forInRest
  split
  · simp [bindsOne, returns_bind]
  · rename_i hone
    have hb : bindsOne target = true := by
      unfold bindsOne
      split
      · exact absurd rfl (hone _ _ _ _)
      · rfl
    simp only [returns_bind, returns_eat, returns_commaExpression, returns_finish, returns_pure]
    constructor
    · rintro ⟨_, s₁, ⟨hk, hm⟩, object, s₂, ho, _, s₃, ⟨hl, hm'⟩, body, _, hb', _, _,
        ⟨rfl, rfl⟩, rfl, rfl⟩
      exact ⟨hb, object, body, ⟨hk, hm, ho, hl, hm', hb'⟩, rfl⟩
    · rintro ⟨-, object, body, ⟨hk, hm, ho, hl, hm', hb'⟩, rfl⟩
      exact ⟨(), _, ⟨hk, hm⟩, object, _, ho, (), _, ⟨hl, hm'⟩, body, t, hb', _, t, ⟨rfl, rfl⟩,
        rfl, rfl⟩

/-! ## Statements -/

theorem forStatement_form {x} (hk : s.current.kind = .keyword .for) {stacked}
    (h : Returns (forStatement R s.current.span.start) c s x t) :
    StatementForm R c stacked s x t := by
  simp only [forStatement, returns_bind, returns_advance, returns_eat, returns_kind] at h
  obtain ⟨_, s₁, hm, _, s₂, ⟨hl, hm'⟩, _, _, ⟨rfl, rfl⟩, h⟩ := h
  refine .for hk hm hl hm' ?_
  split at h
  · rename_i hv
    simp only [returns_bind, returns_kind] at h
    obtain ⟨d, s₃, hd, _, _, ⟨rfl, rfl⟩, h⟩ := h
    split at h
    · obtain ⟨test, update, body, ht, rfl⟩ := returns_forRest.1 h
      exact .counted hv hd ht
    · obtain ⟨hb, object, body, ht, rfl⟩ := returns_forInRest.1 h
      exact .bound hv hd hb ht
    · exact absurd h returns_unexpected
  · obtain ⟨test, update, body, ht, rfl⟩ := returns_forRest.1 h
    exact .bare ht
  · rename_i hv hs
    simp only [returns_bind, returns_kind, returns_commaExpression] at h
    obtain ⟨e, s₃, he, _, _, ⟨rfl, rfl⟩, h⟩ := h
    split at h
    · obtain ⟨-, object, body, ht, rfl⟩ := returns_forInRest.1 h
      exact .named hv hs he ht
    · obtain ⟨test, update, body, ht, rfl⟩ := returns_forRest.1 h
      exact .started hv hs he ht

theorem forForm_returns {start s₂ x} (h : ForForm R c start s₂ x t) {s₁} (hm : Moves false s s₁)
    (hl : s₁.current.kind = .leftParen) (hm' : Moves false s₁ s₂) :
    Returns (forStatement R start) c s x t := by
  simp only [forStatement, returns_bind, returns_advance, returns_eat, returns_kind]
  refine ⟨(), s₁, hm, (), s₂, ⟨hl, hm'⟩, _, s₂, ⟨rfl, rfl⟩, ?_⟩
  cases h with
  | counted hv hd ht =>
    rw [hv]
    simp only [returns_bind, returns_kind]
    refine ⟨_, _, hd, _, _, ⟨rfl, rfl⟩, ?_⟩
    rw [ht.kind]
    exact returns_forRest.2 ⟨_, _, _, ht, rfl⟩
  | bound hv hd hb ht =>
    rw [hv]
    simp only [returns_bind, returns_kind]
    refine ⟨_, _, hd, _, _, ⟨rfl, rfl⟩, ?_⟩
    rw [ht.kind]
    exact returns_forInRest.2 ⟨hb, _, _, ht, rfl⟩
  | bare ht =>
    rw [ht.kind]
    exact returns_forRest.2 ⟨_, _, _, ht, rfl⟩
  | named hv hs he ht =>
    split
    · exact absurd (by assumption) hv
    · exact absurd (by assumption) hs
    · simp only [returns_bind, returns_kind, returns_commaExpression]
      refine ⟨_, _, he, _, _, ⟨rfl, rfl⟩, ?_⟩
      rw [ht.kind]
      exact returns_forInRest.2 ⟨rfl, _, _, ht, rfl⟩
  | started hv hs he ht =>
    split
    · exact absurd (by assumption) hv
    · exact absurd (by assumption) hs
    · simp only [returns_bind, returns_kind, returns_commaExpression]
      refine ⟨_, _, he, _, _, ⟨rfl, rfl⟩, ?_⟩
      rw [ht.kind]
      split
      · rename_i h
        cases h
      · exact returns_forRest.2 ⟨_, _, _, ht, rfl⟩

theorem returns_handler {f : Option (CatchClause Span) → Parse β} {b} :
    Returns (if s.current.kind = .keyword .catch then (some <$> catchClause R) >>= f
        else expect (.keyword .finally) >>= fun _ => pure none >>= f) c s b t ↔
      ∃ h u, HandlerForm R c s h u ∧ Returns (f h) c u b t := by
  by_cases hk : s.current.kind = .keyword .catch
  · simp only [hk, if_true, returns_bind, returns_map]
    constructor
    · rintro ⟨_, u, ⟨a, ha, rfl⟩, h⟩
      exact ⟨some a, u, .present hk ha, h⟩
    · rintro ⟨_, u, ⟨_, ha⟩ | ⟨hn⟩, h⟩
      · exact ⟨_, u, ⟨_, ha, rfl⟩, h⟩
      · rw [hk] at hn
        cases hn
  · simp only [hk, if_false, returns_bind, returns_expect, returns_pure]
    constructor
    · rintro ⟨_, _, ⟨hf, rfl⟩, _, _, ⟨rfl, rfl⟩, h⟩
      exact ⟨none, s, .absent hf, h⟩
    · rintro ⟨_, _, ⟨hn, _⟩ | ⟨hf⟩, h⟩
      · exact absurd hn hk
      · exact ⟨(), s, ⟨hf, rfl⟩, none, s, ⟨rfl, rfl⟩, h⟩

theorem returns_tryStatement {start x} :
    Returns (tryStatement R start) c s x t ↔ ∃ s₁ body s₂ handler s₃ finalizer, Moves false s s₁ ∧
      Returns (block R) c s₁ body s₂ ∧ HandlerForm R c s₂ handler s₃ ∧
      Announced (.keyword .finally) (block R) c s₃ finalizer t ∧
      x = .try (t.since start) body handler finalizer := by
  simp only [tryStatement, returns_bind, returns_advance, returns_kind]
  constructor
  · rintro ⟨_, s₁, hm, body, s₂, hb, _, _, ⟨rfl, rfl⟩, h⟩
    obtain ⟨handler, s₃, hh, h⟩ := returns_handler.1 h
    simp only [returns_bind, returns_kind] at h
    obtain ⟨_, _, ⟨rfl, rfl⟩, h⟩ := h
    obtain ⟨finalizer, _, hf, h⟩ := returns_announced.1 h
    simp only [returns_bind, returns_finish, returns_pure] at h
    obtain ⟨_, _, ⟨rfl, rfl⟩, rfl, rfl⟩ := h
    exact ⟨s₁, body, s₂, handler, s₃, finalizer, hm, hb, hh, hf, rfl⟩
  · rintro ⟨s₁, body, s₂, handler, s₃, finalizer, hm, hb, hh, hf, rfl⟩
    refine ⟨(), s₁, hm, body, s₂, hb, _, s₂, ⟨rfl, rfl⟩, returns_handler.2 ⟨handler, s₃, hh, ?_⟩⟩
    simp only [returns_bind, returns_kind]
    refine ⟨_, s₃, ⟨rfl, rfl⟩, returns_announced.2 ⟨finalizer, t, hf, ?_⟩⟩
    simp only [returns_bind, returns_finish, returns_pure]
    exact ⟨_, t, ⟨rfl, rfl⟩, rfl, rfl⟩

theorem returns_trailing {p : Parse α} {f : Option α → Parse β} {b} :
    Returns (do
      if ← atEnd then pure none >>= f
      else
        let a ← p
        endStatement
        pure (some a) >>= f) c s b t ↔
      ∃ a u, Trailing p c s a u ∧ Returns (f a) c u b t := by
  simp only [returns_bind]
  constructor
  · rintro ⟨e, s₁, he, h⟩
    cases e with
    | true =>
      simp only [if_true, returns_bind, returns_pure] at h
      obtain ⟨_, _, ⟨rfl, rfl⟩, h⟩ := h
      exact ⟨none, s₁, .absent (returns_atEnd_true.1 he), h⟩
    | false =>
      obtain ⟨hk, hg, rfl⟩ := returns_atEnd_false.1 he
      simp only [Bool.false_eq_true, if_false, returns_bind, returns_endStatement,
        returns_pure] at h
      obtain ⟨a, s₂, ha, _, s₃, hend, _, _, ⟨rfl, rfl⟩, h⟩ := h
      exact ⟨some a, s₃, .present hk hg ha hend, h⟩
  · rintro ⟨a, u, ha, h⟩
    cases ha with
    | absent hend =>
      refine ⟨true, u, returns_atEnd_true.2 hend, ?_⟩
      simp only [if_true, returns_bind, returns_pure]
      exact ⟨none, u, ⟨rfl, rfl⟩, h⟩
    | @present a s₂ _ hk hg ha hend =>
      refine ⟨false, s, returns_atEnd_false.2 ⟨hk, hg, rfl⟩, ?_⟩
      simp only [Bool.false_eq_true, if_false, returns_bind, returns_endStatement, returns_pure]
      exact ⟨a, s₂, ha, (), u, hend, some a, u, ⟨rfl, rfl⟩, h⟩

theorem returns_jumpStatement {j start x} :
    Returns (jumpStatement j start) c s x t ↔ ∃ s₁ label, Moves false s s₁ ∧
      Trailing identifier c s₁ label t ∧
      (c.checkLabels = true → c.scope.allows j (label.map (·.name)) = true) ∧
      x = jumpNode (t.since start) label j := by
  have node : ∀ {label u}, Returns (do
      let c ← read
      if c.checkLabels && !c.scope.allows j (label.map (·.name)) then
        fault (.invalidJump j) start
      let note ← finish start
      match j with
      | .break => return .break note label
      | .continue => return .continue note label) c u x t ↔
      u = t ∧ (c.checkLabels = true → c.scope.allows j (label.map (·.name)) = true) ∧
        x = jumpNode (t.since start) label j := by
    intro label u
    simp only [returns_bind, returns_read, returns_ite, returns_finish]
    constructor
    · rintro ⟨_, _, ⟨rfl, rfl⟩, ⟨_, _, _, h, -⟩ | ⟨ha, _, _, ⟨rfl, rfl⟩, h⟩⟩
      · exact absurd h returns_fault
      · have ha : c.checkLabels = true → c.scope.allows j (label.map (·.name)) = true := by
          simpa using ha
        cases j <;> obtain ⟨rfl, rfl⟩ := returns_pure.1 h <;> exact ⟨rfl, ha, rfl⟩
    · rintro ⟨rfl, ha, rfl⟩
      refine ⟨c, u, ⟨rfl, rfl⟩, .inr ⟨by simpa using ha, _, u, ⟨rfl, rfl⟩, ?_⟩⟩
      cases j <;> exact returns_pure.2 ⟨rfl, rfl⟩
  rw [jumpStatement, returns_bind]
  constructor
  · rintro ⟨_, s₁, hm, h⟩
    obtain ⟨label, u, hl, h⟩ := returns_trailing.1 h
    obtain ⟨rfl, ha, rfl⟩ := node.1 h
    exact ⟨s₁, label, returns_advance.1 hm, hl, ha, rfl⟩
  · rintro ⟨s₁, label, hm, hl, ha, rfl⟩
    exact ⟨(), s₁, returns_advance.2 hm, returns_trailing.2 ⟨label, t, hl, node.2 ⟨rfl, ha, rfl⟩⟩⟩

theorem returns_labeledStatement {stacked start i x} :
    Returns (labeledStatement R stacked start i) c s x t ↔ ∃ body,
      (c.checkLabels = true → c.scope.declares i.name = false) ∧
      Returns R.statement
        { c with scope := c.scope.label stacked i.name (targetAt s.current.kind) } s body t ∧
      x = .labeled (t.since start) i body := by
  simp only [labeledStatement, returns_bind, returns_read, returns_ite, returns_kind,
    returns_inScope, returns_finish, returns_pure]
  constructor
  · rintro ⟨_, _, ⟨rfl, rfl⟩, ⟨_, _, _, h, -⟩ | ⟨hd, _, _, ⟨rfl, rfl⟩, body, _, hb, _, _, ⟨rfl, rfl⟩,
      rfl, rfl⟩⟩
    · exact absurd h returns_fault
    · exact ⟨body, by simpa using hd, hb, rfl⟩
  · rintro ⟨body, hd, hb, rfl⟩
    exact ⟨c, s, ⟨rfl, rfl⟩, .inr ⟨by simpa using hd, _, s, ⟨rfl, rfl⟩, body, t, hb, _, t, ⟨rfl, rfl⟩,
      rfl, rfl⟩⟩

theorem keywordStatement_form {word x} (hk : s.current.kind = .keyword word) {stacked}
    (h : Returns (keywordStatement R s.current.span.start word) c s x t) :
    StatementForm R c stacked s x t := by
  cases word with
  | «if» =>
    simp only [keywordStatement, ifStatement, returns_bind, returns_advance, returns_kind] at h
    obtain ⟨_, s₁, hm, test, s₂, hc, y, s₃, hy, _, _, ⟨rfl, rfl⟩, h⟩ := h
    obtain ⟨z, _, hz, h⟩ := returns_announced.1 h
    simp only [returns_bind, returns_finish, returns_pure] at h
    obtain ⟨_, _, ⟨rfl, rfl⟩, rfl, rfl⟩ := h
    exact .if hk hm hc hy hz
  | debugger =>
    simp only [keywordStatement, debuggerStatement, returns_bind, returns_advance,
      returns_endStatement, returns_finish, returns_pure] at h
    obtain ⟨_, s₁, hm, _, _, he, _, _, ⟨rfl, rfl⟩, rfl, rfl⟩ := h
    exact .debugger hk hm he
  | «with» =>
    simp only [keywordStatement, withStatement, returns_bind, returns_advance, returns_finish,
      returns_pure] at h
    obtain ⟨_, s₁, hm, e, s₂, he, body, _, hb, _, _, ⟨rfl, rfl⟩, rfl, rfl⟩ := h
    exact .with hk hm he hb
  | «return» =>
    simp only [keywordStatement, returnStatement, returns_bind, returns_argument, returns_finish,
      returns_pure] at h
    obtain ⟨e, _, ⟨s₁, hm, he⟩, _, _, ⟨rfl, rfl⟩, rfl, rfl⟩ := h
    exact .return hk hm he
  | throw =>
    simp only [keywordStatement, throwStatement, returns_bind, returns_argument] at h
    obtain ⟨e, u, ⟨s₁, hm, he⟩, h⟩ := h
    cases e with
    | none => exact absurd h returns_faultHere
    | some e =>
      simp only [returns_bind, returns_finish, returns_pure] at h
      obtain ⟨_, _, ⟨rfl, rfl⟩, rfl, rfl⟩ := h
      exact .throw hk hm he
  | «break» =>
    obtain ⟨s₁, label, hm, hl, ha, rfl⟩ := returns_jumpStatement.1 h
    exact .jump (j := .break) hk hm hl ha
  | «continue» =>
    obtain ⟨s₁, label, hm, hl, ha, rfl⟩ := returns_jumpStatement.1 h
    exact .jump (j := .continue) hk hm hl ha
  | switch =>
    simp only [keywordStatement, switchStatement, returns_bind, returns_advance, returns_eat,
      returns_inScope, returns_read, returns_switchCases, returns_finish, returns_pure] at h
    obtain ⟨_, s₁, hm, e, s₂, he, _, s₃, ⟨hl, hm'⟩, cases, s₄, ⟨_, _, ⟨rfl, rfl⟩, hc, hn⟩, _, _, hm'',
      _, _, ⟨rfl, rfl⟩, rfl, rfl⟩ := h
    exact .switch hk hm he hl hm' hc hn hm''
  | «try» =>
    obtain ⟨s₁, body, s₂, handler, s₃, finalizer, hm, hb, hh, hf, rfl⟩ := returns_tryStatement.1 h
    exact .try hk hm hb hh hf
  | «while» =>
    simp only [keywordStatement, whileStatement, returns_bind, returns_advance, returns_finish,
      returns_pure] at h
    obtain ⟨_, s₁, hm, e, s₂, he, body, _, hb, _, _, ⟨rfl, rfl⟩, rfl, rfl⟩ := h
    exact .while hk hm he hb
  | «do» =>
    simp only [keywordStatement, doWhileStatement, returns_bind, returns_advance, returns_eat,
      returns_finish, returns_pure] at h
    obtain ⟨_, s₁, hm, body, s₂, hb, _, s₃, ⟨hw, hm'⟩, e, _, he, _, _, ⟨rfl, rfl⟩, rfl, rfl⟩ := h
    exact .doWhile hk hm hb hw hm' he
  | var =>
    obtain ⟨d, hd, rfl⟩ := returns_map.1 h
    exact .declaration hk hd
  | «for» => exact forStatement_form hk h
  | function =>
    simp only [keywordStatement, functionStatement, returns_bind, returns_advance, returns_finish,
      returns_pure] at h
    obtain ⟨_, s₁, hm, id, s₂, hi, params, s₃, hp, body, _, hb, _, _, ⟨rfl, rfl⟩, rfl, rfl⟩ := h
    exact .function hk hm hi hp hb
  | _ => exact absurd h returns_fault

theorem expressionStatement_returns {stacked e s₁} (he : CommaForm R c false s e s₁)
    (hne : ∀ i, e = .identifier i → s₁.current.kind ≠ .colon) (hend : Ends s₁ t) :
    Returns (expressionStatement R stacked s.current.span.start) c s
      (.expression (t.since s.current.span.start) e) t := by
  simp only [expressionStatement, returns_bind, returns_commaExpression, returns_kind]
  refine ⟨e, s₁, he, _, s₁, ⟨rfl, rfl⟩, ?_⟩
  split
  · exact absurd (by assumption) (hne _ rfl)
  · simp only [returns_bind, returns_endStatement, returns_finish, returns_pure]
    exact ⟨(), t, hend, _, t, ⟨rfl, rfl⟩, rfl, rfl⟩

theorem labeledStatement_returns {stacked i s₁ s₂ body}
    (he : CommaForm R c false s (.identifier i) s₁) (hc : s₁.current.kind = .colon)
    (hm : Moves false s₁ s₂) (hd : c.checkLabels = true → c.scope.declares i.name = false)
    (hb : Returns R.statement
      { c with scope := c.scope.label stacked i.name (targetAt s₂.current.kind) } s₂ body t) :
    Returns (expressionStatement R stacked s.current.span.start) c s
      (.labeled (t.since s.current.span.start) i body) t := by
  simp only [expressionStatement, returns_bind, returns_commaExpression, returns_kind]
  refine ⟨_, s₁, he, _, s₁, ⟨rfl, rfl⟩, ?_⟩
  rw [hc]
  simp only [returns_bind, returns_advance, returns_labeledStatement]
  exact ⟨(), s₂, hm, body, hd, hb, rfl⟩

theorem returns_statement {x} :
    Returns (statement R) c s x t ↔
      StatementForm R { c with scope := c.scope.settle } c.scope.stacked s x t := by
  simp only [statement, returns_bind, returns_read, returns_inScope, returns_here, returns_kind]
  constructor
  · rintro ⟨_, _, ⟨rfl, rfl⟩, _, _, ⟨rfl, rfl⟩, _, _, ⟨rfl, rfl⟩, h⟩
    split at h
    · exact keywordStatement_form (by assumption) h
    · simp only [returns_bind, returns_advance, returns_finish, returns_pure] at h
      obtain ⟨_, _, hm, _, _, ⟨rfl, rfl⟩, rfl, rfl⟩ := h
      exact .empty (by assumption) hm
    · obtain ⟨b, hb, rfl⟩ := returns_map.1 h
      exact .block (by assumption) hb
    · rename_i hw hs hl
      have ho : opensStatement s.current.kind = false := by
        unfold opensStatement
        split
        · exact absurd (by assumption) (hw _)
        · exact absurd (by assumption) hs
        · exact absurd (by assumption) hl
        · rfl
      simp only [expressionStatement, returns_bind, returns_commaExpression, returns_kind] at h
      obtain ⟨e, s₁, he, _, _, ⟨rfl, rfl⟩, h⟩ := h
      split at h
      · rename_i hc
        simp only [returns_bind, returns_advance, returns_labeledStatement] at h
        obtain ⟨_, s₂, hm, body, hd, hb, rfl⟩ := h
        exact .labeled ho he hc hm hd hb
      · rename_i hne
        simp only [returns_bind, returns_endStatement, returns_finish, returns_pure] at h
        obtain ⟨_, _, hend, _, _, ⟨rfl, rfl⟩, rfl, rfl⟩ := h
        exact .expression ho he hne hend
  · intro h
    refine ⟨c, s, ⟨rfl, rfl⟩, _, s, ⟨rfl, rfl⟩, _, s, ⟨rfl, rfl⟩, ?_⟩
    cases h with
    | empty hk hm =>
      rw [hk]
      simp only [returns_bind, returns_advance, returns_finish, returns_pure]
      exact ⟨(), t, hm, _, t, ⟨rfl, rfl⟩, rfl, rfl⟩
    | block hk hb =>
      rw [hk]
      exact returns_map.2 ⟨_, hb, rfl⟩
    | expression ho he hne hend =>
      have hr := @expressionStatement_returns _ _ _ _ c.scope.stacked _ _ he hne hend
      revert ho
      cases s.current.kind <;> intro ho <;> first | exact hr | cases ho
    | labeled ho he hc hm hd hb =>
      have hr := labeledStatement_returns he hc hm hd hb
      revert ho
      cases s.current.kind <;> intro ho <;> first | exact hr | cases ho
    | «if» hk hm hc hy hz =>
      rw [hk]
      simp only [keywordStatement, ifStatement, returns_bind, returns_advance, returns_kind]
      refine ⟨(), _, hm, _, _, hc, _, _, hy, _, _, ⟨rfl, rfl⟩, returns_announced.2 ⟨_, t, hz, ?_⟩⟩
      simp only [returns_bind, returns_finish, returns_pure]
      exact ⟨_, t, ⟨rfl, rfl⟩, rfl, rfl⟩
    | debugger hk hm he =>
      rw [hk]
      simp only [keywordStatement, debuggerStatement, returns_bind, returns_advance,
        returns_endStatement, returns_finish, returns_pure]
      exact ⟨(), _, hm, (), t, he, _, t, ⟨rfl, rfl⟩, rfl, rfl⟩
    | «with» hk hm he hb =>
      rw [hk]
      simp only [keywordStatement, withStatement, returns_bind, returns_advance, returns_finish,
        returns_pure]
      exact ⟨(), _, hm, _, _, he, _, t, hb, _, t, ⟨rfl, rfl⟩, rfl, rfl⟩
    | «return» hk hm he =>
      rw [hk]
      simp only [keywordStatement, returnStatement, returns_bind, returns_argument, returns_finish,
        returns_pure]
      exact ⟨_, t, ⟨_, hm, he⟩, _, t, ⟨rfl, rfl⟩, rfl, rfl⟩
    | throw hk hm he =>
      rw [hk]
      simp only [keywordStatement, throwStatement, returns_bind, returns_argument]
      refine ⟨_, t, ⟨_, hm, he⟩, ?_⟩
      simp only [returns_bind, returns_finish, returns_pure]
      exact ⟨_, t, ⟨rfl, rfl⟩, rfl, rfl⟩
    | @jump j _ _ _ hk hm hl ha =>
      rw [hk]
      cases j <;> exact returns_jumpStatement.2 ⟨_, _, hm, hl, ha, rfl⟩
    | switch hk hm he hl hm' hc hn hm'' =>
      rw [hk]
      simp only [keywordStatement, switchStatement, returns_bind, returns_advance, returns_eat,
        returns_inScope, returns_read, returns_switchCases, returns_finish, returns_pure]
      exact ⟨(), _, hm, _, _, he, (), _, ⟨hl, hm'⟩, _, _, ⟨_, _, ⟨rfl, rfl⟩, hc, hn⟩, (), t, hm'', _, t,
        ⟨rfl, rfl⟩, rfl, rfl⟩
    | «try» hk hm hb hh hf =>
      rw [hk]
      exact returns_tryStatement.2 ⟨_, _, _, _, _, _, hm, hb, hh, hf, rfl⟩
    | «while» hk hm he hb =>
      rw [hk]
      simp only [keywordStatement, whileStatement, returns_bind, returns_advance, returns_finish,
        returns_pure]
      exact ⟨(), _, hm, _, _, he, _, t, hb, _, t, ⟨rfl, rfl⟩, rfl, rfl⟩
    | doWhile hk hm hb hw hm' he =>
      rw [hk]
      simp only [keywordStatement, doWhileStatement, returns_bind, returns_advance, returns_eat,
        returns_finish, returns_pure]
      exact ⟨(), _, hm, _, _, hb, (), _, ⟨hw, hm'⟩, _, t, he, _, t, ⟨rfl, rfl⟩, rfl, rfl⟩
    | declaration hk hd =>
      rw [hk]
      exact returns_map.2 ⟨_, hd, rfl⟩
    | «for» hk hm hl hm' hf =>
      rw [hk]
      exact forForm_returns hf hm hl hm'
    | function hk hm hi hp hb =>
      rw [hk]
      simp only [keywordStatement, functionStatement, returns_bind, returns_advance, returns_finish,
        returns_pure]
      exact ⟨(), _, hm, _, _, hi, _, _, hp, _, t, hb, _, t, ⟨rfl, rfl⟩, rfl, rfl⟩

/-! ## Scripts -/

@[simp] theorem returns_tooDeep {a : α} : ¬ Returns tooDeep c s a t := by
  simp [tooDeep, returns_bind]

theorem returns_program {p : Program Span} :
    Returns (program R) c s p t ↔ ∃ body, Items (· == .endOfInput) (Returns R.statement c) s body t ∧
      body.length < c.budget ∧ p = ⟨t.since s.current.span.start, body⟩ := by
  simp only [program, returns_bind, returns_here, returns_upTo, returns_finish, returns_pure]
  constructor
  · rintro ⟨_, _, ⟨rfl, rfl⟩, body, _, ⟨hi, hn⟩, _, _, ⟨rfl, rfl⟩, rfl, rfl⟩
    exact ⟨body, hi, hn, rfl⟩
  · rintro ⟨body, hi, hn, rfl⟩
    exact ⟨_, s, ⟨rfl, rfl⟩, body, t, ⟨hi, hn⟩, _, t, ⟨rfl, rfl⟩, rfl, rfl⟩

/-- The state before the first token, from which the first step is taken like any other. -/
def State.Begins (source : List Char) (s : State) : Prop :=
  s.earlier = [] ∧ s.gap = Lexer.gap (Cursor.ofText source) ∧
    Lexer.next false (Cursor.ofText source) = (.ok s.current, s.cursor)

theorem run_eq_ok {source : List Char} {p : Program Span} :
    (run c source).result = .ok p ↔
      ∃ s t, s.Begins source ∧ Returns (program (readers c.limit)) c s p t := by
  simp only [run, State.Begins, Returns]
  cases hn : Lexer.next false (Cursor.ofText source) with
  | mk result cursor =>
    cases result with
    | error f => simp
    | ok token =>
      simp only [Prod.mk.injEq, Except.ok.injEq]
      constructor
      · intro h
        refine ⟨⟨token, Lexer.gap (Cursor.ofText source), [], cursor⟩, ?_⟩
        revert h
        cases program (readers c.limit) c ⟨token, Lexer.gap (Cursor.ofText source), [], cursor⟩ with
        | ok p' t =>
          intro h
          injection h with h
          subst h
          exact ⟨t, ⟨rfl, rfl, rfl, rfl⟩, rfl⟩
        | error f t => intro h; cases h
      · rintro ⟨⟨current, gap, earlier, cursor'⟩, t, ⟨rfl, rfl, rfl, rfl⟩, hp⟩
        rw [hp]

/-- The tokens of a finished run are those of its last state. -/
theorem run_tokens {source : List Char} {p : Program Span} (hb : s.Begins source)
    (h : Returns (program (readers c.limit)) c s p t) : (run c source).tokens = t.tokens := by
  obtain ⟨current, gap, earlier, cursor⟩ := s
  obtain ⟨he, hg, hn⟩ := hb
  subst he hg
  simp only [run, hn]
  rw [show program (readers c.limit) c ⟨current, Lexer.gap (Cursor.ofText source), [], cursor⟩ = _
    from h]

end ScriptTree.Parser

namespace ScriptTree

theorem parse_eq_ok {source : String} {maxDepth : Nat} {p : Program Location} :
    parse source maxDepth = .ok p ↔
      ∃ q, (Parser.run (Parser.Context.ofText source.toList maxDepth) source.toList).result = .ok q ∧
        p = q.locate source.toList := by
  simp only [parse, parseSpans]
  cases (Parser.run (Parser.Context.ofText source.toList maxDepth) source.toList).result with
  | ok q =>
    show Except.ok (q.locate source.toList) = .ok p ↔ _
    simp [eq_comm]
  | error f =>
    show Except.error _ = .ok p ↔ _
    simp

theorem exists_parse_of_isOk {source : String} {maxDepth : Nat}
    (h : (parse source maxDepth).isOk = true) : ∃ p, parse source maxDepth = .ok p := by
  cases hp : parse source maxDepth with
  | ok p => exact ⟨p, rfl⟩
  | error f =>
    rw [hp] at h
    cases h

end ScriptTree
