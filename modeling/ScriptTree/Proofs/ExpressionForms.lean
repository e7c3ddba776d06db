import ScriptTree.Proofs.Reading

/-! # Expressions, form by form

What the reader of expressions can have done when it returns, one constructor for each branch. Every
form is exactly as strong as the code: the laws go both ways. `R` reads the nested parts. -/
namespace ScriptTree.Parser

variable {R : Readers} {c : Context} {s t : State}

/-! ## Parts -/

theorem returns_identifier {i : Identifier Span} :
    Returns identifier c s i t ↔ ∃ name, s.current.kind = .identifier name ∧ Moves true s t ∧
      i = ⟨t.since s.current.span.start, name⟩ := by
  simp only [identifier, returns_bind, returns_here, returns_kind]
  constructor
  · rintro ⟨_, _, ⟨rfl, rfl⟩, _, _, ⟨rfl, rfl⟩, h⟩
    split at h
    · rename_i name hk
      simp only [returns_bind, returns_advance, returns_finish, returns_pure] at h
      obtain ⟨_, _, hm, _, _, ⟨rfl, rfl⟩, rfl, rfl⟩ := h
      exact ⟨name, hk, hm, rfl⟩
    · exact absurd h returns_unexpected
  · rintro ⟨name, hk, hm, rfl⟩
    refine ⟨_, s, ⟨rfl, rfl⟩, _, s, ⟨hk, rfl⟩, ?_⟩
    simp only [returns_bind, returns_advance, returns_finish, returns_pure]
    exact ⟨(), t, hm, _, t, ⟨rfl, rfl⟩, rfl, rfl⟩

theorem returns_literal {l : Literal Span} :
    Returns literal c s l t ↔ ∃ v, literalValue? s.current.kind = some v ∧ Moves true s t ∧
      l = ⟨t.since s.current.span.start, v⟩ := by
  simp only [literal, returns_bind, returns_here, returns_kind]
  constructor
  · rintro ⟨_, _, ⟨rfl, rfl⟩, _, _, ⟨rfl, rfl⟩, h⟩
    split at h
    · rename_i v hk
      simp only [returns_bind, returns_advance, returns_finish, returns_pure] at h
      obtain ⟨_, _, hm, _, _, ⟨rfl, rfl⟩, rfl, rfl⟩ := h
      exact ⟨v, hk, hm, rfl⟩
    · exact absurd h returns_unexpected
  · rintro ⟨v, hk, hm, rfl⟩
    refine ⟨_, s, ⟨rfl, rfl⟩, _, s, ⟨rfl, rfl⟩, ?_⟩
    simp only [hk, returns_bind, returns_advance, returns_finish, returns_pure]
    exact ⟨(), t, hm, _, t, ⟨rfl, rfl⟩, rfl, rfl⟩

theorem returns_block {b : Block Span} :
    Returns (block R) c s b t ↔ ∃ s₁ body s₂, s.current.kind = .leftBrace ∧ Moves false s s₁ ∧
      Items (· == .rightBrace) (Returns R.statement c) s₁ body s₂ ∧ body.length < c.budget ∧
      Moves false s₂ t ∧ b = .mk (t.since s.current.span.start) body := by
  simp only [block, returns_bind, returns_here, returns_eat, returns_upTo, returns_advance,
    returns_finish, returns_pure]
  constructor
  · rintro ⟨_, _, ⟨rfl, rfl⟩, _, s₁, ⟨hk, hm⟩, body, s₂, ⟨hi, hn⟩, _, _, hm', _, _, ⟨rfl, rfl⟩,
      rfl, rfl⟩
    exact ⟨s₁, body, s₂, hk, hm, hi, hn, hm', rfl⟩
  · rintro ⟨s₁, body, s₂, hk, hm, hi, hn, hm', rfl⟩
    exact ⟨_, s, ⟨rfl, rfl⟩, (), s₁, ⟨hk, hm⟩, body, s₂, ⟨hi, hn⟩, (), t, hm', _, t, ⟨rfl, rfl⟩,
      rfl, rfl⟩

theorem returns_parameters {ids : List (Identifier Span)} :
    Returns parameters c s ids t ↔ ∃ s₁, s.current.kind = .leftParen ∧ Moves false s s₁ ∧
      ClosedList .rightParen (Returns identifier c) s₁ ids t ∧ ids.length ≤ c.budget := by
  simp only [parameters, returns_bind, returns_eat, returns_closedList]
  constructor
  · rintro ⟨_, s₁, ⟨hk, hm⟩, hl, hn⟩
    exact ⟨s₁, hk, hm, hl, hn⟩
  · rintro ⟨s₁, hk, hm, hl, hn⟩
    exact ⟨(), s₁, ⟨hk, hm⟩, hl, hn⟩

/-- One expression, or several joined by commas. -/
inductive CommaForm (R : Readers) (c : Context) (forHead : Bool) (s : State) :
    Expr Span → State → Prop
  | single {e t} : Returns (R.expression 0 forHead) c s e t → t.current.kind ≠ .comma →
      0 < c.budget → CommaForm R c forHead s e t
  | joined {e u x xs t} : Returns (R.expression 0 forHead) c s e u →
      AfterCommas (Returns (R.expression 0 forHead) c) u (x :: xs) t →
      (x :: xs).length < c.budget →
      CommaForm R c forHead s (.sequence (t.since s.current.span.start) (e :: x :: xs)) t

theorem returns_commaExpression {forHead e} :
    Returns (commaExpression R forHead) c s e t ↔ CommaForm R c forHead s e t := by
  simp only [commaExpression, returns_bind, returns_here, returns_moreItems]
  constructor
  · rintro ⟨_, _, ⟨rfl, rfl⟩, first, u, hf, rest, v, ⟨hr, hn⟩, h⟩
    cases rest with
    | nil =>
      obtain ⟨rfl, rfl⟩ := returns_pure.1 h
      cases hr with
      | done hk => exact .single hf hk hn
    | cons x xs =>
      simp only [returns_bind, returns_finish, returns_pure] at h
      obtain ⟨_, _, ⟨rfl, rfl⟩, rfl, rfl⟩ := h
      exact .joined hf hr hn
  · intro h
    refine ⟨_, s, ⟨rfl, rfl⟩, ?_⟩
    cases h with
    | single hf hk hn => exact ⟨e, t, hf, [], t, ⟨.done hk, hn⟩, returns_pure.2 ⟨rfl, rfl⟩⟩
    | @joined first u x xs _ hf hr hn =>
      refine ⟨first, u, hf, x :: xs, t, ⟨hr, hn⟩, ?_⟩
      simp only [returns_bind, returns_finish, returns_pure]
      exact ⟨_, t, ⟨rfl, rfl⟩, rfl, rfl⟩

theorem returns_propertyKey {key : PropertyKey Span} :
    Returns propertyKey c s key t ↔
      (∃ i, Returns identifier c s i t ∧ key = .identifier i) ∨
      (∃ l, Returns literal c s l t ∧ key = .literal l) := by
  simp only [propertyKey, returns_bind, returns_kind]
  constructor
  · rintro ⟨_, _, ⟨rfl, rfl⟩, h⟩
    split at h
    · simp only [returns_bind, returns_pure] at h
      obtain ⟨i, _, hi, rfl, rfl⟩ := h
      exact .inl ⟨i, hi, rfl⟩
    · simp only [returns_bind, returns_pure] at h
      obtain ⟨l, _, hl, rfl, rfl⟩ := h
      exact .inr ⟨l, hl, rfl⟩
  · intro h
    refine ⟨_, s, ⟨rfl, rfl⟩, ?_⟩
    rcases h with ⟨i, hi, rfl⟩ | ⟨l, hl, rfl⟩
    · obtain ⟨name, hk, -⟩ := returns_identifier.1 hi
      rw [hk]
      simp only [returns_bind, returns_pure]
      exact ⟨i, t, hi, rfl, rfl⟩
    · obtain ⟨v, hv, -⟩ := returns_literal.1 hl
      split
      · rename_i hk
        rw [hk] at hv
        cases hv
      · simp only [returns_bind, returns_pure]
        exact ⟨l, t, hl, rfl, rfl⟩

theorem returns_property {p : Property Span} :
    Returns (property R) c s p t ↔ ∃ key s₁ s₂ value, Returns propertyKey c s key s₁ ∧
      s₁.current.kind = .colon ∧ Moves false s₁ s₂ ∧ Returns (R.expression 0 false) c s₂ value t ∧
      p = .mk (t.since s.current.span.start) key value := by
  simp only [property, returns_bind, returns_here, returns_eat, returns_finish, returns_pure]
  constructor
  · rintro ⟨_, _, ⟨rfl, rfl⟩, key, s₁, hkey, _, s₂, ⟨hk, hm⟩, value, _, hv, _, _, ⟨rfl, rfl⟩,
      rfl, rfl⟩
    exact ⟨key, s₁, s₂, value, hkey, hk, hm, hv, rfl⟩
  · rintro ⟨key, s₁, s₂, value, hkey, hk, hm, hv, rfl⟩
    exact ⟨_, s, ⟨rfl, rfl⟩, key, s₁, hkey, (), s₂, ⟨hk, hm⟩, value, t, hv, _, t, ⟨rfl, rfl⟩,
      rfl, rfl⟩

theorem returns_checkTarget {cause e offset u} :
    Returns (checkTarget cause e offset) c s u t ↔ e.isTarget = true ∧ s = t := by
  simp only [checkTarget, returns_ite]
  constructor
  · rintro (⟨_, h⟩ | ⟨he, h⟩)
    · exact absurd h returns_fault
    · exact ⟨by simpa using he, (returns_pure.1 h).2⟩
  · rintro ⟨he, rfl⟩
    exact .inr ⟨by simp [he], returns_pure.2 ⟨rfl, rfl⟩⟩

/-! ## Operands -/

/-- How an operand was read. A call under `new` gives its callee and its arguments. -/
inductive OperandForm (R : Readers) (c : Context) (s : State) : Expr Span → State → Prop
  | group {es} {s₁ s₂ t : State} : s.current.kind = .leftParen → Moves false s s₁ →
      Returns (separated (R.expression 0 false)) c s₁ es s₂ →
      s₂.current.kind = .rightParen → Moves true s₂ t →
      OperandForm R c s (.sequence (t.since s.current.span.start) es) t
  | array {es} {s₁ t : State} : s.current.kind = .leftBracket → Moves false s s₁ →
      Returns (closedList .rightBracket (R.expression 0 false)) c s₁ es t →
      OperandForm R c s (.array (t.since s.current.span.start) es) t
  | newCall {note f args} {s₁ t : State} : s.current.kind = .operator .new → Moves false s s₁ →
      Returns (R.expression 18 false) c s₁ (.call note f args) t →
      OperandForm R c s (.new (t.since s.current.span.start) f args) t
  | newPlain {f} {s₁ t : State} : s.current.kind = .operator .new → Moves false s s₁ →
      Returns (R.expression 18 false) c s₁ f t → (∀ note g args, f ≠ .call note g args) →
      OperandForm R c s (.new (t.since s.current.span.start) f []) t
  | unary {op e} {s₁ t : State} : s.current.kind = .operator op → op.canLead = true →
      op.isUpdate = false → Moves false s s₁ → Returns (R.expression 16 false) c s₁ e t →
      OperandForm R c s (.unary (t.since s.current.span.start) op e) t
  | update {op e} {s₁ t : State} : s.current.kind = .operator op → op.isUpdate = true → Moves false s s₁ →
      Returns (R.expression 16 false) c s₁ e t → e.isTarget = true →
      OperandForm R c s (.update (t.since s.current.span.start) op e true) t
  | literal {l} {t : State} : Returns literal c s l t → OperandForm R c s (.literal l) t
  | identifier {i} {t : State} : Returns identifier c s i t → OperandForm R c s (.identifier i) t
  | this {t : State} : s.current.kind = .this → Moves true s t →
      OperandForm R c s (.this (t.since s.current.span.start)) t
  | function {id params body} {s₁ s₂ s₃ t : State} : s.current.kind = .keyword .function →
      Moves false s s₁ →
      (id = none ∧ s₁ = s₂ ∧ (∀ name, s₁.current.kind ≠ .identifier name) ∨
        ∃ i, id = some i ∧ Returns identifier c s₁ i s₂) →
      Returns parameters c s₂ params s₃ → Returns (block R) c s₃ body t →
      OperandForm R c s (.function (t.since s.current.span.start) id params body) t
  | object {ps} {s₁ t : State} : s.current.kind = .leftBrace → Moves false s s₁ →
      Returns (closedList .rightBrace (property R)) c s₁ ps t →
      OperandForm R c s (.object (t.since s.current.span.start) ps) t

theorem of_new_leading : Priority.of .new .leading - 1 = 18 := rfl

/-- Every operator that may lead binds its operand equally strongly. -/
theorem of_leading {op : Operator} (h : op.canLead = true) : Priority.of op .leading = 16 := by
  cases op <;> first | rfl | cases h

theorem canLead_of_isUpdate {op : Operator} (h : op.isUpdate = true) : op.canLead = true := by
  cases op <;> first | rfl | cases h

theorem returns_construction {e} (hk : s.current.kind = .operator .new) :
    Returns (construction R) c s e t → OperandForm R c s e t := by
  simp only [construction, returns_bind, returns_here, returns_advance, returns_finish]
  rintro ⟨_, _, ⟨rfl, rfl⟩, _, s₁, hm, operand, u, ho, _, _, ⟨rfl, rfl⟩, h⟩
  rw [of_new_leading] at ho
  split at h
  · obtain ⟨rfl, rfl⟩ := returns_pure.1 h
    exact .newCall hk hm ho
  · rename_i hne
    obtain ⟨rfl, rfl⟩ := returns_pure.1 h
    exact .newPlain hk hm ho hne

theorem returns_leadingOperator {op e} :
    Returns (leadingOperator R op) c s e t ↔ op.canLead = true ∧ ∃ s₁ operand, Moves false s s₁ ∧
      Returns (R.expression 16 false) c s₁ operand t ∧
      (op.isUpdate = true ∧ operand.isTarget = true ∧
          e = .update (t.since s.current.span.start) op operand true ∨
        op.isUpdate = false ∧ e = .unary (t.since s.current.span.start) op operand) := by
  by_cases hl : op.canLead = true
  · simp only [leadingOperator, returns_bind, returns_here, returns_ite, returns_checkTarget,
      returns_finish, returns_pure, returns_advance, of_leading hl]
    constructor
    · rintro ⟨_, _, ⟨rfl, rfl⟩, ⟨hn, _⟩ | ⟨_, _, s₁, hm, _, _, ⟨rfl, rfl⟩, operand, u, ho, h⟩⟩
      · simp [hl] at hn
      · refine ⟨hl, s₁, operand, hm, ?_⟩
        rcases h with ⟨hu, _, _, ⟨ht, rfl⟩, _, _, ⟨rfl, rfl⟩, rfl, rfl⟩ |
          ⟨hu, _, _, ⟨rfl, rfl⟩, rfl, rfl⟩
        · exact ⟨ho, .inl ⟨hu, ht, rfl⟩⟩
        · exact ⟨ho, .inr ⟨by simpa using hu, rfl⟩⟩
    · rintro ⟨-, s₁, operand, hm, ho, h⟩
      refine ⟨_, s, ⟨rfl, rfl⟩, .inr ⟨by simp [hl], (), s₁, hm, _, s₁, ⟨rfl, rfl⟩, operand, t, ho, ?_⟩⟩
      rcases h with ⟨hu, ht, rfl⟩ | ⟨hu, rfl⟩
      · exact .inl ⟨hu, (), t, ⟨ht, rfl⟩, _, t, ⟨rfl, rfl⟩, rfl, rfl⟩
      · exact .inr ⟨by simp [hu], _, t, ⟨rfl, rfl⟩, rfl, rfl⟩
  · simp [leadingOperator, returns_bind, hl]

theorem returns_functionExpression {e} :
    Returns (functionExpression R) c s e t ↔ ∃ s₁ id s₂ params s₃ body, Moves false s s₁ ∧
      (id = none ∧ s₁ = s₂ ∧ (∀ name, s₁.current.kind ≠ .identifier name) ∨
        ∃ i, id = some i ∧ Returns identifier c s₁ i s₂) ∧
      Returns parameters c s₂ params s₃ ∧ Returns (block R) c s₃ body t ∧
      e = .function (t.since s.current.span.start) id params body := by
  simp only [functionExpression, returns_bind, returns_here, returns_advance, returns_kind]
  constructor
  · rintro ⟨_, _, ⟨rfl, rfl⟩, _, s₁, hm, _, _, ⟨rfl, rfl⟩, h⟩
    split at h
    · simp only [returns_bind, returns_map, returns_finish, returns_pure] at h
      obtain ⟨_, s₂, ⟨i, hi, rfl⟩, params, s₃, hp, body, _, hb, _, _, ⟨rfl, rfl⟩, rfl, rfl⟩ := h
      exact ⟨s₁, some i, s₂, params, s₃, body, hm, .inr ⟨i, rfl, hi⟩, hp, hb, rfl⟩
    · rename_i hne
      simp only [returns_bind, returns_finish, returns_pure] at h
      obtain ⟨_, s₂, ⟨rfl, rfl⟩, params, s₃, hp, body, _, hb, _, _, ⟨rfl, rfl⟩, rfl, rfl⟩ := h
      exact ⟨s₁, none, s₁, params, s₃, body, hm, .inl ⟨rfl, rfl, hne⟩, hp, hb, rfl⟩
  · rintro ⟨s₁, id, s₂, params, s₃, body, hm, hid, hp, hb, rfl⟩
    refine ⟨_, s, ⟨rfl, rfl⟩, (), s₁, hm, _, s₁, ⟨rfl, rfl⟩, ?_⟩
    rcases hid with ⟨rfl, rfl, hne⟩ | ⟨i, rfl, hi⟩
    · split
      · rename_i hk
        exact absurd hk (hne _)
      · simp only [returns_bind, returns_finish, returns_pure]
        exact ⟨_, s₁, ⟨rfl, rfl⟩, params, s₃, hp, body, t, hb, _, t, ⟨rfl, rfl⟩, rfl, rfl⟩
    · obtain ⟨name, hk, -⟩ := returns_identifier.1 hi
      rw [hk]
      simp only [returns_bind, returns_map, returns_finish, returns_pure]
      exact ⟨_, s₂, ⟨i, hi, rfl⟩, params, s₃, hp, body, t, hb, _, t, ⟨rfl, rfl⟩, rfl, rfl⟩

theorem returns_operand {e} : Returns (operand R) c s e t ↔ OperandForm R c s e t := by
  simp only [operand, returns_bind, returns_kind]
  constructor
  · rintro ⟨_, _, ⟨rfl, rfl⟩, h⟩
    split at h
    case h_1 hk =>
      simp only [group, returns_bind, returns_here, returns_eat, returns_close, returns_finish,
        returns_pure] at h
      obtain ⟨_, _, ⟨rfl, rfl⟩, _, s₁, ⟨-, hm⟩, es, s₂, hs, _, _, ⟨hl, hm'⟩, _, _, ⟨rfl, rfl⟩,
        rfl, rfl⟩ := h
      exact .group hk hm hs hl hm'
    case h_2 hk =>
      simp only [array, returns_bind, returns_here, returns_advance, returns_finish,
        returns_pure] at h
      obtain ⟨_, _, ⟨rfl, rfl⟩, _, s₁, hm, es, _, hs, _, _, ⟨rfl, rfl⟩, rfl, rfl⟩ := h
      exact .array hk hm hs
    case h_3 hk => exact returns_construction hk h
    case h_4 op _ hk =>
      obtain ⟨hl, s₁, operand, hm, ho, ⟨hu, ht, rfl⟩ | ⟨hu, rfl⟩⟩ := returns_leadingOperator.1 h
      · exact .update hk hu hm ho ht
      · exact .unary hk hl hu hm ho
    case h_11 hk =>
      obtain ⟨i, hi, rfl⟩ := returns_map.1 h
      exact .identifier hi
    case h_12 hk =>
      simp only [returns_bind, returns_here, returns_advance, returns_finish, returns_pure] at h
      obtain ⟨_, _, ⟨rfl, rfl⟩, _, _, hm, _, _, ⟨rfl, rfl⟩, rfl, rfl⟩ := h
      exact .this hk hm
    case h_13 hk =>
      obtain ⟨s₁, id, s₂, params, s₃, body, hm, hid, hp, hb, rfl⟩ := returns_functionExpression.1 h
      exact .function hk hm hid hp hb
    case h_14 hk =>
      simp only [object, returns_bind, returns_here, returns_advance, returns_finish,
        returns_pure] at h
      obtain ⟨_, _, ⟨rfl, rfl⟩, _, s₁, hm, ps, _, hs, _, _, ⟨rfl, rfl⟩, rfl, rfl⟩ := h
      exact .object hk hm hs
    case h_15 => exact absurd h returns_faultHere
    all_goals
      obtain ⟨l, hl, rfl⟩ := returns_map.1 h
      exact .literal hl
  · intro h
    refine ⟨_, s, ⟨rfl, rfl⟩, ?_⟩
    cases h with
    | group hk hm hs hl hm' =>
      rw [hk]
      simp only [group, returns_bind, returns_here, returns_eat, returns_close, returns_finish,
        returns_pure]
      exact ⟨_, s, ⟨rfl, rfl⟩, (), _, ⟨hk, hm⟩, _, _, hs, (), t, ⟨hl, hm'⟩, _, t, ⟨rfl, rfl⟩, rfl, rfl⟩
    | array hk hm hs =>
      rw [hk]
      simp only [array, returns_bind, returns_here, returns_advance, returns_finish, returns_pure]
      exact ⟨_, s, ⟨rfl, rfl⟩, (), _, hm, _, t, hs, _, t, ⟨rfl, rfl⟩, rfl, rfl⟩
    | newCall hk hm ho =>
      rw [hk]
      simp only [construction, returns_bind, returns_here, returns_advance, returns_finish]
      exact ⟨_, s, ⟨rfl, rfl⟩, (), _, hm, _, t, ho, _, t, ⟨rfl, rfl⟩, returns_pure.2 ⟨rfl, rfl⟩⟩
    | newPlain hk hm ho hne =>
      rw [hk]
      simp only [construction, returns_bind, returns_here, returns_advance, returns_finish]
      refine ⟨_, s, ⟨rfl, rfl⟩, (), _, hm, _, t, ho, _, t, ⟨rfl, rfl⟩, ?_⟩
      split
      · exact absurd rfl (hne _ _ _)
      · exact returns_pure.2 ⟨rfl, rfl⟩
    | @unary op _ _ _ hk hl hu hm ho =>
      have hr := returns_leadingOperator.2 ⟨hl, _, _, hm, ho, .inr ⟨hu, rfl⟩⟩
      rw [hk]
      cases op <;> first | exact hr | cases hl
    | @update op _ _ _ hk hu hm ho ht =>
      have hr := returns_leadingOperator.2
        ⟨canLead_of_isUpdate hu, _, _, hm, ho, .inl ⟨hu, ht, rfl⟩⟩
      rw [hk]
      cases op <;> first | exact hr | cases hu
    | literal hl =>
      obtain ⟨v, hv, -⟩ := returns_literal.1 hl
      have hr : Returns (Expr.literal <$> literal) c s _ t := returns_map.2 ⟨_, hl, rfl⟩
      revert hv
      cases s.current.kind <;> intro hv <;> first | exact hr | cases hv
    | identifier hi =>
      obtain ⟨name, hk, -⟩ := returns_identifier.1 hi
      rw [hk]
      exact returns_map.2 ⟨_, hi, rfl⟩
    | this hk hm =>
      rw [hk]
      simp only [returns_bind, returns_here, returns_advance, returns_finish, returns_pure]
      exact ⟨_, s, ⟨rfl, rfl⟩, (), t, hm, _, t, ⟨rfl, rfl⟩, rfl, rfl⟩
    | function hk hm hid hp hb =>
      rw [hk]
      exact returns_functionExpression.2 ⟨_, _, _, _, _, _, hm, hid, hp, hb, rfl⟩
    | object hk hm hs =>
      rw [hk]
      simp only [object, returns_bind, returns_here, returns_advance, returns_finish, returns_pure]
      exact ⟨_, s, ⟨rfl, rfl⟩, (), _, hm, _, t, hs, _, t, ⟨rfl, rfl⟩, rfl, rfl⟩

/-! ## What follows an operand -/

/-- How the expression `left`, which began at `start`, was carried on by a token of strength `q`. -/
inductive ExtendForm (R : Readers) (c : Context) (start : Nat) (forHead : Bool) (left : Expr Span)
    (q : Nat) (s : State) : Expr Span → State → Prop
  | call {args} {s₁ t : State} : s.current.kind = .leftParen → Moves false s s₁ →
      Returns (closedList .rightParen (R.expression 0 false)) c s₁ args t →
      ExtendForm R c start forHead left q s (.call (t.since start) left args) t
  | index {p} {s₁ s₂ t : State} : s.current.kind = .leftBracket → Moves false s s₁ →
      CommaForm R c false s₁ p s₂ → s₂.current.kind = .rightBracket → Moves true s₂ t →
      ExtendForm R c start forHead left q s (.member (t.since start) left p false) t
  | binary {op r} {s₁ t : State} : s.current.kind = .operator op → op.isBinary = true →
      Moves false s s₁ → Returns (R.expression q forHead) c s₁ r t →
      ExtendForm R c start forHead left q s (.binary (t.since start) op left r) t
  | assignment {op r} {s₁ t : State} : s.current.kind = .operator op → op.isAssignment = true →
      left.isTarget = true → Moves false s s₁ → Returns (R.expression (q - 1) forHead) c s₁ r t →
      ExtendForm R c start forHead left q s (.assignment (t.since start) op left r) t
  | logical {op r} {s₁ t : State} : s.current.kind = .operator op → op.isLogical = true →
      Moves false s s₁ → Returns (R.expression q forHead) c s₁ r t →
      ExtendForm R c start forHead left q s (.logical (t.since start) op left r) t
  | dot {p} {s₁ t : State} : s.current.kind = .operator .dot → Moves false s s₁ →
      Returns (R.expression q forHead) c s₁ p t →
      ExtendForm R c start forHead left q s (.member (t.since start) left p true) t
  | conditional {x y} {s₁ s₂ s₃ t : State} : s.current.kind = .operator .question →
      Moves false s s₁ → Returns (R.expression 0 forHead) c s₁ x s₂ → s₂.current.kind = .colon →
      Moves false s₂ s₃ → Returns (R.expression 0 forHead) c s₃ y t →
      ExtendForm R c start forHead left q s (.conditional (t.since start) left x y) t
  | update {op} {t : State} : s.current.kind = .operator op → op.isUpdate = true →
      left.isTarget = true → Moves true s t →
      ExtendForm R c start forHead left q s (.update (t.since start) op left false) t

theorem returns_afterOperator {start forHead left q op e} (hk : s.current.kind = .operator op) :
    Returns (afterOperator R start forHead left q op) c s e t →
      ExtendForm R c start forHead left q s e t := by
  simp only [afterOperator, returns_bind, returns_ite, returns_advance, returns_checkTarget,
    returns_eat, returns_finish, returns_pure]
  rintro (⟨ho, _, s₁, hm, r, _, hr, _, _, ⟨rfl, rfl⟩, rfl, rfl⟩ | ⟨-,
    ⟨ho, _, _, ⟨ht, rfl⟩, _, s₁, hm, r, _, hr, _, _, ⟨rfl, rfl⟩, rfl, rfl⟩ | ⟨-,
    ⟨ho, _, s₁, hm, r, _, hr, _, _, ⟨rfl, rfl⟩, rfl, rfl⟩ | ⟨-,
    ⟨rfl, _, s₁, hm, r, _, hr, _, _, ⟨rfl, rfl⟩, rfl, rfl⟩ | ⟨-,
    ⟨rfl, _, s₁, hm, x, s₂, hx, _, s₃, ⟨hc, hm'⟩, y, _, hy, _, _, ⟨rfl, rfl⟩, rfl, rfl⟩ | ⟨-,
    ⟨ho, _, _, ⟨ht, rfl⟩, _, _, hm, _, _, ⟨rfl, rfl⟩, rfl, rfl⟩ | ⟨-, h⟩⟩⟩⟩⟩⟩)
  · exact .binary hk ho hm hr
  · exact .assignment hk ho ht hm hr
  · exact .logical hk ho hm hr
  · exact .dot hk hm hr
  · exact .conditional hk hm hx hc hm' hy
  · exact .update hk ho ht hm
  · exact absurd h returns_faultHere

theorem returns_extend {start forHead left q e} :
    Returns (extend R start forHead left q) c s e t ↔
      ExtendForm R c start forHead left q s e t := by
  simp only [extend, returns_bind, returns_kind]
  constructor
  · rintro ⟨_, _, ⟨rfl, rfl⟩, h⟩
    split at h
    · rename_i hk
      simp only [returns_bind, returns_advance, returns_finish, returns_pure] at h
      obtain ⟨_, s₁, hm, args, _, ha, _, _, ⟨rfl, rfl⟩, rfl, rfl⟩ := h
      exact .call hk hm ha
    · rename_i hk
      simp only [returns_bind, returns_advance, returns_commaExpression, returns_close,
        returns_finish, returns_pure] at h
      obtain ⟨_, s₁, hm, p, s₂, hp, _, _, ⟨hl, hm'⟩, _, _, ⟨rfl, rfl⟩, rfl, rfl⟩ := h
      exact .index hk hm hp hl hm'
    · rename_i op hk
      exact returns_afterOperator hk h
    · exact absurd h returns_unexpected
  · intro h
    refine ⟨_, s, ⟨rfl, rfl⟩, ?_⟩
    cases h with
    | call hk hm ha =>
      rw [hk]
      simp only [returns_bind, returns_advance, returns_finish, returns_pure]
      exact ⟨(), _, hm, _, t, ha, _, t, ⟨rfl, rfl⟩, rfl, rfl⟩
    | index hk hm hp hl hm' =>
      rw [hk]
      simp only [returns_bind, returns_advance, returns_commaExpression, returns_close,
        returns_finish, returns_pure]
      exact ⟨(), _, hm, _, _, hp, (), t, ⟨hl, hm'⟩, _, t, ⟨rfl, rfl⟩, rfl, rfl⟩
    | binary hk ho hm hr =>
      rw [hk]
      simp only [afterOperator, ho, if_true, returns_bind, returns_advance, returns_finish,
        returns_pure]
      exact ⟨(), _, hm, _, t, hr, _, t, ⟨rfl, rfl⟩, rfl, rfl⟩
    | @assignment op _ _ _ hk ho ht hm hr =>
      have hb : op.isBinary = false := by cases op <;> first | rfl | cases ho
      rw [hk]
      simp only [afterOperator, hb, ho, if_true, returns_bind, returns_advance, returns_finish,
        returns_pure, returns_checkTarget, Bool.false_eq_true, if_false]
      exact ⟨(), s, ⟨ht, rfl⟩, (), _, hm, _, t, hr, _, t, ⟨rfl, rfl⟩, rfl, rfl⟩
    | @logical op _ _ _ hk ho hm hr =>
      have hb : op.isBinary = false ∧ op.isAssignment = false := by
        cases op <;> first | exact ⟨rfl, rfl⟩ | cases ho
      rw [hk]
      simp only [afterOperator, hb.1, hb.2, ho, if_true, returns_bind, returns_advance,
        returns_finish, returns_pure, Bool.false_eq_true, if_false]
      exact ⟨(), _, hm, _, t, hr, _, t, ⟨rfl, rfl⟩, rfl, rfl⟩
    | dot hk hm hr =>
      rw [hk]
      exact returns_bind.2 ⟨(), _, returns_advance.2 hm, returns_bind.2 ⟨_, t, hr,
        returns_bind.2 ⟨_, t, returns_finish.2 ⟨rfl, rfl⟩, returns_pure.2 ⟨rfl, rfl⟩⟩⟩⟩
    | conditional hk hm hx hc hm' hy =>
      rw [hk]
      exact returns_bind.2 ⟨(), _, returns_advance.2 hm, returns_bind.2 ⟨_, _, hx,
        returns_bind.2 ⟨(), _, returns_eat.2 ⟨hc, hm'⟩, returns_bind.2 ⟨_, t, hy,
        returns_bind.2 ⟨_, t, returns_finish.2 ⟨rfl, rfl⟩, returns_pure.2 ⟨rfl, rfl⟩⟩⟩⟩⟩⟩
    | @update op _ hk ho ht hm =>
      have hb : op.isBinary = false ∧ op.isAssignment = false ∧ op.isLogical = false ∧
          op ≠ .dot ∧ op ≠ .question := by
        cases op <;> first | exact ⟨rfl, rfl, rfl, by decide, by decide⟩ | cases ho
      rw [hk]
      simp only [afterOperator, hb, ho, if_true, returns_bind, returns_advance, returns_finish,
        returns_pure, returns_checkTarget, Bool.false_eq_true, if_false]
      exact ⟨(), s, ⟨ht, rfl⟩, (), t, hm, _, t, ⟨rfl, rfl⟩, rfl, rfl⟩

/-! ## Whole expressions -/

/-- How `left` was carried on, token by token, until a token did not bind tightly enough: `n` times,
from the state `s` on. -/
inductive Extended (R : Readers) (c : Context) (start floor : Nat) (forHead : Bool) :
    (n : Nat) → (left : Expr Span) → (s : State) → Expr Span → State → Prop
  | stop {e} {s : State} : continuation? floor forHead s.current.kind = none →
      Extended R c start floor forHead 0 e s e s
  | more {n left q e r} {s t u : State} : continuation? floor forHead s.current.kind = some q →
      ExtendForm R c start forHead left q s e t → Extended R c start floor forHead n e t r u →
      Extended R c start floor forHead (n + 1) left s r u

/-- The token that stopped it does not carry the expression on. -/
theorem Extended.ended {start floor forHead n left e}
    (h : Extended R c start floor forHead n left s e t) :
    continuation? floor forHead t.current.kind = none := by
  induction h with
  | stop hc => exact hc
  | more _ _ _ ih => exact ih

theorem continuation?_eq_some {floor forHead k q} :
    continuation? floor forHead k = some q ↔
      k.priority? = some q ∧ floor < q ∧ (forHead = true → k ≠ .operator .in) := by
  cases forHead <;> simp [continuation?, Option.filter_eq_some_iff]

theorem returns_extendAll {start floor forHead fuel left e} :
    Returns (extendAll R start floor forHead fuel left) c s e t ↔
      ∃ n, n < fuel ∧ Extended R c start floor forHead n left s e t := by
  induction fuel generalizing s left with
  | zero => simp [extendAll]
  | succ fuel ih =>
    simp only [extendAll, returns_bind, returns_kind]
    constructor
    · rintro ⟨_, _, ⟨rfl, rfl⟩, h⟩
      split at h
      · rename_i hc
        obtain ⟨rfl, rfl⟩ := returns_pure.1 h
        exact ⟨0, by omega, .stop hc⟩
      · rename_i q hc
        obtain ⟨e₁, s₁, he, hr⟩ := returns_bind.1 h
        obtain ⟨n, hn, hx⟩ := ih.1 hr
        exact ⟨n + 1, by omega, .more hc (returns_extend.1 he) hx⟩
    · rintro ⟨n, hn, hx⟩
      refine ⟨_, s, ⟨rfl, rfl⟩, ?_⟩
      cases hx with
      | stop hc =>
        simp only [hc]
        exact returns_pure.2 ⟨rfl, rfl⟩
      | @more n _ q e₁ _ _ s₁ _ hc he hx =>
        simp only [hc]
        exact returns_bind.2 ⟨e₁, s₁, returns_extend.2 he, ih.2 ⟨n, by omega, hx⟩⟩

theorem returns_expression {floor forHead e} :
    Returns (expression R floor forHead) c s e t ↔ ∃ first u n, OperandForm R c s first u ∧
      Extended R c s.current.span.start floor forHead n first u e t ∧ n < c.budget := by
  simp only [expression, returns_bind, returns_here, returns_operand, returns_read,
    returns_extendAll]
  constructor
  · rintro ⟨_, _, ⟨rfl, rfl⟩, first, u, ho, _, _, ⟨rfl, rfl⟩, n, hn, hx⟩
    exact ⟨first, u, n, ho, hx, hn⟩
  · rintro ⟨first, u, n, ho, hx, hn⟩
    exact ⟨_, s, ⟨rfl, rfl⟩, first, u, ho, c, u, ⟨rfl, rfl⟩, n, hn, hx⟩

end ScriptTree.Parser
