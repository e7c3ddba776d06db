import ScriptTree.Proofs.StatementForms

/-! # Reading goes forward

A reader moves through the tokens one at a time and never goes back. A statement or an expression
begins with a token that is not the end of input, and takes it. So a list of them is not longer than
the tokens it was read from, whatever fuel it was given. -/
namespace ScriptTree.Parser

/-- Some tokens further. -/
inductive Reaches (s : State) : State → Prop
  | refl : Reaches s s
  | step {flag t u} : Reaches s t → Moves flag t u → Reaches s u

/-- How many tokens have been taken, not counting ends of input. -/
def State.rank (s : State) : Nat := (s.earlier.filter (·.kind ≠ .endOfInput)).length

/-- Readers that take a token whenever they return. -/
structure Taking (R : Readers) : Prop where
  statement ⦃c s x t⦄ : Returns R.statement c s x t → s.rank < t.rank
  expression ⦃floor forHead c s e t⦄ : Returns (R.expression floor forHead) c s e t →
    s.rank < t.rank

/-- Readers that do not return from the end of input. -/
structure Starting (R : Readers) : Prop where
  statement ⦃c s x t⦄ : Returns R.statement c s x t → s.current.kind ≠ .endOfInput
  expression ⦃floor forHead c s e t⦄ : Returns (R.expression floor forHead) c s e t →
    s.current.kind ≠ .endOfInput

variable {R : Readers} {c : Context} {s t u : State}

theorem Moves.reaches {flag} (h : Moves flag s t) : Reaches s t := .step .refl h

theorem Reaches.trans (h : Reaches s t) (h' : Reaches t u) : Reaches s u := by
  induction h' with
  | refl => exact h
  | step _ hm ih => exact ih.step hm

theorem Moves.rank_le {flag} (h : Moves flag s t) : s.rank ≤ t.rank := by
  rw [State.rank, State.rank, h.earlier, List.filter_cons]
  split
  · exact Nat.le_succ _
  · exact Nat.le_refl _

theorem Moves.rank_lt {flag} (h : Moves flag s t) (hk : s.current.kind ≠ .endOfInput) :
    s.rank < t.rank := by
  rw [State.rank, State.rank, h.earlier, List.filter_cons, if_pos (decide_eq_true hk)]
  exact Nat.lt_succ_self _

theorem Reaches.rank_le (h : Reaches s t) : s.rank ≤ t.rank := by
  induction h with
  | refl => exact Nat.le_refl _
  | step _ hm ih => exact Nat.le_trans ih hm.rank_le

/-! ## The first token -/

theorem operand_starts {e} (h : OperandForm R c s e t) : s.current.kind ≠ .endOfInput := by
  cases h with
  | literal hl =>
    obtain ⟨v, hv, -⟩ := returns_literal.1 hl
    intro hk
    rw [hk] at hv
    cases hv
  | identifier hi =>
    obtain ⟨name, hk, -⟩ := returns_identifier.1 hi
    rw [hk]
    nofun
  | group hk | array hk | newCall hk | newPlain hk | unary hk | update hk | this hk | function hk
  | object hk =>
    rw [hk]
    nofun

theorem commaForm_starts (hR : Starting R) {forHead e} (h : CommaForm R c forHead s e t) :
    s.current.kind ≠ .endOfInput := by
  cases h with
  | single he _ _ => exact hR.expression he
  | joined he _ _ => exact hR.expression he

theorem statement_starts (hR : Starting R) {stacked x} (h : StatementForm R c stacked s x t) :
    s.current.kind ≠ .endOfInput := by
  cases h with
  | expression _ he _ _ => exact commaForm_starts hR he
  | labeled _ he _ _ _ _ => exact commaForm_starts hR he
  | empty hk | block hk | «if» hk | debugger hk | «with» hk | «return» hk | throw hk | jump hk
  | switch hk | «try» hk | «while» hk | doWhile hk | declaration hk | «for» hk | function hk =>
    rw [hk]
    nofun

theorem readers_starting (n : Nat) : Starting (readers n) := by
  induction n with
  | zero =>
    constructor
    · intro c s x t h
      exact absurd h returns_tooDeep
    · intro floor forHead c s e t h
      exact absurd h returns_tooDeep
  | succ n ih =>
    constructor
    · intro c s x t h
      exact statement_starts ih (returns_statement.1 h)
    · intro floor forHead c s e t h
      obtain ⟨first, u, m, ho, -⟩ := returns_expression.1 h
      exact operand_starts ho

/-- Only a token of some strength carries an expression on. -/
theorem continuation_starts {floor forHead q} {k : TokenKind}
    (h : continuation? floor forHead k = some q) : k ≠ .endOfInput := by
  rintro rfl
  cases (continuation?_eq_some.1 h).1

theorem switchCase_starts {x} (h : Returns (switchCase R) c s x t) :
    s.current.kind ≠ .endOfInput := by
  obtain ⟨test, s₁, s₂, body, hh, -⟩ := returns_switchCase.1 h
  cases hh with
  | case hk | default hk =>
    rw [hk]
    nofun

end ScriptTree.Parser
