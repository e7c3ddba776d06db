import ScriptTree.Proofs.Nodes

/-! # Trees are grouped by binding strength

A construct that takes an operand on its left has a strength, and one that ends in an operand has a
bound: what stands at its end binds tighter than that. Reading keeps two facts about the expression
read so far. What it begins with binds tighter than the floor, and what it ends with has let the
current token pass, because each nested reader stopped at that same token. -/
namespace ScriptTree

/-- The strength of a construct that goes on from an operand on its left, with that operand. -/
def Expr.leftOperand? : Expr α → Option (Nat × Expr α)
  | .binary _ op l _ | .logical _ op l _ | .assignment _ op l _ =>
    some (Priority.of op .trailing, l)
  | .conditional _ t _ _ => some (4, t)
  | .member _ o _ _ => some (19, o)
  | .call _ f _ => some (20, f)
  | .update _ _ e false => some (17, e)
  | _ => none

/-- The bound of a construct that ends in an operand, with that operand. -/
def Expr.endOperand? : Expr α → Option (Nat × Expr α)
  | .binary _ op _ r | .logical _ op _ r => some (Priority.of op .trailing, r)
  | .assignment _ _ _ r => some (2, r)
  | .conditional _ _ _ y => some (0, y)
  | .member _ _ p true => some (19, p)
  | .unary _ _ e | .update _ _ e true => some (16, e)
  | .new _ f _ => some (18, f)
  | _ => none

/-- The strengths met from an expression on by going to the left operand again and again. -/
def Expr.leftStrengths : Expr α → List Nat
  | .binary _ op l _ | .logical _ op l _ | .assignment _ op l _ =>
    Priority.of op .trailing :: l.leftStrengths
  | .conditional _ t _ _ => 4 :: t.leftStrengths
  | .member _ o _ _ => 19 :: o.leftStrengths
  | .call _ f _ => 20 :: f.leftStrengths
  | .update _ _ e false => 17 :: e.leftStrengths
  | _ => []

/-- The bounds met by going to the operand at the end again and again. A construction is the last
one: its arguments may close it. -/
def Expr.endBounds : Expr α → List Nat
  | .binary _ op _ r | .logical _ op _ r => Priority.of op .trailing :: r.endBounds
  | .assignment _ _ _ r => 2 :: r.endBounds
  | .conditional _ _ _ y => 0 :: y.endBounds
  | .member _ _ p true => 19 :: p.endBounds
  | .unary _ _ e | .update _ _ e true => 16 :: e.endBounds
  | .new _ _ _ => [18]
  | _ => []

/-- An expression is graded if everything open at the end of its left operand binds at least as
tightly as the expression takes it, and everything its last operand begins with binds tighter than
the bound. -/
def Expr.Graded (e : Expr α) : Prop :=
  (∀ q l, e.leftOperand? = some (q, l) → ∀ b ∈ l.endBounds, q ≤ b) ∧
    ∀ b r, e.endOperand? = some (b, r) → ∀ q ∈ r.leftStrengths, b < q

theorem Expr.leftStrengths_map (f : α → β) : ∀ e : Expr α,
    (e.map f).leftStrengths = e.leftStrengths
  | .binary _ op l _ | .logical _ op l _ | .assignment _ op l _ | .conditional _ l _ _
  | .member _ l _ _ | .call _ l _ | .update _ _ l false => by
    simp [Expr.map, Expr.leftStrengths, Expr.leftStrengths_map f l]
  | .update _ _ _ true | .identifier _ | .literal _ | .this _ | .array _ _ | .object _ _
  | .function _ _ _ _ | .unary _ _ _ | .new _ _ _ | .sequence _ _ => rfl

theorem Expr.endBounds_map (f : α → β) : ∀ e : Expr α, (e.map f).endBounds = e.endBounds
  | .binary _ _ _ r | .logical _ _ _ r | .assignment _ _ _ r | .conditional _ _ _ r
  | .member _ _ r true | .unary _ _ r | .update _ _ r true => by
    simp [Expr.map, Expr.endBounds, Expr.endBounds_map f r]
  | .member _ _ _ false | .update _ _ _ false | .identifier _ | .literal _ | .this _ | .array _ _
  | .object _ _ | .function _ _ _ _ | .call _ _ _ | .new _ _ _ | .sequence _ _ => rfl

theorem Expr.leftOperand?_map (f : α → β) (e : Expr α) :
    (e.map f).leftOperand? = e.leftOperand?.map fun (q, l) => (q, l.map f) := by
  rcases e with _ | _ | _ | _ | _ | _ | _ | ⟨_, _, _, _ | _⟩ | _ | _ | _ | _ | _ | _ | _ | _ <;> rfl

theorem Expr.endOperand?_map (f : α → β) (e : Expr α) :
    (e.map f).endOperand? = e.endOperand?.map fun (b, r) => (b, r.map f) := by
  rcases e with _ | _ | _ | _ | _ | _ | _ | ⟨_, _, _, _ | _⟩ | _ | _ | _ | _ | ⟨_, _, _, _ | _⟩ |
    _ | _ | _ <;> rfl

/-- How an expression is grouped does not depend on the notes. -/
theorem Expr.Graded.map {e : Expr α} (f : α → β) (h : e.Graded) : (e.map f).Graded := by
  constructor
  · intro q l hl b hb
    rw [Expr.leftOperand?_map, Option.map_eq_some_iff] at hl
    obtain ⟨⟨q, l⟩, hl, ⟨⟩⟩ := hl
    rw [Expr.endBounds_map] at hb
    exact h.1 q l hl b hb
  · intro b r hr q hq
    rw [Expr.endOperand?_map, Option.map_eq_some_iff] at hr
    obtain ⟨⟨b, r⟩, hr, ⟨⟩⟩ := hr
    rw [Expr.leftStrengths_map] at hq
    exact h.2 b r hr q hq

namespace Parser

theorem continuation?_eq_none {floor forHead k} :
    continuation? floor forHead k = none ↔
      ∀ q, k.priority? = some q → (forHead = true → k ≠ .operator .in) → q ≤ floor := by
  constructor
  · intro h q hq hin
    rcases Nat.lt_or_ge floor q with hlt | hle
    · have hs := continuation?_eq_some.2 ⟨hq, hlt, hin⟩
      rw [h] at hs
      cases hs
    · exact hle
  · intro h
    rcases hc : continuation? floor forHead k with _ | q
    · rfl
    · obtain ⟨hq, hlt, hin⟩ := continuation?_eq_some.1 hc
      have := h q hq hin
      omega

/-- What holds of an expression read so far, when the current token is `k`: it begins tighter than
the floor, and all that is open at its end has let `k` pass. -/
def Settled (floor : Nat) (forHead : Bool) (e : Expr Span) (k : TokenKind) : Prop :=
  (∀ q ∈ e.leftStrengths, floor < q) ∧
    ∀ q, k.priority? = some q → (forHead = true → k ≠ .operator .in) → ∀ b ∈ e.endBounds, q ≤ b

/-- An operand begins with no construct that goes on from its left. -/
theorem OperandForm.leftStrengths {R c s e t} (h : OperandForm R c s e t) :
    e.leftStrengths = [] ∧ e.leftOperand? = none := by
  cases h <;> exact ⟨rfl, rfl⟩

/-- An operand that was read behind a bound, seen from the token that ended it. -/
theorem Settled.behind {bound forHead e k} (h : Settled bound forHead e k)
    (hc : continuation? bound forHead k = none) {q : Nat} (hq : k.priority? = some q)
    (hin : forHead = true → k ≠ .operator .in) : ∀ b ∈ bound :: e.endBounds, q ≤ b :=
  List.forall_mem_cons.2 ⟨continuation?_eq_none.1 hc q hq hin, h.2 q hq hin⟩

/-- A construct that goes on from `left` and takes nothing behind itself. -/
theorem Settled.closed {floor forHead left s q e k} (h : Settled floor forHead left s)
    (hc : continuation? floor forHead s = some q) (hl : e.leftOperand? = some (q, left))
    (hs : e.leftStrengths = q :: left.leftStrengths) (he : e.endOperand? = none)
    (hb : e.endBounds = []) : e.Graded ∧ Settled floor forHead e k := by
  obtain ⟨hq, hlt, hin⟩ := continuation?_eq_some.1 hc
  refine ⟨⟨?_, by simp [he]⟩, ?_, by simp [hb]⟩
  · intro q' l' hl' b hb
    rw [hl] at hl'
    cases hl'
    exact h.2 q hq hin b hb
  · rw [hs]
    exact List.forall_mem_cons.2 ⟨hlt, h.1⟩

/-- A construct that goes on from `left` and ends in the operand `r`, read behind `bound`. -/
theorem Settled.open {floor forHead left s q e k bound r} (h : Settled floor forHead left s)
    (hc : continuation? floor forHead s = some q) (hl : e.leftOperand? = some (q, left))
    (hs : e.leftStrengths = q :: left.leftStrengths) (he : e.endOperand? = some (bound, r))
    (hb : e.endBounds = bound :: r.endBounds) (hr : Settled bound forHead r k)
    (hn : continuation? bound forHead k = none) : e.Graded ∧ Settled floor forHead e k := by
  obtain ⟨hq, hlt, hin⟩ := continuation?_eq_some.1 hc
  refine ⟨⟨?_, ?_⟩, ?_, ?_⟩
  · intro q' l' hl' b hb
    rw [hl] at hl'
    cases hl'
    exact h.2 q hq hin b hb
  · intro b r' hr' q' hq'
    rw [he] at hr'
    cases hr'
    exact hr.1 q' hq'
  · rw [hs]
    exact List.forall_mem_cons.2 ⟨hlt, h.1⟩
  · intro q' hq' hin'
    rw [hb]
    exact hr.behind hn hq' hin'

/-- The strength of a token, when the operator it shows is known. -/
theorem eq_of_continuation? {floor forHead k q q'} (h : continuation? floor forHead k = some q)
    (hk : k.priority? = some q') : q = q' := by
  have hq := (continuation?_eq_some.1 h).1
  rw [hk] at hq
  exact (Option.some.inj hq).symm

theorem of_assignment {op : Operator} (h : op.isAssignment = true) :
    Priority.of op .trailing = 3 := by
  cases op <;> first | rfl | cases h

theorem of_update {op : Operator} (h : op.isUpdate = true) : Priority.of op .trailing = 17 := by
  cases op <;> first | rfl | cases h

theorem operand_graded {R c s e t} (floor : Nat) (forHead : Bool) (hR : Ended Settled R)
    (h : OperandForm R c s e t) : e.Graded ∧ Settled floor forHead e t.current.kind := by
  obtain ⟨hs, hl⟩ := h.leftStrengths
  -- An operator in front hides the head of a loop from its operand, so `in` is like any other.
  have leading {bound e'} (he : e.endOperand? = some (bound, e')) (hb : e.endBounds = bound :: e'.endBounds)
      {s₁} (hr : Returns (R.expression bound false) c s₁ e' t) :
      e.Graded ∧ Settled floor forHead e t.current.kind := by
    obtain ⟨hj, hn⟩ := hR hr
    refine ⟨⟨by simp [hl], ?_⟩, by simp [hs], ?_⟩
    · intro b r hr' q hq
      rw [he] at hr'
      cases hr'
      exact hj.1 q hq
    · intro q hq _
      rw [hb]
      exact hj.behind hn hq (by simp)
  have plain (he : e.endOperand? = none) (hb : e.endBounds = []) :
      e.Graded ∧ Settled floor forHead e t.current.kind :=
    ⟨⟨by simp [hl], by simp [he]⟩, by simp [hs], by simp [hb]⟩
  cases h with
  | unary _ _ _ _ he => exact leading rfl rfl he
  | update _ _ _ he _ => exact leading rfl rfl he
  | @newCall _ f args _ _ _ _ he =>
    obtain ⟨hj, hn⟩ := hR he
    refine ⟨⟨by simp [hl], ?_⟩, by simp [hs], ?_⟩
    · intro b r hr q hq
      cases hr
      exact hj.1 q (List.mem_cons_of_mem _ hq)
    · intro q hq _ b hb
      obtain rfl := List.mem_singleton.1 hb
      exact continuation?_eq_none.1 hn q hq (by simp)
  | newPlain _ _ he _ =>
    obtain ⟨hj, hn⟩ := hR he
    refine ⟨⟨by simp [hl], ?_⟩, by simp [hs], ?_⟩
    · intro b r hr q hq
      cases hr
      exact hj.1 q hq
    · intro q hq _ b hb
      obtain rfl := List.mem_singleton.1 hb
      exact continuation?_eq_none.1 hn q hq (by simp)
  | _ => exact plain rfl rfl

theorem extend_graded {R c start floor forHead left q s e t} (hR : Ended Settled R)
    (hj : Settled floor forHead left s.current.kind)
    (hc : continuation? floor forHead s.current.kind = some q)
    (h : ExtendForm R c start forHead left q s e t) :
    e.Graded ∧ Settled floor forHead e t.current.kind := by
  have strength {q'} (hk : s.current.kind.priority? = some q') : q = q' := eq_of_continuation? hc hk
  cases h with
  | call hk _ _ =>
    obtain rfl : q = 20 := strength (by rw [hk]; rfl)
    exact hj.closed hc rfl rfl rfl rfl
  | index hk _ _ _ _ =>
    obtain rfl : q = 19 := strength (by rw [hk]; rfl)
    exact hj.closed hc rfl rfl rfl rfl
  | @binary op _ _ _ hk _ _ hr | @logical op _ _ _ hk _ _ hr =>
    obtain rfl : q = Priority.of op .trailing := strength (by rw [hk]; rfl)
    obtain ⟨hr, hn⟩ := hR hr
    exact hj.open hc rfl rfl rfl rfl hr hn
  | assignment hk ho _ _ hr =>
    obtain rfl : q = 3 := strength (by rw [hk, TokenKind.priority?, of_assignment ho])
    obtain ⟨hr, hn⟩ := hR hr
    refine hj.open hc ?_ ?_ rfl rfl hr hn
    · rw [Expr.leftOperand?, of_assignment ho]
    · rw [Expr.leftStrengths, of_assignment ho]
  | dot hk _ hr =>
    obtain rfl : q = 19 := strength (by rw [hk]; rfl)
    obtain ⟨hr, hn⟩ := hR hr
    exact hj.open hc rfl rfl rfl rfl hr hn
  | conditional hk _ _ _ _ hy =>
    obtain rfl : q = 4 := strength (by rw [hk]; rfl)
    obtain ⟨hy, hn⟩ := hR hy
    exact hj.open hc rfl rfl rfl rfl hy hn
  | update hk ho _ _ =>
    obtain rfl : q = 17 := strength (by rw [hk, TokenKind.priority?, of_update ho])
    exact hj.closed hc rfl rfl rfl rfl

/-- Grading is a local law: each production establishes it for the node it builds. -/
theorem graded_local : Local Expr.Graded Settled where
  operand floor forHead hR h := operand_graded floor forHead hR h
  extend hR hj hc h := extend_graded hR hj hc h
  sequence := ⟨by simp [Expr.leftOperand?], by simp [Expr.endOperand?]⟩

end Parser

/-- Every tree is grouped by binding strength: at each of its expressions, what the left operand
ends with binds at least as tightly as the expression, and what the last operand begins with binds
tighter than the bound. -/
theorem parse_graded {source : String} {maxDepth : Nat} {p : Program Location}
    (h : parse source maxDepth = .ok p) : ∀ e ∈ p.nodes, e.Graded := by
  obtain ⟨q, hq, rfl⟩ := parse_eq_ok.1 h
  intro e he
  rw [Program.locate, Program.nodes_map, List.mem_map] at he
  obtain ⟨e₀, he₀, rfl⟩ := he
  exact (Parser.run_obeys Parser.graded_local hq e₀ he₀).map _

/-- A script where a call, a construction, an assignment and signs meet. -/
theorem parse_graded_mixed : ∃ p, parse "l: x = -y * new z(a).b" 9 = .ok p ∧
    ∀ e ∈ p.nodes, e.Graded := by
  have hok : (parse "l: x = -y * new z(a).b" 9).isOk = true := by decide +kernel
  obtain ⟨p, hp⟩ := exists_parse_of_isOk hok
  exact ⟨p, hp, parse_graded hp⟩

end ScriptTree
