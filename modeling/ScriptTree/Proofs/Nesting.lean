import ScriptTree.Proofs.Precedence
import ScriptTree.Proofs.Tokens

/-! # How high a tree can be

The bound on nesting counts reads inside reads. What an operator, a call or an index carries on is
read by a loop and costs no level, so a tree can be higher than any bound. Every other step into a
part is limited. Most cost a level each, a list of expressions is one more node in a level, and so is
one assignment or one conditional: what it takes behind itself lets no token pass that could carry it
on. -/
namespace ScriptTree

mutual
/-- The longest chain of nested statements and expressions. A step from a binary or logical
operation, a member, a call or an update that follows its operand to the part it carries on counts
`left`, any other step counts one. -/
def Expr.nesting (left : Nat) : Expr α → Nat
  | .identifier _ | .literal _ | .this _ => 1
  | .array _ es | .sequence _ es => Expr.nestingList left es + 1
  | .object _ ps => Property.nestingList left ps + 1
  | .function _ _ _ body => body.nesting left + 1
  | .unary _ _ e | .update _ _ e true => e.nesting left + 1
  | .update _ _ e false => e.nesting left + left
  | .binary _ _ l r | .logical _ _ l r | .member _ l r _ =>
    max (l.nesting left + left) (r.nesting left + 1)
  | .assignment _ _ l r => max (l.nesting left) (r.nesting left) + 1
  | .conditional _ t x y => max (t.nesting left) (max (x.nesting left) (y.nesting left)) + 1
  | .call _ f es => max (f.nesting left + left) (Expr.nestingList left es + 1)
  | .new _ f es => max (f.nesting left) (Expr.nestingList left es) + 1
def Expr.nestingList (left : Nat) : List (Expr α) → Nat
  | [] => 0
  | e :: es => max (e.nesting left) (Expr.nestingList left es)
def Expr.nestingOption (left : Nat) : Option (Expr α) → Nat
  | none => 0
  | some e => e.nesting left
def Property.nesting (left : Nat) : Property α → Nat
  | .mk _ _ value => value.nesting left
def Property.nestingList (left : Nat) : List (Property α) → Nat
  | [] => 0
  | p :: ps => max (p.nesting left) (Property.nestingList left ps)
def Block.nesting (left : Nat) : Block α → Nat
  | .mk _ body => Stmt.nestingList left body
def Block.nestingOption (left : Nat) : Option (Block α) → Nat
  | none => 0
  | some b => b.nesting left
def Declarator.nesting (left : Nat) : Declarator α → Nat
  | .mk _ _ init => Expr.nestingOption left init
def Declarator.nestingList (left : Nat) : List (Declarator α) → Nat
  | [] => 0
  | d :: ds => max (d.nesting left) (Declarator.nestingList left ds)
def Declaration.nesting (left : Nat) : Declaration α → Nat
  | .mk _ ds => Declarator.nestingList left ds
def SwitchCase.nesting (left : Nat) : SwitchCase α → Nat
  | .mk _ test body => max (Expr.nestingOption left test) (Stmt.nestingList left body)
def SwitchCase.nestingList (left : Nat) : List (SwitchCase α) → Nat
  | [] => 0
  | c :: cs => max (c.nesting left) (SwitchCase.nestingList left cs)
def CatchClause.nesting (left : Nat) : CatchClause α → Nat
  | .mk _ _ body => body.nesting left
def CatchClause.nestingOption (left : Nat) : Option (CatchClause α) → Nat
  | none => 0
  | some c => c.nesting left
def ForInit.nesting (left : Nat) : ForInit α → Nat
  | .declaration d => d.nesting left
  | .expression e => e.nesting left
def ForInit.nestingOption (left : Nat) : Option (ForInit α) → Nat
  | none => 0
  | some i => i.nesting left
def ForTarget.nesting (left : Nat) : ForTarget α → Nat
  | .declaration d => d.nesting left
  | .identifier _ => 0
def Stmt.nesting (left : Nat) : Stmt α → Nat
  | .empty _ | .debugger _ | .break _ _ | .continue _ _ => 1
  | .block b => b.nesting left + 1
  | .expression _ e | .throw _ e => e.nesting left + 1
  | .declaration d => d.nesting left + 1
  | .if _ t x y => max (max (t.nesting left) (x.nesting left)) (Stmt.nestingOption left y) + 1
  | .with _ e b | .while _ e b | .doWhile _ b e => max (e.nesting left) (b.nesting left) + 1
  | .return _ e => Expr.nestingOption left e + 1
  | .switch _ e cs => max (e.nesting left) (SwitchCase.nestingList left cs) + 1
  | .try _ b h f =>
    max (max (b.nesting left) (CatchClause.nestingOption left h)) (Block.nestingOption left f) + 1
  | .for _ i t u b =>
    max (max (max (ForInit.nestingOption left i) (Expr.nestingOption left t))
      (Expr.nestingOption left u)) (b.nesting left) + 1
  | .forIn _ t e b => max (max (t.nesting left) (e.nesting left)) (b.nesting left) + 1
  | .function _ _ _ body => body.nesting left + 1
  | .labeled _ _ b => b.nesting left + 1
def Stmt.nestingOption (left : Nat) : Option (Stmt α) → Nat
  | none => 0
  | some s => s.nesting left
def Stmt.nestingList (left : Nat) : List (Stmt α) → Nat
  | [] => 0
  | s :: ss => max (s.nesting left) (Stmt.nestingList left ss)
end

def Program.nesting (left : Nat) (p : Program α) : Nat := Stmt.nestingList left p.body

/-- The longest chain of nested statements and expressions. -/
def Program.height (p : Program α) : Nat := p.nesting 1

theorem Expr.nestingList_le {left n : Nat} {es : List (Expr α)} :
    Expr.nestingList left es ≤ n ↔ ∀ e ∈ es, e.nesting left ≤ n := by
  induction es with
  | nil => simp [Expr.nestingList]
  | cons e es ih => rw [Expr.nestingList, Nat.max_le, ih, List.forall_mem_cons]

theorem Property.nestingList_le {left n : Nat} {ps : List (Property α)} :
    Property.nestingList left ps ≤ n ↔ ∀ p ∈ ps, p.nesting left ≤ n := by
  induction ps with
  | nil => simp [Property.nestingList]
  | cons p ps ih => rw [Property.nestingList, Nat.max_le, ih, List.forall_mem_cons]

theorem Declarator.nestingList_le {left n : Nat} {ds : List (Declarator α)} :
    Declarator.nestingList left ds ≤ n ↔ ∀ d ∈ ds, d.nesting left ≤ n := by
  induction ds with
  | nil => simp [Declarator.nestingList]
  | cons d ds ih => rw [Declarator.nestingList, Nat.max_le, ih, List.forall_mem_cons]

theorem Stmt.nestingList_le {left n : Nat} {ss : List (Stmt α)} :
    Stmt.nestingList left ss ≤ n ↔ ∀ s ∈ ss, s.nesting left ≤ n := by
  induction ss with
  | nil => simp [Stmt.nestingList]
  | cons s ss ih => rw [Stmt.nestingList, Nat.max_le, ih, List.forall_mem_cons]

mutual
theorem Expr.nesting_map (f : α → β) (left : Nat) : ∀ e : Expr α,
    (e.map f).nesting left = e.nesting left
  | .identifier _ | .literal _ | .this _ => rfl
  | .array _ es | .sequence _ es => by
    simp only [Expr.map, Expr.nesting, Expr.nestingList_map f left es]
  | .object _ ps => by simp only [Expr.map, Expr.nesting, Property.nestingList_map f left ps]
  | .function _ _ _ body => by simp only [Expr.map, Expr.nesting, Block.nesting_map f left body]
  | .unary _ _ e | .update _ _ e true | .update _ _ e false => by
    simp only [Expr.map, Expr.nesting, Expr.nesting_map f left e]
  | .binary _ _ l r | .logical _ _ l r | .assignment _ _ l r | .member _ l r _ => by
    simp only [Expr.map, Expr.nesting, Expr.nesting_map f left l, Expr.nesting_map f left r]
  | .conditional _ t x y => by
    simp only [Expr.map, Expr.nesting, Expr.nesting_map f left t, Expr.nesting_map f left x,
      Expr.nesting_map f left y]
  | .call _ g es | .new _ g es => by
    simp only [Expr.map, Expr.nesting, Expr.nesting_map f left g, Expr.nestingList_map f left es]
theorem Expr.nestingList_map (f : α → β) (left : Nat) : ∀ es : List (Expr α),
    Expr.nestingList left (Expr.mapList f es) = Expr.nestingList left es
  | [] => rfl
  | e :: es => by
    simp only [Expr.mapList, Expr.nestingList, Expr.nesting_map f left e,
      Expr.nestingList_map f left es]
theorem Expr.nestingOption_map (f : α → β) (left : Nat) : ∀ e : Option (Expr α),
    Expr.nestingOption left (Expr.mapOption f e) = Expr.nestingOption left e
  | none => rfl
  | some e => Expr.nesting_map f left e
theorem Property.nestingList_map (f : α → β) (left : Nat) : ∀ ps : List (Property α),
    Property.nestingList left (Property.mapList f ps) = Property.nestingList left ps
  | [] => rfl
  | .mk _ _ v :: ps => by
    simp only [Property.mapList, Property.map, Property.nestingList, Property.nesting,
      Expr.nesting_map f left v, Property.nestingList_map f left ps]
theorem Block.nesting_map (f : α → β) (left : Nat) : ∀ b : Block α,
    (b.map f).nesting left = b.nesting left
  | .mk _ ss => Stmt.nestingList_map f left ss
theorem Block.nestingOption_map (f : α → β) (left : Nat) : ∀ b : Option (Block α),
    Block.nestingOption left (Block.mapOption f b) = Block.nestingOption left b
  | none => rfl
  | some b => Block.nesting_map f left b
theorem Declarator.nestingList_map (f : α → β) (left : Nat) : ∀ ds : List (Declarator α),
    Declarator.nestingList left (Declarator.mapList f ds) = Declarator.nestingList left ds
  | [] => rfl
  | .mk _ _ init :: ds => by
    simp only [Declarator.mapList, Declarator.map, Declarator.nestingList, Declarator.nesting,
      Expr.nestingOption_map f left init, Declarator.nestingList_map f left ds]
theorem Declaration.nesting_map (f : α → β) (left : Nat) : ∀ d : Declaration α,
    (d.map f).nesting left = d.nesting left
  | .mk _ ds => Declarator.nestingList_map f left ds
theorem SwitchCase.nestingList_map (f : α → β) (left : Nat) : ∀ cs : List (SwitchCase α),
    SwitchCase.nestingList left (SwitchCase.mapList f cs) = SwitchCase.nestingList left cs
  | [] => rfl
  | .mk _ test body :: cs => by
    simp only [SwitchCase.mapList, SwitchCase.map, SwitchCase.nestingList, SwitchCase.nesting,
      Expr.nestingOption_map f left test, Stmt.nestingList_map f left body,
      SwitchCase.nestingList_map f left cs]
theorem CatchClause.nestingOption_map (f : α → β) (left : Nat) : ∀ c : Option (CatchClause α),
    CatchClause.nestingOption left (CatchClause.mapOption f c) = CatchClause.nestingOption left c
  | none => rfl
  | some (.mk _ _ body) => Block.nesting_map f left body
theorem ForInit.nestingOption_map (f : α → β) (left : Nat) : ∀ i : Option (ForInit α),
    ForInit.nestingOption left (ForInit.mapOption f i) = ForInit.nestingOption left i
  | none => rfl
  | some (.declaration d) => Declaration.nesting_map f left d
  | some (.expression e) => Expr.nesting_map f left e
theorem ForTarget.nesting_map (f : α → β) (left : Nat) : ∀ t : ForTarget α,
    (t.map f).nesting left = t.nesting left
  | .declaration d => Declaration.nesting_map f left d
  | .identifier _ => rfl
theorem Stmt.nesting_map (f : α → β) (left : Nat) : ∀ s : Stmt α,
    (s.map f).nesting left = s.nesting left
  | .empty _ | .debugger _ | .break _ _ | .continue _ _ => rfl
  | .block b | .function _ _ _ b => by
    simp only [Stmt.map, Stmt.nesting, Block.nesting_map f left b]
  | .expression _ e | .throw _ e => by simp only [Stmt.map, Stmt.nesting, Expr.nesting_map f left e]
  | .declaration d => by simp only [Stmt.map, Stmt.nesting, Declaration.nesting_map f left d]
  | .if _ t x y => by
    simp only [Stmt.map, Stmt.nesting, Expr.nesting_map f left t, Stmt.nesting_map f left x,
      Stmt.nestingOption_map f left y]
  | .with _ e b | .while _ e b | .doWhile _ b e => by
    simp only [Stmt.map, Stmt.nesting, Expr.nesting_map f left e, Stmt.nesting_map f left b]
  | .return _ e => by simp only [Stmt.map, Stmt.nesting, Expr.nestingOption_map f left e]
  | .switch _ e cs => by
    simp only [Stmt.map, Stmt.nesting, Expr.nesting_map f left e,
      SwitchCase.nestingList_map f left cs]
  | .try _ b h e => by
    simp only [Stmt.map, Stmt.nesting, Block.nesting_map f left b,
      CatchClause.nestingOption_map f left h, Block.nestingOption_map f left e]
  | .for _ i t u b => by
    simp only [Stmt.map, Stmt.nesting, ForInit.nestingOption_map f left i,
      Expr.nestingOption_map f left t, Expr.nestingOption_map f left u, Stmt.nesting_map f left b]
  | .forIn _ t e b => by
    simp only [Stmt.map, Stmt.nesting, ForTarget.nesting_map f left t, Expr.nesting_map f left e,
      Stmt.nesting_map f left b]
  | .labeled _ _ b => by simp only [Stmt.map, Stmt.nesting, Stmt.nesting_map f left b]
theorem Stmt.nestingOption_map (f : α → β) (left : Nat) : ∀ s : Option (Stmt α),
    Stmt.nestingOption left (Stmt.mapOption f s) = Stmt.nestingOption left s
  | none => rfl
  | some s => Stmt.nesting_map f left s
theorem Stmt.nestingList_map (f : α → β) (left : Nat) : ∀ ss : List (Stmt α),
    Stmt.nestingList left (Stmt.mapList f ss) = Stmt.nestingList left ss
  | [] => rfl
  | s :: ss => by
    simp only [Stmt.mapList, Stmt.nestingList, Stmt.nesting_map f left s,
      Stmt.nestingList_map f left ss]
end

/-- How deep a script is nested does not depend on the notes. -/
theorem Program.nesting_map (f : α → β) (left : Nat) (p : Program α) :
    (p.map f).nesting left = p.nesting left :=
  Stmt.nestingList_map f left p.body

namespace Parser

/-! ## What a level costs -/

/-- Readers of trees whose chains are no longer than `n`, where steps to the left are free. They stop
only at a token that does not carry the expression on. -/
structure Shallow (n : Nat) (R : Readers) : Prop where
  statement {c} : Every (Returns R.statement c) fun x => x.nesting 0 ≤ n
  expression {floor forHead c} : Every (Returns (R.expression floor forHead) c) fun e => e.nesting 0 ≤ n
  ended {floor forHead c s e t} : Returns (R.expression floor forHead) c s e t →
    continuation? floor forHead t.current.kind = none

/-- No token binds weaker than an assignment. -/
theorem assignment_le_priority {k : TokenKind} {q : Nat} (h : k.priority? = some q) :
    Priority.assignment ≤ q := by
  cases k with
  | leftParen | leftBracket =>
    cases h
    decide
  | operator op =>
    cases h
    cases op <;> decide
  | _ => cases h

/-- What an assignment or a conditional lets pass behind itself carries no expression on. -/
theorem continuation?_behind_assignment {bound forHead k} (hb : bound < Priority.assignment)
    (h : continuation? bound forHead k = none) (floor : Nat) : continuation? floor forHead k = none := by
  refine continuation?_eq_none.2 fun q hq hin => ?_
  have hle := continuation?_eq_none.1 h q hq hin
  have hge := assignment_le_priority hq
  omega

section
variable {n : Nat} {R : Readers} {c : Context} {s t : State} (hR : Shallow n R)
include hR

theorem block_shallow : Every (Returns (block R) c) fun b => b.nesting 0 ≤ n := by
  intro s b t h
  obtain ⟨s₁, body, s₂, -, -, hb, -, -, rfl⟩ := returns_block.1 h
  exact Stmt.nestingList_le.2 (Items.forall_mem hR.statement hb)

/-- Only several expressions are a node more. -/
theorem commaForm_shallow {forHead} :
    Every (CommaForm R c forHead) fun e => e.nesting 0 ≤ n + 1 := by
  intro s e t h
  cases h with
  | single he _ _ => exact Nat.le_succ_of_le (hR.expression he)
  | joined he hes _ =>
    exact Nat.succ_le_succ (Expr.nestingList_le.2
      (List.forall_mem_cons.2 ⟨hR.expression he, AfterCommas.forall_mem hR.expression hes⟩))

theorem property_shallow : Every (Returns (property R) c) fun p => p.nesting 0 ≤ n := by
  intro s p t h
  obtain ⟨key, s₁, s₂, value, -, -, -, hv, rfl⟩ := returns_property.1 h
  exact hR.expression hv

theorem operandForm_shallow : Every (OperandForm R c) fun e => e.nesting 0 ≤ n + 1 := by
  intro s e t h
  cases h with
  | group _ _ hes _ _ =>
    exact Nat.succ_le_succ (Expr.nestingList_le.2 (separated_forall_mem hR.expression hes))
  | array _ _ hes =>
    exact Nat.succ_le_succ (Expr.nestingList_le.2 (closedList_forall_mem hR.expression hes))
  | newCall _ _ he =>
    have hcall := hR.expression he
    simp only [Expr.nesting] at hcall ⊢
    omega
  | newPlain _ _ he _ | unary _ _ _ _ he | update _ _ _ he _ =>
    have hoperand := hR.expression he
    simp only [Expr.nesting, Expr.nestingList]
    omega
  | literal _ | identifier _ | this _ _ => exact Nat.le_add_left 1 n
  | function _ _ _ _ hb => exact Nat.succ_le_succ (block_shallow hR hb)
  | object _ _ hps =>
    exact Nat.succ_le_succ (Property.nestingList_le.2
      (closedList_forall_mem (property_shallow hR) hps))

/-- What is carried on stays as deep as it was, or it is one deeper and nothing carries it on
again. -/
theorem extendForm_shallow {start floor forHead left q e}
    (hc : continuation? floor forHead s.current.kind = some q) (hl : left.nesting 0 ≤ n + 2)
    (h : ExtendForm R c start forHead left q s e t) :
    e.nesting 0 ≤ n + 2 ∨
      e.nesting 0 ≤ n + 3 ∧ continuation? floor forHead t.current.kind = none := by
  cases h with
  | call _ _ ha =>
    have hargs := Expr.nestingList_le.2 (closedList_forall_mem hR.expression ha)
    simp only [Expr.nesting]
    omega
  | index _ _ hp _ _ =>
    have hp := commaForm_shallow hR hp
    simp only [Expr.nesting]
    omega
  | binary _ _ _ hr | logical _ _ _ hr | dot _ _ hr =>
    have hr := hR.expression hr
    simp only [Expr.nesting]
    omega
  | assignment hk ho _ _ hr =>
    obtain rfl : q = 3 := eq_of_continuation? hc (by rw [hk, TokenKind.priority?, of_assignment ho])
    have hend := continuation?_behind_assignment (by decide) (hR.ended hr) floor
    have hr := hR.expression hr
    refine .inr ⟨?_, hend⟩
    simp only [Expr.nesting]
    omega
  | conditional _ _ hx _ _ hy =>
    have hend := continuation?_behind_assignment (by decide) (hR.ended hy) floor
    have hx := hR.expression hx
    have hy := hR.expression hy
    refine .inr ⟨?_, hend⟩
    simp only [Expr.nesting]
    omega
  | update _ _ _ _ => exact .inl hl

theorem extended_shallow {start floor forHead m left e}
    (h : Extended R c start floor forHead m left s e t) :
    (left.nesting 0 ≤ n + 2 ∨
      left.nesting 0 ≤ n + 3 ∧ continuation? floor forHead s.current.kind = none) →
    e.nesting 0 ≤ n + 3 := by
  induction h with
  | stop _ => omega
  | more hc he _ ih =>
    rintro (hl | ⟨-, hend⟩)
    · exact ih (extendForm_shallow hR hc hl he)
    · rw [hc] at hend
      cases hend

theorem expression_shallow {floor forHead} :
    Every (Returns (expression R floor forHead) c) fun e => e.nesting 0 ≤ n + 3 := by
  intro s e t h
  obtain ⟨first, u, m, ho, hx, -⟩ := returns_expression.1 h
  exact extended_shallow hR hx (.inl (Nat.le_succ_of_le (operandForm_shallow hR ho)))

theorem commaExpression_shallow {forHead} :
    Every (Returns (commaExpression R forHead) c) fun e => e.nesting 0 ≤ n + 1 :=
  fun _ _ _ h => commaForm_shallow hR (returns_commaExpression.1 h)

theorem condition_shallow : Every (Returns (condition R) c) fun e => e.nesting 0 ≤ n + 1 := by
  intro s e t h
  obtain ⟨s₁, s₂, -, -, he, -, -⟩ := returns_condition.1 h
  exact commaForm_shallow hR he

theorem loopBody_shallow : Every (Returns (loopBody R) c) fun x => x.nesting 0 ≤ n :=
  fun _ _ _ h => hR.statement (returns_inScope.1 h)

theorem declaration_shallow {forHead} :
    Every (Returns (declaration R forHead) c) fun d => d.nesting 0 ≤ n := by
  have declarator : Every (Returns (declarator R forHead) c) fun d => d.nesting 0 ≤ n := by
    intro s d t h
    obtain ⟨id, s₁, init, -, ha, rfl⟩ := returns_declarator.1 h
    cases ha with
    | absent _ => exact Nat.zero_le n
    | present _ _ he => exact hR.expression he
  intro s d t h
  obtain ⟨s₁, ds, s₂, -, hds, -, rfl⟩ := returns_declaration.1 h
  exact Declarator.nestingList_le.2 (separated_forall_mem declarator hds)

theorem cases_shallow {b} :
    Every (Cases R c b) fun xs => SwitchCase.nestingList 0 xs ≤ n + 1 := by
  intro s xs t h
  induction h with
  | done _ => exact Nat.zero_le _
  | more _ hx _ _ ih =>
    obtain ⟨test, s₁, s₂, body, hh, -, -, hb, -, rfl⟩ := returns_switchCase.1 hx
    have hbody := Stmt.nestingList_le.2 (Items.forall_mem hR.statement hb)
    have htest : Expr.nestingOption 0 test ≤ n + 1 := by
      cases hh with
      | case _ _ he => exact commaForm_shallow hR he
      | default _ _ => exact Nat.zero_le _
    simp only [SwitchCase.nestingList, SwitchCase.nesting]
    omega

theorem Unless.shallow {k} :
    Every (Unless k (commaExpression R false) c) fun e => Expr.nestingOption 0 e ≤ n + 1 := by
  intro s e t h
  cases h with
  | absent _ => exact Nat.zero_le _
  | present _ he => exact commaExpression_shallow hR he

theorem Trailing.shallow :
    Every (Trailing (commaExpression R false) c) fun e => Expr.nestingOption 0 e ≤ n + 1 := by
  intro s e t h
  cases h with
  | absent _ => exact Nat.zero_le _
  | present _ _ he _ => exact commaExpression_shallow hR he

theorem forForm_shallow {start} : Every (ForForm R c start) fun x => x.nesting 0 ≤ n + 2 := by
  have tail {s test update body t} (h : ForTail R c s test update body t) :
      Expr.nestingOption 0 test ≤ n + 1 ∧ Expr.nestingOption 0 update ≤ n + 1 ∧
        body.nesting 0 ≤ n := by
    obtain ⟨-, -, ht, -, -, hu, -, -, hb⟩ := h
    exact ⟨Unless.shallow hR ht, Unless.shallow hR hu, loopBody_shallow hR hb⟩
  have inTail {s object body t} (h : ForInTail R c s object body t) :
      object.nesting 0 ≤ n + 1 ∧ body.nesting 0 ≤ n := by
    obtain ⟨-, -, ho, -, -, hb⟩ := h
    exact ⟨commaForm_shallow hR ho, loopBody_shallow hR hb⟩
  intro s x t h
  cases h with
  | counted _ hd ht =>
    have hd := declaration_shallow hR hd
    obtain ⟨htest, hupdate, hbody⟩ := tail ht
    simp only [Stmt.nesting, ForInit.nestingOption, ForInit.nesting]
    omega
  | bare ht =>
    obtain ⟨htest, hupdate, hbody⟩ := tail ht
    simp only [Stmt.nesting, ForInit.nestingOption]
    omega
  | started _ _ he ht =>
    have he := commaForm_shallow hR he
    obtain ⟨htest, hupdate, hbody⟩ := tail ht
    simp only [Stmt.nesting, ForInit.nestingOption, ForInit.nesting]
    omega
  | bound _ hd _ ht =>
    have hd := declaration_shallow hR hd
    obtain ⟨hobject, hbody⟩ := inTail ht
    simp only [Stmt.nesting, ForTarget.nesting]
    omega
  | named _ _ _ ht =>
    obtain ⟨hobject, hbody⟩ := inTail ht
    simp only [Stmt.nesting, ForTarget.nesting]
    omega

theorem statementForm_shallow {stacked} :
    Every (StatementForm R c stacked) fun x => x.nesting 0 ≤ n + 2 := by
  have block {s b t} (h : Returns (block R) c s b t) : b.nesting 0 ≤ n := block_shallow hR h
  have within {m : Nat} (h : m ≤ n + 1) : m + 1 ≤ n + 2 := Nat.succ_le_succ h
  intro s x t h
  cases h with
  | empty _ _ | debugger _ _ _ => exact Nat.le_add_left 1 (n + 1)
  | block _ hb | function _ _ _ _ hb => exact within (Nat.le_succ_of_le (block hb))
  | expression _ he _ _ => exact within (commaForm_shallow hR he)
  | labeled _ _ _ _ _ hb => exact within (Nat.le_succ_of_le (hR.statement hb))
  | @«if» _ _ _ _ _ y _ _ _ hc hx hy =>
    have hc := condition_shallow hR hc
    have hx := hR.statement hx
    have hy : Stmt.nestingOption 0 y ≤ n := by
      cases hy with
      | absent _ => exact Nat.zero_le n
      | present _ _ hz => exact hR.statement hz
    simp only [Stmt.nesting]
    omega
  | «with» _ _ he hb =>
    have he := condition_shallow hR he
    have hb := hR.statement hb
    simp only [Stmt.nesting]
    omega
  | «return» _ _ he | throw _ _ he => exact within (Trailing.shallow hR he)
  | @jump j _ _ _ _ _ _ _ => cases j <;> exact Nat.le_add_left 1 (n + 1)
  | switch _ _ he _ _ hc _ _ =>
    have he := condition_shallow hR he
    have hc := cases_shallow hR hc
    simp only [Stmt.nesting]
    omega
  | @«try» _ _ _ handler _ finalizer _ _ _ hb hh hf =>
    have hb := block hb
    have hh : CatchClause.nestingOption 0 handler ≤ n := by
      cases hh with
      | present _ hx =>
        obtain ⟨s₁, s₂, param, s₃, s₄, body, -, -, -, -, -, -, hb, rfl⟩ := returns_catchClause.1 hx
        exact block hb
      | absent _ => exact Nat.zero_le n
    have hf : Block.nestingOption 0 finalizer ≤ n := by
      cases hf with
      | absent _ => exact Nat.zero_le n
      | present _ _ hf => exact block hf
    simp only [Stmt.nesting]
    omega
  | «while» _ _ he hb | doWhile _ _ hb _ _ he =>
    have he := condition_shallow hR he
    have hb := loopBody_shallow hR hb
    simp only [Stmt.nesting]
    omega
  | declaration _ hd => exact within (Nat.le_succ_of_le (declaration_shallow hR hd))
  | «for» _ _ _ _ hf => exact forForm_shallow hR hf

end

/-- Each level costs three at most: one for the node, one for a list of expressions in it, and one
for an assignment or a conditional around it. -/
theorem readers_shallow (levels : Nat) : Shallow (3 * levels) (readers levels) := by
  induction levels with
  | zero =>
    constructor
    · intro c s x t h
      exact absurd h returns_tooDeep
    · intro floor forHead c s e t h
      exact absurd h returns_tooDeep
    · intro floor forHead c s e t h
      exact absurd h returns_tooDeep
  | succ levels ih =>
    constructor
    · intro c s x t h
      exact Nat.le_succ_of_le (statementForm_shallow ih (returns_statement.1 h))
    · intro floor forHead c s e t h
      exact expression_shallow ih h
    · intro floor forHead c s e t h
      obtain ⟨first, u, m, -, hx, -⟩ := returns_expression.1 h
      exact hx.ended

theorem run_shallow {c : Context} {source : List Char} {p : Program Span}
    (h : (run c source).result = .ok p) : p.nesting 0 ≤ 3 * c.limit := by
  obtain ⟨s, t, -, hp⟩ := run_eq_ok.1 h
  obtain ⟨body, hb, -, rfl⟩ := returns_program.1 hp
  exact Stmt.nestingList_le.2 (Items.forall_mem (readers_shallow _).statement hb)

end Parser

/-- Where a step to the left is free, a chain of statements and expressions is no longer than three
times the bound on nesting. -/
theorem parse_nesting_le {source : String} {maxDepth : Nat} {p : Program Location}
    (h : parse source maxDepth = .ok p) : p.nesting 0 ≤ 3 * maxDepth := by
  obtain ⟨q, hq, rfl⟩ := parse_eq_ok.1 h
  rw [Program.locate, Program.nesting_map]
  exact Parser.run_shallow hq

/-- Calls go on to the left, and an index may hold a list of expressions. -/
theorem parse_nesting_le_calls : ∃ p, parse "a()()()()()()()()[b, c];" 3 = .ok p ∧
    p.nesting 0 ≤ 9 ∧ p.height = 11 := by
  have hheight : (parse "a()()()()()()()()[b, c];" 3).toOption.map Program.height = some 11 := by
    decide +kernel
  cases h : parse "a()()()()()()()()[b, c];" 3 with
  | ok p =>
    rw [h] at hheight
    exact ⟨p, rfl, parse_nesting_le h, Option.some.inj hheight⟩
  | error f =>
    rw [h] at hheight
    cases hheight

/-! ## Calls that go on -/

namespace Parser

/-- Calls without arguments, one behind the other. -/
def emptyCalls : Nat → List Char
  | 0 => []
  | n + 1 => '(' :: ')' :: emptyCalls n

theorem length_emptyCalls (n : Nat) : (emptyCalls n).length = 2 * n := by
  induction n with
  | zero => rfl
  | succ n ih =>
    rw [emptyCalls, List.length_cons, List.length_cons, ih]
    omega

theorem next_leftParen (flag : Bool) (offset : Nat) (cs : List Char) :
    Lexer.next flag ⟨offset, '(' :: cs⟩ =
      (.ok ⟨.leftParen, offset, offset + 1⟩, ⟨offset + 1, cs⟩) := rfl

theorem next_rightParen (flag : Bool) (offset : Nat) (cs : List Char) :
    Lexer.next flag ⟨offset, ')' :: cs⟩ =
      (.ok ⟨.rightParen, offset, offset + 1⟩, ⟨offset + 1, cs⟩) := rfl

theorem exists_moves {flag : Bool} {s : State} {token : Token} {d : Cursor}
    (h : Lexer.next flag s.cursor = (.ok token, d)) :
    ∃ t, Moves flag s t ∧ t.current = token ∧ t.cursor = d :=
  ⟨⟨token, Lexer.gap s.cursor, s.current :: s.earlier, d⟩, ⟨rfl, rfl, h⟩, rfl, rfl⟩

/-- The current token is the first one of some calls, or the end of the text. -/
inductive State.AtCalls : (n : Nat) → State → Prop
  | done {s : State} : s.current.kind = .endOfInput → AtCalls 0 s
  | more {s : State} {n offset : Nat} : s.current.kind = .leftParen →
      s.cursor = ⟨offset, ')' :: emptyCalls n⟩ → AtCalls (n + 1) s

theorem exists_moves_emptyCalls (flag : Bool) {s : State} {offset n : Nat}
    (h : s.cursor = ⟨offset, emptyCalls n⟩) : ∃ t, Moves flag s t ∧ t.AtCalls n := by
  cases n with
  | zero =>
    obtain ⟨t, hm, ht, -⟩ := exists_moves (h ▸ Lexer.next_nil flag offset)
    exact ⟨t, hm, .done (by rw [ht])⟩
  | succ n =>
    obtain ⟨t, hm, ht, hd⟩ := exists_moves (h ▸ next_leftParen flag offset (')' :: emptyCalls n))
    exact ⟨t, hm, .more (by rw [ht]) hd⟩

variable {R : Readers} {c : Context}

/-- Each call is a node around those before it. -/
theorem extended_emptyCalls {n start : Nat} {left : Expr Span} {s : State} (h : s.AtCalls n) :
    ∃ e t, Extended R c start 0 false n left s e t ∧ t.current.kind = .endOfInput ∧
      e.nesting 1 = left.nesting 1 + n := by
  induction n generalizing left s with
  | zero =>
    cases h with
    | done hk => exact ⟨left, s, .stop (by rw [hk]; rfl), hk, rfl⟩
  | succ n ih =>
    cases h with
    | @more _ _ offset hk hc =>
      obtain ⟨t, hm, ht, hd⟩ := exists_moves (hc ▸ next_rightParen false offset (emptyCalls n))
      obtain ⟨u, hm', hu⟩ := exists_moves_emptyCalls true hd
      have hcall : ExtendForm R c start false left Priority.call s
          (.call (u.since start) left []) u :=
        .call hk hm (returns_closedList.2 ⟨.empty (by rw [ht]) hm', Nat.zero_le _⟩)
      obtain ⟨e, v, hx, hend, he⟩ := @ih (.call (u.since start) left []) u hu
      refine ⟨e, v, .more (by rw [hk]; rfl) hcall hx, hend, ?_⟩
      rw [he, Expr.nesting, Expr.nestingList]
      omega

theorem next_name (n : Nat) : Lexer.next false (Cursor.ofText ('a' :: emptyCalls n)) =
    (.ok ⟨.identifier "a", 0, 1⟩, ⟨1, emptyCalls n⟩) := by
  cases n <;> rfl

/-- A statement of `n` calls is read with two levels. -/
theorem program_emptyCalls (n : Nat) (hbudget : n + 1 < c.budget) : ∃ s p t,
    s.Begins ('a' :: emptyCalls n) ∧ Returns (program (readers 2)) c s p t ∧ p.height = n + 2 := by
  obtain ⟨s, hs⟩ : ∃ s : State, s = ⟨⟨.identifier "a", 0, 1⟩,
    Lexer.gap (Cursor.ofText ('a' :: emptyCalls n)), [], ⟨1, emptyCalls n⟩⟩ := ⟨_, rfl⟩
  have hk : s.current.kind = .identifier "a" := by rw [hs]
  obtain ⟨t, hm, ht⟩ := exists_moves_emptyCalls true (show s.cursor = ⟨1, emptyCalls n⟩ by rw [hs])
  have hb : s.Begins ('a' :: emptyCalls n) := by rw [hs]; exact ⟨rfl, rfl, next_name n⟩
  obtain ⟨e, u, hx, hend, he⟩ : ∃ e u, Extended (readers 0) { c with scope := c.scope.settle }
      s.current.span.start 0 false n (.identifier ⟨t.since s.current.span.start, "a"⟩) t e u ∧
      u.current.kind = .endOfInput ∧ e.nesting 1 = 1 + n := extended_emptyCalls ht
  have hexpression : Returns ((readers 1).expression 0 false) { c with scope := c.scope.settle }
      s e u :=
    returns_expression.2 ⟨_, t, n, .identifier (returns_identifier.2 ⟨"a", hk, hm, rfl⟩), hx,
      Nat.lt_of_succ_lt hbudget⟩
  have hstatement : Returns (readers 2).statement c s
      (.expression (u.since s.current.span.start) e) u := by
    refine returns_statement.2 (.expression (by rw [hk]; rfl)
      (.single hexpression (by rw [hend]; nofun) (Nat.zero_lt_of_lt hbudget)) ?_ (.before (.inl hend)))
    intro i _
    rw [hend]
    nofun
  have hitems : Items (· == .endOfInput) (Returns (readers 2).statement c) s
      [.expression (u.since s.current.span.start) e] u :=
    .more (by rw [hk]; rfl) hstatement (.done (by rw [hend]; rfl))
  refine ⟨s, _, u, hb, returns_program.2 ⟨_, hitems, ?_, rfl⟩, ?_⟩
  · exact Nat.lt_of_le_of_lt (Nat.le_add_left 1 n) hbudget
  · show max (e.nesting 1 + 1) 0 = n + 2
    omega

end Parser

/-- A name that is called `n` times is read with two levels, and is as high as there are calls. -/
theorem parse_emptyCalls (n : Nat) : ∃ p,
    parse (String.ofList ('a' :: Parser.emptyCalls n)) 2 = .ok p ∧ p.height = n + 2 := by
  have hbudget : n + 1 < ('a' :: Parser.emptyCalls n).length + 2 := by
    rw [List.length_cons, Parser.length_emptyCalls]
    omega
  obtain ⟨s, q, t, hb, hq, hheight⟩ :=
    Parser.program_emptyCalls (c := .ofText ('a' :: Parser.emptyCalls n) 2) n hbudget
  refine ⟨q.locate ('a' :: Parser.emptyCalls n), parse_eq_ok.2 ⟨q, ?_, ?_⟩, ?_⟩
  · rw [String.toList_ofList]
    exact Parser.run_eq_ok.2 ⟨s, t, hb, hq⟩
  · rw [String.toList_ofList]
  · rw [Program.locate, Program.height, Program.nesting_map]
    exact hheight

/-- No multiple of the bound on nesting bounds the height of the trees that are read under it. -/
theorem height_unbounded : ¬ ∃ k, ∀ maxDepth source p,
    parse source maxDepth = .ok p → p.height ≤ k * (maxDepth + 1) := by
  rintro ⟨k, hk⟩
  obtain ⟨p, hp, hheight⟩ := parse_emptyCalls (3 * k)
  have hle := hk 2 _ p hp
  omega

end ScriptTree
