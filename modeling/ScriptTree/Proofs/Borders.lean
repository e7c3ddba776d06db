import ScriptTree.Proofs.Precedence
import ScriptTree.Proofs.Seams
import ScriptTree.Proofs.Shapes

/-! # What an expression begins and ends with

What can follow an expression depends on the operators that are open at its end, and on whether a
number or the body of a function stands there. What it begins with is a token that can stand after any
operator but a dot. -/
namespace ScriptTree

open Piece Printer

/-- The expression met at the end by going to the operand at the end again and again. A construction
without arguments ends in what it constructs. -/
def Expr.rightmost : Expr α → Expr α
  | .binary _ _ _ r | .logical _ _ _ r | .assignment _ _ _ r | .conditional _ _ _ r
  | .member _ _ r true | .unary _ _ r | .update _ _ r true | .new _ r [] => r.rightmost
  | e => e

/-- The kind of token that the expression is printed with at its front. -/
def Expr.first : Expr α → TokenKind
  | .identifier i => .identifier i.name
  | .literal l => l.value.token
  | .this _ => .this
  | .array _ _ => .leftBracket
  | .object _ _ => .leftBrace
  | .function _ _ _ _ => .keyword .function
  | .unary _ op _ | .update _ op _ true => .operator op
  | .new _ _ _ => .operator .new
  | .sequence _ _ => .leftParen
  | .binary _ _ e _ | .logical _ _ e _ | .assignment _ _ e _ | .conditional _ e _ _ | .member _ e _ _
  | .call _ e _ | .update _ _ e false => e.first

/-- Whether the expression is printed with a digit at its front. -/
def Expr.leadsWithNumber (e : Expr α) : Bool :=
  match e.first with
  | .number _ => true
  | _ => false

/-- Whether the expression is printed with the body of a function at its end. -/
def Expr.endsInBody (e : Expr α) : Bool :=
  match e.rightmost with
  | .function _ _ _ _ => true
  | _ => false

/-- Whether the printer writes a node so that it is found again. A number after a dot would take the
dot, a call under `new` would lose its arguments to it, and after the body of a function a slash
begins a regular expression. -/
def Expr.restorable : Expr α → Bool
  | .member _ _ p true => !p.leadsWithNumber
  | .new _ (.call _ _ _) [] => false
  | .binary _ op l _ => !(op == .divide && l.endsInBody)
  | .assignment _ op l _ => !(op == .divideAssign && l.endsInBody)
  | _ => true

/-- Whether an operand may begin with the token. -/
def TokenKind.leads : TokenKind → Bool
  | .operator op => op.canLead || op == .new
  | .leftParen | .leftBracket | .leftBrace | .keyword .function | .this | .identifier _ => true
  | k => k.isLiteral

/-- What an expression lets pass: no operator that is open at its end would take `k` for its operand.
Signs and `new` hide the head of a loop from their operands. A call has closed all of its callee. -/
def Expr.Passes (k : TokenKind) : (forHead : Bool) → Expr α → Prop
  | forHead, .binary _ op _ r | forHead, .logical _ op _ r =>
    Parser.continuation? (Priority.of op .trailing) forHead k = none ∧ r.Passes k forHead
  | forHead, .assignment _ _ _ r => Parser.continuation? 2 forHead k = none ∧ r.Passes k forHead
  | forHead, .conditional _ _ _ r => Parser.continuation? 0 forHead k = none ∧ r.Passes k forHead
  | forHead, .member _ _ r true => Parser.continuation? 19 forHead k = none ∧ r.Passes k forHead
  | _, .unary _ _ r | _, .update _ _ r true =>
    Parser.continuation? 16 false k = none ∧ r.Passes k false
  | _, .new _ r [] => Parser.continuation? 18 false k = none ∧ r.Passes k false
  | _, .new _ _ (_ :: _) => Parser.continuation? 18 false k = none
  | _, .call _ f _ => ∀ k forHead, f.Passes k forHead
  | _, _ => True

/-- The operator of an expression is one of its kind, and an object has let its dot pass. -/
def Expr.Fits : Expr α → Prop
  | .unary _ op _ => op.canLead = true
  | .update _ op _ _ => op.isUpdate = true
  | .binary _ op _ _ => op.isBinary = true
  | .logical _ op _ _ => op.isLogical = true
  | .assignment _ op _ _ => op.isAssignment = true
  | .member _ o _ true => ∃ forHead, o.Passes (.operator .dot) forHead
  | _ => True

/-! ## What expressions let pass -/

namespace Parser

theorem continuation?_closer {k : TokenKind} (h : k.priority? = none) (floor : Nat) (forHead : Bool) :
    continuation? floor forHead k = none := by
  rw [continuation?, h]
  rfl

/-- Only `in` is read differently in the head of a loop. -/
theorem continuation?_forHead {k : TokenKind} {floor : Nat} {forHead : Bool} (forHead' : Bool)
    (h : continuation? floor forHead k = none) (hin : forHead = true → k ≠ .operator .in) :
    continuation? floor forHead' k = none :=
  continuation?_eq_none.2 fun q hq _ => continuation?_eq_none.1 h q hq hin

end Parser

namespace Expr
variable {k k' : TokenKind} {forHead : Bool}

/-- What lets a token pass lets every token pass that binds no tighter anywhere. -/
theorem Passes.mono : ∀ {e : Expr α} {forHead forHead' : Bool}, e.Passes k forHead →
    (∀ floor, Parser.continuation? floor forHead k = none →
      Parser.continuation? floor forHead' k' = none) →
    (∀ floor, Parser.continuation? floor false k = none →
      Parser.continuation? floor false k' = none) →
    e.Passes k' forHead'
  | .binary _ _ _ _, _, _, h, hk, hk' | .logical _ _ _ _, _, _, h, hk, hk'
  | .assignment _ _ _ _, _, _, h, hk, hk' | .conditional _ _ _ _, _, _, h, hk, hk'
  | .member _ _ _ true, _, _, h, hk, hk' => ⟨hk _ h.1, h.2.mono hk hk'⟩
  | .unary _ _ _, _, _, h, _, hk' | .update _ _ _ true, _, _, h, _, hk' | .new _ _ [], _, _, h, _, hk' =>
    ⟨hk' _ h.1, h.2.mono hk' hk'⟩
  | .new _ _ (_ :: _), _, _, h, _, hk' => hk' _ h
  | .call _ _ _, _, _, h, _, _ => h
  | .identifier _, _, _, _, _, _ | .literal _, _, _, _, _, _ | .this _, _, _, _, _, _
  | .array _ _, _, _, _, _, _ | .object _ _, _, _, _, _, _ | .function _ _ _ _, _, _, _, _, _
  | .update _ _ _ false, _, _, _, _, _ | .member _ _ _ false, _, _, _, _, _
  | .sequence _ _, _, _, _, _, _ => trivial

/-- A token that is no operator passes wherever one passes. -/
theorem Passes.closer {e : Expr α} (h : e.Passes k forHead) (hk : k'.priority? = none)
    (forHead' : Bool) : e.Passes k' forHead' :=
  h.mono (fun _ _ => Parser.continuation?_closer hk _ _) fun _ _ => Parser.continuation?_closer hk _ _

theorem Passes.anywhere {e : Expr α} (h : e.Passes k forHead)
    (hin : forHead = true → k ≠ .operator .in) (forHead' : Bool) : e.Passes k forHead' :=
  h.mono (fun _ hn => Parser.continuation?_forHead forHead' hn hin) fun _ hn => hn

/-- Nothing is open at the end of what lets the parenthesis of a call pass. -/
theorem Passes.closed {e : Expr α} (h : e.Passes .leftParen forHead) (k : TokenKind)
    (forHead' : Bool) : e.Passes k forHead' := by
  have tight {floor : Nat} {forHead : Bool} (hf : floor < 20)
      (hn : Parser.continuation? floor forHead .leftParen = none) : False := by
    have hle := Parser.continuation?_eq_none.1 hn 20 rfl (fun _ => nofun)
    omega
  have below (op : Operator) : Priority.of op .trailing < 20 := by cases op <;> decide
  match e, h with
  | .binary _ op _ _, h | .logical _ op _ _, h => exact (tight (below op) h.1).elim
  | .assignment _ _ _ _, h | .conditional _ _ _ _, h | .member _ _ _ true, h | .unary _ _ _, h
  | .update _ _ _ true, h | .new _ _ [], h => exact (tight (by decide) h.1).elim
  | .new _ _ (_ :: _), h => exact (tight (by decide) h).elim
  | .call _ _ _, h => exact h
  | .identifier _, _ | .literal _, _ | .this _, _ | .array _ _, _ | .object _ _, _
  | .function _ _ _ _, _ | .update _ _ _ false, _ | .member _ _ _ false, _ | .sequence _ _, _ => trivial

end Expr

namespace Parser
variable {R : Readers} {c : Context} {s t : State}

/-- What is read lets the current token pass. -/
def Passing (_ : Nat) (forHead : Bool) (e : Expr Span) (k : TokenKind) : Prop := e.Passes k forHead

theorem operand_fits (forHead : Bool) (hR : Ended Passing R) {e} (h : OperandForm R c s e t) :
    e.Fits ∧ e.Passes t.current.kind forHead := by
  cases h with
  | unary hk hl hu hm he => exact ⟨hl, (hR he).2, (hR he).1⟩
  | update hk hu hm he ht => exact ⟨hu, (hR he).2, (hR he).1⟩
  | @newCall note f args _ _ hk hm he =>
    obtain ⟨hcallee, hn⟩ := hR he
    cases args with
    | nil => exact ⟨trivial, hn, hcallee _ _⟩
    | cons x xs => exact ⟨trivial, hn⟩
  | newPlain hk hm he _ => exact ⟨trivial, (hR he).2, (hR he).1⟩
  | _ => exact ⟨trivial, trivial⟩

theorem extend_fits {start floor forHead left q e} (hR : Ended Passing R)
    (hl : left.Passes s.current.kind forHead)
    (hc : continuation? floor forHead s.current.kind = some q)
    (h : ExtendForm R c start forHead left q s e t) :
    e.Fits ∧ e.Passes t.current.kind forHead := by
  have strength {q'} (hk : s.current.kind.priority? = some q') : q = q' := eq_of_continuation? hc hk
  cases h with
  | call hk _ _ =>
    rw [hk] at hl
    exact ⟨trivial, fun k forHead' => hl.closed k forHead'⟩
  | index _ _ _ _ _ => exact ⟨trivial, trivial⟩
  | @binary op _ _ _ hk ho _ hr | @logical op _ _ _ hk ho _ hr =>
    obtain rfl : q = Priority.of op .trailing := strength (by rw [hk]; rfl)
    exact ⟨ho, (hR hr).2, (hR hr).1⟩
  | assignment hk ho _ _ hr =>
    obtain rfl : q = 3 := strength (by rw [hk, TokenKind.priority?, of_assignment ho])
    exact ⟨ho, (hR hr).2, (hR hr).1⟩
  | dot hk _ hr =>
    obtain rfl : q = 19 := strength (by rw [hk]; rfl)
    rw [hk] at hl
    exact ⟨⟨forHead, hl⟩, (hR hr).2, (hR hr).1⟩
  | conditional hk _ _ _ _ hy => exact ⟨trivial, (hR hy).2, (hR hy).1⟩
  | update _ ho _ _ => exact ⟨ho, trivial⟩

theorem fits_local : Local Expr.Fits Passing where
  operand _ forHead hR h := operand_fits forHead hR h
  extend hR hl hc h := extend_fits hR hl hc h
  sequence := trivial

end Parser

/-! ## What is at the front -/

/-- What an operand may begin with is found without an operator before it, and is not the dot. -/
theorem TokenKind.suits_of_leads {k : TokenKind} (h : k.leads = true) : k.suits false = true := by
  rcases k.slash_cases with ⟨pattern, flags, rfl⟩ | rfl | rfl | hall
  · rfl
  · cases h
  · cases h
  · exact hall false

theorem TokenKind.clashes_of_leads {k : TokenKind} (h : k.leads = true) {op : Operator}
    (hop : op ≠ .dot) : clashes (.operator op) k = false := by
  cases k with
  | number x => simpa [clashes] using hop
  | operator op' =>
    have hlead : (op'.canLead || op' == .new) = true := h
    simp only [clashes, hlead, Bool.not_true, Bool.and_false]
  | _ => rfl

theorem LiteralValue.leads_token (v : LiteralValue) : v.token.leads = true := by
  cases v <;> rfl

namespace Expr

theorem first_spellable : ∀ {e : Expr α}, (∀ k ∈ e.yield, k.Spellable) → e.first.Spellable
  | .identifier i, h => h _ (List.mem_singleton_self _)
  | .literal l, h => h _ (List.mem_singleton_self _)
  | .binary _ _ l _, h | .logical _ _ l _, h | .assignment _ _ l _, h =>
    first_spellable (e := l) fun k hk => h k (List.mem_append_left _ hk)
  | .member _ l _ true, h | .member _ l _ false, h | .call _ l _, h | .update _ _ l false, h =>
    first_spellable (e := l) fun k hk => h k (List.mem_append_left _ hk)
  | .conditional _ l _ _, h =>
    first_spellable (e := l) fun k hk => h k (by simp [Expr.yield, hk])
  | .this _, _ | .array _ _, _ | .object _ _, _ | .function _ _ _ _, _ | .unary _ _ _, _
  | .update _ _ _ true, _ | .new _ _ _, _ | .sequence _ _, _ => trivial

/-- The pieces of an expression begin with a token. -/
theorem exists_pieces (level : Nat) : ∀ (e : Expr α) (ps : List Piece),
    ∃ text rest, expr level e ps = .token text :: rest ∧ text.toList = e.first.spelling
  | .binary _ _ l _, ps | .logical _ _ l _, ps | .assignment _ _ l _, ps | .conditional _ l _ _, ps
  | .member _ l _ true, ps | .member _ l _ false, ps | .call _ l _, ps | .update _ _ l false, ps =>
    exists_pieces level l _
  | .literal ⟨_, v⟩, ps => ⟨_, _, rfl, by
      rw [String.toList_ofList]
      cases v with
      | boolean b => cases b <;> rfl
      | _ => rfl⟩
  | .identifier _, ps | .this _, ps | .array _ _, ps | .object _ _, ps | .function _ _ _ _, ps
  | .unary _ _ _, ps | .update _ _ _ true, ps | .new _ _ [], ps | .new _ _ (_ :: _), ps
  | .sequence _ _, ps => ⟨_, _, rfl, rfl⟩

theorem ahead_pieces {e : Expr α} (h : e.first.Spellable) (level : Nat) (ps : List Piece) :
    ahead (expr level e ps) = e.first := by
  obtain ⟨text, rest, he, htext⟩ := e.exists_pieces level ps
  rw [he, ahead, htext, ofSpelling_spelling h]

theorem first_leads : ∀ {e : Expr α}, (∀ x ∈ e.nodes, x.Fits) → e.first.leads = true
  | .binary _ _ l _, h | .logical _ _ l _, h | .assignment _ _ l _, h | .member _ l _ true, h
  | .member _ l _ false, h | .call _ l _, h =>
    first_leads (e := l) fun x hx => h x (List.mem_cons_of_mem _ (List.mem_append_left _ hx))
  | .update _ _ l false, h => first_leads (e := l) fun x hx => h x (List.mem_cons_of_mem _ hx)
  | .conditional _ l _ _, h => first_leads (e := l) fun x hx => h x (by simp [Expr.nodes, hx])
  | .unary _ op _, h => by
    have hop : op.canLead = true := h _ List.mem_cons_self
    rw [first, TokenKind.leads, hop, Bool.true_or]
  | .update _ op _ true, h => by
    have hop : op.isUpdate = true := h _ List.mem_cons_self
    rw [first, TokenKind.leads, Parser.canLead_of_isUpdate hop, Bool.true_or]
  | .literal l, _ => l.value.leads_token
  | .identifier _, _ | .this _, _ | .array _ _, _ | .object _ _, _ | .function _ _ _ _, _
  | .new _ _ _, _ | .sequence _ _, _ => rfl

/-- What is asked of a node so that it can be printed and read again. -/
def Legible (e : Expr α) : Prop := e.Fits ∧ e.restorable = true

theorem first_of_isInteger {e : Expr α} (h : isInteger e = true) : e.leadsWithNumber = true := by
  unfold isInteger at h
  split at h
  · rfl
  · cases h

/-- Whatever is open more loosely than a dot takes the dot. -/
theorem dot_taken {floor : Nat} {forHead : Bool} (hf : floor < 19) :
    Parser.continuation? floor forHead (.operator .dot) ≠ none := fun hn => by
  have hle := Parser.continuation?_eq_none.1 hn 19 rfl (fun _ => nofun)
  omega

theorem infix_strength {op : Operator} (h : op.isBinary = true ∨ op.isLogical = true) :
    Priority.of op .trailing < 19 := by
  revert h
  cases op <;> decide

/-- An expression that lets a dot pass ends in an integer only if it is one. -/
theorem isInteger_of_rightmost : ∀ {e : Expr α} {forHead : Bool}, (∀ x ∈ e.nodes, x.Legible) →
    e.Passes (.operator .dot) forHead → isInteger e.rightmost = true → isInteger e = true
  | .member _ o p true, _, hx, h, hi => by
    have hp : isInteger p = true := isInteger_of_rightmost
      (fun x hmem => hx x (List.mem_cons_of_mem _ (List.mem_append_right _ hmem))) h.2 hi
    have hd : (!p.leadsWithNumber) = true := (hx _ List.mem_cons_self).2
    rw [first_of_isInteger hp] at hd
    cases hd
  | .binary _ _ _ _, _, hx, h, _ =>
    absurd h.1 (dot_taken (infix_strength (.inl (hx _ List.mem_cons_self).1)))
  | .logical _ _ _ _, _, hx, h, _ =>
    absurd h.1 (dot_taken (infix_strength (.inr (hx _ List.mem_cons_self).1)))
  | .assignment _ _ _ _, _, _, h, _ | .conditional _ _ _ _, _, _, h, _ | .unary _ _ _, _, _, h, _
  | .update _ _ _ true, _, _, h, _ | .new _ _ [], _, _, h, _ => absurd h.1 (dot_taken (by decide))
  | .new _ _ (_ :: _), _, _, _, hi | .call _ _ _, _, _, _, hi | .identifier _, _, _, _, hi
  | .literal _, _, _, _, hi | .this _, _, _, _, hi | .array _ _, _, _, _, hi
  | .object _ _, _, _, _, hi | .function _ _ _ _, _, _, _, hi | .update _ _ _ false, _, _, _, hi
  | .member _ _ _ false, _, _, _, hi | .sequence _ _, _, _, _, hi => hi

end Expr

end ScriptTree
