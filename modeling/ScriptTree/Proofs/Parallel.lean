import ScriptTree.Proofs.Exchange
import ScriptTree.Proofs.Twins

/-! # Reading a quotient like a product

What the first run reads, the second one reads as well, with the operator exchanged. Each part says on
which terms it is entered and left. In front of most parts no operator is expected, so they may only
be entered before another token than the operator. An expression is left where one is expected. A
statement is left where none is; it needs to know that the operator does not follow, and so does a
function body, which ends an expression all the same. -/
namespace ScriptTree

/-- The operator of a node, or a slash if it stands at the place. -/
def quotientAt (place : Nat) (left : Span) (op : Operator) (right : Span) : Operator :=
  if left.stop ≤ place ∧ place < right.start then .divide else op

def Expr.isFunction : Expr α → Bool
  | .function _ _ _ _ => true
  | _ => false

namespace Parser

open Text (bytes)

/-- A product that a run has obtained: the texts around it, where the token in front of its operator
ends, and where the run stops. -/
structure Product where
  front : List Char
  back : List Char
  stop : Nat
  last : State
  obtained : last.Multiplies front stop

namespace Product

/-- The text of the product. -/
def source (M : Product) : List Char := M.front ++ starred M.back

/-- Where the operator stands. -/
def place (M : Product) : Nat := bytes M.front + 1

/-- The product as a quotient, in a tree. -/
def divided (M : Product) : Span → Operator → Span → Operator := quotientAt M.place

/-- No function expression ends right in front of the operator. -/
def Apart (M : Product) (nodes : List (Expr Span)) : Prop :=
  ∀ e ∈ nodes, e.isFunction = true → e.note.stop ≠ M.stop

section
variable {M : Product} {e : Expr Span} {es fs : List (Expr Span)}

theorem Apart.parts (h : M.Apart (e :: es)) : M.Apart es := (List.forall_mem_cons.1 h).2

theorem Apart.left (h : M.Apart (es ++ fs)) : M.Apart es := (List.forall_mem_append.1 h).1

theorem Apart.right (h : M.Apart (es ++ fs)) : M.Apart fs := (List.forall_mem_append.1 h).2

theorem Apart.each {xs : List α} {f : α → List (Expr Span)} (h : M.Apart (xs.flatMap f)) :
    ∀ x ∈ xs, M.Apart (f x) :=
  List.forall_mem_flatMap.1 h

theorem apart_identifier {i : Identifier Span} : M.Apart (Expr.identifier i).nodes :=
  List.forall_mem_singleton.2 Bool.noConfusion

end

/-- The states of the two runs. -/
abbrev Pair (M : Product) (s s' : State) : Prop := Twin M.front M.back s s'

end Product

theorem Twin.note {front back : List Char} {s s' t t' : State} (h : Twin front back s s')
    (h' : Twin front back t t') :
    t'.since s'.current.span.start = t.since s.current.span.start := by
  rw [h.start_eq, h'.since_eq]

/-- Between `s` and `t` the second run does what `copy` says. If `b` holds, the operator is not at
`s`; and if `b'` holds, that it is not at `t` has to be known. -/
structure Parallel (M : Product) (b b' : Bool) (s t : State) (copy : State → State → Prop) : Prop where
  reaches : Reaches s t
  enters : (b' = true → t.Passable M.stop) → b = true → s.Passable M.stop
  follow {s'} : Reaches t M.last → (b' = true → t.Passable M.stop) → M.Pair s s' →
    ∃ t', copy s' t' ∧ M.Pair t t'

/-- What an item reads on these terms, the second run reads with `f` applied. -/
def Copies (M : Product) (b b' : Bool) (good : α → Prop) (f : α → α)
    (item : State → α → State → Prop) : Prop :=
  ∀ ⦃s x t⦄, item s x t → good x → Parallel M b b' s t fun s' t' => item s' (f x) t'

section
variable {M : Product} {b b₁ b' : Bool} {s t u : State} {copy copy' : State → State → Prop}

/-- Before any other token the operator is not in question. -/
theorem State.passable_of_kind {stop : Nat} {k : TokenKind} (hk : s.current.kind = k)
    (hsame : tellsApart k = false) : s.Passable stop := by
  intro h
  rw [← hk, h] at hsame
  cases hsame

namespace Parallel

theorem refl (hb : b = true → b' = true ∨ s.Passable M.stop) : Parallel M b b' s s Eq :=
  ⟨.refl, fun hp h => (hb h).elim hp id, fun _ _ h => ⟨_, rfl, h⟩⟩

theorem trans (h : Parallel M b b₁ s t copy) (h' : Parallel M b₁ b' t u copy') :
    Parallel M b b' s u fun s' u' => ∃ t', copy s' t' ∧ copy' t' u' where
  reaches := h.reaches.trans h'.reaches
  enters hp := h.enters (h'.enters hp)
  follow hu hp hs := by
    obtain ⟨t', hc, ht⟩ := h.follow (h'.reaches.trans hu) (h'.enters hp) hs
    obtain ⟨u', hc', hu⟩ := h'.follow hu hp ht
    exact ⟨u', ⟨t', hc, hc'⟩, hu⟩

theorem mono (h : Parallel M b b' s t copy)
    (hc : ∀ {s' t'}, M.Pair s s' → M.Pair t t' → copy s' t' → copy' s' t') :
    Parallel M b b' s t copy' where
  reaches := h.reaches
  enters := h.enters
  follow ht hp hs := by
    obtain ⟨t', hcopy, ht'⟩ := h.follow ht hp hs
    exact ⟨t', hc hs ht' hcopy, ht'⟩

/-- The terms may be met more generously than is asked. -/
theorem weaken {d d' : Bool} (h : Parallel M b b' s t copy) (hd : d = true → b = true)
    (hd' : b' = true → d' = true) : Parallel M d d' s t copy where
  reaches := h.reaches
  enters hp hb := h.enters (fun hb' => hp (hd' hb')) (hd hb)
  follow ht hp := h.follow ht fun hb' => hp (hd' hb')

theorem moves {flag : Bool} (hm : Moves flag s t) (hs : b = true → s.Passable M.stop) :
    Parallel M b (!flag) s t (Moves flag) where
  reaches := hm.reaches
  enters _ := hs
  follow ht hp h := h.moves M.obtained hm ht <| by
    cases flag with
    | true => exact .inl rfl
    | false => exact .inr (hp rfl)

/-- A token of a known kind. -/
theorem eats {flag : Bool} {k : TokenKind} (hk : s.current.kind = k) (hm : Moves flag s t)
    (hsame : tellsApart k = false) :
    Parallel M b (!flag) s t fun s' t' => s'.current.kind = k ∧ Moves flag s' t' :=
  (moves hm fun _ => State.passable_of_kind hk hsame).mono fun h _ hm => ⟨h.kind_eq hk hsame, hm⟩

end Parallel

/-! ## Lists -/

section
variable {good : α → Prop} {f : α → α} {item : State → α → State → Prop}

theorem Items.copies {isLast : TokenKind → Bool} (htimes : isLast (.operator .times) = false)
    (hdivide : isLast (.operator .divide) = false) (hi : Copies M true true good f item) :
    Copies M true true (fun xs => ∀ x ∈ xs, good x) (List.map f) (Items isLast item) := by
  intro s xs t h hgood
  induction h with
  | @done s hl =>
    refine (Parallel.refl fun _ => .inl rfl).mono fun hs _ hst => hst ▸ .done ?_
    rwa [hs.same (htimes.trans hdivide.symm)]
  | @more s x t xs u hl hx _ ih =>
    obtain ⟨hgx, hgxs⟩ := List.forall_mem_cons.1 hgood
    refine ((hi hx hgx).trans (ih hgxs)).mono ?_
    intro _ _ hs _ hcopy
    obtain ⟨_, hx', hxs'⟩ := hcopy
    refine .more ?_ hx' hxs'
    rwa [hs.same (htimes.trans hdivide.symm)]

theorem AfterCommas.copies (hi : Copies M true false good f item) :
    Copies M false false (fun xs => ∀ x ∈ xs, good x) (List.map f) (AfterCommas item) := by
  intro s xs t h hgood
  induction h with
  | done hk =>
    exact (Parallel.refl Or.inl).mono fun hs _ hst => hst ▸ .done (hs.kind_ne hk rfl)
  | more hk hm hx _ ih =>
    obtain ⟨hgx, hgxs⟩ := List.forall_mem_cons.1 hgood
    refine ((Parallel.eats hk hm rfl).trans ((hi hx hgx).trans (ih hgxs))).mono ?_
    intro _ _ _ _ hcopy
    obtain ⟨_, ⟨hk', hm'⟩, _, hx', hxs'⟩ := hcopy
    exact .more hk' hm' hx' hxs'

theorem separated_copies {p : Parse α} {c : Context}
    (hi : Copies M true false good f (Returns p c)) :
    Copies M true false (fun xs => ∀ x ∈ xs, good x) (List.map f) (Returns (separated p) c) := by
  intro s xs t h hgood
  obtain ⟨x, u, ys, rfl, hx, hys, hn⟩ := returns_separated.1 h
  obtain ⟨hgx, hgys⟩ := List.forall_mem_cons.1 hgood
  refine ((hi hx hgx).trans (AfterCommas.copies hi hys hgys)).mono ?_
  intro _ _ _ _ hcopy
  obtain ⟨_, hx', hys'⟩ := hcopy
  exact returns_separated.2 ⟨_, _, _, rfl, hx', hys', by rwa [List.length_map]⟩

theorem closedList_copies {p : Parse α} {c : Context} {last : TokenKind}
    (hsame : tellsApart last = false) (hi : Copies M true false good f (Returns p c)) :
    Copies M true false (fun xs => ∀ x ∈ xs, good x) (List.map f) (Returns (closedList last p) c) := by
  intro s xs t h hgood
  obtain ⟨hl, hn⟩ := returns_closedList.1 h
  rw [← List.length_map f] at hn
  cases hl with
  | empty hk hm =>
    refine (Parallel.eats hk hm hsame).mono ?_
    intro _ _ _ _ hcopy
    obtain ⟨hk', hm'⟩ := hcopy
    exact returns_closedList.2 ⟨.empty hk' hm', hn⟩
  | filled hne hx hxs hk hm =>
    obtain ⟨hgx, hgxs⟩ := List.forall_mem_cons.1 hgood
    refine ((hi hx hgx).trans ((AfterCommas.copies hi hxs hgxs).trans
      (Parallel.eats hk hm hsame))).mono ?_
    intro _ _ hs _ hcopy
    obtain ⟨_, hx', _, hxs', hk', hm'⟩ := hcopy
    exact returns_closedList.2 ⟨.filled (hs.kind_ne hne hsame) hx' hxs' hk' hm', hn⟩

end

/-! ## Parts -/

theorem identifier_copies {c : Context} :
    Copies M true false (fun _ => True) id (Returns identifier c) := by
  intro s i t h _
  obtain ⟨name, hk, hm, rfl⟩ := returns_identifier.1 h
  refine (Parallel.eats hk hm rfl).mono ?_
  intro _ _ hs ht hcopy
  obtain ⟨hk', hm'⟩ := hcopy
  refine returns_identifier.2 ⟨name, hk', hm', ?_⟩
  rw [hs.note ht, id]

theorem literal_copies {c : Context} :
    Copies M true false (fun _ => True) id (Returns literal c) := by
  intro s l t h _
  obtain ⟨v, hv, hm, rfl⟩ := returns_literal.1 h
  have hs : s.Passable M.stop := by
    intro hk
    rw [hk] at hv
    cases hv
  refine (Parallel.moves hm fun _ => hs).mono fun hs ht hm' =>
    returns_literal.2 ⟨v, ?_, hm', ?_⟩
  · exact (hs.same rfl).trans hv
  · rw [hs.note ht, id]

theorem parameters_copies {c : Context} :
    Copies M true b' (fun _ => True) id (Returns parameters c) := by
  intro s ids t h _
  obtain ⟨s₁, hk, hm, hl, hn⟩ := returns_parameters.1 h
  have hlist : Parallel M true false s₁ t fun s' t' =>
      Returns (closedList .rightParen identifier) c s' (ids.map id) t' :=
    closedList_copies rfl identifier_copies (returns_closedList.2 ⟨hl, hn⟩)
      fun _ _ => trivial
  rw [List.map_id] at hlist
  refine Parallel.weaken (((Parallel.eats hk hm rfl).trans hlist).mono ?_) id Bool.noConfusion
  intro _ _ _ _ hcopy
  obtain ⟨_, ⟨hk', hm'⟩, hl'⟩ := hcopy
  exact returns_parameters.2 ⟨_, hk', hm', returns_closedList.1 hl'⟩

theorem propertyKey_copies {c : Context} :
    Copies M true false (fun _ => True) id (Returns propertyKey c) := by
  intro s key t h _
  rcases returns_propertyKey.1 h with ⟨i, hi, rfl⟩ | ⟨l, hl, rfl⟩
  · exact (identifier_copies hi trivial).mono fun _ _ hi' =>
      returns_propertyKey.2 (.inl ⟨i, hi', rfl⟩)
  · exact (literal_copies hl trivial).mono fun _ _ hl' =>
      returns_propertyKey.2 (.inr ⟨l, hl', rfl⟩)

/-- Readers whose trees the second run reads as well, with the operator exchanged. -/
structure Dividing (M : Product) (R : Readers) : Prop where
  locates : Coupled (fun _ => ()) (fun w _ _ _ p _ => Locates w p) true R R
  start {c s floor forHead e t} : Returns (R.expression floor forHead) c s e t →
    e.note.start = s.current.span.start
  statement {c} : Copies M true true (fun x => M.Apart x.nodes) (Stmt.exchange M.divided)
    (Returns R.statement c)
  expression {c floor forHead} : Copies M true false (fun e => M.Apart e.nodes)
    (Expr.exchange M.divided) (Returns (R.expression floor forHead) c)

section
variable {R : Readers} {c : Context} (hR : Dividing M R)
include hR

theorem block_copies : Copies M true true (fun x => M.Apart x.nodes) (Block.exchange M.divided)
    (Returns (block R) c) := by
  intro s x t h hx
  obtain ⟨s₁, body, s₂, hk, hm, hb, hn, hm', rfl⟩ := returns_block.1 h
  rw [Block.nodes, Stmt.nodesList_eq] at hx
  have hend : s₂.current.kind = .rightBrace := by simpa using hb.last
  refine ((Parallel.eats hk hm rfl).trans ((Items.copies rfl rfl hR.statement hb
    hx.each).trans (Parallel.eats hend hm' rfl))).mono ?_
  intro _ _ hs ht hcopy
  obtain ⟨_, ⟨hk', hm'⟩, _, hb', _, hm''⟩ := hcopy
  refine returns_block.2
    ⟨_, _, _, hk', hm', hb', by rwa [List.length_map], hm'', ?_⟩
  rw [hs.note ht, Block.exchange, Stmt.exchangeList_eq]

theorem commaForm_copies {forHead} : Copies M true false (fun e => M.Apart e.nodes)
    (Expr.exchange M.divided) (CommaForm R c forHead) := by
  intro s e t h he
  cases h with
  | single hx hk hn =>
    exact (hR.expression hx he).mono fun _ ht hx' => .single hx' (ht.kind_ne hk rfl) hn
  | joined hx hxs hn =>
    rw [Expr.nodes, Expr.nodesList_eq] at he
    obtain ⟨hgx, hgxs⟩ := List.forall_mem_cons.1 he.parts.each
    refine ((hR.expression hx hgx).trans (AfterCommas.copies hR.expression hxs hgxs)).mono ?_
    intro _ _ hs ht hcopy
    obtain ⟨_, hx', hxs'⟩ := hcopy
    rw [Expr.exchange, Expr.exchangeList_eq, ← hs.note ht]
    exact .joined hx' hxs' (by rwa [← List.map_cons, List.length_map])

theorem property_copies : Copies M true false (fun p => M.Apart p.nodes)
    (Property.exchange M.divided) (Returns (property R) c) := by
  intro s p t h hp
  obtain ⟨key, s₁, s₂, value, hkey, hk, hm, hv, rfl⟩ := returns_property.1 h
  refine ((propertyKey_copies hkey trivial).trans ((Parallel.eats hk hm rfl).trans
    (hR.expression hv hp))).mono ?_
  intro _ _ hs ht hcopy
  obtain ⟨_, hkey', _, ⟨hk', hm'⟩, hv'⟩ := hcopy
  refine returns_property.2 ⟨key, _, _, _, hkey', hk', hm', hv', ?_⟩
  rw [hs.note ht, Property.exchange]

end

/-! ## Operands -/

theorem tellsApart_of_canLead {op : Operator} (h : op.canLead = true) :
    tellsApart (.operator op) = false := by
  cases op <;> first | rfl | cases h

/-- What is obtained later starts later. -/
theorem Reaches.start_le_start {source : List Char} (hs : s.Placed source) (h : Reaches s t) :
    s.current.span.start ≤ t.current.span.start := by
  induction h with
  | refl => exact Nat.le_refl _
  | @step flag t u hr hm ih =>
    have ht := (hr.later hs).1
    have hu := (ht.moves hm).last_le
    rw [hm.lastEnd] at hu
    exact Nat.le_trans ih (Nat.le_trans ht.start_le hu)

/-- What has been taken since ends later. -/
theorem Reaches.start_le_lastEnd {source : List Char} {flag : Bool} (hs : s.Placed source)
    (hm : Moves flag s t) (h : Reaches t u) : s.current.span.start ≤ u.lastEnd := by
  cases h with
  | refl =>
    rw [hm.lastEnd]
    exact hs.start_le
  | step hr hm' =>
    have hall := hm.reaches.trans hr
    rw [hm'.lastEnd]
    exact Nat.le_trans (hall.start_le_start hs) (hall.later hs).1.start_le

/-- A place where the operator may follow by its kind, if it is known not to follow. -/
theorem Parallel.tighten (h : Parallel M b true s t copy) (hs : s.Passable M.stop)
    (ht : s.Placed M.source → t.Passable M.stop) : Parallel M b false s t copy where
  reaches := h.reaches
  enters _ _ := hs
  follow hr _ hp := h.follow hr (fun _ => ht hp.placed) hp

/-- The name of a function expression, if it has one. -/
theorem functionName_parallel {c : Context} {id : Option (Identifier Span)}
    (h : id = none ∧ s = t ∧ (∀ name, s.current.kind ≠ .identifier name) ∨
      ∃ i, id = some i ∧ Returns identifier c s i t) :
    Parallel M true true s t fun s' t' =>
      id = none ∧ s' = t' ∧ (∀ name, s'.current.kind ≠ .identifier name) ∨
        ∃ i, id = some i ∧ Returns identifier c s' i t' := by
  rcases h with ⟨rfl, rfl, hne⟩ | ⟨i, rfl, hi⟩
  · exact (Parallel.refl Or.inl).mono fun hs _ hst =>
      .inl ⟨rfl, hst, fun name => hs.kind_ne (hne name) rfl⟩
  · exact ((identifier_copies hi trivial).weaken id fun _ => rfl).mono fun _ _ hi' =>
      .inr ⟨i, rfl, hi'⟩

section
variable {R : Readers} {c : Context} (hR : Dividing M R)
include hR

theorem operand_copies : Copies M true false (fun e => M.Apart e.nodes)
    (Expr.exchange M.divided) (OperandForm R c) := by
  intro s e t h he
  cases h with
  | group hk hm hes hl hm' =>
    rw [Expr.nodes, Expr.nodesList_eq] at he
    refine ((Parallel.eats hk hm rfl).trans ((separated_copies hR.expression hes
      he.parts.each).trans (Parallel.eats hl hm' rfl))).mono ?_
    intro _ _ hs ht hcopy
    obtain ⟨_, ⟨hk', hm₁⟩, _, hes', hl', hm₂⟩ := hcopy
    rw [Expr.exchange, Expr.exchangeList_eq, ← hs.note ht]
    exact .group hk' hm₁ hes' hl' hm₂
  | array hk hm hes =>
    rw [Expr.nodes, Expr.nodesList_eq] at he
    refine ((Parallel.eats hk hm rfl).trans (closedList_copies rfl
      hR.expression hes he.parts.each)).mono ?_
    intro _ _ hs ht hcopy
    obtain ⟨_, ⟨hk', hm'⟩, hes'⟩ := hcopy
    rw [Expr.exchange, Expr.exchangeList_eq, ← hs.note ht]
    exact .array hk' hm' hes'
  | newCall hk hm hf =>
    refine ((Parallel.eats hk hm rfl).trans (hR.expression hf
      (List.forall_mem_cons.2 ⟨Bool.noConfusion, he.parts⟩))).mono ?_
    intro _ _ hs ht hcopy
    obtain ⟨_, ⟨hk', hm'⟩, hf'⟩ := hcopy
    rw [Expr.exchange, ← hs.note ht]
    rw [Expr.exchange] at hf'
    exact .newCall hk' hm' hf'
  | newPlain hk hm hf hne =>
    rw [Expr.nodes, Expr.nodesList, List.append_nil] at he
    refine ((Parallel.eats hk hm rfl).trans (hR.expression hf he.parts)).mono ?_
    intro _ _ hs ht hcopy
    obtain ⟨_, ⟨hk', hm'⟩, hf'⟩ := hcopy
    rw [Expr.exchange, Expr.exchangeList, ← hs.note ht]
    refine .newPlain hk' hm' hf' fun note g args hcall => ?_
    obtain ⟨g', args', rfl⟩ := Expr.exchange_eq_call _ hcall
    exact hne note g' args' rfl
  | unary hk hl hu hm hx =>
    refine ((Parallel.eats hk hm (tellsApart_of_canLead hl)).trans
      (hR.expression hx he.parts)).mono ?_
    intro _ _ hs ht hcopy
    obtain ⟨_, ⟨hk', hm'⟩, hx'⟩ := hcopy
    rw [Expr.exchange, ← hs.note ht]
    exact .unary hk' hl hu hm' hx'
  | update hk hu hm hx ht =>
    refine ((Parallel.eats hk hm (tellsApart_of_canLead (canLead_of_isUpdate hu))).trans
      (hR.expression hx he.parts)).mono ?_
    intro _ _ hs ht hcopy
    obtain ⟨_, ⟨hk', hm'⟩, hx'⟩ := hcopy
    rw [Expr.exchange, ← hs.note ht]
    exact .update hk' hu hm' hx' (by rwa [Expr.isTarget_exchange])
  | literal hl => exact (literal_copies hl trivial).mono fun _ _ hl' => .literal hl'
  | identifier hi => exact (identifier_copies hi trivial).mono fun _ _ hi' => .identifier hi'
  | this hk hm =>
    refine (Parallel.eats hk hm rfl).mono ?_
    intro _ _ hs ht hcopy
    obtain ⟨hk', hm'⟩ := hcopy
    rw [Expr.exchange, ← hs.note ht]
    exact .this hk' hm'
  | function hk hm hid hp hb =>
    have hself := (List.forall_mem_cons.1 he).1 rfl
    have hinside := (functionName_parallel hid).trans
      ((parameters_copies hp trivial).trans (block_copies hR hb he.parts))
    -- no operator is expected behind the brace, but then the function would end in front of it
    have hend (hs : s.Placed M.source) : t.Passable M.stop := fun _ hstop => hself <| by
      rw [← hstop]
      exact Nat.max_eq_left (hinside.reaches.start_le_lastEnd hs hm)
    refine (((Parallel.eats hk hm rfl).trans hinside).tighten
      (State.passable_of_kind hk rfl) hend).mono ?_
    intro _ _ hs ht hcopy
    obtain ⟨_, ⟨hk', hm'⟩, _, hid', _, hp', hb'⟩ := hcopy
    rw [Expr.exchange, ← hs.note ht]
    exact .function hk' hm' hid' hp' hb'
  | object hk hm hps =>
    rw [Expr.nodes, Property.nodesList_eq] at he
    refine ((Parallel.eats hk hm rfl).trans (closedList_copies rfl
      (property_copies hR) hps he.parts.each)).mono ?_
    intro _ _ hs ht hcopy
    obtain ⟨_, ⟨hk', hm'⟩, hps'⟩ := hcopy
    rw [Expr.exchange, Property.exchangeList_eq, ← hs.note ht]
    exact .object hk' hm' hps'

end

/-! ## What follows an operand -/

theorem quotientAt_isBinary {place : Nat} {left right : Span} {op : Operator}
    (h : op.isBinary = true) : (quotientAt place left op right).isBinary = true := by
  unfold quotientAt
  split
  · rfl
  · exact h

/-- Behind what ends at the last token and in front of what starts at the next one, the operator is
exchanged if it stands there, and stays if it does not. -/
theorem operator_parallel {op : Operator} {start : Nat} {left right : Span}
    (hk : s.current.kind = .operator op) (hm : Moves false s t) (hleft : left = s.since start)
    (hstart : start ≤ s.current.span.start) (hright : right.start = t.current.span.start) :
    Parallel M false true s t fun s' t' =>
      s'.current.kind = .operator (M.divided left op right) ∧ Moves false s' t' where
  reaches := hm.reaches
  enters _ := Bool.noConfusion
  follow {s'} ht hp hs := by
    obtain ⟨t', hm', hpair⟩ := hs.moves M.obtained hm ht (.inr (hp rfl))
    have hstop : left.stop = max s.lastEnd start := by rw [hleft, State.since]
    have hlast := hs.placed.last_le
    refine ⟨t', ⟨?_, hm'⟩, hpair⟩
    rw [Product.divided, quotientAt, Product.place]
    cases hs.phase with
    | before hrest _ =>
      -- the next token does not start behind the operator
      have hnext : t.current.span.start ≤ bytes M.front + 1 := by
        cases hpair.phase with
        | before hrest' _ => exact Nat.le_of_lt (hpair.placed.start_lt hrest')
        | on hc => rw [hc]
        | after hlt _ _ _ _ =>
          have hoffset := hs.placed.offset_add_bytes hrest
          rw [hm.lastEnd, hs.placed.stop] at hlt
          omega
      rw [if_neg (by omega)]
      exact hk
    | on hc =>
      have hnext := hpair.placed.last_le
      rw [hm.lastEnd, hc] at hnext
      rw [hc] at hlast hstart hk
      rw [if_pos (by dsimp only at hnext hlast hstart; omega)]
    | after hlt hc _ _ _ =>
      rw [if_neg (by omega), hc]
      exact hk

theorem ExtendForm.nodes_subset {R : Readers} {c : Context} {start forHead left q e}
    (h : ExtendForm R c start forHead left q s e t) : left.nodes ⊆ e.nodes := by
  intro x hx
  cases h <;> simp [Expr.nodes, hx]

theorem Extended.nodes_subset {R : Readers} {c : Context} {start floor forHead n left e}
    (h : Extended R c start floor forHead n left s e t) : left.nodes ⊆ e.nodes := by
  induction h with
  | stop _ => exact fun _ => id
  | more _ hx _ ih => exact fun _ h => ih (hx.nodes_subset h)

theorem OperandForm.note_eq {R : Readers} {c : Context} {e} (h : OperandForm R c s e t) :
    e.note = t.since s.current.span.start := by
  cases h with
  | literal hl =>
    obtain ⟨v, -, -, rfl⟩ := returns_literal.1 hl
    rfl
  | identifier hi =>
    obtain ⟨name, -, -, rfl⟩ := returns_identifier.1 hi
    rfl
  | _ => rfl

theorem ExtendForm.note_eq {R : Readers} {c : Context} {start forHead left q e}
    (h : ExtendForm R c start forHead left q s e t) : e.note = t.since start := by
  cases h <;> rfl

section
variable {R : Readers} {c : Context} (hR : Dividing M R)
include hR

theorem extend_parallel {start forHead left q e} (h : ExtendForm R c start forHead left q s e t)
    (he : M.Apart e.nodes) (hleft : left.note = s.since start)
    (hstart : start ≤ s.current.span.start) : Parallel M false false s t fun s' t' =>
      ExtendForm R c start forHead (left.exchange M.divided) q s' (e.exchange M.divided) t' := by
  cases h with
  | call hk hm ha =>
    rw [Expr.nodes, Expr.nodesList_eq] at he
    refine ((Parallel.eats hk hm rfl).trans (closedList_copies rfl
      hR.expression ha he.parts.right.each)).mono ?_
    intro _ _ hs ht hcopy
    obtain ⟨_, ⟨hk', hm'⟩, ha'⟩ := hcopy
    rw [Expr.exchange, Expr.exchangeList_eq, ← ht.since_eq]
    exact .call hk' hm' ha'
  | index hk hm hp hl hm' =>
    refine ((Parallel.eats hk hm rfl).trans ((commaForm_copies hR hp he.parts.right).trans
      (Parallel.eats hl hm' rfl))).mono ?_
    intro _ _ hs ht hcopy
    obtain ⟨_, ⟨hk', hm₁⟩, _, hp', hl', hm₂⟩ := hcopy
    rw [Expr.exchange, ← ht.since_eq]
    exact .index hk' hm₁ hp' hl' hm₂
  | binary hk ho hm hr =>
    refine ((operator_parallel hk hm hleft hstart (hR.start hr)).trans
      (hR.expression hr he.parts.right)).mono ?_
    intro _ _ hs ht hcopy
    obtain ⟨_, ⟨hk', hm'⟩, hr'⟩ := hcopy
    rw [Expr.exchange, ← ht.since_eq]
    exact .binary hk' (quotientAt_isBinary ho) hm' hr'
  | @assignment op _ _ _ hk ho htarget hm hr =>
    have hsame : tellsApart (.operator op) = false := by cases op <;> first | rfl | cases ho
    refine ((Parallel.eats hk hm hsame).trans
      (hR.expression hr he.parts.right)).mono ?_
    intro _ _ hs ht hcopy
    obtain ⟨_, ⟨hk', hm'⟩, hr'⟩ := hcopy
    rw [Expr.exchange, ← ht.since_eq]
    exact .assignment hk' ho (by rwa [Expr.isTarget_exchange]) hm' hr'
  | @logical op _ _ _ hk ho hm hr =>
    have hsame : tellsApart (.operator op) = false := by cases op <;> first | rfl | cases ho
    refine ((Parallel.eats hk hm hsame).trans
      (hR.expression hr he.parts.right)).mono ?_
    intro _ _ hs ht hcopy
    obtain ⟨_, ⟨hk', hm'⟩, hr'⟩ := hcopy
    rw [Expr.exchange, ← ht.since_eq]
    exact .logical hk' ho hm' hr'
  | dot hk hm hr =>
    refine ((Parallel.eats hk hm rfl).trans (hR.expression hr he.parts.right)).mono ?_
    intro _ _ hs ht hcopy
    obtain ⟨_, ⟨hk', hm'⟩, hr'⟩ := hcopy
    rw [Expr.exchange, ← ht.since_eq]
    exact .dot hk' hm' hr'
  | conditional hk hm hx hc hm' hy =>
    refine ((Parallel.eats hk hm rfl).trans
      ((hR.expression hx he.parts.left.right).trans
        ((Parallel.eats hc hm' rfl).trans (hR.expression hy he.parts.right)))).mono ?_
    intro _ _ hs ht hcopy
    obtain ⟨_, ⟨hk', hm₁⟩, _, hx', _, ⟨hc', hm₂⟩, hy'⟩ := hcopy
    rw [Expr.exchange, ← ht.since_eq]
    exact .conditional hk' hm₁ hx' hc' hm₂ hy'
  | update hk ho htarget hm =>
    refine (Parallel.eats hk hm (tellsApart_of_canLead (canLead_of_isUpdate ho))).mono ?_
    intro _ _ hs ht hcopy
    obtain ⟨hk', hm'⟩ := hcopy
    rw [Expr.exchange, ← ht.since_eq]
    exact .update hk' ho (by rwa [Expr.isTarget_exchange]) hm'

theorem extended_parallel {start floor forHead n left e}
    (h : Extended R c start floor forHead n left s e t) (hplaced : s.Placed M.source)
    (he : M.Apart e.nodes) (hleft : left.note = s.since start)
    (hstart : start ≤ s.current.span.start) : Parallel M false false s t fun s' t' =>
      Extended R c start floor forHead n (left.exchange M.divided) s' (e.exchange M.divided) t' := by
  have same {s s' : State} (hs : M.Pair s s') : continuation? floor forHead s'.current.kind =
      continuation? floor forHead s.current.kind := hs.same rfl
  induction h with
  | stop hc =>
    exact (Parallel.refl Or.inl).mono fun hs _ hst => hst ▸ .stop ((same hs).trans hc)
  | more hc hx hrest ih =>
    have hfirst := extend_parallel hR hx (fun x h => he x (hrest.nodes_subset h)) hleft hstart
    have hle := hfirst.reaches.start_le_start hplaced
    refine (hfirst.trans (ih (hfirst.reaches.later hplaced).1 he hx.note_eq
      (Nat.le_trans hstart hle))).mono ?_
    intro _ _ hs _ hcopy
    obtain ⟨_, hx', hrest'⟩ := hcopy
    exact .more ((same hs).trans hc) hx' hrest'

theorem expression_copies {floor forHead} : Copies M true false (fun e => M.Apart e.nodes)
    (Expr.exchange M.divided) (Returns (expression R floor forHead) c) := by
  intro s e t h he
  obtain ⟨first, u, n, ho, hx, hn⟩ := returns_expression.1 h
  have hfirst := operand_copies hR ho fun x h => he x (hx.nodes_subset h)
  -- that notes are in order is known once the place of the first token is
  have hall (hs : s.Placed M.source) := hfirst.trans
    (extended_parallel hR hx (hfirst.reaches.later hs).1 he ho.note_eq
      (hfirst.reaches.start_le_start hs))
  exact {
    reaches := locates_coupling.expression (w := .all) hR.locates (b := true) |>.returns h
    enters := fun _ => hfirst.enters Bool.noConfusion
    follow := fun ht hp hs => by
      obtain ⟨t', ⟨u', ho', hx'⟩, ht'⟩ := (hall hs.placed).follow ht hp hs
      rw [← hs.start_eq] at hx'
      exact ⟨t', returns_expression.2 ⟨_, u', n, ho', hx', hn⟩, ht'⟩ }

end

end
end Parser
end ScriptTree
