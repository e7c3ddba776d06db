import ScriptTree.Proofs.Parallel
import ScriptTree.Proofs.Shapes

/-! # Division is read wherever multiplication is

A slash divides where a star multiplies, with one exception. The reader of blocks does not expect an
operator behind the brace, also where the block is the body of a function expression and the brace
completes an operand. Everywhere else the quotient is accepted if the product is, and its tree is that
of the product with the one operator exchanged. -/
namespace ScriptTree

/-- Whether the expression multiplies, with its operator at the place. -/
def Expr.multipliesAt (place : Nat) : Expr Span → Bool
  | .binary _ op l r => op == .times && decide (l.note.stop ≤ place ∧ place < r.note.start)
  | _ => false

theorem isDefault_exchange (f : Span → Operator → Span → Operator) (x : SwitchCase Span) :
    Parser.isDefault (x.exchange f) = Parser.isDefault x := by
  obtain ⟨note, test, body⟩ := x
  cases test <;> rfl

theorem bindsOne_exchange (f : α → Operator → α → Operator) (d : Declaration α) :
    Parser.bindsOne (.declaration (d.exchange f)) = Parser.bindsOne (.declaration d) := by
  obtain ⟨note, ds⟩ := d
  rcases ds with _ | ⟨d, _ | ⟨d', ds⟩⟩ <;> rfl

theorem jumpNode_exchange (f : α → Operator → α → Operator) (note : α)
    (label : Option (Identifier α)) (j : Jump) :
    (Parser.jumpNode note label j).exchange f = Parser.jumpNode note label j := by
  cases j <;> rfl

namespace Parser

section
variable {M : Product} {b b' : Bool} {s t : State} {c : Context}

/-! ## Parts of statements -/

theorem ends_parallel (h : Ends s t) : Parallel M b true s t Ends := by
  cases h with
  | before hk =>
    exact (Parallel.refl fun _ => .inl rfl).mono fun hs _ hst => hst ▸ .before
      (hk.imp (fun hk => hs.kind_eq hk rfl) fun hk => hs.kind_eq hk rfl)
  | semicolon hk hm =>
    refine (Parallel.eats hk hm rfl).mono ?_
    intro _ _ _ _ hcopy
    obtain ⟨hk', hm'⟩ := hcopy
    exact .semicolon hk' hm'
  | line hk hb =>
    exact (Parallel.refl fun _ => .inl rfl).mono fun hs _ hst => hst ▸
      .line ((hs.same rfl).trans hk) (by rwa [hs.gap_eq])

section
variable {good : α → Prop} {f : α → α} {p : Parse α} {k : TokenKind}

theorem unless_copies (hsame : tellsApart k = false) (hi : Copies M true b' good f (Returns p c)) :
    Copies M true b' (fun o => ∀ x ∈ o, good x) (Option.map f) (Unless k p c) := by
  intro s o t h ho
  cases h with
  | absent hk =>
    exact (Parallel.refl fun _ => .inr (State.passable_of_kind hk hsame)).mono
      fun hs _ hst => hst ▸ .absent (hs.kind_eq hk hsame)
  | present hne hx =>
    exact (hi hx (ho _ rfl)).mono fun hs _ hx' => .present (hs.kind_ne hne hsame) hx'

theorem announced_copies (hsame : tellsApart k = false) (hb : b = true → b' = true)
    (hi : Copies M true b' good f (Returns p c)) :
    Copies M b b' (fun o => ∀ x ∈ o, good x) (Option.map f) (Announced k p c) := by
  intro s o t h ho
  cases h with
  | absent hne =>
    exact (Parallel.refl fun h => .inl (hb h)).mono
      fun hs _ hst => hst ▸ .absent (hs.kind_ne hne hsame)
  | present hk hm hx =>
    refine ((Parallel.eats hk hm hsame).trans (hi hx (ho _ rfl))).mono ?_
    intro _ _ _ _ hcopy
    obtain ⟨_, ⟨hk', hm'⟩, hx'⟩ := hcopy
    exact .present hk' hm' hx'

theorem trailing_copies (hi : Copies M true false good f (Returns p c)) :
    Copies M true true (fun o => ∀ x ∈ o, good x) (Option.map f) (Trailing p c) := by
  intro s o t h ho
  cases h with
  | absent hend => exact (ends_parallel hend).mono fun _ _ hend' => .absent hend'
  | present hk hg hx hend =>
    refine ((hi hx (ho _ rfl)).trans (ends_parallel hend)).mono ?_
    intro _ _ hs _ hcopy
    obtain ⟨_, hx', hend'⟩ := hcopy
    exact .present ((hs.same rfl).trans hk) (by rwa [hs.gap_eq]) hx' hend'

end

section
variable {R : Readers} (hR : Dividing M R)
include hR

theorem commaExpression_copies {forHead} : Copies M true false (fun e => M.Apart e.nodes)
    (Expr.exchange M.divided) (Returns (commaExpression R forHead) c) := by
  intro s e t h he
  exact (commaForm_copies hR (returns_commaExpression.1 h) he).mono fun _ _ h' =>
    returns_commaExpression.2 h'

theorem condition_copies : Copies M true true (fun e => M.Apart e.nodes)
    (Expr.exchange M.divided) (Returns (condition R) c) := by
  intro s e t h he
  obtain ⟨s₁, s₂, hk, hm, hx, hl, hm'⟩ := returns_condition.1 h
  refine ((Parallel.eats hk hm rfl).trans ((commaForm_copies hR hx he).trans
    (Parallel.eats hl hm' rfl))).mono ?_
  intro _ _ _ _ hcopy
  obtain ⟨_, ⟨hk', hm₁⟩, _, hx', hl', hm₂⟩ := hcopy
  exact returns_condition.2 ⟨_, _, hk', hm₁, hx', hl', hm₂⟩

theorem loopBody_copies : Copies M true true (fun x => M.Apart x.nodes)
    (Stmt.exchange M.divided) (Returns (loopBody R) c) := by
  intro s x t h hx
  exact (hR.statement (returns_inScope.1 h) hx).mono fun _ _ h' => returns_inScope.2 h'

theorem caseHead_copies : Copies M true true (fun o => ∀ e ∈ o, M.Apart e.nodes)
    (Option.map (Expr.exchange M.divided)) (CaseHead R c) := by
  intro s o t h ho
  cases h with
  | case hk hm he =>
    refine ((Parallel.eats hk hm rfl).trans ((commaForm_copies hR he (ho _ rfl)).weaken id
      fun _ => rfl)).mono ?_
    intro _ _ _ _ hcopy
    obtain ⟨_, ⟨hk', hm'⟩, he'⟩ := hcopy
    exact .case hk' hm' he'
  | default hk hm =>
    refine (Parallel.eats hk hm rfl).mono ?_
    intro _ _ _ _ hcopy
    obtain ⟨hk', hm'⟩ := hcopy
    exact .default hk' hm'

theorem switchCase_copies : Copies M true true (fun x => M.Apart x.nodes)
    (SwitchCase.exchange M.divided) (Returns (switchCase R) c) := by
  intro s x t h hx
  obtain ⟨test, s₁, s₂, body, hh, hc, hm, hi, hn, rfl⟩ := returns_switchCase.1 h
  rw [SwitchCase.nodes, Stmt.nodesList_eq] at hx
  refine ((caseHead_copies hR hh (by rintro e rfl; exact hx.left)).trans
    ((Parallel.eats hc hm rfl).trans (Items.copies rfl rfl hR.statement hi
      hx.right.each))).mono ?_
  intro _ _ hs ht hcopy
  obtain ⟨_, hh', _, ⟨hc', hm'⟩, hi'⟩ := hcopy
  refine returns_switchCase.2 ⟨_, _, _, _, hh', hc', hm', hi', by rwa [List.length_map], ?_⟩
  rw [hs.note ht, SwitchCase.exchange, Expr.exchangeOption_eq, Stmt.exchangeList_eq]

theorem cases_copies {hasDefault} : Copies M true true (fun xs => ∀ x ∈ xs, M.Apart x.nodes)
    (List.map (SwitchCase.exchange M.divided)) (Cases R c hasDefault) := by
  intro s xs t h hxs
  induction h with
  | done hk =>
    exact (Parallel.refl fun _ => .inl rfl).mono
      fun hs _ hst => hst ▸ .done (hs.kind_eq hk rfl)
  | more hk hx hd _ ih =>
    obtain ⟨hgx, hgxs⟩ := List.forall_mem_cons.1 hxs
    rw [← isDefault_exchange M.divided] at hd ih
    refine ((switchCase_copies hR hx hgx).trans (ih hgxs)).mono ?_
    intro _ _ hs _ hcopy
    obtain ⟨_, hx', hxs'⟩ := hcopy
    exact .more (hs.kind_ne hk rfl) hx' hd hxs'

theorem handler_copies : Copies M true true (fun o => ∀ x ∈ o, M.Apart x.nodes)
    (Option.map (CatchClause.exchange M.divided)) (HandlerForm R c) := by
  intro s o t h ho
  cases h with
  | present hk hx =>
    have hinner := ho _ rfl
    obtain ⟨s₁, s₂, param, s₃, s₄, body, hm, hl, hm₁, hp, hr, hm₂, hb, rfl⟩ :=
      returns_catchClause.1 hx
    refine ((Parallel.eats hk hm rfl).trans ((Parallel.eats hl hm₁ rfl).trans
      ((identifier_copies hp trivial).trans ((Parallel.eats hr hm₂ rfl).trans
        (block_copies hR hb hinner))))).mono ?_
    intro _ _ hs ht hcopy
    obtain ⟨_, ⟨hk', hm'⟩, _, ⟨hl', hm₁'⟩, _, hp', _, ⟨hr', hm₂'⟩, hb'⟩ := hcopy
    refine .present hk'
      (returns_catchClause.2 ⟨_, _, param, _, _, _, hm', hl', hm₁', hp', hr', hm₂', hb', ?_⟩)
    rw [hs.note ht, CatchClause.exchange]
  | absent hk =>
    exact (Parallel.refl fun _ => .inl rfl).mono
      fun hs _ hst => hst ▸ .absent (hs.kind_eq hk rfl)

theorem declarator_copies {forHead} : Copies M true false (fun d => M.Apart d.nodes)
    (Declarator.exchange M.divided) (Returns (declarator R forHead) c) := by
  intro s d t h hd
  obtain ⟨id, s₁, init, hi, ha, rfl⟩ := returns_declarator.1 h
  refine ((identifier_copies hi trivial).trans (announced_copies rfl
    (fun h => h) hR.expression ha (by rintro e rfl; exact hd))).mono ?_
  intro _ _ hs ht hcopy
  obtain ⟨_, hi', ha'⟩ := hcopy
  refine returns_declarator.2 ⟨id, _, _, hi', ha', ?_⟩
  rw [hs.note ht, Declarator.exchange, Expr.exchangeOption_eq]

theorem declaration_parallel {forHead d} (hk : s.current.kind = .keyword .var)
    (h : Returns (declaration R forHead) c s d t) (hd : M.Apart d.nodes) :
    Parallel M true (!forHead) s t fun s' t' =>
      Returns (declaration R forHead) c s' (d.exchange M.divided) t' := by
  obtain ⟨s₁, ds, s₂, hm, hds, hend, rfl⟩ := returns_declaration.1 h
  rw [Declaration.nodes, Declarator.nodesList_eq] at hd
  have hlist : Parallel M true false s s₂ _ := (Parallel.eats hk hm rfl).trans
    (separated_copies (declarator_copies hR) hds hd.each)
  rcases hend with ⟨rfl, rfl⟩ | ⟨rfl, hend⟩
  · refine hlist.mono ?_
    intro _ _ hs ht hcopy
    obtain ⟨_, ⟨_, hm'⟩, hds'⟩ := hcopy
    refine returns_declaration.2 ⟨_, _, _, hm', hds', .inl ⟨rfl, rfl⟩, ?_⟩
    rw [hs.note ht, Declaration.exchange, Declarator.exchangeList_eq]
  · refine (hlist.trans (ends_parallel hend)).mono ?_
    intro _ _ hs ht hcopy
    obtain ⟨_, ⟨_, ⟨_, hm'⟩, hds'⟩, hend'⟩ := hcopy
    refine returns_declaration.2 ⟨_, _, _, hm', hds', .inr ⟨rfl, hend'⟩, ?_⟩
    rw [hs.note ht, Declaration.exchange, Declarator.exchangeList_eq]

/-! ## Heads of loops -/

theorem forTail_parallel {test update body} (h : ForTail R c s test update body t)
    (htest : M.Apart (Expr.nodesOption test)) (hupdate : M.Apart (Expr.nodesOption update))
    (hbody : M.Apart body.nodes) : Parallel M b true s t fun s' t' =>
      ForTail R c s' (Expr.exchangeOption M.divided test) (Expr.exchangeOption M.divided update)
        (body.exchange M.divided) t' := by
  obtain ⟨hk, hm, ht, hk₁, hm₁, hu, hl, hm₂, hb⟩ := h
  rw [Expr.exchangeOption_eq, Expr.exchangeOption_eq]
  refine ((Parallel.eats hk hm rfl).trans ((unless_copies rfl
    (commaExpression_copies hR) ht (by rintro e rfl; exact htest)).trans
      ((Parallel.eats hk₁ hm₁ rfl).trans ((unless_copies rfl
        (commaExpression_copies hR) hu (by rintro e rfl; exact hupdate)).trans
          ((Parallel.eats hl hm₂ rfl).trans (loopBody_copies hR hb hbody)))))).mono ?_
  intro _ _ _ _ hcopy
  obtain ⟨_, ⟨hk', hm'⟩, _, ht', _, ⟨hk₁', hm₁'⟩, _, hu', _, ⟨hl', hm₂'⟩, hb'⟩ := hcopy
  exact .mk hk' hm' ht' hk₁' hm₁' hu' hl' hm₂' hb'

theorem forInTail_parallel {object body} (h : ForInTail R c s object body t)
    (hobject : M.Apart object.nodes) (hbody : M.Apart body.nodes) :
    Parallel M b true s t fun s' t' =>
      ForInTail R c s' (object.exchange M.divided) (body.exchange M.divided) t' := by
  obtain ⟨hk, hm, ho, hl, hm', hb⟩ := h
  refine ((Parallel.eats hk hm rfl).trans ((commaForm_copies hR ho hobject).trans
    ((Parallel.eats hl hm' rfl).trans (loopBody_copies hR hb hbody)))).mono ?_
  intro _ _ _ _ hcopy
  obtain ⟨_, ⟨hk', hm₁⟩, _, ho', _, ⟨hl', hm₂⟩, hb'⟩ := hcopy
  exact .mk hk' hm₁ ho' hl' hm₂ hb'

theorem forForm_parallel {start x} (h : ForForm R c start s x t) (hx : M.Apart x.nodes) :
    Parallel M true true s t fun s' t' => ForForm R c start s' (x.exchange M.divided) t' := by
  cases h with
  | counted hk hd htail =>
    refine ((declaration_parallel hR hk hd hx.left.left.left).trans
      (forTail_parallel hR htail hx.left.left.right hx.left.right hx.right)).mono ?_
    intro _ _ hs ht hcopy
    obtain ⟨_, hd', htail'⟩ := hcopy
    rw [Stmt.exchange, ← ht.since_eq]
    exact .counted (hs.kind_eq hk rfl) hd' htail'
  | bound hk hd hone htail =>
    refine ((declaration_parallel hR hk hd hx.left.left).trans
      (forInTail_parallel hR htail hx.left.right hx.right)).mono ?_
    intro _ _ hs ht hcopy
    obtain ⟨_, hd', htail'⟩ := hcopy
    rw [Stmt.exchange, ← ht.since_eq]
    exact .bound (hs.kind_eq hk rfl) hd' (by rwa [bindsOne_exchange]) htail'
  | bare htail =>
    refine (forTail_parallel hR htail hx.left.left.right hx.left.right hx.right).mono
      fun _ ht htail' => ?_
    rw [Stmt.exchange, ← ht.since_eq]
    exact .bare htail'
  | named hvar hsemi he htail =>
    refine ((commaForm_copies hR he Product.apart_identifier).trans
      (forInTail_parallel hR htail hx.left.right hx.right)).mono ?_
    intro _ _ hs ht hcopy
    obtain ⟨_, he', htail'⟩ := hcopy
    rw [Stmt.exchange, ← ht.since_eq]
    exact .named (hs.kind_ne hvar rfl) (hs.kind_ne hsemi rfl) he' htail'
  | started hvar hsemi he htail =>
    refine ((commaForm_copies hR he hx.left.left.left).trans
      (forTail_parallel hR htail hx.left.left.right hx.left.right hx.right)).mono ?_
    intro _ _ hs ht hcopy
    obtain ⟨_, he', htail'⟩ := hcopy
    rw [Stmt.exchange, ← ht.since_eq]
    exact .started (hs.kind_ne hvar rfl) (hs.kind_ne hsemi rfl) he' htail'

/-! ## Statements -/

theorem statementForm_copies {stacked} : Copies M true true (fun x => M.Apart x.nodes)
    (Stmt.exchange M.divided) (StatementForm R c stacked) := by
  intro s x t h hx
  cases h with
  | empty hk hm =>
    refine (Parallel.eats hk hm rfl).mono ?_
    intro _ _ hs ht hcopy
    obtain ⟨hk', hm'⟩ := hcopy
    rw [Stmt.exchange, ← hs.note ht]
    exact .empty hk' hm'
  | block hk hb =>
    exact (block_copies hR hb hx).mono fun hs _ hb' => .block (hs.kind_eq hk rfl) hb'
  | expression ho he hne hend =>
    refine (((commaForm_copies hR he hx).mono fun _ ht he' => And.intro he' fun i hi =>
      ht.kind_ne (hne i (Expr.exchange_eq_identifier M.divided hi)) rfl).trans
        (ends_parallel hend)).mono ?_
    intro _ _ hs ht hcopy
    obtain ⟨_, ⟨he', hne'⟩, hend'⟩ := hcopy
    rw [Stmt.exchange, ← hs.note ht]
    exact .expression ((hs.same rfl).trans ho) he' hne' hend'
  | labeled ho he hc hm hd hb =>
    refine ((commaForm_copies hR he Product.apart_identifier).trans
      (((Parallel.eats hc hm rfl).mono fun _ ht hm' =>
        And.intro hm' (show targetAt _ = targetAt _ from ht.same rfl)).trans
          (hR.statement hb hx))).mono ?_
    intro _ _ hs ht hcopy
    obtain ⟨_, he', _, ⟨⟨hc', hm'⟩, htarget⟩, hb'⟩ := hcopy
    rw [Stmt.exchange, ← hs.note ht]
    exact .labeled ((hs.same rfl).trans ho) he' hc' hm' hd (by rwa [htarget])
  | «if» hk hm hc hy hz =>
    refine ((Parallel.eats hk hm rfl).trans ((condition_copies hR hc hx.left.left).trans
      ((hR.statement hy hx.left.right).trans (announced_copies rfl (fun h => h)
        hR.statement hz (by rintro y rfl; exact hx.right))))).mono ?_
    intro _ _ hs ht hcopy
    obtain ⟨_, ⟨hk', hm'⟩, _, hc', _, hy', hz'⟩ := hcopy
    rw [Stmt.exchange, Stmt.exchangeOption_eq, ← hs.note ht]
    exact .if hk' hm' hc' hy' hz'
  | debugger hk hm hend =>
    refine ((Parallel.eats hk hm rfl).trans (ends_parallel hend)).mono ?_
    intro _ _ hs ht hcopy
    obtain ⟨_, ⟨hk', hm'⟩, hend'⟩ := hcopy
    rw [Stmt.exchange, ← hs.note ht]
    exact .debugger hk' hm' hend'
  | «with» hk hm hc hb =>
    refine ((Parallel.eats hk hm rfl).trans ((condition_copies hR hc hx.left).trans
      (hR.statement hb hx.right))).mono ?_
    intro _ _ hs ht hcopy
    obtain ⟨_, ⟨hk', hm'⟩, _, hc', hb'⟩ := hcopy
    rw [Stmt.exchange, ← hs.note ht]
    exact .with hk' hm' hc' hb'
  | «return» hk hm he =>
    refine ((Parallel.eats hk hm rfl).trans (trailing_copies (commaExpression_copies hR) he
      (by rintro e rfl; exact hx))).mono ?_
    intro _ _ hs ht hcopy
    obtain ⟨_, ⟨hk', hm'⟩, he'⟩ := hcopy
    rw [Stmt.exchange, Expr.exchangeOption_eq, ← hs.note ht]
    exact .return hk' hm' he'
  | throw hk hm he =>
    refine ((Parallel.eats hk hm rfl).trans (trailing_copies (commaExpression_copies hR) he
      (by rintro e ⟨⟩; exact hx))).mono ?_
    intro _ _ hs ht hcopy
    obtain ⟨_, ⟨hk', hm'⟩, he'⟩ := hcopy
    rw [Stmt.exchange, ← hs.note ht]
    exact .throw hk' hm' he'
  | jump hk hm hl ha =>
    refine ((Parallel.eats hk hm rfl).trans (trailing_copies identifier_copies hl
      fun _ _ => trivial)).mono ?_
    intro _ _ hs ht hcopy
    obtain ⟨_, ⟨hk', hm'⟩, hl'⟩ := hcopy
    rw [Option.map_id] at hl'
    rw [jumpNode_exchange, ← hs.note ht]
    exact .jump hk' hm' hl' ha
  | switch hk hm hc hl hm' hcases hn hm'' =>
    rw [Stmt.nodes, SwitchCase.nodesList_eq] at hx
    refine ((Parallel.eats hk hm rfl).trans ((condition_copies hR hc hx.left).trans
      ((Parallel.eats hl hm' rfl).trans ((cases_copies hR hcases hx.right.each).trans
        (Parallel.eats hcases.last hm'' rfl))))).mono ?_
    intro _ _ hs ht hcopy
    obtain ⟨_, ⟨hk', hm₁⟩, _, hc', _, ⟨hl', hm₂⟩, _, hcases', _, hm₃⟩ := hcopy
    rw [Stmt.exchange, SwitchCase.exchangeList_eq, ← hs.note ht]
    exact .switch hk' hm₁ hc' hl' hm₂ hcases' (by rwa [List.length_map]) hm₃
  | «try» hk hm hb hh hf =>
    refine ((Parallel.eats hk hm rfl).trans ((block_copies hR hb hx.left.left).trans
      ((handler_copies hR hh (by rintro x rfl; exact hx.left.right)).trans
        (announced_copies rfl (fun h => h) (block_copies hR) hf
          (by rintro x rfl; exact hx.right))))).mono ?_
    intro _ _ hs ht hcopy
    obtain ⟨_, ⟨hk', hm'⟩, _, hb', _, hh', hf'⟩ := hcopy
    rw [Stmt.exchange, CatchClause.exchangeOption_eq, Block.exchangeOption_eq, ← hs.note ht]
    exact .try hk' hm' hb' hh' hf'
  | «while» hk hm hc hb =>
    refine ((Parallel.eats hk hm rfl).trans ((condition_copies hR hc hx.left).trans
      (loopBody_copies hR hb hx.right))).mono ?_
    intro _ _ hs ht hcopy
    obtain ⟨_, ⟨hk', hm'⟩, _, hc', hb'⟩ := hcopy
    rw [Stmt.exchange, ← hs.note ht]
    exact .while hk' hm' hc' hb'
  | doWhile hk hm hb hw hm' hc =>
    refine ((Parallel.eats hk hm rfl).trans ((loopBody_copies hR hb hx.left).trans
      ((Parallel.eats hw hm' rfl).trans (condition_copies hR hc hx.right)))).mono ?_
    intro _ _ hs ht hcopy
    obtain ⟨_, ⟨hk', hm₁⟩, _, hb', _, ⟨hw', hm₂⟩, hc'⟩ := hcopy
    rw [Stmt.exchange, ← hs.note ht]
    exact .doWhile hk' hm₁ hb' hw' hm₂ hc'
  | declaration hk hd =>
    exact (declaration_parallel hR hk hd hx).mono fun hs _ hd' =>
      .declaration (hs.kind_eq hk rfl) hd'
  | «for» hk hm hl hm' hf =>
    refine ((Parallel.eats hk hm rfl).trans ((Parallel.eats hl hm' rfl).trans
      (forForm_parallel hR hf hx))).mono ?_
    intro _ _ hs _ hcopy
    obtain ⟨_, ⟨hk', hm₁⟩, _, ⟨hl', hm₂⟩, hf'⟩ := hcopy
    rw [← hs.start_eq] at hf'
    exact .for hk' hm₁ hl' hm₂ hf'
  | function hk hm hi hp hb =>
    refine ((Parallel.eats hk hm rfl).trans ((identifier_copies hi trivial).trans
      (((parameters_copies hp trivial).weaken Bool.noConfusion id).trans
        (block_copies hR hb hx)))).mono ?_
    intro _ _ hs ht hcopy
    obtain ⟨_, ⟨hk', hm'⟩, _, hi', _, hp', hb'⟩ := hcopy
    rw [Stmt.exchange, ← hs.note ht]
    exact .function hk' hm' hi' hp' hb'

end

theorem readers_dividing (M : Product) (n : Nat) : Dividing M (readers n) := by
  induction n with
  | zero =>
    exact ⟨readers_locate 0, fun h => absurd h returns_tooDeep, fun h => absurd h returns_tooDeep,
      fun h => absurd h returns_tooDeep⟩
  | succ n ih =>
    refine ⟨readers_locate (n + 1), fun h => expression_note_start h, fun h hx => ?_,
      fun h he => expression_copies ih h he⟩
    exact (statementForm_copies ih (returns_statement.1 h) hx).mono fun _ _ h' =>
      returns_statement.2 h'

/-! ## Scripts -/

/-- A script is read up to the same place by a run that has the quotient before it. -/
theorem Product.program (M : Product) {n : Nat} {s' : State} {p : Program Span}
    (h : Returns (Parser.program (readers n)) c s p M.last) (hp : M.Apart p.nodes)
    (hs : M.Pair s s') :
    ∃ t', Returns (Parser.program (readers n)) c s' (p.exchange M.divided) t' := by
  obtain ⟨body, hi, hn, rfl⟩ := returns_program.1 h
  rw [Program.nodes, Stmt.nodesList_eq] at hp
  have hend : M.last.current.kind = .endOfInput := by simpa using hi.last
  obtain ⟨t', hi', ht'⟩ := (Items.copies rfl rfl (readers_dividing M n).statement hi
    hp.each).follow .refl
      (fun _ => State.passable_of_kind hend rfl) hs
  refine ⟨t', returns_program.2 ⟨_, hi', by rwa [List.length_map], ?_⟩⟩
  rw [Program.exchange, Stmt.exchangeList_eq, hs.note ht']

theorem run_quotient {front back : List Char} {limit : Nat} {p : Program Span}
    {as bs : List Token} {before star : Token}
    (h : (run (Context.ofText (front ++ starred back) limit) (front ++ starred back)).result = .ok p)
    (htokens : (run (Context.ofText (front ++ starred back) limit) (front ++ starred back)).tokens =
      as ++ before :: star :: bs)
    (hstar : star.span.start = Text.bytes front + 1)
    (hfunction : ∀ e ∈ p.nodes, e.isFunction = true → e.note.stop ≠ before.span.stop) :
    (run (Context.ofText (front ++ slashed back) limit) (front ++ slashed back)).result =
      .ok (p.exchange (quotientAt (Text.bytes front + 1))) := by
  obtain ⟨s, last, hb, hp⟩ := run_eq_ok.1 h
  rw [run_tokens hb hp] at htokens
  have hlast : last.Multiplies front before.span.stop :=
    ⟨as, before, star, bs, htokens, hstar, rfl⟩
  obtain ⟨s', hb', hs⟩ := hb.exists_twin hlast ((program_locates limit).returns hp)
  obtain ⟨t', hp'⟩ := Product.program ⟨front, back, before.span.stop, last, hlast⟩ hp hfunction hs
  -- both texts are equally long, so the loops have the same budget
  have hlength : (front ++ starred back).length = (front ++ slashed back).length := by
    simp [starred, slashed]
  rw [Context.ofText, hlength] at hp'
  exact run_eq_ok.2 ⟨s', t', hb', hp'⟩

end

end Parser

theorem parseSpans_eq_ok {source : String} {maxDepth : Nat} {p : Program Span} :
    parseSpans source maxDepth = .ok p ↔
      (Parser.run (Parser.Context.ofText source.toList maxDepth) source.toList).result = .ok p := by
  rw [parseSpans]
  cases (Parser.run (Parser.Context.ofText source.toList maxDepth) source.toList).result with
  | ok q =>
    constructor
    · rintro ⟨⟩
      rfl
    · rintro ⟨⟩
      rfl
  | error f =>
    constructor
    · rintro ⟨⟩
    · rintro ⟨⟩

/-- Division is accepted wherever multiplication is, but for the body of a function expression. If a
script is accepted and a star between two blanks is one of its tokens, the script with a slash instead
is accepted with the same tree, in the same places, and with that operator exchanged. -/
theorem parseSpans_quotient {front back : String} {maxDepth : Nat} {p : Program Span}
    {earlier later : List Token} {before star : Token}
    (h : parseSpans (front ++ " * " ++ back) maxDepth = .ok p)
    (htokens : (Parser.run (Parser.Context.ofText (front ++ " * " ++ back).toList maxDepth)
      (front ++ " * " ++ back).toList).tokens = earlier ++ before :: star :: later)
    (hstar : star.span.start = front.utf8ByteSize + 1)
    (hfunction : ∀ e ∈ p.nodes, e.isFunction = true → e.note.stop ≠ before.span.stop) :
    parseSpans (front ++ " / " ++ back) maxDepth =
      .ok (p.exchange (quotientAt (front.utf8ByteSize + 1))) := by
  have hproduct : (front ++ " * " ++ back).toList = front.toList ++ Parser.starred back.toList := by
    simp [Parser.starred]
  have hquotient : (front ++ " / " ++ back).toList = front.toList ++ Parser.slashed back.toList := by
    simp [Parser.slashed]
  rw [parseSpans_eq_ok, hproduct] at h
  rw [hproduct] at htokens
  rw [parseSpans_eq_ok, hquotient, Text.utf8ByteSize_eq]
  exact Parser.run_quotient h htokens (by rw [hstar, Text.utf8ByteSize_eq]) hfunction

/-- A group around a function expression. -/
theorem parseSpans_quotient_group : ∃ p,
    parseSpans ("(function()\x7b\x7d)" ++ " * " ++ "b;") 9 = .ok p ∧
    parseSpans ("(function()\x7b\x7d)" ++ " / " ++ "b;") 9 = .ok (p.exchange (quotientAt 15)) := by
  have hfunction : (parseSpans ("(function()\x7b\x7d)" ++ " * " ++ "b;") 9).toOption.any (fun p =>
      p.nodes.all fun e => !e.isFunction || e.note.stop != 14) = true := by decide +kernel
  have htokens : (Parser.run
      (Parser.Context.ofText ("(function()\x7b\x7d)" ++ " * " ++ "b;").toList 9)
      ("(function()\x7b\x7d)" ++ " * " ++ "b;").toList).tokens =
        [⟨.leftParen, 0, 1⟩, ⟨.keyword .function, 1, 9⟩, ⟨.leftParen, 9, 10⟩, ⟨.rightParen, 10, 11⟩,
          ⟨.leftBrace, 11, 12⟩, ⟨.rightBrace, 12, 13⟩] ++
        ⟨.rightParen, 13, 14⟩ :: ⟨.operator .times, 15, 16⟩ ::
          [⟨.identifier "b", 17, 18⟩, ⟨.semicolon, 18, 19⟩, ⟨.endOfInput, 19, 19⟩] := by
    decide +kernel
  cases hp : parseSpans ("(function()\x7b\x7d)" ++ " * " ++ "b;") 9 with
  | error f =>
    rw [hp] at hfunction
    cases hfunction
  | ok p =>
    rw [hp] at hfunction
    refine ⟨p, rfl, parseSpans_quotient hp htokens (by decide +kernel) fun e he hf hstop => ?_⟩
    have hall := List.all_eq_true.1 hfunction e he
    rw [hf, hstop] at hall
    cases hall

/-- Behind the body of a function expression the slash begins a regular expression. -/
theorem parseSpans_quotient_body :
    (∃ p, parseSpans ("x = function()\x7b\x7d" ++ " * " ++ "2;") 9 = .ok p ∧
      ∃ e ∈ p.nodes, e.multipliesAt 17 = true) ∧
    (parseSpans ("x = function()\x7b\x7d" ++ " / " ++ "2;") 9).isOk = false := by
  have hproduct : (parseSpans ("x = function()\x7b\x7d" ++ " * " ++ "2;") 9).toOption.any (fun p =>
      p.nodes.any (Expr.multipliesAt 17)) = true := by decide +kernel
  refine ⟨?_, by decide +kernel⟩
  cases hp : parseSpans ("x = function()\x7b\x7d" ++ " * " ++ "2;") 9 with
  | error f =>
    rw [hp] at hproduct
    cases hproduct
  | ok p =>
    rw [hp] at hproduct
    exact ⟨p, rfl, List.any_eq_true.1 hproduct⟩

end ScriptTree
