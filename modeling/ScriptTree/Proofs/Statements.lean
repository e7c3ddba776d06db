import ScriptTree.Proofs.Nodes
import ScriptTree.Proofs.Sites

/-! # A law of every statement in a tree

Every statement of a tree, those inside function bodies included, was read as a statement. So a law of
whatever the readers of statements return with holds at every site of every script. -/
namespace ScriptTree.Parser

/-- Readers of trees that keep the law `L` at each of their statements. -/
structure Lawful (L : Stmt Span → Prop) (R : Readers) : Prop where
  statement {c around} : Every (Returns R.statement c) fun x => ∀ site ∈ x.sites around, L site.2
  expression {floor forHead c around} :
    Every (Returns (R.expression floor forHead) c) fun e => ∀ site ∈ e.sites around, L site.2

section
variable {L : Stmt Span → Prop} {R : Readers} {c : Context} {around : List Label} {s t : State}
  (hR : Lawful L R)
include hR

theorem block_lawful : Every (Returns (block R) c) fun b => ∀ site ∈ b.sites around, L site.2 := by
  intro s b t h
  obtain ⟨s₁, body, s₂, hk, hm, hb, -, hm', rfl⟩ := returns_block.1 h
  rw [Block.sites, Stmt.sitesList_eq]
  exact List.forall_mem_flatMap.2 (Items.forall_mem hR.statement hb)

theorem commaForm_lawful {forHead} :
    Every (CommaForm R c forHead) fun e => ∀ site ∈ e.sites around, L site.2 := by
  intro s e t h
  cases h with
  | single he _ _ => exact hR.expression he
  | joined he hes _ =>
    rw [Expr.sites, Expr.sitesList_eq]
    exact List.forall_mem_flatMap.2
      (List.forall_mem_cons.2 ⟨hR.expression he, AfterCommas.forall_mem hR.expression hes⟩)

theorem commaExpression_lawful {forHead} :
    Every (Returns (commaExpression R forHead) c) fun e => ∀ site ∈ e.sites around, L site.2 :=
  fun _ _ _ h => commaForm_lawful hR (returns_commaExpression.1 h)

theorem property_lawful :
    Every (Returns (property R) c) fun p => ∀ site ∈ p.sites around, L site.2 := by
  intro s p t h
  obtain ⟨key, s₁, s₂, value, hkey, hk, hm, hv, rfl⟩ := returns_property.1 h
  exact hR.expression hv

theorem operandForm_lawful : Every (OperandForm R c) fun e => ∀ site ∈ e.sites around, L site.2 := by
  intro s e t h
  cases h with
  | group _ _ hes _ _ =>
    rw [Expr.sites, Expr.sitesList_eq]
    exact List.forall_mem_flatMap.2 (separated_forall_mem hR.expression hes)
  | array _ _ hes =>
    rw [Expr.sites, Expr.sitesList_eq]
    exact List.forall_mem_flatMap.2 (closedList_forall_mem hR.expression hes)
  | newCall _ _ he =>
    have hcall := @Lawful.expression _ _ hR _ _ _ around _ _ _ he
    simpa only [Expr.sites] using hcall
  | newPlain _ _ he _ =>
    rw [Expr.sites, Expr.sitesList, List.append_nil]
    exact hR.expression he
  | unary _ _ _ _ he | update _ _ _ he _ =>
    rw [Expr.sites]
    exact hR.expression he
  | literal _ | identifier _ | this _ _ => exact List.forall_mem_nil _
  | function _ _ _ _ hb =>
    rw [Expr.sites]
    exact block_lawful hR hb
  | object _ _ hps =>
    rw [Expr.sites, Property.sitesList_eq]
    exact List.forall_mem_flatMap.2 (closedList_forall_mem (property_lawful hR) hps)

theorem extendForm_lawful {start forHead left q e}
    (hl : ∀ site ∈ left.sites around, L site.2) (h : ExtendForm R c start forHead left q s e t) :
    ∀ site ∈ e.sites around, L site.2 := by
  cases h with
  | call _ _ ha =>
    rw [Expr.sites, Expr.sitesList_eq]
    exact List.forall_mem_append.2
      ⟨hl, List.forall_mem_flatMap.2 (closedList_forall_mem hR.expression ha)⟩
  | index _ _ hp _ _ =>
    rw [Expr.sites]
    exact List.forall_mem_append.2 ⟨hl, commaForm_lawful hR hp⟩
  | binary _ _ _ h | assignment _ _ _ _ h | logical _ _ _ h | dot _ _ h =>
    rw [Expr.sites]
    exact List.forall_mem_append.2 ⟨hl, hR.expression h⟩
  | conditional _ _ hx _ _ hy =>
    rw [Expr.sites]
    exact List.forall_mem_append.2
      ⟨List.forall_mem_append.2 ⟨hl, hR.expression hx⟩, hR.expression hy⟩
  | update _ _ _ _ =>
    rw [Expr.sites]
    exact hl

theorem extended_lawful {start floor forHead n left e}
    (h : Extended R c start floor forHead n left s e t) :
    (∀ site ∈ left.sites around, L site.2) → ∀ site ∈ e.sites around, L site.2 := by
  induction h with
  | stop _ => exact id
  | more _ he _ ih => exact fun hl => ih (extendForm_lawful hR hl he)

theorem expression_lawful {floor forHead} :
    Every (Returns (expression R floor forHead) c) fun e => ∀ site ∈ e.sites around, L site.2 := by
  intro s e t h
  obtain ⟨first, u, n, ho, hx, -⟩ := returns_expression.1 h
  exact extended_lawful hR hx (operandForm_lawful hR ho)

theorem condition_lawful :
    Every (Returns (condition R) c) fun e => ∀ site ∈ e.sites around, L site.2 := by
  intro s e t h
  obtain ⟨s₁, s₂, hk, hm, he, hl, hm'⟩ := returns_condition.1 h
  exact commaForm_lawful hR he

theorem loopBody_lawful :
    Every (Returns (loopBody R) c) fun x => ∀ site ∈ x.sites around, L site.2 :=
  fun _ _ _ h => hR.statement (returns_inScope.1 h)

theorem declaration_lawful {forHead} :
    Every (Returns (declaration R forHead) c) fun d => ∀ site ∈ d.sites around, L site.2 := by
  have declarator : Every (Returns (declarator R forHead) c)
      fun d => ∀ site ∈ d.sites around, L site.2 := by
    intro s d t h
    obtain ⟨id, s₁, init, hi, ha, rfl⟩ := returns_declarator.1 h
    cases ha with
    | absent _ => exact List.forall_mem_nil _
    | present _ _ he => exact hR.expression he
  intro s d t h
  obtain ⟨s₁, ds, s₂, hm, hds, hend, rfl⟩ := returns_declaration.1 h
  rw [Declaration.sites, Declarator.sitesList_eq]
  exact List.forall_mem_flatMap.2 (separated_forall_mem declarator hds)

theorem cases_lawful {b} :
    Every (Cases R c b) fun xs => ∀ site ∈ SwitchCase.sitesList around xs, L site.2 := by
  intro s xs t h
  induction h with
  | done _ => exact List.forall_mem_nil _
  | more _ hx _ _ ih =>
    obtain ⟨test, s₁, s₂, body, hh, hc, hm, hb, -, rfl⟩ := returns_switchCase.1 hx
    rw [SwitchCase.sitesList, SwitchCase.sites, Stmt.sitesList_eq]
    refine List.forall_mem_append.2 ⟨List.forall_mem_append.2
      ⟨?_, List.forall_mem_flatMap.2 (Items.forall_mem hR.statement hb)⟩, ih⟩
    cases hh with
    | case _ _ he => exact commaForm_lawful hR he
    | default _ _ => exact List.forall_mem_nil _

theorem Unless.lawful {k} : Every (Unless k (commaExpression R false) c)
    fun e => ∀ site ∈ Expr.sitesOption around e, L site.2 := by
  intro s e t h
  cases h with
  | absent _ => exact List.forall_mem_nil _
  | present _ he => exact commaExpression_lawful hR he

theorem Trailing.lawful : Every (Trailing (commaExpression R false) c)
    fun e => ∀ site ∈ Expr.sitesOption around e, L site.2 := by
  intro s e t h
  cases h with
  | absent _ => exact List.forall_mem_nil _
  | present _ _ he _ => exact commaExpression_lawful hR he

/-- The statements inside a loop that was read with its parts. -/
theorem forForm_lawful {start} :
    Every (ForForm R c start) fun x => ∀ site ∈ x.innerSites around, L site.2 := by
  have tail {s test update body t} (h : ForTail R c s test update body t) :
      (∀ site ∈ Expr.sitesOption around test, L site.2) ∧
        (∀ site ∈ Expr.sitesOption around update, L site.2) ∧
        ∀ site ∈ body.sites (inLoop around), L site.2 := by
    obtain ⟨-, -, ht, -, -, hu, -, -, hb⟩ := h
    exact ⟨Unless.lawful hR ht, Unless.lawful hR hu, loopBody_lawful hR hb⟩
  have inTail {s object body t} (h : ForInTail R c s object body t) :
      (∀ site ∈ object.sites around, L site.2) ∧
        ∀ site ∈ body.sites (inLoop around), L site.2 := by
    obtain ⟨-, -, ho, -, -, hb⟩ := h
    exact ⟨commaForm_lawful hR ho, loopBody_lawful hR hb⟩
  have both {xs ys : List (List Label × Stmt Span)} (hx : ∀ site ∈ xs, L site.2)
      (hy : ∀ site ∈ ys, L site.2) : ∀ site ∈ xs ++ ys, L site.2 := List.forall_mem_append.2 ⟨hx, hy⟩
  intro s x t h
  cases h with
  | counted _ hd ht =>
    obtain ⟨htest, hupdate, hbody⟩ := tail ht
    exact both (both (both (declaration_lawful hR hd) htest) hupdate) hbody
  | bare ht =>
    obtain ⟨htest, hupdate, hbody⟩ := tail ht
    exact both (both (both (List.forall_mem_nil _) htest) hupdate) hbody
  | started _ _ he ht =>
    obtain ⟨htest, hupdate, hbody⟩ := tail ht
    exact both (both (both (commaForm_lawful hR he) htest) hupdate) hbody
  | bound _ hd _ ht =>
    obtain ⟨hobject, hbody⟩ := inTail ht
    exact both (both (declaration_lawful hR hd) hobject) hbody
  | named _ _ _ ht =>
    obtain ⟨hobject, hbody⟩ := inTail ht
    exact both (both (List.forall_mem_nil _) hobject) hbody

theorem statementForm_lawful {stacked} :
    Every (StatementForm R c stacked) fun x => ∀ site ∈ x.innerSites around, L site.2 := by
  intro s x t h
  cases h with
  | empty _ _ | debugger _ _ _ => exact List.forall_mem_nil _
  | block _ hb => exact block_lawful hR hb
  | expression _ he _ _ => exact commaForm_lawful hR he
  | labeled _ _ _ _ _ hb => exact hR.statement hb
  | «if» _ _ hc hx hy =>
    refine List.forall_mem_append.2
      ⟨List.forall_mem_append.2 ⟨condition_lawful hR hc, hR.statement hx⟩, ?_⟩
    cases hy with
    | absent _ => exact List.forall_mem_nil _
    | present _ _ hz => exact hR.statement hz
  | «with» _ _ he hb =>
    exact List.forall_mem_append.2 ⟨condition_lawful hR he, hR.statement hb⟩
  | «return» _ _ he | throw _ _ he => exact Trailing.lawful hR he
  | @jump j _ _ _ _ _ _ _ => cases j <;> exact List.forall_mem_nil _
  | switch _ _ he _ _ hc _ _ =>
    exact List.forall_mem_append.2 ⟨condition_lawful hR he, cases_lawful hR hc⟩
  | «try» _ _ hb hh hf =>
    refine List.forall_mem_append.2 ⟨List.forall_mem_append.2 ⟨block_lawful hR hb, ?_⟩, ?_⟩
    · cases hh with
      | present _ hx =>
        obtain ⟨s₁, s₂, param, s₃, s₄, body, -, -, -, -, -, -, hb, rfl⟩ := returns_catchClause.1 hx
        exact block_lawful hR hb
      | absent _ => exact List.forall_mem_nil _
    · cases hf with
      | absent _ => exact List.forall_mem_nil _
      | present _ _ hf => exact block_lawful hR hf
  | «while» _ _ he hb =>
    exact List.forall_mem_append.2 ⟨condition_lawful hR he, loopBody_lawful hR hb⟩
  | doWhile _ _ hb _ _ he =>
    exact List.forall_mem_append.2 ⟨loopBody_lawful hR hb, condition_lawful hR he⟩
  | declaration _ hd => exact declaration_lawful hR hd
  | «for» _ _ _ _ hf => exact forForm_lawful hR hf
  | function _ _ _ _ hb => exact block_lawful hR hb

end

variable {L : Stmt Span → Prop}
  (hL : ∀ ⦃n c s x t⦄, Returns (readers n).statement c s x t → L x)
include hL

theorem readers_lawful (n : Nat) : Lawful L (readers n) := by
  induction n with
  | zero =>
    constructor
    · intro c around s x t h
      exact absurd h returns_tooDeep
    · intro floor forHead c around s e t h
      exact absurd h returns_tooDeep
  | succ n ih =>
    constructor
    · intro c around s x t h
      exact List.forall_mem_cons.2 ⟨hL h, statementForm_lawful ih (returns_statement.1 h)⟩
    · intro floor forHead c around s e t h
      exact expression_lawful ih h

/-- A law of what readers of statements return with holds of every statement of a script that was
read. -/
theorem run_lawful {c : Context} {source : List Char} {p : Program Span}
    (h : (run c source).result = .ok p) : ∀ site ∈ p.sites, L site.2 := by
  obtain ⟨s, t, -, hp⟩ := run_eq_ok.1 h
  obtain ⟨body, hb, -, rfl⟩ := returns_program.1 hp
  rw [Program.sites, Stmt.sitesList_eq]
  exact List.forall_mem_flatMap.2 (Items.forall_mem (readers_lawful hL _).statement hb)

end ScriptTree.Parser
