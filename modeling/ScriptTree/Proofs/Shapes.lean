import ScriptTree.Proofs.Precedence
import ScriptTree.Proofs.SinglePass
import ScriptTree.Proofs.Statements
import ScriptTree.Proofs.Wire

/-! # Trees have the shapes that their types and the printer promise

Most shapes are checked while a node is read. Three follow from how reading goes on. What ends in a
condition without an alternative has let the next token pass, which is not `else`. An expression
begins where its first operand begins, so a statement that does not begin with a brace or a keyword
does not begin with an object or a function. And in the head of a loop only `in` between two operands
would end the expression, while each operand behind an operator in front of it binds tighter than
`in`. -/
namespace ScriptTree

/-- The expression met at the end by going to the left operand again and again. A sequence has none,
because it may be a group. -/
def Expr.leftmost : Expr α → Expr α
  | .binary _ _ l _ | .logical _ _ l _ | .assignment _ _ l _ | .conditional _ l _ _ | .member _ l _ _
  | .call _ l _ | .update _ _ l false => l.leftmost
  | e => e

/-- Whether a statement that began with the expression would be a block or a declaration. -/
def Expr.looksLikeStatement : Expr α → Bool
  | .object _ _ | .function _ _ _ _ => true
  | _ => false

/-- Whether `in` joins operands outside of groups, brackets, argument lists, arrays, objects and
function bodies. -/
def Expr.bareIn : Expr α → Bool
  | .binary _ op l r => op == .in || l.bareIn || r.bareIn
  | .logical _ _ l r | .assignment _ _ l r | .member _ l r true => l.bareIn || r.bareIn
  | .conditional _ t x y => t.bareIn || x.bareIn || y.bareIn
  | .member _ e _ false | .call _ e _ | .new _ e _ | .unary _ _ e | .update _ _ e _ => e.bareIn
  | .identifier _ | .literal _ | .this _ | .array _ _ | .object _ _ | .function _ _ _ _
  | .sequence _ _ => false

/-- The shape of an expression by itself. -/
def Expr.Shapely : Expr α → Prop
  | .assignment _ _ l _ => l.isTarget = true
  | .update _ _ e _ => e.isTarget = true
  | .sequence _ es => es ≠ []
  | _ => True

mutual
/-- Whether a statement ends in a condition without an alternative, so that `else` behind it would
belong there. -/
def Stmt.endsOpen : Stmt α → Bool
  | .if _ _ _ y => Stmt.endsOpenOption y
  | .with _ _ b | .while _ _ b | .for _ _ _ _ b | .forIn _ _ _ b | .labeled _ _ b => b.endsOpen
  | _ => false
/-- The same for a condition, by its alternative. -/
def Stmt.endsOpenOption : Option (Stmt α) → Bool
  | none => true
  | some y => y.endsOpen
end

def Declarator.init : Declarator α → Option (Expr α)
  | .mk _ _ init => init

def Declaration.declarators : Declaration α → List (Declarator α)
  | .mk _ ds => ds

/-- The values given in a declaration. -/
def Declaration.inits (d : Declaration α) : List (Expr α) := d.declarators.filterMap Declarator.init

/-- The expressions in the first part of a loop's head: the values of its declaration, or what is
joined by commas there. A group begins in front of its first member and stays one expression. -/
def ForInit.parts : ForInit Span → List (Expr Span)
  | .declaration d => d.inits
  | .expression (.sequence note (e :: es)) =>
    if note.start = e.note.start then e :: es else [.sequence note (e :: es)]
  | .expression e => [e]

/-- The shape of a statement by itself. -/
def Stmt.Shapely : Stmt Span → Prop
  | .expression _ e => e.leftmost.looksLikeStatement = false
  | .declaration d => d.declarators ≠ []
  | .if _ _ x (some _) => x.endsOpen = false
  | .switch _ _ cs => cs.countP Parser.isDefault ≤ 1
  | .try _ _ handler finalizer => handler.isSome = true ∨ finalizer.isSome = true
  | .for _ (some i) _ _ _ =>
    (∀ d, i = .declaration d → d.declarators ≠ []) ∧ ∀ e ∈ i.parts, e.bareIn = false
  | .forIn _ (.declaration d) _ _ =>
    d.declarators.length = 1 ∧ ∀ e ∈ d.inits, e.bareIn = false
  | _ => True

namespace Parser

variable {R : Readers} {c : Context} {s t : State}

/-! ## Expressions -/

/-- In the head of a loop, and behind anything that binds at least as tightly, `in` does not go on
with an expression. -/
def InFree (floor : Nat) (forHead : Bool) (e : Expr Span) (_ : TokenKind) : Prop :=
  forHead = true ∨ Priority.relational ≤ floor → e.bareIn = false

theorem operand_shapely (floor : Nat) (forHead : Bool) (hR : Ended InFree R) {e}
    (h : OperandForm R c s e t) : e.Shapely ∧ InFree floor forHead e t.current.kind := by
  have tight {bound e' s₁} (hb : Priority.relational ≤ bound)
      (he : Returns (R.expression bound false) c s₁ e' t) : e'.bareIn = false :=
    (hR he).1 (.inr hb)
  cases h with
  | group _ _ hes _ _ =>
    obtain ⟨x, u, ys, rfl, -, -, -⟩ := returns_separated.1 hes
    exact ⟨List.cons_ne_nil _ _, fun _ => rfl⟩
  | newCall _ _ he | newPlain _ _ he _ | unary _ _ _ _ he =>
    have hfree := tight (by decide) he
    exact ⟨trivial, fun _ => hfree⟩
  | update _ _ _ he ht =>
    have hfree := tight (by decide) he
    exact ⟨ht, fun _ => hfree⟩
  | array _ _ _ | literal _ | identifier _ | this _ _ | function _ _ _ _ _ | object _ _ _ =>
    exact ⟨trivial, fun _ => rfl⟩

theorem extend_shapely {start floor forHead left q e} (hR : Ended InFree R)
    (hl : InFree floor forHead left s.current.kind)
    (hc : continuation? floor forHead s.current.kind = some q)
    (h : ExtendForm R c start forHead left q s e t) :
    e.Shapely ∧ InFree floor forHead e t.current.kind := by
  obtain ⟨hq, hlt, hin⟩ := continuation?_eq_some.1 hc
  have strength {q'} (hk : s.current.kind.priority? = some q') : q = q' := eq_of_continuation? hc hk
  cases h with
  | call _ _ _ | index _ _ _ _ _ => exact ⟨trivial, hl⟩
  | update _ _ ht _ => exact ⟨ht, hl⟩
  | @binary op r _ _ hk _ _ hr =>
    refine ⟨trivial, fun hopen => ?_⟩
    have hop : (op == .in) = false := by
      rw [beq_eq_false_iff_ne]
      rintro rfl
      obtain rfl : q = Priority.relational := strength (by rw [hk]; rfl)
      rcases hopen with hhead | hle
      · exact hin hhead hk
      · exact absurd hlt (Nat.not_lt.2 hle)
    have hr : r.bareIn = false :=
      (hR hr).1 (hopen.imp_right fun hle => Nat.le_trans hle (Nat.le_of_lt hlt))
    rw [Expr.bareIn, hop, hl hopen, hr]
    rfl
  | @logical _ r _ _ _ _ _ hr | @dot r _ _ _ _ hr =>
    refine ⟨trivial, fun hopen => ?_⟩
    have hr : r.bareIn = false :=
      (hR hr).1 (hopen.imp_right fun hle => Nat.le_trans hle (Nat.le_of_lt hlt))
    rw [Expr.bareIn, hl hopen, hr]
    rfl
  | @assignment op r _ _ hk ho ht _ hr =>
    refine ⟨ht, fun hopen => ?_⟩
    obtain rfl : q = 3 := strength (by rw [hk, TokenKind.priority?, of_assignment ho])
    have hhead : forHead = true := hopen.resolve_right fun hle => by
      have := Nat.lt_of_le_of_lt hle hlt
      exact absurd this (by decide)
    have hr : r.bareIn = false := (hR hr).1 (.inl hhead)
    rw [Expr.bareIn, hl hopen, hr]
    rfl
  | @conditional x y _ _ _ _ hk _ hx _ _ hy =>
    refine ⟨trivial, fun hopen => ?_⟩
    obtain rfl : q = 4 := strength (by rw [hk]; rfl)
    have hhead : forHead = true := hopen.resolve_right fun hle => by
      have := Nat.lt_of_le_of_lt hle hlt
      exact absurd this (by decide)
    have hx : x.bareIn = false := (hR hx).1 (.inl hhead)
    have hy : y.bareIn = false := (hR hy).1 (.inl hhead)
    rw [Expr.bareIn, hl hopen, hx, hy]
    rfl

theorem shapely_local : Local Expr.Shapely InFree where
  operand floor forHead hR h := operand_shapely floor forHead hR h
  extend hR hl hc h := extend_shapely hR hl hc h
  sequence := List.cons_ne_nil _ _

/-! ## Where an expression begins -/

theorem OperandForm.note_start {e} (h : OperandForm R c s e t) :
    e.note.start = s.current.span.start := by
  cases h with
  | literal hl =>
    obtain ⟨v, -, -, rfl⟩ := returns_literal.1 hl
    rfl
  | identifier hi =>
    obtain ⟨name, -, -, rfl⟩ := returns_identifier.1 hi
    rfl
  | _ => rfl

theorem OperandForm.leftmost {e} (h : OperandForm R c s e t) : e.leftmost = e := by
  cases h <;> rfl

/-- What goes on from an expression begins where it began, leaves its leftmost part in place and is
no sequence. -/
theorem ExtendForm.keeps {start forHead left q e} (h : ExtendForm R c start forHead left q s e t) :
    e.note.start = start ∧ e.leftmost = left.leftmost ∧ ∀ note es, e ≠ .sequence note es := by
  cases h <;> exact ⟨rfl, rfl, nofun⟩

theorem Extended.keeps {start floor forHead n left e}
    (h : Extended R c start floor forHead n left s e t) :
    e = left ∨
      e.note.start = start ∧ e.leftmost = left.leftmost ∧ ∀ note es, e ≠ .sequence note es := by
  induction h with
  | stop _ => exact .inl rfl
  | more _ he _ ih =>
    obtain ⟨hstart, hleft, hne⟩ := he.keeps
    rcases ih with rfl | ⟨hstart', hleft', hne'⟩
    · exact .inr ⟨hstart, hleft, hne⟩
    · exact .inr ⟨hstart', hleft'.trans hleft, hne'⟩

theorem expression_note_start {floor forHead e} (h : Returns (expression R floor forHead) c s e t) :
    e.note.start = s.current.span.start := by
  obtain ⟨first, u, n, ho, hx, -⟩ := returns_expression.1 h
  rcases hx.keeps with rfl | ⟨hstart, -, -⟩
  · exact ho.note_start
  · exact hstart

/-- A token that opens no statement opens no object and no function either. -/
theorem expression_leftmost {floor forHead e} (h : Returns (expression R floor forHead) c s e t)
    (hs : opensStatement s.current.kind = false) : e.leftmost.looksLikeStatement = false := by
  obtain ⟨first, u, n, ho, hx, -⟩ := returns_expression.1 h
  have hleft : e.leftmost = first := by
    rcases hx.keeps with rfl | ⟨-, hleft, -⟩
    · exact ho.leftmost
    · exact hleft.trans ho.leftmost
  rw [hleft]
  cases ho with
  | function hk _ _ _ _ | object hk _ _ =>
    rw [hk] at hs
    cases hs
  | _ => rfl

theorem returns_readers_expression {n floor forHead e}
    (h : Returns ((readers n).expression floor forHead) c s e t) :
    ∃ m, Returns (expression (readers m) floor forHead) c s e t := by
  cases n with
  | zero => exact absurd h returns_tooDeep
  | succ m => exact ⟨m, h⟩

/-- An expression that is a sequence is a group, and begins in front of its first member. -/
theorem expression_group {n floor forHead note e es}
    (h : Returns ((readers n).expression floor forHead) c s (.sequence note (e :: es)) t)
    (hs : s.Past) : note.start < e.note.start := by
  obtain ⟨m, h⟩ := returns_readers_expression h
  obtain ⟨first, u, k, ho, hx, -⟩ := returns_expression.1 h
  rcases hx.keeps with rfl | ⟨-, -, hne⟩
  · cases ho with
    | group hk hm hes _ _ =>
      obtain ⟨x, _, ys, hxs, hx, -, -⟩ := returns_separated.1 hes
      obtain ⟨rfl, rfl⟩ := List.cons.inj hxs
      obtain ⟨_, hx⟩ := returns_readers_expression hx
      rw [expression_note_start hx]
      exact Nat.lt_of_lt_of_le (hs.lt (by rw [hk]; nofun)) hm.ordered.2
  · exact absurd rfl (hne _ _)

/-! ## Heads of loops -/

theorem readers_inFree {n forHead e floor} (h : Returns ((readers n).expression floor forHead) c s e t)
    (hf : forHead = true) : e.bareIn = false :=
  ((readers_obey shapely_local n).ended h).1 (.inl hf)

theorem commaForm_parts {n e} (h : CommaForm (readers n) c true s e t) (hs : s.Past) :
    ∀ x ∈ (ForInit.expression e).parts, x.bareIn = false := by
  cases h with
  | single he _ _ =>
    have hparts : (ForInit.expression e).parts = [e] := by
      unfold ForInit.parts
      split
      · rename_i hi
        cases hi
      · rename_i note x xs hi
        obtain rfl := ForInit.expression.inj hi
        rw [if_neg (Nat.ne_of_lt (expression_group he hs))]
      · rename_i hi
        rw [ForInit.expression.inj hi]
    rw [hparts, List.forall_mem_singleton]
    exact readers_inFree he rfl
  | joined he hes _ =>
    obtain ⟨m, he'⟩ := returns_readers_expression he
    have hstart : (t.since s.current.span.start).start = _ := (expression_note_start he').symm
    rw [ForInit.parts, if_pos hstart]
    exact List.forall_mem_cons.2 ⟨readers_inFree he rfl,
      AfterCommas.forall_mem (fun _ _ _ hx => readers_inFree hx rfl) hes⟩

theorem declaration_declarators {forHead d} (h : Returns (declaration R forHead) c s d t) :
    d.declarators ≠ [] := by
  obtain ⟨s₁, ds, s₂, -, hds, -, rfl⟩ := returns_declaration.1 h
  obtain ⟨x, u, ys, rfl, -, -, -⟩ := returns_separated.1 hds
  exact List.cons_ne_nil _ _

theorem declaration_inits {n d} (h : Returns (declaration (readers n) true) c s d t) :
    ∀ e ∈ d.inits, e.bareIn = false := by
  obtain ⟨s₁, ds, s₂, -, hds, -, rfl⟩ := returns_declaration.1 h
  have declarator : Every (Returns (declarator (readers n) true) c)
      fun d => ∀ e, d.init = some e → e.bareIn = false := by
    intro s d t h e he
    obtain ⟨id, s₁, init, -, ha, rfl⟩ := returns_declarator.1 h
    cases ha with
    | absent _ => cases he
    | present _ _ hx =>
      cases he
      exact readers_inFree hx rfl
  intro e he
  obtain ⟨d, hd, he⟩ := List.mem_filterMap.1 he
  exact separated_forall_mem declarator hds d hd e he

/-- A declaration that binds one name to walk over has one declarator. -/
theorem length_declarators {d : Declaration Span} (h : d.declarators ≠ [])
    (hone : bindsOne (.declaration d) = true) : d.declarators.length = 1 := by
  rcases d with ⟨note, _ | ⟨x, _ | ⟨y, ys⟩⟩⟩
  · exact absurd rfl h
  · rfl
  · cases hone

theorem forForm_shapely {n start x} (h : ForForm (readers n) c start s x t) (hs : s.Past) :
    x.Shapely := by
  cases h with
  | counted _ hd _ =>
    refine ⟨?_, declaration_inits hd⟩
    rintro _ ⟨⟩
    exact declaration_declarators hd
  | bound _ hd hone _ =>
    exact ⟨length_declarators (declaration_declarators hd) hone, declaration_inits hd⟩
  | started _ _ he _ => exact ⟨nofun, commaForm_parts he hs⟩
  | bare _ | named _ _ _ _ => trivial

/-! ## Statements -/

/-- A statement that ends in a condition without an alternative was not followed by `else`. -/
theorem statement_endsOpen {n x} (h : Returns (readers n).statement c s x t)
    (hx : x.endsOpen = true) : t.current.kind ≠ .keyword .else := by
  induction n generalizing c s x t with
  | zero => exact absurd h returns_tooDeep
  | succ n ih =>
    cases returns_statement.1 h with
    | «if» _ _ _ _ hy =>
      cases hy with
      | absent hk => exact hk
      | present _ _ hz => exact ih hz (by simpa [Stmt.endsOpen, Stmt.endsOpenOption] using hx)
    | «with» _ _ _ hb | labeled _ _ _ _ _ hb => exact ih hb (by simpa [Stmt.endsOpen] using hx)
    | «while» _ _ _ hb => exact ih (returns_inScope.1 hb) (by simpa [Stmt.endsOpen] using hx)
    | «for» _ _ _ _ hf =>
      cases hf with
      | counted _ _ ht | bare ht | started _ _ _ ht =>
        obtain ⟨-, -, -, -, -, -, -, -, hb⟩ := ht
        exact ih (returns_inScope.1 hb) (by simpa [Stmt.endsOpen] using hx)
      | bound _ _ _ ht | named _ _ _ ht =>
        obtain ⟨-, -, -, -, -, hb⟩ := ht
        exact ih (returns_inScope.1 hb) (by simpa [Stmt.endsOpen] using hx)
    | @jump j => cases j <;> cases hx
    | _ => cases hx

/-- Once there has been a default there is no other. -/
theorem Cases.countP_isDefault {b xs} (h : Cases R c b s xs t) :
    xs.countP isDefault + b.toNat ≤ 1 := by
  induction h with
  | @done b _ _ => cases b <;> decide
  | @more b _ x _ xs _ _ _ hone _ ih =>
    rw [List.countP_cons]
    cases hx : isDefault x <;> cases b <;> simp_all

theorem statement_shapely {n x} (h : Returns (readers n).statement c s x t) : x.Shapely := by
  cases n with
  | zero => exact absurd h returns_tooDeep
  | succ n =>
    cases returns_statement.1 h with
    | expression hs he _ _ =>
      cases he with
      | single he _ _ =>
        obtain ⟨m, he⟩ := returns_readers_expression he
        exact expression_leftmost he hs
      | joined _ _ _ => rfl
    | «if» _ _ _ hx hy =>
      cases hy with
      | absent _ => trivial
      | present hk _ _ =>
        rw [Stmt.Shapely, Bool.eq_false_iff]
        exact fun ho => statement_endsOpen hx ho hk
    | switch _ _ _ _ _ hc _ _ => exact hc.countP_isDefault
    | «try» _ _ _ hh hf =>
      cases hh with
      | present _ _ => exact .inl rfl
      | absent hk =>
        cases hf with
        | absent hne => exact absurd hk hne
        | present _ _ _ => exact .inr rfl
    | declaration _ hd => exact declaration_declarators hd
    | «for» _ _ _ hm hf => exact forForm_shapely hf hm.past
    | @jump j => cases j <;> trivial
    | _ => trivial

end Parser

theorem parse_eq_located {source : String} {maxDepth : Nat} {p : Program Location}
    (h : parse source maxDepth = .ok p) :
    ∃ q, (Parser.run (Parser.Context.ofText source.toList maxDepth) source.toList).result = .ok q ∧
      parseSpans source maxDepth = .ok q ∧ p = q.locate source.toList := by
  obtain ⟨q, hq, hp⟩ := parse_eq_ok.1 h
  refine ⟨q, hq, ?_, hp⟩
  simp only [parseSpans, hq]
  rfl

/-- Every tree has the shapes that its types and the printer promise, in each of its expressions and
statements, and so has its JSON. Of the JSON, that a throw statement has an argument and a regular
expression its parts is carried by the type of trees; the shapes of expressions and statements are
facts about the run. -/
theorem parse_shapely {source : String} {maxDepth : Nat} {p : Program Location}
    (h : parse source maxDepth = .ok p) :
    (∃ q, parseSpans source maxDepth = .ok q ∧ p = q.locate source.toList ∧
      (∀ e ∈ q.nodes, e.Shapely) ∧ ∀ site ∈ q.sites, site.2.Shapely) ∧ p.toJson.Promised := by
  obtain ⟨q, hq, hspans, hp⟩ := parse_eq_located h
  exact ⟨⟨q, hspans, hp, Parser.run_obeys Parser.shapely_local hq,
    Parser.run_lawful (fun _ _ _ _ _ hx => Parser.statement_shapely hx) hq⟩, p.promised_toJson⟩

/-- A loop whose head has a group with `in`, around a condition that ends in another loop. -/
theorem parse_shapely_loop : ∃ p q,
    parse "for (x = (a in b); -x; y++) if (x) while (y) throw z; else f" 9 = .ok p ∧
    parseSpans "for (x = (a in b); -x; y++) if (x) while (y) throw z; else f" 9 = .ok q ∧
    (∀ e ∈ q.nodes, e.Shapely) ∧ (∀ site ∈ q.sites, site.2.Shapely) ∧ p.toJson.Promised := by
  have hok : (parse "for (x = (a in b); -x; y++) if (x) while (y) throw z; else f" 9).isOk = true := by
    decide +kernel
  obtain ⟨p, hp⟩ := exists_parse_of_isOk hok
  obtain ⟨⟨q, hq, -, hnodes, hsites⟩, hjson⟩ := parse_shapely hp
  exact ⟨p, q, hp, hq, hnodes, hsites, hjson⟩

end ScriptTree
