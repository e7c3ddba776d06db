import ScriptTree.Proofs.Borders

/-! # What a tree prints is linked

Operators are printed in front of operands, and an operand begins with a token that can lead. A dot
comes after an object. An object that ends in a number is the number itself, because whatever else
ends in one binds more loosely than the dot, and the printer puts a blank there. So the pieces of a
tree are linked, as long as no number stands after a dot. -/
namespace ScriptTree

open Piece

/-- Every node can be printed and read again, and every token can be spelled. -/
def Sound (nodes : List (Expr α)) (yield : List TokenKind) : Prop :=
  (∀ e ∈ nodes, e.Legible) ∧ ∀ k ∈ yield, k.Spellable

theorem Sound.part {nodes nodes' : List (Expr α)} {yield yield' : List TokenKind}
    (h : Sound nodes yield) (hn : nodes' ⊆ nodes) (hy : yield' ⊆ yield) : Sound nodes' yield' :=
  ⟨fun e he => h.1 e (hn he), fun k hk => h.2 k (hy hk)⟩

namespace Printer

/-- How what a writer puts may end. -/
inductive Tail where
  | closed
  /-- With digits, to which a point would belong. -/
  | number
  /-- With nothing at all. -/
  | through

/-- What the pieces that follow are to be like. -/
def Tail.meets : Tail → List Piece → Prop
  | .closed, _ => True
  | .number, ps => touches ps = true → ahead ps ≠ .operator .dot
  | .through, ps => ahead ps ≠ .operator .dot

theorem Tail.meets_of_ne {ps : List Piece} (h : ahead ps ≠ .operator .dot) :
    ∀ tail : Tail, tail.meets ps
  | .closed => trivial
  | .number => fun _ => h
  | .through => h

/-- Writers that keep what follows linked, for sound nodes and tokens, and do not begin with a dot. -/
def Links (tail : Tail) (w : Writer) (nodes : List (Expr α)) (yield : List TokenKind) : Prop :=
  Sound nodes yield → ∀ ps, Linked ps → tail.meets ps →
    Linked (w ps) ∧ ahead (w ps) ≠ .operator .dot

namespace Links
variable {tail : Tail} {v w : Writer} {nodes nodes' : List (Expr α)}
  {yield yield' : List TokenKind}

theorem comp {first : Tail} (hv : Links first v nodes yield) (hw : Links tail w nodes' yield') :
    Links tail (v ∘ w) (nodes ++ nodes') (yield ++ yield') := fun h ps hp hm => by
  obtain ⟨hn, hn'⟩ := List.forall_mem_append.1 h.1
  obtain ⟨hy, hy'⟩ := List.forall_mem_append.1 h.2
  obtain ⟨hl, hne⟩ := hw ⟨hn', hy'⟩ ps hp hm
  exact hv ⟨hn, hy⟩ _ hl (Tail.meets_of_ne hne first)

theorem nothing : Links .through nothing ([] : List (Expr α)) [] := fun _ _ hp hm => ⟨hp, hm⟩

theorem space : Links .through space ([] : List (Expr α)) [] := fun _ _ hp hm => ⟨hp, hm⟩

theorem newline (level : Nat) : Links .through (newline level) ([] : List (Expr α)) [] :=
  fun _ _ hp hm => ⟨hp, hm⟩

/-- A token that clashes with nothing. -/
theorem token {text : String} {k : TokenKind} (hk : k.Spellable) (htext : text.toList = k.spelling)
    (hne : k ≠ .endOfInput) (hdot : k ≠ .operator .dot) (hc : ∀ k', k.clashes k' = false) :
    Links .closed (tok text) ([] : List (Expr α)) [] := fun _ ps hp _ => by
  refine ⟨⟨⟨k, hk, hne, htext, fun _ => hc _⟩, hp⟩, ?_⟩
  rw [tok, ahead, htext, ofSpelling_spelling hk]
  exact hdot

theorem word (k : Keyword) : Links .closed (word k) ([] : List (Expr α)) [] :=
  token (k := .keyword k) trivial rfl nofun nofun fun _ => rfl

theorem name (i : Identifier α) : Links .closed (name i) ([] : List (Expr α)) i.yield :=
  fun h => token (k := .identifier i.name) (α := α) (h.2 _ List.mem_cons_self) rfl nofun nofun
    (fun _ => rfl) ⟨List.forall_mem_nil _, List.forall_mem_nil _⟩

section
variable (h : Links tail w nodes yield)
include h

theorem within (hn : nodes ⊆ nodes') (hy : yield ⊆ yield') : Links tail w nodes' yield' :=
  fun hs => h (hs.part hn hy)

theorem loose : Links .through w nodes yield := fun hs ps hp hm =>
  h hs ps hp (Tail.meets_of_ne hm tail)

theorem after {first : Tail} (hv : Links first v ([] : List (Expr α)) []) :
    Links tail (v ∘ w) nodes yield :=
  hv.comp h

theorem before {last : Tail} (hv : Links last v ([] : List (Expr α)) []) :
    Links last (w ∘ v) nodes yield := by
  have hboth := h.comp hv
  rwa [List.append_nil, List.append_nil] at hboth

theorem alone : Links tail w (nodes ++ []) (yield ++ []) := by
  rwa [List.append_nil, List.append_nil]

theorem spaced : Links tail (Printer.space ∘ w) nodes yield := h.after space

theorem semicolon : Links .closed (w ∘ tok ";") nodes yield :=
  h.before (token (k := .semicolon) trivial rfl nofun nofun fun _ => rfl)

theorem afterSemicolon : Links tail (tok ";" ∘ w) nodes yield :=
  h.after (token (k := .semicolon) trivial rfl nofun nofun fun _ => rfl)

theorem afterOpening : Links tail (tok "(" ∘ w) nodes yield :=
  h.after (token (k := .leftParen) trivial rfl nofun nofun fun _ => rfl)

theorem afterClosing : Links tail (tok ")" ∘ Printer.space ∘ w) nodes yield :=
  h.spaced.after (token (k := .rightParen) trivial rfl nofun nofun fun _ => rfl)

theorem afterColon : Links tail (tok ":" ∘ w) nodes yield :=
  h.after (token (k := .colon) trivial rfl nofun nofun fun _ => rfl)

theorem afterComma : Links tail (tok "," ∘ Printer.space ∘ w) nodes yield :=
  h.spaced.after (token (k := .comma) trivial rfl nofun nofun fun _ => rfl)

theorem afterWord (k : Keyword) : Links tail (Printer.word k ∘ Printer.space ∘ w) nodes yield :=
  h.spaced.after (word k)

theorem parens : Links .closed (tok "(" ∘ w ∘ tok ")") nodes yield :=
  (h.before (token (k := .rightParen) trivial rfl nofun nofun fun _ => rfl)).afterOpening

theorem brackets : Links .closed (tok "[" ∘ w ∘ tok "]") nodes yield :=
  (h.before (token (k := .rightBracket) trivial rfl nofun nofun fun _ => rfl)).after
    (token (k := .leftBracket) trivial rfl nofun nofun fun _ => rfl)

theorem braces : Links .closed (tok "\x7b" ∘ w ∘ tok "\x7d") nodes yield :=
  (h.before (token (k := .rightBrace) trivial rfl nofun nofun fun _ => rfl)).after
    (token (k := .leftBrace) trivial rfl nofun nofun fun _ => rfl)

theorem lined (level : Nat) :
    Links .closed (tok "\x7b" ∘ w ∘ Printer.newline level ∘ tok "\x7d") nodes yield :=
  (h.before (newline level)).braces

theorem header (k : Keyword) : Links .through (header k w) nodes yield :=
  (h.parens.before space).afterWord k

end

theorem optionalName (i : Option (Identifier α)) :
    Links .through (optionalName i) ([] : List (Expr α)) (Identifier.yieldOption i) := by
  cases i with
  | none => exact .nothing
  | some i => exact (name i).loose

/-- An expression may stand after every operator but a dot. -/
theorem operand {op : Operator} (hop : op ≠ .dot) {level : Nat} {e : Expr α}
    (h : Links tail (expr level e) e.nodes e.yield) :
    Links tail (symbol op ∘ expr level e) e.nodes (.operator op :: e.yield) := fun hs ps hp hm => by
  have hyield := (List.forall_mem_cons.1 hs.2).2
  have hclash := TokenKind.clashes_of_leads (Expr.first_leads fun x hx => (hs.1 x hx).1) hop
  rw [← Expr.ahead_pieces (Expr.first_spellable hyield) level ps] at hclash
  refine ⟨⟨⟨.operator op, trivial, nofun, rfl, fun _ => hclash⟩, (h ⟨hs.1, hyield⟩ ps hp hm).1⟩, ?_⟩
  rw [Function.comp_apply, symbol, tok, ahead, show op.text.toList = (TokenKind.operator op).spelling
    from rfl, ofSpelling_spelling (show (TokenKind.operator op).Spellable from trivial)]
  exact fun he => hop (TokenKind.operator.inj he)

theorem spacedOperand {o : Operator} (hop : o ≠ .dot) {level : Nat} {e : Expr α}
    (h : Links tail (expr level e) e.nodes e.yield) :
    Links tail (symbol o ∘ Printer.space ∘ expr level e) e.nodes (.operator o :: e.yield) :=
  -- between a symbol and an operand a space makes no difference
  fun hs ps hp hm => operand hop h hs ps hp hm

theorem infixed {o : Operator} (hop : o ≠ .dot) {level : Nat} {e : Expr α}
    (h : Links tail (expr level e) e.nodes e.yield) :
    Links tail (Printer.space ∘ symbol o ∘ Printer.space ∘ expr level e) e.nodes
      (.operator o :: e.yield) :=
  (spacedOperand hop h).spaced

theorem node {e : Expr α} (h : e.Legible → Links tail w nodes yield) :
    Links tail w (e :: nodes) yield := fun hs =>
  have hs' := List.forall_mem_cons.1 hs.1
  h hs'.1 ⟨hs'.2, hs.2⟩

end Links

theorem links_names (is : List (Identifier α)) :
    Links .through (commas (is.map name)) ([] : List (Expr α)) (is.flatMap (·.yield)) := by
  induction is with
  | nil => exact .nothing
  | cons i is ih =>
    cases is with
    | nil => exact (Links.name i).loose
    | cons j is => exact (Links.name i).comp ih.afterComma

/-- How an expression ends. -/
def tail (e : Expr α) : Tail := if isInteger e.rightmost then .number else .closed

theorem links_literal (l : Literal α) :
    Links (tail (.literal l)) (literal l) ([] : List (Expr α)) l.yield := fun h ps hp hm => by
  have hk : l.value.token.Spellable := h.2 _ List.mem_cons_self
  have hleads := l.value.leads_token
  have hspelling : (String.ofList (literalText l.value)).toList = l.value.token.spelling := by
    rw [String.toList_ofList]
    cases l.value with
    | boolean b => cases b <;> rfl
    | _ => rfl
  have hclash : touches ps = true → l.value.token.clashes (ahead ps) = false := fun ht => by
    obtain ⟨note, v⟩ := l
    cases v with
    | number x =>
      show (!x.pointed && ahead ps == .operator .dot) = false
      cases hx : x.pointed with
      | true => rfl
      | false =>
        rw [tail, show isInteger (Expr.rightmost (.literal ⟨note, .number x⟩)) = !x.pointed from rfl,
          hx] at hm
        simpa using hm ht
    | _ => rfl
  refine ⟨⟨⟨_, hk, ?_, hspelling, hclash⟩, hp⟩, ?_⟩
  · intro he
    rw [he] at hleads
    cases hleads
  · rw [literal, tok, ahead, hspelling, ofSpelling_spelling hk]
    intro he
    rw [he] at hleads
    cases hleads

theorem links_key (k : PropertyKey α) : Links .through (key k) ([] : List (Expr α)) k.yield := by
  cases k with
  | literal l => exact (links_literal l).loose
  | identifier i => exact (Links.name i).loose

theorem links_signature (id : Option (Identifier α)) (params : List (Identifier α)) :
    Links .through (signature id params) ([] : List (Expr α))
      (Identifier.yieldOption id ++ params.flatMap (·.yield)) :=
  ((Links.optionalName id).comp ((links_names params).parens.before .space)).after (.word .function)

theorem links_jump (k : Keyword) (label : Option (Identifier α)) :
    Links .closed (jump k label) ([] : List (Expr α)) (Identifier.yieldOption label) :=
  (Links.optionalName label).semicolon.after (.word k)

/-- Where a dot comes after an object that ends in a number, a blank stands between them. -/
theorem links_dotted {level : Nat} {o p : Expr α} {note : α}
    (ho : Links (tail o) (expr level o) o.nodes o.yield)
    (hp : Links (tail p) (expr level p) p.nodes p.yield) :
    Links (tail p)
      (expr level o ∘ (if isInteger o then blank else nothing) ∘ symbol .dot ∘ expr level p)
      (.member note o p true :: (o.nodes ++ p.nodes)) (o.yield ++ .operator .dot :: p.yield) :=
  fun hs ps hl hm => by
  obtain ⟨⟨⟨forHead, hfits⟩, hnumber⟩, hnodes⟩ := List.forall_mem_cons.1 hs.1
  obtain ⟨hon, hpn⟩ := List.forall_mem_append.1 hnodes
  obtain ⟨hoy, hpy⟩ := List.forall_mem_append.1 hs.2
  have hpy := (List.forall_mem_cons.1 hpy).2
  have hfirst : (ahead (expr level p ps)) = p.first :=
    Expr.ahead_pieces (Expr.first_spellable hpy) level ps
  have hdot : Linked (symbol .dot (expr level p ps)) := by
    refine ⟨⟨.operator .dot, trivial, nofun, rfl, fun _ => ?_⟩, (hp ⟨hpn, hpy⟩ ps hl hm).1⟩
    rw [hfirst]
    have hlead : (!p.leadsWithNumber) = true := hnumber
    rw [Expr.leadsWithNumber] at hlead
    split at hlead
    · cases hlead
    · rename_i hne
      have hleads := Expr.first_leads fun x hx => (hpn x hx).1
      revert hne hleads
      cases p.first with
      | number x => exact fun hne => absurd rfl (hne x)
      | _ => exact fun _ _ => rfl
  by_cases hi : isInteger o = true
  · rw [if_pos hi]
    have hmeets : (tail o).meets (blank (symbol .dot (expr level p ps))) := by
      rw [tail]
      split
      · exact nofun
      · trivial
    exact ho ⟨hon, hoy⟩ _ hdot hmeets
  · rw [if_neg hi]
    have hclosed : tail o = .closed := if_neg fun hr =>
      hi (Expr.isInteger_of_rightmost hon hfits hr)
    exact ho ⟨hon, hoy⟩ _ hdot (by rw [hclosed]; trivial)

section
variable {op : Operator}

theorem ne_dot_of_kind (h : op.isBinary = true ∨ op.isLogical = true ∨ op.isAssignment = true ∨
    op.canLead = true) : op ≠ .dot := by
  rintro rfl
  revert h
  decide

/-- A postfix update may stand before anything. -/
theorem links_update (h : op.isUpdate = true) :
    Links .closed (symbol op) ([] : List (Expr α)) [.operator op] := fun _ ps hp _ => by
  refine ⟨⟨⟨.operator op, trivial, nofun, rfl, fun _ => ?_⟩, hp⟩, ?_⟩
  · cases hk : ahead ps with
    | operator op' => simp [TokenKind.clashes, h]
    | number x =>
      rw [TokenKind.clashes, beq_eq_false_iff_ne]
      rintro rfl
      cases h
    | _ => rfl
  · rw [symbol, tok, ahead, show op.text.toList = (TokenKind.operator op).spelling from rfl,
      ofSpelling_spelling (show (TokenKind.operator op).Spellable from trivial)]
    intro he
    obtain rfl := TokenKind.operator.inj he
    cases h

end

mutual
theorem links_expr (level : Nat) : ∀ e : Expr α, Links (tail e) (expr level e) e.nodes e.yield
  | .identifier i => .node fun _ => .name i
  | .literal l => .node fun _ => links_literal l
  | .this _ => .node fun _ => (Links.token (k := .this) trivial rfl nofun nofun fun _ => rfl).within
      (List.Subset.refl _) (List.nil_subset _)
  | .array _ es => .node fun _ => (links_exprs level es).brackets
  | .object _ ps => .node fun _ => (links_properties level ps).braces
  | .function _ id params body => .node fun _ =>
    (links_signature id params).comp (links_block level body)
  | .unary _ _ e => .node fun h =>
    (links_expr level e).operand (ne_dot_of_kind (.inr (.inr (.inr h.1))))
  | .update _ _ e true => .node fun h =>
    (links_expr level e).operand
      (ne_dot_of_kind (.inr (.inr (.inr (Parser.canLead_of_isUpdate h.1)))))
  | .update _ _ e false => .node fun h =>
    ((links_expr level e).comp (links_update h.1)).within (by simp) (List.Subset.refl _)
  | .binary _ _ l r => .node fun h =>
    (links_expr level l).comp ((links_expr level r).infixed (ne_dot_of_kind (.inl h.1)))
  | .logical _ _ l r => .node fun h =>
    (links_expr level l).comp ((links_expr level r).infixed (ne_dot_of_kind (.inr (.inl h.1))))
  | .assignment _ _ l r => .node fun h =>
    (links_expr level l).comp
      ((links_expr level r).infixed (ne_dot_of_kind (.inr (.inr (.inl h.1)))))
  | .conditional _ t c a => .node fun _ => by
    have hrest := (links_expr level a).spaced.afterColon.spaced
    have hall := (links_expr level t).comp
      (((links_expr level c).infixed (o := .question) nofun).comp hrest)
    rwa [← List.append_assoc, ← List.append_assoc] at hall
  | .member _ o p true => links_dotted (links_expr level o) (links_expr level p)
  | .member _ o p false => .node fun _ => (links_expr level o).comp (links_expr level p).brackets
  | .call _ f es => .node fun _ => (links_expr level f).comp (links_exprs level es).parens
  | .new _ f [] => .node fun _ => ((links_expr level f).spacedOperand (o := .new) nofun).alone
  | .new _ f (e :: es) => .node fun _ =>
    ((links_expr level f).spacedOperand (o := .new) nofun).comp (links_exprs level (e :: es)).parens
  | .sequence _ es => .node fun _ => (links_exprs level es).parens
theorem links_exprs (level : Nat) : ∀ es : List (Expr α),
    Links .through (commas (exprs level es)) (Expr.nodesList es) (Expr.yieldList es)
  | [] => .nothing
  | [e] => (links_expr level e).loose.alone
  | e :: e' :: es => (links_expr level e).comp (links_exprs level (e' :: es)).afterComma
theorem links_property (level : Nat) : ∀ p : Property α,
    Links .through (property level p) p.nodes p.yield
  | .mk _ k value => ((links_key k).comp (links_expr level value).spaced.afterColon).loose
theorem links_properties (level : Nat) : ∀ ps : List (Property α),
    Links .through (commas (properties level ps)) (Property.nodesList ps) (Property.yieldList ps)
  | [] => .nothing
  | [p] => (links_property level p).alone
  | p :: p' :: ps => (links_property level p).comp (links_properties level (p' :: ps)).afterComma
theorem links_spaced (level : Nat) : ∀ e : Option (Expr α),
    Links .through (spaced level e) (Expr.nodesOption e) (Expr.yieldOption e)
  | none => .nothing
  | some e => (links_expr level e).spaced.loose
theorem links_declarator (level : Nat) : ∀ d : Declarator α,
    Links .through (declarator level d) d.nodes d.yield
  | .mk _ id none => (Links.name id).loose
  | .mk _ id (some e) =>
    ((Links.name id).comp ((links_expr level e).infixed (o := .assign) nofun)).loose
theorem links_declarators (level : Nat) : ∀ ds : List (Declarator α),
    Links .through (commas (declarators level ds)) (Declarator.nodesList ds) (Declarator.yieldList ds)
  | [] => .nothing
  | [d] => (links_declarator level d).alone
  | d :: d' :: ds => (links_declarator level d).comp (links_declarators level (d' :: ds)).afterComma
theorem links_declaration (level : Nat) : ∀ d : Declaration α,
    Links .through (declaration level d) d.nodes d.yield
  | .mk _ ds => (links_declarators level ds).after (.word .var)
theorem links_block (level : Nat) : ∀ b : Block α, Links .closed (block level b) b.nodes b.yield
  | .mk _ [] => Links.nothing.braces
  | .mk _ (s :: ss) => (links_lines (level + 1) (s :: ss)).lined level
theorem links_lines (level : Nat) : ∀ ss : List (Stmt α),
    Links .through (lines level ss) (Stmt.nodesList ss) (Stmt.yieldList ss)
  | [] => .nothing
  | s :: ss => ((links_stmt level s).comp (links_lines level ss)).after (.newline level)
theorem links_switchCase (level : Nat) : ∀ c : SwitchCase α,
    Links .through (switchCase level c) c.nodes c.yield
  | .mk _ none ss => (links_lines (level + 1) ss).afterColon.after (.word .default)
  | .mk _ (some e) ss =>
    ((links_expr level e).comp (links_lines (level + 1) ss).afterColon).afterWord .case
theorem links_switchCases (level : Nat) : ∀ cs : List (SwitchCase α),
    Links .through (switchCases level cs) (SwitchCase.nodesList cs) (SwitchCase.yieldList cs)
  | [] => .nothing
  | c :: cs => ((links_switchCase level c).comp (links_switchCases level cs)).after (.newline level)
theorem links_catchClause (level : Nat) : ∀ c : CatchClause α,
    Links .through (catchClause level c) c.nodes c.yield
  | .mk _ param body =>
    (((Links.name param).parens.comp (links_block level body).spaced).afterWord .catch).spaced.loose
theorem links_handler (level : Nat) : ∀ c : Option (CatchClause α),
    Links .through (handler level c) (CatchClause.nodesOption c) (CatchClause.yieldOption c)
  | none => .nothing
  | some c => links_catchClause level c
theorem links_finalizer (level : Nat) : ∀ b : Option (Block α),
    Links .through (finalizer level b) (Block.nodesOption b) (Block.yieldOption b)
  | none => .nothing
  | some b => ((links_block level b).afterWord .finally).spaced.loose
theorem links_alternate (level : Nat) : ∀ s : Option (Stmt α),
    Links .through (alternate level s) (Stmt.nodesOption s) (Stmt.yieldOption s)
  | none => .nothing
  | some s => ((links_stmt level s).afterWord .else).spaced
theorem links_forInit (level : Nat) : ∀ i : ForInit α, Links .through (forInit level i) i.nodes i.yield
  | .declaration d => links_declaration level d
  | .expression e => (links_expr level e).loose
theorem links_forStart (level : Nat) : ∀ i : Option (ForInit α),
    Links .through (forStart level i) (ForInit.nodesOption i) (ForInit.yieldOption i)
  | none => .nothing
  | some i => links_forInit level i
theorem links_forTarget (level : Nat) : ∀ t : ForTarget α,
    Links .through (forTarget level t) t.nodes t.yield
  | .declaration d => links_declaration level d
  | .identifier i => (Links.name i).loose
theorem links_stmt (level : Nat) : ∀ s : Stmt α, Links .through (stmt level s) s.nodes s.yield
  | .empty _ => (Links.token (k := .semicolon) trivial rfl nofun nofun fun _ => rfl).loose
  | .block b => (links_block level b).loose
  | .expression _ e => (links_expr level e).semicolon.loose
  | .declaration d => (links_declaration level d).semicolon.loose
  | .if _ t c a => by
    have hrest := (links_stmt level c).comp (links_alternate level a)
    have hall := ((links_expr level t).header .if).comp hrest
    rwa [← List.append_assoc, ← List.append_assoc] at hall
  | .debugger _ => (Links.word .debugger).semicolon.loose
  | .with _ o b => ((links_expr level o).header .with).comp (links_stmt level b)
  | .return _ e => ((links_spaced level e).semicolon.after (.word .return)).loose
  | .throw _ e => ((links_expr level e).semicolon.afterWord .throw).loose
  | .break _ l | .continue _ l => (links_jump _ l).loose
  | .switch _ d cs =>
    (((links_expr level d).header .switch).comp ((links_switchCases (level + 1) cs).lined level)).loose
  | .try _ b h f => by
    have hrest := (links_handler level h).comp (links_finalizer level f)
    have hall := ((links_block level b).comp hrest).afterWord .try
    rwa [← List.append_assoc, ← List.append_assoc] at hall
  | .while _ t b => ((links_expr level t).header .while).comp (links_stmt level b)
  | .doWhile _ b t =>
    (((links_stmt level b).comp
      ((links_expr level t).parens.afterWord .while).spaced).afterWord .do).loose
  | .for _ i t u b => by
    have hlast := (links_spaced level u).comp (links_stmt level b).afterClosing
    have hrest := (links_spaced level t).comp hlast.afterSemicolon
    have hall := ((links_forStart level i).comp hrest.afterSemicolon).afterOpening.afterWord .for
    rwa [← List.append_assoc, ← List.append_assoc, ← List.append_assoc, ← List.append_assoc] at hall
  | .forIn _ t o b => by
    have hrest := ((links_expr level o).infixed (o := .in) nofun).comp
      (links_stmt level b).afterClosing
    have hall := ((links_forTarget level t).comp hrest).afterOpening.afterWord .for
    rwa [← List.append_assoc, ← List.append_assoc] at hall
  | .function _ id params body => ((links_signature (some id) params).comp (links_block level body)).loose
  | .labeled _ l b => ((Links.name l).comp (links_stmt level b).spaced.afterColon)
end

/-- The pieces of a sound script are linked, whatever line break comes after them. -/
theorem linked_program {body : List (Stmt α)} (h : Sound (Stmt.nodesList body) (Stmt.yieldList body))
    {ps : List Piece} (hp : Linked ps) (hm : ahead ps ≠ .operator .dot) :
    Linked (program body ps) := by
  cases body with
  | nil => exact hp
  | cons s ss => exact ((links_stmt 0 s).comp (links_lines 0 ss) h ps hp hm).1

end Printer
end ScriptTree
