import ScriptTree.Proofs.Rereading

/-! # Expressions read again

An expression is read again as it was read: each operand and each operator in turn. Every token that
went on with the expression when it was read goes on with it when its pieces are read, because it
binds as tightly; and what may stand behind the pieces lets the expression end where it ended. -/
namespace ScriptTree

open Piece Printer

/-- Whether the expression may be printed in front of the token. -/
structure Expr.Precedes (e : Expr α) (forHead : Bool) (k : TokenKind) : Prop where
  passes : e.Passes k forHead
  suits : k.suits (!e.endsInBody) = true

/-- Tokens with which a statement may begin. -/
def TokenKind.begins : TokenKind → Bool
  | .semicolon => true
  | .keyword k => !([.case, .default, .else, .finally] : List Keyword).contains k
  | k => k.leads

/-- Whether a statement may be printed in front of the token, if no `else` of its own is missing. -/
structure TokenKind.Follows (k : TokenKind) : Prop where
  suits : k.suits false = true
  noFinally : k ≠ .keyword .finally

theorem TokenKind.begins_of_leads {k : TokenKind} (h : k.leads = true) : k.begins = true := by
  cases k with
  | keyword word => cases word <;> first | rfl | cases h
  | semicolon => rfl
  | _ => exact h

theorem TokenKind.suits_of_begins {k : TokenKind} (h : k.begins = true) : k.suits false = true := by
  cases k with
  | keyword _ | semicolon => rfl
  | _ => exact suits_of_leads h

theorem TokenKind.follows_of_begins {k : TokenKind} (h : k.begins = true) : k.Follows :=
  ⟨suits_of_begins h, by rintro rfl; cases h⟩

theorem TokenKind.closes_of_leads {k : TokenKind} (h : k.leads = true) : k.closes = false := by
  cases k <;> first | rfl | cases h

theorem Sound.of_mem {es : List (Expr α)} (h : Sound (Expr.nodesList es) (Expr.yieldList es))
    {e : Expr α} (he : e ∈ es) : Sound e.nodes e.yield := by
  rw [Expr.nodesList_eq, Expr.yieldList_eq] at h
  exact h.part (fun x hx => List.mem_flatMap.2 ⟨e, he, hx⟩) fun k hk => List.mem_flatMap.2 ⟨e, he, hk⟩

theorem Sound.leads {e : Expr α} (h : Sound e.nodes e.yield) (level : Nat) (ps : List Piece) :
    (ahead (expr level e ps)).leads = true := by
  rw [Expr.ahead_pieces (Expr.first_spellable h.2)]
  exact Expr.first_leads fun x hx => (h.1 x hx).1

theorem Printer.ahead_block (level : Nat) (b : Block α) (ps : List Piece) :
    ahead (block level b ps) = .leftBrace := by
  obtain ⟨note, _ | ⟨x, xs⟩⟩ := b
  · rw [block, Function.comp_apply, ahead_tok (k := .leftBrace) trivial rfl]
  · rw [block, Function.comp_apply, ahead_tok (k := .leftBrace) trivial rfl]

theorem Sound.begins {x : Stmt α} (h : Sound x.nodes x.yield) (level : Nat) (ps : List Piece) :
    (ahead (stmt level x ps)).begins = true := by
  cases x with
  | empty _ => exact (ahead_tok (t := ";") (k := .semicolon) trivial rfl ps).symm ▸ rfl
  | block b => exact (ahead_block level b ps).symm ▸ rfl
  | expression _ e => exact TokenKind.begins_of_leads (Sound.leads h level _)
  | declaration d =>
    obtain ⟨note, ds⟩ := d
    exact (ahead_word .var _).symm ▸ rfl
  | labeled _ l b =>
    have hl : (TokenKind.identifier l.name).Spellable := h.2 _ List.mem_cons_self
    exact (ahead_tok (t := l.name) hl rfl _).symm ▸ rfl
  | «if» _ _ _ _ => exact (ahead_word .if _).symm ▸ rfl
  | debugger _ => exact (ahead_word .debugger _).symm ▸ rfl
  | «with» _ _ _ => exact (ahead_word .with _).symm ▸ rfl
  | «return» _ _ => exact (ahead_word .return _).symm ▸ rfl
  | throw _ _ => exact (ahead_word .throw _).symm ▸ rfl
  | «break» _ _ => exact (ahead_word .break _).symm ▸ rfl
  | «continue» _ _ => exact (ahead_word .continue _).symm ▸ rfl
  | switch _ _ _ => exact (ahead_word .switch _).symm ▸ rfl
  | «try» _ _ _ _ => exact (ahead_word .try _).symm ▸ rfl
  | «while» _ _ _ => exact (ahead_word .while _).symm ▸ rfl
  | doWhile _ _ _ => exact (ahead_word .do _).symm ▸ rfl
  | «for» _ _ _ _ _ => exact (ahead_word .for _).symm ▸ rfl
  | forIn _ _ _ _ => exact (ahead_word .for _).symm ▸ rfl
  | function _ _ _ _ => exact (ahead_word .function _).symm ▸ rfl

theorem Printer.leads_key {k : PropertyKey α} (hy : ∀ x ∈ k.yield, x.Spellable) (ps : List Piece) :
    (ahead (key k ps)).leads = true := by
  cases k with
  | identifier i =>
    have hi : (TokenKind.identifier i.name).Spellable := hy _ List.mem_cons_self
    rw [key, name, ahead_tok hi rfl]
    rfl
  | literal l =>
    have hl : l.value.token.Spellable := hy _ List.mem_cons_self
    obtain ⟨text, rest, he, htext⟩ := (Expr.literal l).exists_pieces 0 ps
    rw [key, show Printer.literal l ps = .token text :: rest from he, ahead, htext, Expr.first,
      ofSpelling_spelling hl]
    exact l.value.leads_token

namespace Parser

/-- A context to read again in: labels are taken as they come, and lists may be as long. -/
structure Lax (c c' : Context) : Prop where
  labels : c'.checkLabels = false
  budget : c.budget ≤ c'.budget

/-- Outside the head of a loop nothing is asked of what comes next. -/
theorem unheaded {forHead : Bool} : false = true → forHead = true := nofun

/-- What `R` reads as an expression, and the callee of a call that it reads, `R'` reads again. -/
def RereadsExpressions (style : Style) (R R' : Readers) : Prop :=
  ∀ ⦃c s floor forHead e t⦄, Returns (R.expression floor forHead) c s e t →
    ∀ ⦃e₀⦄, (e₀ = e ∨ ∃ note args, e = .call note e₀ args) → Sound e₀.nodes e₀.yield →
    ∀ ⦃c' s' level ps forHead'⦄, Lax c c' → (forHead' = true → forHead = true) →
      continuation? floor forHead' (Piece.ahead ps) = none → e₀.Precedes forHead' (Piece.ahead ps) →
      s'.Faces style (expr level e₀ ps) →
      Rereads style (Expr.map forget) (R'.expression floor forHead') c' s' e₀ ps

/-- What `R` reads as a statement `R'` reads again. -/
def RereadsStatements (style : Style) (R R' : Readers) : Prop :=
  ∀ ⦃c s x t⦄, Returns R.statement c s x t → Sound x.nodes x.yield →
    ∀ ⦃c' s' level ps⦄, Lax c c' → (Piece.ahead ps).Follows →
      (x.endsOpen = true → Piece.ahead ps ≠ .keyword .else) → s'.Faces style (stmt level x ps) →
      Rereads style (Stmt.map forget) R'.statement c' s' x ps

/-- What one level of nesting knows of the next one. What expressions joined by commas become is read
one level further in, by `R''`. -/
structure Rereading (style : Style) (R R' R'' : Readers) : Prop where
  ended : Ended Passing R
  expressions : RereadsExpressions style R R'
  statements : RereadsStatements style R R'
  members : RereadsExpressions style R R''
  deep : ∀ {forHead c s e t}, Returns (expression R'' 0 forHead) c s e t →
    Returns (R'.expression 0 forHead) c s e t

variable {style : Style} {R R' R'' : Readers} {c c' : Context} {s s' t : State} {level : Nat}
  {ps : List Piece} {forHead forHead' : Bool}

section
variable (hstyle : ∀ c ∈ style.indentation, Text.isBlank c = true)
include hstyle

/-! ## Blocks -/

omit hstyle in
theorem lines_rereads (hS : RereadsStatements style R R') (hc : Lax c c') (isLast : TokenKind → Bool)
    (hbegins : ∀ k : TokenKind, k.begins = true → isLast k = false)
    (hlast : isLast (ahead ps) = true) (hs : (ahead ps).Follows) (hne : ahead ps ≠ .keyword .else) :
    ∀ {xs : List (Stmt Span)} {s' : State},
    (∀ x ∈ xs, ∃ s t, Returns R.statement c s x t) → Sound (Stmt.nodesList xs) (Stmt.yieldList xs) →
    s'.Faces style (lines level xs ps) →
    ∃ xs' t, Items isLast (Returns R'.statement c') s' xs' t ∧
      xs'.map (Stmt.map forget) = xs.map (Stmt.map forget) ∧ t.Faces style ps
  | [], s', _, _, h => ⟨[], s', .done (h.kind ▸ hlast), rfl, h⟩
  | x :: xs, s', hread, hsound, h => by
    obtain ⟨hn, hn'⟩ := List.forall_mem_append.1 hsound.1
    obtain ⟨hy, hy'⟩ := List.forall_mem_append.1 hsound.2
    have hx : Sound x.nodes x.yield := ⟨hn, hy⟩
    obtain ⟨s₀, t₀, hr⟩ := hread x List.mem_cons_self
    -- behind the statement stands the next one, or else the end
    have hnext : (ahead (lines level xs ps)).Follows ∧
        ahead (lines level xs ps) ≠ .keyword .else := by
      cases xs with
      | nil => exact ⟨hs, hne⟩
      | cons y ys =>
        have hy : Sound y.nodes y.yield :=
          ⟨(List.forall_mem_append.1 hn').1, (List.forall_mem_append.1 hy').1⟩
        have hb := hy.begins level (lines level ys ps)
        refine ⟨TokenKind.follows_of_begins hb, fun he => ?_⟩
        rw [show ahead (lines level (y :: ys) ps) = ahead (stmt level y (lines level ys ps)) from rfl]
          at he
        rw [he] at hb
        cases hb
    have hx' : s'.Faces style (stmt level x (lines level xs ps)) := h
    have hkind : isLast s'.current.kind = false := by
      rw [hx'.kind]
      exact hbegins _ (hx.begins level _)
    obtain ⟨x', u, hr', he, hu⟩ := hS hr hx hc hnext.1 (fun _ => hnext.2) hx'
    obtain ⟨xs', t, hi, hes, ht⟩ := lines_rereads hS hc isLast hbegins hlast hs hne
      (fun y hy => hread y (List.mem_cons_of_mem _ hy)) ⟨hn', hy'⟩ hu
    exact ⟨x' :: xs', t, .more hkind hr' hi, by rw [List.map_cons, List.map_cons, he, hes], ht⟩

theorem block_rereads (hS : RereadsStatements style R R') (hc : Lax c c') {b : Block Span}
    (h : Returns (block R) c s b t) (hsound : Sound b.nodes b.yield)
    (hs : (ahead ps).suits false = true) (hf : s'.Faces style (Printer.block level b ps)) :
    Rereads style (Block.map forget) (block R') c' s' b ps := by
  obtain ⟨s₁, xs, s₂, -, -, hi, hn, -, rfl⟩ := returns_block.1 h
  have hclose : ∀ ps, ahead (newline level (tok "\x7d" ps)) = .rightBrace := fun ps =>
    ahead_tok (k := .rightBrace) trivial rfl ps
  -- an empty block is printed without a line break, which is not seen from a token
  have hblock : ∃ u, s'.current.kind = .leftBrace ∧ Moves false s' u ∧
      u.Faces style (lines (level + 1) xs (newline level (tok "\x7d" ps))) := by
    cases xs with
    | nil =>
      obtain ⟨hk, u, hm, hu⟩ := State.Faces.step hstyle hf (k := .leftBrace) trivial rfl (b := false)
        (by rw [ahead_tok (k := .rightBrace) trivial rfl]; rfl)
      exact ⟨u, hk, hm, hu⟩
    | cons x xs =>
      have hx : Sound x.nodes x.yield :=
        ⟨(List.forall_mem_append.1 hsound.1).1, (List.forall_mem_append.1 hsound.2).1⟩
      obtain ⟨hk, u, hm, hu⟩ := State.Faces.step hstyle hf (k := .leftBrace) trivial rfl (b := false)
        (TokenKind.suits_of_begins (hx.begins (level + 1) _))
      exact ⟨u, hk, hm, hu⟩
  obtain ⟨u, hk, hm, hu⟩ := hblock
  obtain ⟨xs', v, hi', he, hv⟩ := lines_rereads hS hc (· == .rightBrace)
    (fun k hk => by cases k <;> first | rfl | cases hk) (by rw [hclose]; rfl)
    (by rw [hclose]; exact ⟨rfl, nofun⟩) (by rw [hclose]; nofun)
    (Items.forall_mem (fun s x t h => ⟨s, t, h⟩) hi) hsound hu
  obtain ⟨hk', w, hm', hw⟩ := State.Faces.step hstyle hv (k := .rightBrace) trivial rfl hs
  have hlength : xs'.length = xs.length := by
    rw [← List.length_map (Stmt.map forget), he, List.length_map]
  refine ⟨_, w, returns_block.2 ⟨u, xs', v, hk, hm, hi', ?_, hm', rfl⟩, ?_, hw⟩
  · rw [hlength]
    exact Nat.lt_of_lt_of_le hn hc.budget
  · rw [Block.map, Block.map, Stmt.mapList_eq, Stmt.mapList_eq, he]

/-- The parameters and the body of a function. -/
theorem function_rereads (hS : RereadsStatements style R R') (hc : Lax c c')
    {params : List (Identifier Span)} {body : Block Span} {s₁ s₂ : State}
    (hp : Returns parameters c s₁ params s₂) (hb : Returns (block R) c s₂ body t)
    (hparams : ∀ k ∈ params.flatMap (·.yield), k.Spellable) (hbody : Sound body.nodes body.yield)
    (hs : (ahead ps).suits false = true)
    (hf : s'.Faces style (tok "(" (commas (params.map name) (tok ")" (space
      (Printer.block level body ps)))))) :
    ∃ params' u body' v, Returns parameters c' s' params' u ∧ Returns (block R') c' u body' v ∧
      Identifier.mapList forget params' = Identifier.mapList forget params ∧
      body'.map forget = body.map forget ∧ v.Faces style ps := by
  obtain ⟨-, -, -, -, hn⟩ := returns_parameters.1 hp
  have hbrace : (ahead (space (Printer.block level body ps))).suits true = true :=
    (ahead_block level body ps).symm ▸ rfl
  obtain ⟨params', u, hp', he, hu⟩ := parameters_rereads hstyle hparams
    (Nat.le_trans hn hc.budget) hbrace hf
  obtain ⟨body', v, hb', he', hv⟩ := block_rereads hstyle hS hc hb hbody hs hu
  exact ⟨params', u, body', v, hp', hb', he, he', hv⟩

/-! ## Lists of expressions -/

omit hstyle in
/-- In front of a token that ends everything. -/
theorem closed_rereads (hE : RereadsExpressions style R R') (hJ : Ended Passing R) (hc : Lax c c')
    {floor : Nat} {e : Expr Span} (h : Returns (R.expression floor forHead) c s e t)
    (hsound : Sound e.nodes e.yield) (hin : forHead' = true → forHead = true)
    (hk : (ahead ps).closes = true) (hf : s'.Faces style (expr level e ps)) :
    Rereads style (Expr.map forget) (R'.expression floor forHead') c' s' e ps := by
  have hnone := TokenKind.priority?_of_closes hk
  exact hE h (.inl rfl) hsound hc hin (continuation?_closer hnone _ _)
    ⟨Expr.Passes.closer (hJ h).1 hnone _, TokenKind.suits_of_closes hk _⟩ hf

section
variable (hE : RereadsExpressions style R R') (hJ : Ended Passing R) (hc : Lax c c')
  {es : List (Expr Span)} (hes : ∀ e ∈ es, ∃ s t, Returns (R.expression 0 forHead) c s e t)
  (hsound : Sound (Expr.nodesList es) (Expr.yieldList es))
include hE hJ hc hes hsound

theorem closedExpressions_reread {k : TokenKind} {close : String} (hlast : k.Spellable)
    (hclose : close.toList = k.spelling) (hcloses : k.closes = true) (hne : k ≠ .comma)
    (hn : es.length ≤ c.budget) (hs : (ahead ps).suits true = true)
    (hf : s'.Faces style (commas (exprs level es) (tok close ps))) :
    Rereads style (List.map (Expr.map forget)) (closedList k (R'.expression 0 false)) c' s' es
      ps := by
  rw [exprs_eq_map] at hf
  refine closedList_rereads hstyle (P := fun k => k.closes = true) hlast hclose hcloses rfl hne
    (fun e he ps s hk hf => ?_) (fun e he ps => ?_) (Nat.le_trans hn hc.budget) hs hf
  · obtain ⟨s, t, h⟩ := hes e he
    exact closed_rereads hE hJ hc h (hsound.of_mem he) nofun hk hf
  · have hleads := (hsound.of_mem he).leads level ps
    refine ⟨TokenKind.suits_of_leads hleads, fun hlast => ?_⟩
    rw [← hlast, TokenKind.closes_of_leads hleads] at hcloses
    cases hcloses

theorem group_rereads (hnil : es ≠ []) (hn : es.length ≤ c.budget)
    (hs : (ahead ps).suits true = true)
    (hf : s'.Faces style (tok "(" (commas (exprs level es) (tok ")" ps)))) :
    ∃ e' t', OperandForm R' c' s' e' t' ∧
      e'.map forget = .sequence () (Expr.mapList forget es) ∧ t'.Faces style ps := by
  obtain ⟨x, xs, rfl⟩ := List.exists_cons_of_ne_nil hnil
  have hleads : ∀ e ∈ x :: xs, ∀ ps, (ahead (expr level e ps)).leads = true := fun e he =>
    (hsound.of_mem he).leads level
  rw [exprs_eq_map] at hf
  obtain ⟨hk, u, hm, hu⟩ := State.Faces.step hstyle hf (k := .leftParen) trivial rfl (b := false)
    (ahead_commas (P := fun k => k.suits false = true)
      ((ahead_tok (t := ")") (k := .rightParen) trivial rfl ps).symm ▸ rfl)
      fun e he ps => TokenKind.suits_of_leads (hleads e he ps))
  have hparen : ahead (tok ")" ps) = .rightParen := ahead_tok (k := .rightParen) trivial rfl ps
  obtain ⟨x', v, xs', w, hx, hxs, he, hes', hw⟩ := separated_rereads hstyle (p := R'.expression 0 false)
    (c := c') (f := Expr.map forget) (P := fun k => k.closes = true) rfl (by rw [hparen]; rfl)
    (by rw [hparen]; nofun)
    (fun e he ps s hk hf => by
      obtain ⟨s, t, h⟩ := hes e he
      exact closed_rereads hE hJ hc h (hsound.of_mem he) nofun hk hf)
    (fun e he ps => TokenKind.suits_of_leads (hleads e (List.mem_cons_of_mem _ he) ps)) hu
  obtain ⟨hk', t', hm', ht'⟩ := State.Faces.step hstyle hw (k := .rightParen) trivial rfl hs
  have hlength : xs'.length < c'.budget := by
    rw [← List.length_map (Expr.map forget), hes', List.length_map]
    exact Nat.lt_of_lt_of_le hn hc.budget
  refine ⟨_, t', .group hk hm (returns_separated.2 ⟨x', v, xs', rfl, hx, hxs, hlength⟩) hk' hm', ?_,
    ht'⟩
  rw [Expr.map, Expr.mapList_eq, Expr.mapList_eq, List.map_cons, List.map_cons, he, hes']

end

/-- Expressions joined by commas are printed as a group, which is one level deeper. -/
theorem comma_rereads (hR : Rereading style R R' R'') (hc : Lax c c') {e : Expr Span}
    (h : CommaForm R c forHead s e t) (hsound : Sound e.nodes e.yield) (hin : forHead' = true → forHead = true)
    (hnone : continuation? 0 forHead' (ahead ps) = none)
    (hprec : e.Precedes forHead' (ahead ps)) (hne : ahead ps ≠ .comma)
    (hf : s'.Faces style (expr level e ps)) :
    ∃ e' t', CommaForm R' c' forHead' s' e' t' ∧ e'.map forget = e.map forget ∧
      t'.Faces style ps := by
  have hbudget : 0 < c'.budget := by
    have hb := hc.budget
    cases h with
    | single _ _ hn => omega
    | joined _ _ hn => omega
  cases h with
  | single he _ _ =>
    obtain ⟨e', t', hr, he', ht⟩ := hR.expressions he (.inl rfl) hsound hc hin hnone hprec hf
    exact ⟨e', t', .single hr (ht.kind ▸ hne) hbudget, he', ht⟩
  | @joined x _ y ys _ hx hys hn =>
    have hes : ∀ e ∈ x :: y :: ys, ∃ s t, Returns (R.expression 0 forHead) c s e t :=
      List.forall_mem_cons.2 ⟨⟨_, _, hx⟩, AfterCommas.forall_mem
        (Q := fun e => ∃ s t, Returns (R.expression 0 forHead) c s e t) (fun s e t h => ⟨s, t, h⟩) hys⟩
    have hparts : Sound (Expr.nodesList (x :: y :: ys)) (Expr.yieldList (x :: y :: ys)) :=
      hsound.part (List.subset_cons_self _ _) (List.Subset.refl _)
    obtain ⟨e', t', ho, he', ht⟩ := group_rereads hstyle hR.members hR.ended hc hes hparts
      (List.cons_ne_nil _ _) hn hprec.suits hf
    refine ⟨e', t', .single (hR.deep (returns_expression.2 ⟨e', t', 0, ho, .stop ?_, hbudget⟩)) ?_
      hbudget, by rw [he', Expr.map], ht⟩
    · rwa [ht.kind]
    · rwa [ht.kind]

/-! ## Operands -/

omit hstyle in
/-- A call and nothing else is a call without its notes. -/
theorem call_of_map {e : Expr α} {note : Unit} {f : Expr Unit} {es : List (Expr Unit)}
    (h : e.map forget = .call note f es) :
    ∃ note' f' es', e = .call note' f' es' ∧ f'.map forget = f ∧ Expr.mapList forget es' = es := by
  cases e with
  | call note' f' es' =>
    obtain ⟨-, hf, hes⟩ := Expr.call.inj h
    exact ⟨note', f', es', rfl, hf, hes⟩
  | _ => cases h

section
variable (hE : RereadsExpressions style R R') (hc : Lax c c')
include hE hc

/-- The operand behind an operator, whether or not there is room for a space between them. -/
theorem behind_rereads {o : Operator} {floor : Nat} {e e₀ : Expr Span} {gap : Writer}
    (h : Returns (R.expression floor forHead) c s e t)
    (he : e₀ = e ∨ ∃ note args, e = .call note e₀ args) (hsound : Sound e₀.nodes e₀.yield)
    (hin : forHead' = true → forHead = true)
    (hnone : continuation? floor forHead' (ahead ps) = none)
    (hprec : e₀.Precedes forHead' (ahead ps)) (hgap : gap = nothing ∨ gap = Printer.space)
    (hf : s'.Faces style (symbol o (gap (expr level e₀ ps)))) :
    s'.current.kind = .operator o ∧ ∃ u, Moves false s' u ∧
      Rereads style (Expr.map forget) (R'.expression floor forHead') c' u e₀ ps := by
  have hleads := TokenKind.suits_of_leads (hsound.leads level ps)
  have hstep : s'.current.kind = .operator o ∧ ∃ u, Moves false s' u ∧
      u.Faces style (expr level e₀ ps) := by
    rcases hgap with rfl | rfl
    · exact State.Faces.step hstyle hf (k := .operator o) trivial rfl hleads
    · exact State.Faces.step hstyle hf (k := .operator o) trivial rfl hleads
  obtain ⟨hk, u, hm, hu⟩ := hstep
  exact ⟨hk, u, hm, hE h he hsound hc hin hnone hprec hu⟩

/-- A construction that is printed without parentheses. -/
theorem plainConstruction_rereads {e f : Expr Span} {note : Span}
    (h : Returns (R.expression 18 false) c s e t)
    (he : f = e ∨ ∃ note args, e = .call note f args) (hsound : Sound f.nodes f.yield)
    (hcall : ∀ note g args, f ≠ .call note g args)
    (hprec : (Expr.new note f []).Precedes forHead (ahead ps))
    (hf : s'.Faces style (expr level (.new note f []) ps)) :
    ∃ e' t', OperandForm R' c' s' e' t' ∧ e'.map forget = (Expr.new note f []).map forget ∧
      t'.Faces style ps := by
  obtain ⟨hnone, hpasses⟩ := hprec.passes
  obtain ⟨hk, u, hm, f', t', hr, hmap, ht⟩ := behind_rereads hstyle hE hc (o := .new) h he hsound
    unheaded hnone ⟨hpasses, hprec.suits⟩ (.inr rfl) hf
  refine ⟨_, t', .newPlain hk hm hr fun note' g args hf' => ?_, by rw [Expr.map, Expr.map, hmap], ht⟩
  rw [hf', Expr.map, eq_comm] at hmap
  obtain ⟨note, g, args, rfl, -⟩ := call_of_map hmap
  exact hcall _ _ _ rfl

end

theorem property_rereads (hE : RereadsExpressions style R R') (hJ : Ended Passing R)
    (hc : Lax c c') {p : Property Span} (h : Returns (property R) c s p t)
    (hsound : Sound p.nodes p.yield) (hk : (ahead ps).closes = true)
    (hf : s'.Faces style (Printer.property level p ps)) :
    Rereads style (Property.map forget) (property R') c' s' p ps := by
  obtain ⟨k, _, _, value, -, -, -, hv, rfl⟩ := returns_property.1 h
  obtain ⟨hky, hvy⟩ := List.forall_mem_append.1 hsound.2
  have hvalue : Sound value.nodes value.yield := ⟨hsound.1, hvy⟩
  obtain ⟨k', u, hkey, hek, hu⟩ := key_rereads hstyle (c := c') hky
    ((ahead_tok (t := ":") (k := .colon) trivial rfl _).symm ▸ rfl) hf
  obtain ⟨hcolon, v, hm, hv'⟩ := State.Faces.step hstyle hu (k := .colon) trivial rfl (b := false)
    (TokenKind.suits_of_leads (hvalue.leads level ps))
  obtain ⟨value', t', hr, hev, ht⟩ := closed_rereads hE hJ hc hv hvalue unheaded hk hv'
  exact ⟨_, t', returns_property.2 ⟨k', u, v, value', hkey, hcolon, hm, hr, rfl⟩,
    by rw [Property.map, Property.map, hek, hev], ht⟩

theorem operand_rereads (hR : Rereading style R R' R'') (hc : Lax c c') {e : Expr Span}
    (h : OperandForm R c s e t) (hsound : Sound e.nodes e.yield) (hprec : e.Precedes forHead (ahead ps))
    (hf : s'.Faces style (expr level e ps)) :
    ∃ e' t', OperandForm R' c' s' e' t' ∧ e'.map forget = e.map forget ∧ t'.Faces style ps := by
  cases h with
  | @group es _ _ _ hk hm hes hl hm' =>
    obtain ⟨x, u, xs, rfl, hx, hxs, hn⟩ := returns_separated.1 hes
    have hread : ∀ e ∈ x :: xs, ∃ s t, Returns (R.expression 0 false) c s e t :=
      separated_forall_mem (Q := fun e => ∃ s t, Returns (R.expression 0 false) c s e t)
        (fun s e t h => ⟨s, t, h⟩) hes
    exact group_rereads hstyle hR.expressions hR.ended hc hread
      (hsound.part (List.subset_cons_self _ _) (List.Subset.refl _)) (List.cons_ne_nil _ _) hn
      hprec.suits hf
  | @array es _ _ hk hm hes =>
    have hread : ∀ e ∈ es, ∃ s t, Returns (R.expression 0 false) c s e t :=
      closedList_forall_mem (Q := fun e => ∃ s t, Returns (R.expression 0 false) c s e t)
        (fun s e t h => ⟨s, t, h⟩) hes
    have hparts : Sound (Expr.nodesList es) (Expr.yieldList es) :=
      hsound.part (List.subset_cons_self _ _) (List.Subset.refl _)
    have hfirst : (ahead (commas (exprs level es) (tok "]" ps))).suits false = true := by
      rw [exprs_eq_map]
      exact ahead_commas (P := fun k => k.suits false = true)
        ((ahead_tok (t := "]") (k := .rightBracket) trivial rfl ps).symm ▸ rfl)
        fun e he ps => TokenKind.suits_of_leads ((hparts.of_mem he).leads level ps)
    obtain ⟨hk, u, hm, hu⟩ := State.Faces.step hstyle hf (k := .leftBracket) trivial rfl hfirst
    obtain ⟨es', t', hr, hmap, ht⟩ :=
      closedExpressions_reread hstyle hR.expressions hR.ended hc hread hparts
      (k := .rightBracket) trivial rfl rfl nofun (returns_closedList.1 hes).2 hprec.suits hu
    refine ⟨_, t', .array hk hm hr, ?_, ht⟩
    rw [Expr.map, Expr.map, Expr.mapList_eq, Expr.mapList_eq, hmap]
  | @newCall note f args s₁ _ hk hm he =>
    have hlegible : (Expr.new (t.since s.current.span.start) f args).Legible :=
      hsound.1 _ List.mem_cons_self
    cases args with
    | nil =>
      have hcall : ∀ note g args, f ≠ .call note g args := by
        rintro note g args rfl
        cases hlegible.2
      exact plainConstruction_rereads hstyle hR.expressions hc he (.inr ⟨_, _, rfl⟩)
        (hsound.part (by simp [Expr.nodes]) (by simp [Expr.yield])) hcall hprec hf
    | cons x xs =>
      have hcallee : Sound (Expr.call note f (x :: xs)).nodes (Expr.call note f (x :: xs)).yield :=
        ⟨List.forall_mem_cons.2 ⟨⟨trivial, rfl⟩, (List.forall_mem_cons.1 hsound.1).2⟩,
          (List.forall_mem_cons.1 hsound.2).2⟩
      have hf' : s'.Faces style
        (symbol .new (Printer.space (expr level (.call note f (x :: xs)) ps))) := hf
      obtain ⟨hk, u, hm, e', t', hr, hmap, ht⟩ := behind_rereads hstyle hR.expressions hc he
        (.inl rfl) hcallee unheaded hprec.passes ⟨(hR.ended he).1, hprec.suits⟩ (.inr rfl) hf'
      obtain ⟨note', f', args', rfl, hf', hargs'⟩ := call_of_map hmap
      exact ⟨_, t', .newCall hk hm hr, by rw [Expr.map, Expr.map, hf', hargs'], ht⟩
  | newPlain hk hm he hne =>
    exact plainConstruction_rereads hstyle hR.expressions hc he (.inl rfl)
      (hsound.part (by simp [Expr.nodes]) (by simp [Expr.yield])) hne hprec hf
  | @unary op e _ _ hk hl hu hm he =>
    obtain ⟨hnone, hpasses⟩ := hprec.passes
    obtain ⟨hk, u, hm, e', t', hr, hmap, ht⟩ := behind_rereads hstyle hR.expressions hc (o := op) he
      (.inl rfl) (hsound.part (List.subset_cons_self _ _) (List.subset_cons_self _ _))
      unheaded hnone ⟨hpasses, hprec.suits⟩ (.inl rfl) hf
    exact ⟨_, t', .unary hk hl hu hm hr, by rw [Expr.map, Expr.map, hmap], ht⟩
  | @update op e _ _ hk hu hm he htarget =>
    obtain ⟨hnone, hpasses⟩ := hprec.passes
    obtain ⟨hk, u, hm, e', t', hr, hmap, ht⟩ := behind_rereads hstyle hR.expressions hc (o := op) he
      (.inl rfl) (hsound.part (List.subset_cons_self _ _) (List.subset_cons_self _ _))
      unheaded hnone ⟨hpasses, hprec.suits⟩ (.inl rfl) hf
    refine ⟨_, t', .update hk hu hm hr ?_, by rw [Expr.map, Expr.map, hmap], ht⟩
    rw [← Expr.isTarget_map forget, hmap, Expr.isTarget_map, htarget]
  | @literal l _ hl =>
    obtain ⟨l', t', hr, he, ht⟩ := literal_rereads hstyle (c := c') (hsound.2 _ List.mem_cons_self)
      hprec.suits hf
    exact ⟨_, t', .literal hr, by rw [Expr.map, Expr.map, he], ht⟩
  | @identifier i _ hi =>
    obtain ⟨i', t', hr, he, ht⟩ := identifier_rereads hstyle (c := c') (hsound.2 _ List.mem_cons_self)
      hprec.suits hf
    exact ⟨_, t', .identifier hr, by rw [Expr.map, Expr.map, he], ht⟩
  | this hk hm =>
    obtain ⟨hk, t', hm, ht⟩ := State.Faces.step hstyle hf (k := .this) trivial rfl hprec.suits
    exact ⟨_, t', .this hk hm, rfl, ht⟩
  | @function id params body s₁ s₂ s₃ _ hk hm hid hp hb =>
    obtain ⟨hy, hbody⟩ := List.forall_mem_append.1 hsound.2
    obtain ⟨hidy, hparams⟩ := List.forall_mem_append.1 hy
    have rest {qs : List Piece} (hqs : qs = tok "(" (commas (params.map name) (tok ")" (space
        (Printer.block level body ps))))) {u : State} (hu : u.Faces style qs) :=
      function_rereads hstyle hR.statements hc hp hb hparams ⟨(List.forall_mem_cons.1 hsound.1).2, hbody⟩
        hprec.suits (hqs ▸ hu)
    generalize hqs : tok "(" (commas (params.map name) (tok ")" (space
      (Printer.block level body ps)))) = qs at rest
    have hparen : ahead qs = .leftParen := by
      rw [← hqs, ahead_tok (k := .leftParen) trivial rfl]
    cases id with
    | none =>
      have hf' : s'.Faces style (word .function qs) := hqs ▸ hf
      obtain ⟨hk, u, hm, hu⟩ := State.Faces.step hstyle hf' (k := .keyword .function) trivial rfl
        (b := false) (by rw [hparen]; rfl)
      obtain ⟨params', v, body', t', hp', hb', hep, heb, ht⟩ := rest rfl hu
      have hplain : ∀ name, u.current.kind ≠ .identifier name := fun name => by
        rw [hu.kind, hparen]
        nofun
      exact ⟨_, t', .function hk hm (.inl ⟨rfl, rfl, hplain⟩) hp' hb',
        by rw [Expr.map, Expr.map, hep, heb, Option.map_none], ht⟩
    | some i =>
      have hi : (TokenKind.identifier i.name).Spellable := hidy _ List.mem_cons_self
      have hf' : s'.Faces style (word .function (name i qs)) := hqs ▸ hf
      obtain ⟨hk, u, hm, hu⟩ := State.Faces.step hstyle hf' (k := .keyword .function) trivial rfl
        (b := false) (by rw [name, ahead_tok hi rfl]; rfl)
      obtain ⟨i', v, hi', hei, hv⟩ := identifier_rereads hstyle (c := c') hi (by rw [hparen]; rfl) hu
      obtain ⟨params', w, body', t', hp', hb', hep, heb, ht⟩ := rest rfl hv
      refine ⟨_, t', .function hk hm (.inr ⟨i', rfl, hi'⟩) hp' hb', ?_, ht⟩
      rw [Expr.map, Expr.map, hep, heb, Option.map_some, Option.map_some, hei]
  | @object ps' _ _ hk hm hps =>
    have hread : ∀ p ∈ ps', ∃ s t, Returns (property R) c s p t :=
      closedList_forall_mem (Q := fun p => ∃ s t, Returns (property R) c s p t)
        (fun s p t h => ⟨s, t, h⟩) hps
    have hparts : ∀ p ∈ ps', Sound p.nodes p.yield := fun p hp => by
      have hall := hsound.part (List.subset_cons_self _ _) (List.Subset.refl _)
      rw [Expr.yield, Property.nodesList_eq, Property.yieldList_eq] at hall
      exact hall.part (fun x hx => List.mem_flatMap.2 ⟨p, hp, hx⟩)
        fun k hk => List.mem_flatMap.2 ⟨p, hp, hk⟩
    have hfirst : ∀ p ∈ ps', ∀ ps, (ahead (Printer.property level p ps)).leads = true := by
      rintro ⟨note, k, value⟩ hp ps
      exact leads_key (List.forall_mem_append.1 (hparts _ hp).2).1 _
    have hf' : s'.Faces style (tok "\x7b" (commas (ps'.map (Printer.property level)) (tok "\x7d" ps))) := by
      rw [← properties_eq_map]
      exact hf
    obtain ⟨hk, u, hm, hu⟩ := State.Faces.step hstyle hf' (k := .leftBrace) trivial rfl (b := false)
      (ahead_commas (P := fun k => k.suits false = true)
        ((ahead_tok (t := "\x7d") (k := .rightBrace) trivial rfl ps).symm ▸ rfl)
        fun p hp ps => TokenKind.suits_of_leads (hfirst p hp ps))
    obtain ⟨props, t', hr, hmap, ht⟩ := closedList_rereads hstyle (f := Property.map forget)
      (P := fun k => k.closes = true) (k := .rightBrace) trivial rfl rfl rfl nofun
      (fun p hp ps s hk hf => by
        obtain ⟨s, t, h⟩ := hread p hp
        exact property_rereads hstyle hR.expressions hR.ended hc h (hparts p hp) hk hf)
      (fun p hp ps => ⟨TokenKind.suits_of_leads (hfirst p hp ps), fun he => by
        have hleads := hfirst p hp ps
        rw [he] at hleads
        cases hleads⟩)
      (Nat.le_trans (returns_closedList.1 hps).2 hc.budget) hprec.suits hu
    refine ⟨_, t', .object hk hm hr, ?_, ht⟩
    rw [Expr.map, Expr.map, Property.mapList_eq, Property.mapList_eq, hmap]

/-! ## What follows an operand -/

omit hstyle in
theorem CommaForm.passes (hJ : Ended Passing R) {e : Expr Span} (h : CommaForm R c forHead s e t) :
    e.Passes t.current.kind forHead := by
  cases h with
  | single he _ _ => exact (hJ he).1
  | joined _ _ _ => trivial

theorem closedComma_rereads (hR : Rereading style R R' R'') (hc : Lax c c') {e : Expr Span}
    (h : CommaForm R c forHead s e t) (hsound : Sound e.nodes e.yield)
    (hin : forHead' = true → forHead = true) (hk : (ahead ps).closes = true)
    (hne : ahead ps ≠ .comma) (hf : s'.Faces style (expr level e ps)) :
    ∃ e' t', CommaForm R' c' forHead' s' e' t' ∧ e'.map forget = e.map forget ∧
      t'.Faces style ps :=
  have hnone := TokenKind.priority?_of_closes hk
  comma_rereads hstyle hR hc h hsound hin (continuation?_closer hnone _ _)
    ⟨(h.passes hR.ended).closer hnone _, TokenKind.suits_of_closes hk _⟩ hne hf

omit hstyle in
/-- A slash needs an operand in front of it that does not end in the body of a function. -/
theorem suits_operator {op : Operator} {flag : Bool}
    (h : op = .divide ∨ op = .divideAssign → flag = true) :
    (TokenKind.operator op).suits flag = true := by
  rcases (TokenKind.operator op).slash_cases with ⟨_, _, hk⟩ | hk | hk | hall
  · cases hk
  · obtain rfl := TokenKind.operator.inj hk
    exact h (.inl rfl)
  · obtain rfl := TokenKind.operator.inj hk
    exact h (.inr rfl)
  · exact hall flag

theorem extend_rereads (hR : Rereading style R R' R'') (hc : Lax c c')
    {start floor q : Nat} (start' level : Nat) {left e : Expr Span}
    (hl : left.Passes s.current.kind forHead) (hq : continuation? floor forHead s.current.kind = some q)
    (h : ExtendForm R c start forHead left q s e t) (hsound : Sound e.nodes e.yield)
    (hin : forHead' = true → forHead = true) (hprec : e.Precedes forHead' (ahead ps)) :
    ∃ qs, expr level e ps = expr level left qs ∧ ahead qs = s.current.kind ∧
      left.Precedes forHead' (ahead qs) ∧ Sound left.nodes left.yield ∧
      ∀ left' s', left'.map forget = left.map forget → s'.Faces style qs →
        ∃ e' t', ExtendForm R' c' start' forHead' left' q s' e' t' ∧
          e'.map forget = e.map forget ∧ t'.Faces style ps := by
  have hpasses := hl.anywhere (continuation?_eq_some.1 hq).2.2 forHead'
  have strength {q'} (hk : s.current.kind.priority? = some q') : q = q' := eq_of_continuation? hq hk
  have infixed {op : Operator} (hk : s.current.kind = .operator op)
      (hdiv : op = .divide ∨ op = .divideAssign → (!left.endsInBody) = true) :
      left.Precedes forHead' (.operator op) :=
    ⟨hk ▸ hpasses, suits_operator hdiv⟩
  cases h with
  | @call args _ _ hk hm hes =>
    have hread : ∀ e ∈ args, ∃ s t, Returns (R.expression 0 false) c s e t :=
      closedList_forall_mem (Q := fun e => ∃ s t, Returns (R.expression 0 false) c s e t)
        (fun s e t h => ⟨s, t, h⟩) hes
    have hparts : Sound (Expr.nodesList args) (Expr.yieldList args) :=
      hsound.part (by simp [Expr.nodes]) (by simp [Expr.yield])
    have hahead (ps : List Piece) : ahead (tok "(" ps) = .leftParen :=
      ahead_tok (k := .leftParen) trivial rfl ps
    refine ⟨tok "(" (commas (exprs level args) (tok ")" ps)), rfl, (hahead _).trans hk.symm, ?_,
      hsound.part (by simp [Expr.nodes]) (by simp [Expr.yield]), fun left' s' hmap hf => ?_⟩
    · rw [hahead, ← hk]
      exact ⟨hpasses, by rw [hk]; rfl⟩
    · obtain ⟨hk', u, hm', hu⟩ := State.Faces.step hstyle hf (k := .leftParen) trivial rfl
        (b := false) (by
          rw [exprs_eq_map]
          exact ahead_commas (P := fun k => k.suits false = true)
            ((ahead_tok (t := ")") (k := .rightParen) trivial rfl ps).symm ▸ rfl)
            fun e he ps => TokenKind.suits_of_leads ((hparts.of_mem he).leads level ps))
      obtain ⟨args', t', hr, hmap', ht⟩ :=
      closedExpressions_reread hstyle hR.expressions hR.ended hc hread hparts
        (k := .rightParen) trivial rfl rfl (by rintro ⟨⟩) (returns_closedList.1 hes).2 hprec.suits hu
      refine ⟨_, t', .call hk' hm' hr, ?_, ht⟩
      rw [Expr.map, Expr.map, Expr.mapList_eq, Expr.mapList_eq, hmap, hmap']
  | @index p _ _ _ hk hm hp _ _ =>
    have hp' : Sound p.nodes p.yield := hsound.part (by simp [Expr.nodes]) (by simp [Expr.yield])
    have hahead (ps : List Piece) : ahead (tok "[" ps) = .leftBracket :=
      ahead_tok (k := .leftBracket) trivial rfl ps
    have hlast : ahead (tok "]" ps) = .rightBracket := ahead_tok (k := .rightBracket) trivial rfl ps
    refine ⟨tok "[" (expr level p (tok "]" ps)), rfl, (hahead _).trans hk.symm, ?_,
      hsound.part (by simp [Expr.nodes]) (by simp [Expr.yield]), fun left' s' hmap hf => ?_⟩
    · rw [hahead, ← hk]
      exact ⟨hpasses, by rw [hk]; rfl⟩
    · obtain ⟨hk', u, hm', hu⟩ := State.Faces.step hstyle hf (k := .leftBracket) trivial rfl
        (TokenKind.suits_of_leads (hp'.leads level _))
      obtain ⟨p', v, hr, hmap', hv⟩ := closedComma_rereads hstyle hR hc hp hp'
        unheaded (by rw [hlast]; rfl) (by rw [hlast]; rintro ⟨⟩) hu
      obtain ⟨hl, t', hm'', ht⟩ := State.Faces.step hstyle hv (k := .rightBracket) trivial rfl
        hprec.suits
      exact ⟨_, t', .index hk' hm' hr hl hm'', by rw [Expr.map, Expr.map, hmap, hmap'], ht⟩
  | @binary op r _ _ hk ho hm hr =>
    obtain rfl : q = Priority.of op .trailing := strength (by rw [hk]; rfl)
    have hr' : Sound r.nodes r.yield := hsound.part (by simp [Expr.nodes]) (by simp [Expr.yield])
    have hlegible : (Expr.binary (t.since start) op left r).Legible := hsound.1 _ List.mem_cons_self
    refine ⟨Printer.space (symbol op (Printer.space (expr level r ps))), rfl,
      by rw [ahead_space, ahead_symbol, hk], ?_,
      hsound.part (by simp [Expr.nodes]) (by simp [Expr.yield]), fun left' s' hmap hf => ?_⟩
    · rw [ahead_space, ahead_symbol]
      refine infixed hk fun hdiv => ?_
      rcases hdiv with rfl | rfl
      · exact hlegible.2
      · cases ho
    · obtain ⟨hk', u, hm', r', t', hread, hmap', ht⟩ := behind_rereads hstyle hR.expressions hc hr
        (.inl rfl) hr' hin hprec.passes.1 ⟨hprec.passes.2, hprec.suits⟩ (.inr rfl) hf
      exact ⟨_, t', .binary hk' ho hm' hread, by rw [Expr.map, Expr.map, hmap, hmap'], ht⟩
  | @assignment op r _ _ hk ho htarget hm hr =>
    obtain rfl : q = 3 := strength (by rw [hk, TokenKind.priority?, of_assignment ho])
    have hr' : Sound r.nodes r.yield := hsound.part (by simp [Expr.nodes]) (by simp [Expr.yield])
    have hlegible : (Expr.assignment (t.since start) op left r).Legible :=
      hsound.1 _ List.mem_cons_self
    refine ⟨Printer.space (symbol op (Printer.space (expr level r ps))), rfl,
      by rw [ahead_space, ahead_symbol, hk], ?_,
      hsound.part (by simp [Expr.nodes]) (by simp [Expr.yield]), fun left' s' hmap hf => ?_⟩
    · rw [ahead_space, ahead_symbol]
      refine infixed hk fun hdiv => ?_
      rcases hdiv with rfl | rfl
      · cases ho
      · exact hlegible.2
    · obtain ⟨hk', u, hm', r', t', hread, hmap', ht⟩ := behind_rereads hstyle hR.expressions hc hr
        (.inl rfl) hr' hin hprec.passes.1 ⟨hprec.passes.2, hprec.suits⟩ (.inr rfl) hf
      refine ⟨_, t', .assignment hk' ho ?_ hm' hread, by rw [Expr.map, Expr.map, hmap, hmap'], ht⟩
      rw [← Expr.isTarget_map forget, hmap, Expr.isTarget_map, htarget]
  | @logical op r _ _ hk ho hm hr =>
    obtain rfl : q = Priority.of op .trailing := strength (by rw [hk]; rfl)
    have hr' : Sound r.nodes r.yield := hsound.part (by simp [Expr.nodes]) (by simp [Expr.yield])
    refine ⟨Printer.space (symbol op (Printer.space (expr level r ps))), rfl,
      by rw [ahead_space, ahead_symbol, hk], ?_,
      hsound.part (by simp [Expr.nodes]) (by simp [Expr.yield]), fun left' s' hmap hf => ?_⟩
    · rw [ahead_space, ahead_symbol]
      refine infixed hk fun hdiv => ?_
      rcases hdiv with rfl | rfl <;> cases ho
    · obtain ⟨hk', u, hm', r', t', hread, hmap', ht⟩ := behind_rereads hstyle hR.expressions hc hr
        (.inl rfl) hr' hin hprec.passes.1 ⟨hprec.passes.2, hprec.suits⟩ (.inr rfl) hf
      exact ⟨_, t', .logical hk' ho hm' hread, by rw [Expr.map, Expr.map, hmap, hmap'], ht⟩
  | @dot p _ _ hk hm hr =>
    obtain rfl : q = 19 := strength (by rw [hk]; rfl)
    have hp' : Sound p.nodes p.yield := hsound.part (by simp [Expr.nodes]) (by simp [Expr.yield])
    -- the blank after an integer is not seen from the dot
    have hgap : ∀ ps, ahead ((if isInteger left then Printer.blank else nothing) ps) = ahead ps ∧
        ∀ s : State, s.Faces style ((if isInteger left then Printer.blank else nothing) ps) →
          s.Faces style ps := by
      intro ps
      split
      · exact ⟨rfl, fun s hf => hf⟩
      · exact ⟨rfl, fun s hf => hf⟩
    have hqs := (hgap (symbol .dot (expr level p ps))).1.trans (ahead_symbol .dot _)
    refine ⟨(if isInteger left then Printer.blank else nothing) (symbol .dot (expr level p ps)), rfl,
      hqs.trans hk.symm, ?_, hsound.part (by simp [Expr.nodes]) (by simp [Expr.yield]),
      fun left' s' hmap hf => ?_⟩
    · rw [hqs]
      exact infixed hk fun hdiv => by rcases hdiv with hdiv | hdiv <;> cases hdiv
    · obtain ⟨hk', u, hm', p', t', hread, hmap', ht⟩ := behind_rereads hstyle hR.expressions hc hr
        (.inl rfl) hp' hin hprec.passes.1 ⟨hprec.passes.2, hprec.suits⟩ (.inl rfl) ((hgap _).2 _ hf)
      exact ⟨_, t', .dot hk' hm' hread, by rw [Expr.map, Expr.map, hmap, hmap'], ht⟩
  | @conditional x y _ _ _ _ hk hm hx hcolon hm' hy =>
    have hx' : Sound x.nodes x.yield :=
      hsound.part (fun z hz => by simp [Expr.nodes, hz]) fun k hk => by simp [Expr.yield, hk]
    have hy' : Sound y.nodes y.yield :=
      hsound.part (fun z hz => by simp [Expr.nodes, hz]) fun k hk => by simp [Expr.yield, hk]
    refine ⟨Printer.space (symbol .question (Printer.space (expr level x (Printer.space (tok ":"
      (Printer.space (expr level y ps))))))), rfl, by rw [ahead_space, ahead_symbol, hk], ?_,
      hsound.part (by simp [Expr.nodes]) (by simp [Expr.yield]), fun left' s' hmap hf => ?_⟩
    · rw [ahead_space, ahead_symbol]
      exact infixed hk fun hdiv => by rcases hdiv with hdiv | hdiv <;> cases hdiv
    · obtain ⟨hk', u, hm₁, hu⟩ := State.Faces.step hstyle hf (k := .operator .question) trivial rfl
        (b := false) (TokenKind.suits_of_leads (hx'.leads level _))
      obtain ⟨x', v, hread, hmapx, hv⟩ := closed_rereads hR.expressions hR.ended hc hx hx' hin
        (by rw [ahead_space, ahead_tok (k := .colon) trivial rfl]; rfl) hu
      obtain ⟨hk'', w, hm₂, hw⟩ := State.Faces.step hstyle hv (k := .colon) trivial rfl (b := false)
        (TokenKind.suits_of_leads (hy'.leads level ps))
      obtain ⟨y', t', hread', hmapy, ht⟩ := hR.expressions hy (.inl rfl) hy' hc hin hprec.passes.1
        ⟨hprec.passes.2, hprec.suits⟩ hw
      exact ⟨_, t', .conditional hk' hm₁ hread hk'' hm₂ hread',
        by rw [Expr.map, Expr.map, hmap, hmapx, hmapy], ht⟩
  | @update op _ hk ho htarget hm =>
    refine ⟨symbol op ps, rfl, (ahead_symbol op ps).trans hk.symm, ?_,
      hsound.part (by simp [Expr.nodes]) (by simp [Expr.yield]), fun left' s' hmap hf => ?_⟩
    · rw [ahead_symbol]
      refine infixed hk fun hdiv => ?_
      rcases hdiv with rfl | rfl <;> cases ho
    · obtain ⟨hk', t', hm', ht⟩ := State.Faces.step hstyle hf (k := .operator op) trivial rfl hprec.suits
      refine ⟨_, t', .update hk' ho ?_ hm', by rw [Expr.map, Expr.map, hmap], ht⟩
      rw [← Expr.isTarget_map forget, hmap, Expr.isTarget_map, htarget]

/-! ## Whole expressions -/

/-- Read again from `s'`, the expression is an operand that was gone on with at most `n` times. -/
def Spine (style : Style) (R' : Readers) (c' : Context) (s' : State) (level floor : Nat)
    (forHead' : Bool) (n : Nat) (left : Expr Span) : Prop :=
  Sound left.nodes left.yield → ∀ ps, left.Precedes forHead' (ahead ps) →
    s'.Faces style (expr level left ps) →
    ∃ j first u left' t, j ≤ n ∧ OperandForm R' c' s' first u ∧
      left'.map forget = left.map forget ∧ t.Faces style ps ∧
      ∀ m e v, Extended R' c' s'.current.span.start floor forHead' m left' t e v →
        Extended R' c' s'.current.span.start floor forHead' (m + j) first u e v

omit hstyle in
theorem Spine.mono {floor n m : Nat} {left : Expr Span}
    (h : Spine style R' c' s' level floor forHead' n left) (hn : n ≤ m) :
    Spine style R' c' s' level floor forHead' m left := fun hsound ps hprec hf =>
  have ⟨j, first, u, left', t, hj, hrest⟩ := h hsound ps hprec hf
  ⟨j, first, u, left', t, Nat.le_trans hj hn, hrest⟩

/-- The induction goes along the tokens that the expression was gone on with. -/
theorem extended_spine (hR : Rereading style R R' R'') (hc : Lax c c')
    (hin : forHead' = true → forHead = true) {start floor n k : Nat} {left e : Expr Span}
    (h : Extended R c start floor forHead n left s e t) (hl : left.Passes s.current.kind forHead)
    (hleft : Spine style R' c' s' level floor forHead' k left)
    (hcallee : ∀ note f args, left = .call note f args →
      Spine style R' c' s' level floor forHead' k f) {e₀ : Expr Span}
    (he : e₀ = e ∨ ∃ note args, e = .call note e₀ args) :
    Spine style R' c' s' level floor forHead' (k + n) e₀ := by
  induction h generalizing k with
  | stop _ =>
    rcases he with rfl | ⟨note, args, rfl⟩
    · exact hleft
    · exact hcallee _ _ _ rfl
  | @more n left q e _ s _ _ hq hx _ ih =>
    rw [Nat.add_comm n 1, ← Nat.add_assoc]
    have hfits := (extend_fits hR.ended hl hq hx).2
    have hnext : Spine style R' c' s' level floor forHead' (k + 1) e := fun hsound ps hprec hf => by
      obtain ⟨qs, hprint, hkind, hprec', hsound', hstep⟩ := extend_rereads hstyle hR hc
        s'.current.span.start level hl hq hx hsound hin hprec
      rw [hprint] at hf
      obtain ⟨j, first, u, left', t, hj, ho, hmap, ht, hgo⟩ := hleft hsound' qs hprec' hf
      obtain ⟨e', t', hform, hmap', ht'⟩ := hstep left' t hmap ht
      refine ⟨j + 1, first, u, e', t', Nat.succ_le_succ hj, ho, hmap', ht', fun m e v hext => ?_⟩
      have hq' : continuation? floor forHead' t.current.kind = some q := by
        rw [ht.kind, hkind]
        obtain ⟨hp, hlt, hne⟩ := continuation?_eq_some.1 hq
        exact continuation?_eq_some.2 ⟨hp, hlt, fun hf => hne (hin hf)⟩
      have hall := hgo _ _ _ (.more hq' hform hext)
      rwa [Nat.add_assoc, Nat.add_comm 1 j] at hall
    refine ih hfits hnext (fun note f args hcall => ?_) he
    subst hcall
    cases hx with
    | call _ _ _ => exact hleft.mono (Nat.le_succ k)

theorem expression_rereads (hR : Rereading style R R' R'') (hc : Lax c c')
    (hin : forHead' = true → forHead = true) {floor : Nat} {e e₀ : Expr Span}
    (h : Returns (expression R floor forHead) c s e t)
    (he : e₀ = e ∨ ∃ note args, e = .call note e₀ args) (hsound : Sound e₀.nodes e₀.yield)
    (hnone : continuation? floor forHead' (ahead ps) = none)
    (hprec : e₀.Precedes forHead' (ahead ps)) (hf : s'.Faces style (expr level e₀ ps)) :
    Rereads style (Expr.map forget) (expression R' floor forHead') c' s' e₀ ps := by
  obtain ⟨first, u, n, ho, hx, hn⟩ := returns_expression.1 h
  have hfirst : Spine style R' c' s' level floor forHead' 0 first := fun hsound ps hprec hf =>
    have ⟨e', t', ho', hmap, ht⟩ := operand_rereads hstyle hR hc ho hsound hprec hf
    ⟨0, e', t', e', t', Nat.le_refl 0, ho', hmap, ht, fun _ _ _ hext => hext⟩
  have hcallee : ∀ note f args, first = .call note f args →
      Spine style R' c' s' level floor forHead' 0 f := by
    rintro note f args rfl
    cases ho
  obtain ⟨j, first', u', e', t', hj, ho', hmap, ht, hgo⟩ := extended_spine hstyle hR hc hin
    hx (operand_fits forHead hR.ended ho).2 hfirst hcallee he hsound ps hprec hf
  refine ⟨e', t', returns_expression.2 ⟨first', u', 0 + j, ho', hgo 0 _ _ (.stop ?_), ?_⟩, hmap, ht⟩
  · rwa [ht.kind]
  · have hb := hc.budget
    omega

end
end Parser
end ScriptTree
