import ScriptTree.Proofs.RereadExpressions

/-! # Statements read again

The printer ends with a semicolon each statement that a line break could end, so a statement stops
where it stopped whatever comes next; only an `else` would be taken by a condition without one. -/
namespace ScriptTree

open Piece Printer

/-- An expression that does not look like a statement begins with no token that only statements have. -/
theorem Expr.opensStatement_first : ∀ {e : Expr α}, (∀ x ∈ e.nodes, x.Fits) →
    e.leftmost.looksLikeStatement = false → Parser.opensStatement e.first = false
  | .binary _ _ l _, h, hl | .logical _ _ l _, h, hl | .assignment _ _ l _, h, hl
  | .member _ l _ true, h, hl | .member _ l _ false, h, hl | .call _ l _, h, hl =>
    opensStatement_first (e := l)
      (fun x hx => h x (List.mem_cons_of_mem _ (List.mem_append_left _ hx))) hl
  | .update _ _ l false, h, hl =>
    opensStatement_first (e := l) (fun x hx => h x (List.mem_cons_of_mem _ hx)) hl
  | .conditional _ l _ _, h, hl =>
    opensStatement_first (e := l) (fun x hx => h x (by simp [Expr.nodes, hx])) hl
  | .literal l, _, _ => by
    rw [first]
    cases l.value <;> rfl
  | .object _ _, _, hl | .function _ _ _ _, _, hl => nomatch hl
  | .identifier _, _, _ | .this _, _, _ | .array _ _, _, _ | .unary _ _ _, _, _
  | .update _ _ _ true, _, _ | .new _ _ _, _, _ | .sequence _ _, _, _ => rfl

/-- No line ends in front of an expression. -/
theorem Expr.breaks_pieces (e : Expr α) (level : Nat) (ps : List Piece) :
    breaks (expr level e ps) = false := by
  obtain ⟨text, rest, he, -⟩ := e.exists_pieces level ps
  rw [he]
  rfl

theorem identifier_of_map {e : Expr α} {i : Identifier Unit} (h : e.map forget = .identifier i) :
    ∃ i', e = .identifier i' ∧ i'.map forget = i := by
  cases e with
  | identifier i' => exact ⟨i', rfl, Expr.identifier.inj h⟩
  | _ => cases h

theorem Sound.identifier {i : Identifier α} (h : ∀ k ∈ i.yield, k.Spellable) :
    Sound (Expr.identifier i).nodes (Expr.identifier i).yield :=
  ⟨List.forall_mem_singleton.2 ⟨trivial, rfl⟩, h⟩

theorem Sound.for {note : α} {init : Option (ForInit α)} {test update : Option (Expr α)}
    {body : Stmt α} (h : Sound (Stmt.for note init test update body).nodes
      (Stmt.for note init test update body).yield) :
    Sound (ForInit.nodesOption init) (ForInit.yieldOption init) ∧
      Sound (Expr.nodesOption test) (Expr.yieldOption test) ∧
      Sound (Expr.nodesOption update) (Expr.yieldOption update) ∧ Sound body.nodes body.yield :=
  ⟨h.part (fun z hz => by simp [Stmt.nodes, hz]) fun k hk => by simp [Stmt.yield, hk],
    h.part (fun z hz => by simp [Stmt.nodes, hz]) fun k hk => by simp [Stmt.yield, hk],
    h.part (fun z hz => by simp [Stmt.nodes, hz]) fun k hk => by simp [Stmt.yield, hk],
    h.part (fun z hz => by simp [Stmt.nodes, hz]) fun k hk => by simp [Stmt.yield, hk]⟩

theorem Sound.forIn {note : α} {target : ForTarget α} {object : Expr α} {body : Stmt α}
    (h : Sound (Stmt.forIn note target object body).nodes (Stmt.forIn note target object body).yield) :
    Sound target.nodes target.yield ∧ Sound object.nodes object.yield ∧ Sound body.nodes body.yield :=
  ⟨h.part (fun z hz => by simp [Stmt.nodes, hz]) fun k hk => by simp [Stmt.yield, hk],
    h.part (fun z hz => by simp [Stmt.nodes, hz]) fun k hk => by simp [Stmt.yield, hk],
    h.part (fun z hz => by simp [Stmt.nodes, hz]) fun k hk => by simp [Stmt.yield, hk]⟩

namespace Parser
variable {style : Style} {R R' R'' : Readers} {c c' : Context} {s s' t : State} {level : Nat}
  {ps : List Piece} {forHead : Bool}

section
variable (hstyle : ∀ c ∈ style.indentation, Text.isBlank c = true)
include hstyle

theorem semicolon_ends (hs : (ahead ps).suits false = true) (hf : s'.Faces style (tok ";" ps)) :
    ∃ t', Ends s' t' ∧ t'.Faces style ps := by
  obtain ⟨hk, t', hm, ht⟩ := State.Faces.step hstyle hf (k := .semicolon) trivial rfl hs
  exact ⟨t', .semicolon hk hm, ht⟩

/-- From a keyword on to what stands on its line. -/
theorem word_moves {k : Keyword} (hs : (ahead ps).suits false = true) (hb : breaks ps = false)
    (hf : s'.Faces style (word k ps)) :
    s'.current.kind = .keyword k ∧ ∃ u, Moves false s' u ∧ u.Faces style ps ∧
      u.gap.any Text.isLineBreak = false := by
  obtain ⟨u, hm, hu, hgap⟩ := State.Faces.exists_moves hstyle hf hs
  exact ⟨hf.kind.trans (ahead_word k ps), u, hm, hu, hgap hb⟩

/-- What ends with a semicolon, and may be absent. -/
theorem trailing_rereads {f : α → β} {p : Parse α} {o : Option α} (hs : (ahead ps).suits false = true)
    (hnone : o = none → s'.Faces style (tok ";" ps))
    (hsome : ∀ a, o = some a → endsStatement s'.current.kind = false ∧
      s'.gap.any Text.isLineBreak = false ∧ Rereads style f p c' s' a (tok ";" ps)) :
    ∃ o' t', Trailing p c' s' o' t' ∧ o'.map f = o.map f ∧ t'.Faces style ps := by
  cases o with
  | none =>
    obtain ⟨t', hend, ht⟩ := semicolon_ends hstyle hs (hnone rfl)
    exact ⟨none, t', .absent hend, rfl, ht⟩
  | some a =>
    obtain ⟨hk, hg, a', u, hr, he, hu⟩ := hsome a rfl
    obtain ⟨t', hend, ht⟩ := semicolon_ends hstyle hs hu
    exact ⟨some a', t', .present hk hg hr hend, congrArg some he, ht⟩

variable (hR : Rereading style R R' R'') (hc : Lax c c')
include hR hc

/-! ## Parts -/

theorem condition_rereads {e : Expr Span} (h : Returns (condition R) c s e t)
    (hsound : Sound e.nodes e.yield) (hs : (ahead ps).suits false = true)
    (hf : s'.Faces style (tok "(" (expr level e (tok ")" ps)))) :
    Rereads style (Expr.map forget) (condition R') c' s' e ps := by
  obtain ⟨_, _, -, -, he, -, -⟩ := returns_condition.1 h
  have hparen : ahead (tok ")" ps) = .rightParen := ahead_tok (k := .rightParen) trivial rfl ps
  obtain ⟨hk, u, hm, hu⟩ := State.Faces.step hstyle hf (k := .leftParen) trivial rfl
    (TokenKind.suits_of_leads (hsound.leads level _))
  obtain ⟨e', v, hr, hmap, hv⟩ := closedComma_rereads hstyle hR hc he hsound unheaded
    (by rw [hparen]; rfl) (by rw [hparen]; nofun) hu
  obtain ⟨hk', t', hm', ht⟩ := State.Faces.step hstyle hv (k := .rightParen) trivial rfl hs
  exact ⟨e', t', returns_condition.2 ⟨u, v, hk, hm, hr, hk', hm'⟩, hmap, ht⟩

/-- The head of a statement that a keyword begins. -/
theorem header_rereads {k : Keyword} {e : Expr Span} (h : Returns (condition R) c s e t)
    (hsound : Sound e.nodes e.yield) (hs : (ahead ps).suits false = true)
    (hf : s'.Faces style (header k (expr level e) ps)) :
    s'.current.kind = .keyword k ∧ ∃ u, Moves false s' u ∧
      Rereads style (Expr.map forget) (condition R') c' u e ps := by
  have hf' : s'.Faces style
      (word k (Printer.space (tok "(" (expr level e (tok ")" (Printer.space ps)))))) := hf
  obtain ⟨hk, u, hm, hu⟩ := State.Faces.step hstyle hf' (k := .keyword k) trivial rfl (b := false)
    (by rw [ahead_space, ahead_tok (k := .leftParen) trivial rfl]; rfl)
  obtain ⟨e', t', hr, hmap, ht⟩ := condition_rereads hstyle hR hc h hsound
    (show (ahead (Printer.space ps)).suits false = true from hs) hu
  exact ⟨hk, u, hm, e', t', hr, hmap, ht⟩

omit hstyle in
theorem body_rereads {f f' : Scope → Scope} {x : Stmt Span}
    (h : Returns (inScope f R.statement) c s x t) (hsound : Sound x.nodes x.yield)
    (hs : (ahead ps).Follows)
    (helse : x.endsOpen = true → ahead ps ≠ .keyword .else)
    (hf : s'.Faces style (stmt level x ps)) :
    Rereads style (Stmt.map forget) (inScope f' R'.statement) c' s' x ps :=
  hR.statements (returns_inScope.1 h) hsound
    ⟨hc.labels, hc.budget⟩ hs helse hf

theorem argument_rereads {e : Option (Expr Span)} (h : Trailing (commaExpression R false) c s e t)
    (hsound : Sound (Expr.nodesOption e) (Expr.yieldOption e)) (hs : (ahead ps).suits false = true)
    (hgap : s'.gap.any Text.isLineBreak = false)
    (hf : s'.Faces style (spaced level e (tok ";" ps))) :
    ∃ e' t', Trailing (commaExpression R' false) c' s' e' t' ∧
      Expr.mapOption forget e' = Expr.mapOption forget e ∧ t'.Faces style ps := by
  have hsemi : ahead (tok ";" ps) = .semicolon := ahead_tok (k := .semicolon) trivial rfl ps
  obtain ⟨e', t', hr, he, ht⟩ := trailing_rereads hstyle (f := Expr.map forget)
    (p := commaExpression R' false) (o := e) hs (by rintro rfl; exact hf) (by
      rintro a rfl
      have hf' : s'.Faces style (expr level a (tok ";" ps)) := hf
      have hleads := Sound.leads hsound level (tok ";" ps)
      refine ⟨?_, hgap, ?_⟩
      · rw [hf'.kind]
        revert hleads
        cases ahead (expr level a (tok ";" ps)) <;> first | exact fun _ => rfl | exact nofun
      · cases h with
        | present _ _ he _ =>
          obtain ⟨a', u, hr, hmap, hu⟩ := closedComma_rereads hstyle hR hc
            (returns_commaExpression.1 he) hsound unheaded (by rw [hsemi]; rfl)
            (by rw [hsemi]; nofun) hf'
          exact ⟨a', u, returns_commaExpression.2 hr, hmap, hu⟩)
  exact ⟨e', t', hr, by rw [Expr.mapOption_eq, Expr.mapOption_eq, he], ht⟩

/-- An expression that is there unless a token stands in its place. -/
theorem unless_rereads {k : TokenKind} {close : String} {e : Option (Expr Span)}
    (h : Unless k (commaExpression R false) c s e t)
    (hsound : Sound (Expr.nodesOption e) (Expr.yieldOption e)) (hk : k.Spellable)
    (hclose : close.toList = k.spelling) (hcloses : k.closes = true) (hne : k ≠ .comma)
    (hf : s'.Faces style (spaced level e (tok close ps))) :
    ∃ e' t', Unless k (commaExpression R' false) c' s' e' t' ∧
      Expr.mapOption forget e' = Expr.mapOption forget e ∧ t'.Faces style (tok close ps) := by
  have hahead := ahead_tok hk hclose ps
  cases h with
  | absent _ => exact ⟨none, s', .absent (hf.kind.trans hahead), rfl, hf⟩
  | @present a _ _ ha =>
    have hf' : s'.Faces style (expr level a (tok close ps)) := hf
    obtain ⟨a', t', hr, hmap, ht⟩ := closedComma_rereads hstyle hR hc (returns_commaExpression.1 ha)
      hsound unheaded (by rwa [hahead]) (by rwa [hahead]) hf'
    refine ⟨some a', t', .present ?_ (returns_commaExpression.2 hr), congrArg some hmap, ht⟩
    rw [hf'.kind]
    rintro rfl
    rw [TokenKind.closes_of_leads (Sound.leads hsound level _)] at hcloses
    cases hcloses

omit hstyle hR hc in
theorem suits_spaced {k : TokenKind} {close : String} {e : Option (Expr Span)}
    (hsound : Sound (Expr.nodesOption e) (Expr.yieldOption e)) (hk : k.Spellable)
    (hclose : close.toList = k.spelling) (hcloses : k.closes = true) :
    (ahead (spaced level e (tok close ps))).suits false = true := by
  cases e with
  | none =>
    rw [spaced, Printer.nothing, id, ahead_tok hk hclose]
    exact TokenKind.suits_of_closes hcloses false
  | some e => exact TokenKind.suits_of_leads (Sound.leads hsound level (tok close ps))

omit hstyle hR hc in
theorem breaks_spaced {e : Option (Expr Span)} : breaks (spaced level e (tok ";" ps)) = false := by
  cases e with
  | none => rfl
  | some e => exact e.breaks_pieces level (tok ";" ps)

/-! ## Declarations -/

theorem declarator_rereads {x : Declarator Span} (h : Returns (declarator R forHead) c s x t)
    (hsound : Sound x.nodes x.yield) (hnone : continuation? 0 forHead (ahead ps) = none)
    (hprec : ∀ e, x.init = some e → e.Precedes forHead (ahead ps))
    (hassign : ahead ps ≠ .operator .assign) (hs : (ahead ps).suits true = true)
    (hf : s'.Faces style (Printer.declarator level x ps)) :
    Rereads style (Declarator.map forget) (declarator R' forHead) c' s' x ps := by
  obtain ⟨id, _, init, -, ha, rfl⟩ := returns_declarator.1 h
  cases ha with
  | absent _ =>
    obtain ⟨id', t', hi, he, ht⟩ := identifier_rereads hstyle (c := c') (hsound.2 _ List.mem_cons_self)
      hs hf
    refine ⟨_, t', returns_declarator.2 ⟨id', t', none, hi, .absent ?_, rfl⟩, ?_, ht⟩
    · rwa [ht.kind]
    · rw [Declarator.map, Declarator.map, he]
  | @present _ e _ _ _ he =>
    obtain ⟨hi, hy⟩ := List.forall_mem_append.1 hsound.2
    have he' : Sound e.nodes e.yield := ⟨hsound.1, (List.forall_mem_cons.1 hy).2⟩
    have hassign (ps : List Piece) : ahead (Printer.space (symbol .assign ps)) = .operator .assign :=
      ahead_symbol .assign ps
    have hf' : s'.Faces style
        (name id (Printer.space (symbol .assign (Printer.space (expr level e ps))))) := hf
    obtain ⟨id', u, hid, hmap, hu⟩ := identifier_rereads hstyle (c := c') (hi _ List.mem_cons_self)
      (by rw [hassign]; rfl) hf'
    obtain ⟨hk, v, hm, e', t', hr, hmap', ht⟩ := behind_rereads hstyle hR.expressions hc
      (o := .assign) he (.inl rfl) he' (fun h => h) hnone (hprec e rfl) (.inr rfl) hu
    refine ⟨_, t', returns_declarator.2 ⟨id', u, some e', hid, .present hk hm hr, rfl⟩, ?_, ht⟩
    rw [Declarator.map, Declarator.map, hmap, Expr.mapOption, Expr.mapOption, hmap']

/-- Names are declared up to a token that ends the last of them. -/
theorem declaration_rereads {d : Declaration Span} (h : Returns (declaration R forHead) c s d t)
    (hsound : Sound d.nodes d.yield) (hnone : continuation? 0 forHead (ahead ps) = none)
    (hprec : ∀ e ∈ d.inits, e.Precedes forHead (ahead ps))
    (hassign : ahead ps ≠ .operator .assign) (hcomma : ahead ps ≠ .comma)
    (hs : (ahead ps).suits true = true) (hf : s'.Faces style (Printer.declaration level d ps)) :
    s'.current.kind = .keyword .var ∧ ∃ u ds t', Moves false s' u ∧
      Returns (separated (declarator R' forHead)) c' u ds t' ∧
      ds.map (Declarator.map forget) = d.declarators.map (Declarator.map forget) ∧
      t'.Faces style ps := by
  obtain ⟨_, ds, _, -, hds, -, rfl⟩ := returns_declaration.1 h
  obtain ⟨x, _, xs, rfl, -, -, hn⟩ := returns_separated.1 hds
  have hread : ∀ y ∈ x :: xs, ∃ s t, Returns (declarator R forHead) c s y t :=
    separated_forall_mem (Q := fun x => ∃ s t, Returns (declarator R forHead) c s x t)
      (fun s x t h => ⟨s, t, h⟩) hds
  have hparts : ∀ x' ∈ x :: xs, Sound x'.nodes x'.yield := fun x' hx' => by
    have hall := hsound
    rw [Declaration.nodes, Declaration.yield, Declarator.nodesList_eq, Declarator.yieldList_eq] at hall
    exact hall.part (fun e he => List.mem_flatMap.2 ⟨x', hx', he⟩)
      fun k hk => List.mem_flatMap.2 ⟨x', hx', hk⟩
  have hfirst : ∀ x' ∈ x :: xs, ∀ ps, (ahead (Printer.declarator level x' ps)).suits false = true := by
    rintro ⟨note, id, _ | e⟩ hx' ps
    · have hi : (TokenKind.identifier id.name).Spellable := (hparts _ hx').2 _ List.mem_cons_self
      rw [Printer.declarator, name, ahead_tok hi rfl]
      rfl
    · have hi : (TokenKind.identifier id.name).Spellable := (hparts _ hx').2 _ List.mem_cons_self
      rw [Printer.declarator, Function.comp_apply, name, ahead_tok hi rfl]
      rfl
  have hf' : s'.Faces style (word .var (commas ((x :: xs).map (Printer.declarator level)) ps)) := by
    rw [← declarators_eq_map]
    exact hf
  obtain ⟨hk, u, hm, hu⟩ := State.Faces.step hstyle hf' (k := .keyword .var) trivial rfl (b := false)
    (by cases xs <;> exact hfirst x List.mem_cons_self _)
  obtain ⟨x', v, xs', t', hx, hxs, he, hes, ht⟩ := separated_rereads hstyle (c := c')
    (f := Declarator.map forget) (p := declarator R' forHead) (w := Printer.declarator level)
    (P := fun k => k = .comma ∨ k = ahead ps) (.inl rfl) (.inr rfl) hcomma
    (fun x' hx' ps' s hgood hf => by
      obtain ⟨s, t, h⟩ := hread x' hx'
      -- in front of a comma the value of a name ends as it ended
      have hbefore : continuation? 0 forHead (ahead ps') = none ∧
          (∀ e, x'.init = some e → e.Precedes forHead (ahead ps')) ∧
          ahead ps' ≠ .operator .assign ∧ (ahead ps').suits true = true := by
        rcases hgood with hgood | hgood
        · rw [hgood]
          refine ⟨rfl, fun e he => ⟨?_, rfl⟩, by rintro ⟨⟩, rfl⟩
          exact (hprec e (List.mem_filterMap.2 ⟨x', hx', he⟩)).passes.closer rfl forHead
        · rw [hgood]
          exact ⟨hnone, fun e he => hprec e (List.mem_filterMap.2 ⟨x', hx', he⟩), hassign, hs⟩
      exact declarator_rereads hstyle hR hc h (hparts x' hx') hbefore.1 hbefore.2.1 hbefore.2.2.1
        hbefore.2.2.2 hf)
    (fun x' hx' => hfirst x' (List.mem_cons_of_mem _ hx')) hu
  have hlength : xs'.length < c'.budget := by
    rw [← List.length_map (Declarator.map forget), hes, List.length_map]
    exact Nat.lt_of_lt_of_le hn hc.budget
  refine ⟨hk, u, x' :: xs', t', hm, returns_separated.2 ⟨x', v, xs', rfl, hx, hxs, hlength⟩, ?_, ht⟩
  rw [Declaration.declarators, List.map_cons, List.map_cons, he, hes]

omit hstyle hc in
/-- The values of a declaration may stand in front of what ends everything. -/
theorem inits_precede {d : Declaration Span} (h : Returns (declaration R forHead) c s d t)
    {k : TokenKind} (hk : k.closes = true) : ∀ e ∈ d.inits, e.Precedes forHead k := by
  obtain ⟨_, ds, _, -, hds, -, rfl⟩ := returns_declaration.1 h
  have declarator : Every (Returns (declarator R forHead) c)
      fun x => ∀ e, x.init = some e → e.Precedes forHead k := by
    intro s x t h e he
    obtain ⟨id, s₁, init, -, ha, rfl⟩ := returns_declarator.1 h
    cases ha with
    | absent _ => cases he
    | present _ _ hx =>
      obtain rfl := Option.some.inj he
      exact ⟨Expr.Passes.closer (hR.ended hx).1 (TokenKind.priority?_of_closes hk) _,
        TokenKind.suits_of_closes hk _⟩
  intro e he
  obtain ⟨x, hx, he⟩ := List.mem_filterMap.1 he
  exact separated_forall_mem declarator hds x hx e he

/-! ## Cases and handlers -/

omit hstyle hR hc in
/-- Behind a case stands another one, or else the brace that closes all of them. -/
theorem endsCase_switchCases {xs : List (SwitchCase Span)} (hlast : ahead ps = .rightBrace) :
    endsCase (ahead (Printer.switchCases level xs ps)) = true := by
  match xs with
  | [] => exact hlast ▸ rfl
  | .mk _ none ss :: xs =>
    rw [Printer.switchCases, Function.comp_apply, ahead_newline, Function.comp_apply,
      Printer.switchCase, Function.comp_apply, ahead_word]
    rfl
  | .mk _ (some e) ss :: xs =>
    rw [Printer.switchCases, Function.comp_apply, ahead_newline, Function.comp_apply,
      Printer.switchCase, Function.comp_apply, ahead_word]
    rfl

omit hstyle hR hc in
theorem suits_of_endsCase {k : TokenKind} (h : endsCase k = true) (flag : Bool) :
    k.suits flag = true := by
  rcases k.slash_cases with ⟨_, _, rfl⟩ | rfl | rfl | hall
  · cases h
  · cases h
  · cases h
  · exact hall flag

theorem switchCase_rereads {x : SwitchCase Span} (h : Returns (switchCase R) c s x t)
    (hsound : Sound x.nodes x.yield) (hlast : endsCase (ahead ps) = true)
    (hf : s'.Faces style (Printer.switchCase level x ps)) :
    Rereads style (SwitchCase.map forget) (switchCase R') c' s' x ps := by
  obtain ⟨test, _, _, body, hh, -, -, hi, hn, rfl⟩ := returns_switchCase.1 h
  obtain ⟨htn, hbn⟩ := List.forall_mem_append.1 hsound.1
  obtain ⟨hty, hby⟩ := List.forall_mem_append.1 hsound.2
  have hread : ∀ x ∈ body, ∃ s t, Returns R.statement c s x t :=
    Items.forall_mem (Q := fun x => ∃ s t, Returns R.statement c s x t) (fun s x t h => ⟨s, t, h⟩) hi
  have hcolon (qs : List Piece) : ahead (tok ":" qs) = .colon := ahead_tok (k := .colon) trivial rfl qs
  -- what a case has behind its colon
  have rest {s' u : State} {test' : Option (Expr Span)} (hhead : CaseHead R' c' s' test' u)
      (hmap : Expr.mapOption forget test' = Expr.mapOption forget test)
      (hu : u.Faces style (tok ":" (lines (level + 1) body ps))) :
      Rereads style (SwitchCase.map forget) (switchCase R') c' s'
        (.mk (t.since s.current.span.start) test body) ps := by
    have hstart : (ahead (lines (level + 1) body ps)).suits false = true := by
      cases body with
      | nil => exact suits_of_endsCase hlast false
      | cons y ys =>
        have hy : Sound y.nodes y.yield :=
          ⟨(List.forall_mem_append.1 hbn).1, (List.forall_mem_append.1 hby).1⟩
        exact TokenKind.suits_of_begins (hy.begins (level + 1) (lines (level + 1) ys ps))
    obtain ⟨hk, v, hm, hv⟩ := State.Faces.step hstyle hu (k := .colon) trivial rfl hstart
    obtain ⟨body', t', hi', hes, ht⟩ := lines_rereads hR.statements hc endsCase
      (fun k hk => by
        cases k with
        | keyword word => cases word <;> first | rfl | cases hk
        | rightBrace => cases hk
        | _ => rfl)
      hlast ⟨suits_of_endsCase hlast false, by rintro he; rw [he] at hlast; cases hlast⟩
      (by rintro he; rw [he] at hlast; cases hlast) hread ⟨hbn, hby⟩ hv
    have hlength : body'.length < c'.budget := by
      rw [← List.length_map (Stmt.map forget), hes, List.length_map]
      exact Nat.lt_of_lt_of_le hn hc.budget
    refine ⟨_, t', returns_switchCase.2 ⟨test', u, v, body', hhead, hk, hm, hi', hlength, rfl⟩, ?_, ht⟩
    rw [SwitchCase.map, SwitchCase.map, hmap, Stmt.mapList_eq, Stmt.mapList_eq, hes]
  cases hh with
  | default _ _ =>
    obtain ⟨hk, u, hm, hu⟩ := State.Faces.step hstyle hf (k := .keyword .default) trivial rfl
      (b := false) (by rw [Function.comp_apply, hcolon]; rfl)
    exact rest (.default hk hm) rfl hu
  | @case e _ _ _ _ he =>
    have hsound' : Sound e.nodes e.yield := ⟨htn, hty⟩
    have hf' : s'.Faces style
        (word .case (Printer.space (expr level e (tok ":" (lines (level + 1) body ps))))) := hf
    obtain ⟨hk, u, hm, hu⟩ := State.Faces.step hstyle hf' (k := .keyword .case) trivial rfl (b := false)
      (TokenKind.suits_of_leads (hsound'.leads level _))
    obtain ⟨e', v, hr, hmap, hv⟩ := closedComma_rereads hstyle hR hc he hsound' unheaded
      (by rw [hcolon]; rfl) (by rw [hcolon]; nofun) hu
    exact rest (.case hk hm hr) (congrArg some hmap) hv

theorem cases_rereads {b : Bool} {xs : List (SwitchCase Span)} (h : Cases R c b s xs t)
    (hsound : Sound (SwitchCase.nodesList xs) (SwitchCase.yieldList xs))
    (hlast : ahead ps = .rightBrace) (hf : s'.Faces style (Printer.switchCases level xs ps)) :
    ∃ xs' t', Cases R' c' b s' xs' t' ∧
      xs'.map (SwitchCase.map forget) = xs.map (SwitchCase.map forget) ∧ t'.Faces style ps := by
  induction h generalizing s' with
  | done _ => exact ⟨[], s', .done (hf.kind.trans hlast), rfl, hf⟩
  | @more b s x t xs u hk hx hone _ ih =>
    obtain ⟨hn, hn'⟩ := List.forall_mem_append.1 hsound.1
    obtain ⟨hy, hy'⟩ := List.forall_mem_append.1 hsound.2
    have hf' : s'.Faces style (Printer.switchCase level x (Printer.switchCases level xs ps)) := hf
    have hkind : s'.current.kind ≠ .rightBrace := by
      rw [hf'.kind]
      match x with
      | .mk _ none ss => rw [Printer.switchCase, Function.comp_apply, ahead_word]; rintro ⟨⟩
      | .mk _ (some e) ss => rw [Printer.switchCase, Function.comp_apply, ahead_word]; rintro ⟨⟩
    obtain ⟨x', v, hx', he, hv⟩ := switchCase_rereads hstyle hR hc hx ⟨hn, hy⟩
      (endsCase_switchCases hlast) hf'
    obtain ⟨xs', t', hxs', hes, ht⟩ := ih ⟨hn', hy'⟩ hv
    have hdefault := isDefault_eq_of_map he
    refine ⟨x' :: xs', t', .more hkind hx' ?_ ?_, ?_, ht⟩
    · rwa [hdefault]
    · rwa [hdefault]
    · rw [List.map_cons, List.map_cons, he, hes]

theorem catchClause_rereads {x : CatchClause Span} (h : Returns (catchClause R) c s x t)
    (hsound : Sound x.nodes x.yield) (hs : (ahead ps).suits false = true)
    (hf : s'.Faces style (Printer.catchClause level x ps)) :
    s'.current.kind = .keyword .catch ∧
      Rereads style (CatchClause.map forget) (catchClause R') c' s' x ps := by
  obtain ⟨_, _, param, _, _, body, -, -, -, -, -, -, hb, rfl⟩ := returns_catchClause.1 h
  obtain ⟨hpy, hby⟩ := List.forall_mem_append.1 hsound.2
  have hparam : (TokenKind.identifier param.name).Spellable := hpy _ List.mem_cons_self
  have hf' : s'.Faces style (word .catch (Printer.space (tok "(" (name param (tok ")"
    (Printer.space (Printer.block level body ps))))))) := hf
  obtain ⟨hk, u, hm, hu⟩ := State.Faces.step hstyle hf' (k := .keyword .catch) trivial rfl
    (b := false) (by rw [ahead_space, ahead_tok (k := .leftParen) trivial rfl]; rfl)
  obtain ⟨hk₁, u₁, hm₁, hu₁⟩ := State.Faces.step hstyle hu (k := .leftParen) trivial rfl
    (b := false) (by rw [name, ahead_tok hparam rfl]; rfl)
  obtain ⟨param', u₂, hp, hmap, hu₂⟩ := identifier_rereads hstyle (c := c') hparam
    (by rw [ahead_tok (k := .rightParen) trivial rfl]; rfl) hu₁
  obtain ⟨hk₃, u₃, hm₃, hu₃⟩ := State.Faces.step hstyle hu₂ (k := .rightParen) trivial rfl
    (b := false) (by rw [ahead_space, ahead_block]; rfl)
  obtain ⟨body', t', hb', hmap', ht⟩ := block_rereads hstyle hR.statements hc hb ⟨hsound.1, hby⟩ hs hu₃
  refine ⟨hk, _, t', returns_catchClause.2 ⟨u, u₁, param', u₂, u₃, body', hm, hk₁, hm₁, hp, hk₃, hm₃,
    hb', rfl⟩, ?_, ht⟩
  rw [CatchClause.map, CatchClause.map, hmap, hmap']

omit hstyle hR hc in
theorem suits_finalizer {f : Option (Block Span)} (hs : (ahead ps).suits false = true) :
    (ahead (Printer.finalizer level f ps)).suits false = true := by
  cases f with
  | none => exact hs
  | some b =>
    rw [Printer.finalizer, Function.comp_apply, ahead_space, Function.comp_apply, ahead_word]
    rfl

theorem finalizer_rereads {f : Option (Block Span)}
    (h : Announced (.keyword .finally) (block R) c s f t)
    (hsound : Sound (Block.nodesOption f) (Block.yieldOption f)) (hs : (ahead ps).Follows)
    (hf : s'.Faces style (Printer.finalizer level f ps)) :
    ∃ f' t', Announced (.keyword .finally) (block R') c' s' f' t' ∧
      Block.mapOption forget f' = Block.mapOption forget f ∧ t'.Faces style ps := by
  cases h with
  | absent _ => exact ⟨none, s', .absent (hf.kind ▸ hs.noFinally), rfl, hf⟩
  | @present _ b _ _ _ hb =>
    have hf' : s'.Faces style (word .finally (Printer.space (Printer.block level b ps))) := hf
    obtain ⟨hk, u, hm, hu⟩ := State.Faces.step hstyle hf' (k := .keyword .finally) trivial rfl
      (b := false) (by rw [ahead_space, ahead_block]; rfl)
    obtain ⟨b', t', hb', hmap, ht⟩ := block_rereads hstyle hR.statements hc hb hsound hs.suits hu
    exact ⟨some b', t', .present hk hm hb', congrArg some hmap, ht⟩

/-! ## Loops -/

theorem forTail_rereads {test update : Option (Expr Span)} {body : Stmt Span}
    (h : ForTail R c s test update body t)
    (htest : Sound (Expr.nodesOption test) (Expr.yieldOption test))
    (hupdate : Sound (Expr.nodesOption update) (Expr.yieldOption update))
    (hbody : Sound body.nodes body.yield) (hs : (ahead ps).Follows)
    (helse : body.endsOpen = true → ahead ps ≠ .keyword .else)
    (hf : s'.Faces style (tok ";" (spaced level test (tok ";" (spaced level update (tok ")"
      (Printer.space (stmt level body ps)))))))) :
    ∃ test' update' body' t', ForTail R' c' s' test' update' body' t' ∧
      Expr.mapOption forget test' = Expr.mapOption forget test ∧
      Expr.mapOption forget update' = Expr.mapOption forget update ∧
      body'.map forget = body.map forget ∧ t'.Faces style ps := by
  obtain ⟨-, -, ht, -, -, hu, -, -, hb⟩ := h
  obtain ⟨hk, u, hm, hu₀⟩ := State.Faces.step hstyle hf (k := .semicolon) trivial rfl
    (suits_spaced (k := .semicolon) htest trivial rfl rfl)
  obtain ⟨test', u₁, hte, hmap, hu₁⟩ := unless_rereads hstyle hR hc ht htest trivial rfl rfl
    nofun hu₀
  obtain ⟨hk₂, u₂, hm₂, hu₂⟩ := State.Faces.step hstyle hu₁ (k := .semicolon) trivial rfl
    (suits_spaced (k := .rightParen) hupdate trivial rfl rfl)
  obtain ⟨update', u₃, hup, hmap', hu₃⟩ := unless_rereads hstyle hR hc hu hupdate trivial rfl rfl
    nofun hu₂
  obtain ⟨hk₄, u₄, hm₄, hu₄⟩ := State.Faces.step hstyle hu₃ (k := .rightParen) trivial rfl
    (TokenKind.suits_of_begins (hbody.begins level ps))
  obtain ⟨body', t', hb', hmapb, ht'⟩ := body_rereads hR hc hb hbody hs helse hu₄
  exact ⟨test', update', body', t', ⟨hk, hm, hte, hk₂, hm₂, hup, hk₄, hm₄, hb'⟩, hmap, hmap', hmapb, ht'⟩

theorem forInTail_rereads {object : Expr Span} {body : Stmt Span}
    (h : ForInTail R c s object body t) (hobject : Sound object.nodes object.yield)
    (hbody : Sound body.nodes body.yield) (hs : (ahead ps).Follows)
    (helse : body.endsOpen = true → ahead ps ≠ .keyword .else)
    (hf : s'.Faces style (symbol .in (Printer.space (expr level object (tok ")"
      (Printer.space (stmt level body ps))))))) :
    ∃ object' body' t', ForInTail R' c' s' object' body' t' ∧
      object'.map forget = object.map forget ∧ body'.map forget = body.map forget ∧
      t'.Faces style ps := by
  obtain ⟨-, -, ho, -, -, hb⟩ := h
  have hparen : ∀ qs, ahead (tok ")" qs) = .rightParen := ahead_tok (k := .rightParen) trivial rfl
  obtain ⟨hk, u, hm, hu⟩ := State.Faces.step hstyle hf (k := .operator .in) trivial rfl (b := false)
    (TokenKind.suits_of_leads (hobject.leads level _))
  obtain ⟨object', u₁, ho', hmap, hu₁⟩ := closedComma_rereads hstyle hR hc ho hobject
    unheaded (by rw [hparen]; rfl) (by rw [hparen]; nofun) hu
  obtain ⟨hk₂, u₂, hm₂, hu₂⟩ := State.Faces.step hstyle hu₁ (k := .rightParen) trivial rfl
    (TokenKind.suits_of_begins (hbody.begins level ps))
  obtain ⟨body', t', hb', hmap', ht⟩ := body_rereads hR hc hb hbody hs helse hu₂
  exact ⟨object', body', t', ⟨hk, hm, ho', hk₂, hm₂, hb'⟩, hmap, hmap', ht⟩

omit hstyle hc in
/-- In front of what a loop goes over, the value of the name that it binds ends as it ended. -/
theorem bound_precedes {d : Declaration Span} (h : Returns (declaration R true) c s d t)
    (hone : bindsOne (.declaration d) = true) (hk : t.current.kind = .operator .in) :
    ∀ e ∈ d.inits, e.Precedes true (.operator .in) := by
  obtain ⟨_, ds, _, -, hds, hend, rfl⟩ := returns_declaration.1 h
  obtain ⟨-, rfl⟩ := hend.resolve_right (fun h => nomatch h.1)
  obtain ⟨x, _, xs, rfl, hx, hxs, -⟩ := returns_separated.1 hds
  cases xs with
  | cons _ _ => cases hone
  | nil =>
    cases hxs
    obtain ⟨id, _, init, -, ha, rfl⟩ := returns_declarator.1 hx
    intro e he
    cases ha with
    | absent _ => cases he
    | present _ _ he' =>
      obtain rfl := List.mem_singleton.1 he
      refine ⟨?_, rfl⟩
      rw [← hk]
      exact (hR.ended he').1

theorem headDeclaration_rereads {d : Declaration Span} (h : Returns (declaration R true) c s d t)
    (hsound : Sound d.nodes d.yield) (hnone : continuation? 0 true (ahead ps) = none)
    (hprec : ∀ e ∈ d.inits, e.Precedes true (ahead ps))
    (hassign : ahead ps ≠ .operator .assign) (hcomma : ahead ps ≠ .comma)
    (hs : (ahead ps).suits true = true) (hf : s'.Faces style (Printer.declaration level d ps)) :
    s'.current.kind = .keyword .var ∧
      Rereads style (Declaration.map forget) (declaration R' true) c' s' d ps := by
  obtain ⟨hk, u, ds, t', hm, hds, hmap, ht⟩ := declaration_rereads hstyle hR hc h hsound hnone hprec
    hassign hcomma hs hf
  refine ⟨hk, _, t', returns_declaration.2 ⟨u, ds, t', hm, hds, .inl ⟨rfl, rfl⟩, rfl⟩, ?_, ht⟩
  obtain ⟨note, ds₀⟩ := d
  rw [Declaration.map, Declaration.map, Declarator.mapList_eq, Declarator.mapList_eq, hmap]
  rfl

/-- What stands in the parentheses of a loop and behind them. -/
theorem forForm_rereads {start : Nat} (start' level : Nat) {x : Stmt Span}
    (h : ForForm R c start s x t)
    (hsound : Sound x.nodes x.yield) (hs : (ahead ps).Follows)
    (helse : x.endsOpen = true → ahead ps ≠ .keyword .else) :
    ∃ qs, stmt level x ps = word .for (Printer.space (tok "(" qs)) ∧
      (ahead qs).suits false = true ∧
      ∀ s', s'.Faces style qs → ∃ x' t', ForForm R' c' start' s' x' t' ∧
        x'.map forget = x.map forget ∧ t'.Faces style ps := by
  have hsemi : ∀ qs, ahead (tok ";" qs) = .semicolon := ahead_tok (k := .semicolon) trivial rfl
  have hin : ∀ qs, ahead (Printer.space (symbol .in qs)) = .operator .in := ahead_symbol .in
  cases h with
  | @counted d _ test update body _ hk hd ht =>
    obtain ⟨hinit, htest, hupdate, hbody⟩ := hsound.for
    refine ⟨Printer.declaration level d (tok ";" (spaced level test (tok ";" (spaced level update
      (tok ")" (Printer.space (stmt level body ps))))))), rfl, ?_, fun s' hf => ?_⟩
    · obtain ⟨note, ds⟩ := d
      exact (ahead_word .var _).symm ▸ rfl
    · obtain ⟨hk, d', u, hdr, hmap, hu⟩ := headDeclaration_rereads hstyle hR hc hd hinit
        (by rw [hsemi]; rfl) (by rw [hsemi]; exact inits_precede hR hd rfl) (by rw [hsemi]; nofun)
        (by rw [hsemi]; nofun) (by rw [hsemi]; rfl) hf
      obtain ⟨test', update', body', t', ht', hmt, hmu, hmb, hft⟩ := forTail_rereads hstyle hR hc ht
        htest hupdate hbody hs helse hu
      refine ⟨_, t', .counted hk hdr ht', ?_, hft⟩
      rw [Stmt.map, Stmt.map, hmt, hmu, hmb, ForInit.mapOption, ForInit.mapOption, ForInit.map,
        ForInit.map, hmap]
  | @bound d _ object body _ hk hd hone ht =>
    obtain ⟨htarget, hobject, hbody⟩ := hsound.forIn
    refine ⟨Printer.declaration level d (Printer.space (symbol .in (Printer.space (expr level object
      (tok ")" (Printer.space (stmt level body ps))))))), rfl, ?_, fun s' hf => ?_⟩
    · obtain ⟨note, ds⟩ := d
      exact (ahead_word .var _).symm ▸ rfl
    · obtain ⟨hk, d', u, hdr, hmap, hu⟩ := headDeclaration_rereads hstyle hR hc hd htarget
        (by rw [hin]; rfl) (by rw [hin]; exact bound_precedes hR hd hone ht.kind) (by rw [hin]; nofun)
        (by rw [hin]; nofun) (by rw [hin]; rfl) hf
      obtain ⟨object', body', t', ht', hmo, hmb, hft⟩ := forInTail_rereads hstyle hR hc ht hobject
        hbody hs helse hu
      have hone' : bindsOne (.declaration d') = true := by
        rw [← bindsOne_map forget, ForTarget.map, hmap, ← ForTarget.map, bindsOne_map, hone]
      refine ⟨_, t', .bound hk hdr hone' ht', ?_, hft⟩
      rw [Stmt.map, Stmt.map, hmo, hmb, ForTarget.map, ForTarget.map, hmap]
  | @bare test update body _ ht =>
    obtain ⟨-, htest, hupdate, hbody⟩ := hsound.for
    refine ⟨tok ";" (spaced level test (tok ";" (spaced level update (tok ")"
      (Printer.space (stmt level body ps)))))), rfl, by rw [hsemi]; rfl, fun s' hf => ?_⟩
    obtain ⟨test', update', body', t', ht', hmt, hmu, hmb, hft⟩ := forTail_rereads hstyle hR hc ht
      htest hupdate hbody hs helse hf
    refine ⟨_, t', .bare ht', ?_, hft⟩
    rw [Stmt.map, Stmt.map, hmt, hmu, hmb]
  | @named i _ object body _ hvar hne he ht =>
    obtain ⟨htarget, hobject, hbody⟩ := hsound.forIn
    have hi : (TokenKind.identifier i.name).Spellable := htarget.2 _ List.mem_cons_self
    have hname : ∀ qs, ahead (name i qs) = .identifier i.name := ahead_tok hi rfl
    refine ⟨name i (Printer.space (symbol .in (Printer.space (expr level object (tok ")"
      (Printer.space (stmt level body ps))))))), rfl, by rw [hname]; rfl, fun s' hf => ?_⟩
    obtain ⟨e', u, he', hmap, hu⟩ := comma_rereads hstyle hR hc he (.identifier htarget.2)
      (fun h : true = true => h) (by rw [hin]; rfl) (by rw [hin]; exact ⟨trivial, rfl⟩)
      (by rw [hin]; nofun) (show s'.Faces style (expr level (.identifier i) _) from hf)
    obtain ⟨i', rfl, hmapi⟩ := identifier_of_map hmap
    obtain ⟨object', body', t', ht', hmo, hmb, hft⟩ := forInTail_rereads hstyle hR hc ht hobject
      hbody hs helse hu
    have hkind : s'.current.kind = .identifier i.name := hf.kind.trans (hname _)
    refine ⟨_, t', .named (by rw [hkind]; nofun) (by rw [hkind]; nofun) he' ht', ?_, hft⟩
    rw [Stmt.map, Stmt.map, hmo, hmb, ForTarget.map, ForTarget.map, hmapi]
  | @started e _ test update body _ hvar hne he ht =>
    obtain ⟨hinit, htest, hupdate, hbody⟩ := hsound.for
    have hleads := Sound.leads hinit level (tok ";" (spaced level test (tok ";" (spaced level update
      (tok ")" (Printer.space (stmt level body ps)))))))
    refine ⟨expr level e (tok ";" (spaced level test (tok ";" (spaced level update (tok ")"
      (Printer.space (stmt level body ps))))))), rfl, TokenKind.suits_of_leads hleads,
      fun s' hf => ?_⟩
    obtain ⟨e', u, he', hmap, hu⟩ := closedComma_rereads hstyle hR hc he hinit
        (fun h : true = true => h) (by rw [hsemi]; rfl) (by rw [hsemi]; nofun) hf
    obtain ⟨test', update', body', t', ht', hmt, hmu, hmb, hft⟩ := forTail_rereads hstyle hR hc ht
      htest hupdate hbody hs helse hu
    rw [← hf.kind] at hleads
    refine ⟨_, t', .started ?_ ?_ he' ht', ?_, hft⟩
    · intro hk
      rw [hk] at hleads
      cases hleads
    · intro hk
      rw [hk] at hleads
      cases hleads
    · rw [Stmt.map, Stmt.map, hmt, hmu, hmb, ForInit.mapOption, ForInit.mapOption, ForInit.map,
        ForInit.map, hmap]

/-! ## Statements -/

/-- A statement is read as one that differs in its notes only, up to where the pieces go on. -/
def FormRereads (style : Style) (R : Readers) (c : Context) (stacked : Nat) (s : State) (x : Stmt Span)
    (ps : List Piece) : Prop :=
  ∃ x' t, StatementForm R c stacked s x' t ∧ x'.map forget = x.map forget ∧ t.Faces style ps

theorem labeled_rereads {stacked : Nat} (stacked' : Nat) {note : Span} {i : Identifier Span}
    {body : Stmt Span} {s₁ s₂ : State} (he : CommaForm R c false s (.identifier i) s₁)
    (hb : Returns R.statement
      { c with scope := c.scope.label stacked i.name (targetAt s₂.current.kind) } s₂ body t)
    (hsound : Sound (Stmt.labeled note i body).nodes (Stmt.labeled note i body).yield)
    (hs : (ahead ps).Follows) (helse : body.endsOpen = true → ahead ps ≠ .keyword .else)
    (hf : s'.Faces style (stmt level (.labeled note i body) ps)) :
    FormRereads style R' c' stacked' s' (Stmt.labeled note i body) ps := by
  obtain ⟨hy, hby⟩ := List.forall_mem_append.1 hsound.2
  have hbody : Sound body.nodes body.yield := ⟨hsound.1, hby⟩
  have hi : (TokenKind.identifier i.name).Spellable := hy _ List.mem_cons_self
  have hcolon : ∀ qs, ahead (tok ":" qs) = .colon := ahead_tok (k := .colon) trivial rfl
  have hf' : s'.Faces style (name i (tok ":" (Printer.space (stmt level body ps)))) := hf
  obtain ⟨e', u, he', hmap, hu⟩ := closedComma_rereads hstyle hR hc he (.identifier hy)
    unheaded (by rw [hcolon]; rfl) (by rw [hcolon]; rintro ⟨⟩)
    (show s'.Faces style (expr level (.identifier i) _) from hf')
  obtain ⟨i', rfl, hmapi⟩ := identifier_of_map hmap
  obtain ⟨hk, v, hm', hv⟩ := State.Faces.step hstyle hu (k := .colon) trivial rfl (b := false)
    (TokenKind.suits_of_begins (hbody.begins level ps))
  have hlabeled : Lax { c with scope := c.scope.label stacked i.name (targetAt s₂.current.kind) }
      { c' with scope := c'.scope.label stacked' i'.name (targetAt v.current.kind) } :=
    ⟨hc.labels, hc.budget⟩
  obtain ⟨body', t', hb', hmapb, ht⟩ := hR.statements hb hbody hlabeled hs helse hv
  refine ⟨_, t', .labeled ?_ he' hk hm' (fun hcheck => ?_) hb', ?_, ht⟩
  · rw [hf'.kind, name, ahead_tok hi rfl]
    rfl
  · rw [hc.labels] at hcheck
    cases hcheck
  · rw [Stmt.map, Stmt.map, hmapi, hmapb]

/-- A condition without an `else` is read again as one, since no `else` follows it. -/
theorem if_rereads (stacked' : Nat) {note : Span} {test : Expr Span} {y : Stmt Span}
    {z : Option (Stmt Span)} {s₁ s₂ s₃ : State} (htest : Returns (condition R) c s₁ test s₂)
    (hy : Returns R.statement c s₂ y s₃) (hz : Announced (.keyword .else) R.statement c s₃ z t)
    (hshape : (Stmt.if note test y z).Shapely)
    (hsound : Sound (Stmt.if note test y z).nodes (Stmt.if note test y z).yield)
    (hs : (ahead ps).Follows)
    (helse : (Stmt.if note test y z).endsOpen = true → ahead ps ≠ .keyword .else)
    (hf : s'.Faces style (stmt level (.if note test y z) ps)) :
    FormRereads style R' c' stacked' s' (Stmt.if note test y z) ps := by
  obtain ⟨hn, hzn⟩ := List.forall_mem_append.1 hsound.1
  obtain ⟨htn, hyn⟩ := List.forall_mem_append.1 hn
  obtain ⟨hys, hzy⟩ := List.forall_mem_append.1 hsound.2
  obtain ⟨hty, hyy⟩ := List.forall_mem_append.1 hys
  have hys : Sound y.nodes y.yield := ⟨hyn, hyy⟩
  have hf' : s'.Faces style (header .if (expr level test) (stmt level y (alternate level z ps))) := hf
  obtain ⟨hk', u, hm', test', v, ht', hmt, hv⟩ := header_rereads hstyle hR hc htest ⟨htn, hty⟩
    (TokenKind.suits_of_begins (hys.begins level _)) hf'
  cases hz with
  | absent hne =>
    obtain ⟨y', t', hy', hmy, ht⟩ := hR.statements hy hys hc hs (fun _ => helse rfl) hv
    refine ⟨_, t', .if hk' hm' ht' hy' (.absent (ht.kind ▸ helse rfl)), ?_, ht⟩
    rw [Stmt.map, Stmt.map, hmt, hmy]
  | @present _ z _ hk hm hz =>
    have hzs : Sound z.nodes z.yield := ⟨hzn, hzy⟩
    have hword : ahead (alternate level (some z) ps) = .keyword .else := by
      rw [alternate, Function.comp_apply, ahead_space, Function.comp_apply, ahead_word]
    obtain ⟨y', w, hy', hmy, hw⟩ := hR.statements hy hys hc (by rw [hword]; exact ⟨rfl, by rintro ⟨⟩⟩)
      (fun ho => Bool.noConfusion (ho.symm.trans hshape)) hv
    have hw' : w.Faces style (word .else (Printer.space (stmt level z ps))) := hw
    obtain ⟨hk₂, w₂, hm₂, hw₂⟩ := State.Faces.step hstyle hw' (k := .keyword .else) trivial rfl
      (b := false) (TokenKind.suits_of_begins (hzs.begins level ps))
    obtain ⟨z', t', hz', hmz, ht⟩ := hR.statements hz hzs hc hs helse hw₂
    refine ⟨_, t', .if hk' hm' ht' hy' (.present hk₂ hm₂ hz'), ?_, ht⟩
    rw [Stmt.map, Stmt.map, hmt, hmy, Stmt.mapOption, Stmt.mapOption, hmz]

omit hR in
/-- A jump and its label stand on one line, so no line break cuts the label off. -/
theorem jump_rereads (stacked' : Nat) {note : Span} {j : Jump} {label : Option (Identifier Span)}
    (hsound : Sound (jumpNode note label j).nodes (jumpNode note label j).yield)
    (hs : (ahead ps).Follows) (hf : s'.Faces style (stmt level (jumpNode note label j) ps)) :
    FormRereads style R' c' stacked' s' (jumpNode note label j) ps := by
  have hsemi : ∀ qs, ahead (tok ";" qs) = .semicolon := ahead_tok (k := .semicolon) trivial rfl
  have hy : ∀ k ∈ Identifier.yieldOption label, k.Spellable := by cases j <;> exact hsound.2
  have hf' : s'.Faces style (word (jumpWord j) (optionalName label (tok ";" ps))) := by
    cases j <;> exact hf
  have hfirst : (ahead (optionalName label (tok ";" ps))).suits false = true ∧
      breaks (optionalName label (tok ";" ps)) = false := by
    cases label with
    | none => exact ⟨(hsemi ps).symm ▸ rfl, rfl⟩
    | some i => exact ⟨(ahead_tok (hy _ List.mem_cons_self) rfl (tok ";" ps)).symm ▸ rfl, rfl⟩
  obtain ⟨hk', u, hm', hu, hgap⟩ := word_moves hstyle hfirst.1 hfirst.2 hf'
  obtain ⟨label', t', hl', hmap, ht⟩ := trailing_rereads hstyle (f := Identifier.map forget)
    (p := identifier) (o := label) hs.suits (by rintro rfl; exact hu) (by
      rintro i rfl
      have hi : (TokenKind.identifier i.name).Spellable := hy _ List.mem_cons_self
      have hkind : u.current.kind = .identifier i.name := hu.kind.trans (ahead_tok hi rfl _)
      exact ⟨by rw [hkind]; rfl, hgap,
        identifier_rereads hstyle hi (by rw [hsemi]; rfl) hu⟩)
  refine ⟨_, t', .jump (j := j) hk' hm' hl' (fun hcheck => ?_), ?_, ht⟩
  · rw [hc.labels] at hcheck
    cases hcheck
  · cases j <;> rw [jumpNode, jumpNode, Stmt.map, Stmt.map, hmap]

theorem switch_rereads (stacked' : Nat) {note : Span} {e : Expr Span}
    {cases : List (SwitchCase Span)} {s₁ s₂ s₃ : State} (he : Returns (condition R) c s₁ e s₂)
    (hcases : Cases R { c with scope := c.scope.enter .switch } false s₃ cases t)
    (hn : cases.length < c.budget)
    (hsound : Sound (Stmt.switch note e cases).nodes (Stmt.switch note e cases).yield)
    (hs : (ahead ps).Follows) (hf : s'.Faces style (stmt level (.switch note e cases) ps)) :
    FormRereads style R' c' stacked' s' (Stmt.switch note e cases) ps := by
  obtain ⟨hen, hcn⟩ := List.forall_mem_append.1 hsound.1
  obtain ⟨hey, hcy⟩ := List.forall_mem_append.1 hsound.2
  have hclose : ∀ qs, ahead (newline level (tok "\x7d" qs)) = .rightBrace := fun qs => by
    rw [ahead_newline, ahead_tok (k := .rightBrace) trivial rfl]
  have hstart : (ahead (Printer.switchCases (level + 1) cases (newline level (tok "\x7d" ps)))).suits
      false = true := suits_of_endsCase (endsCase_switchCases (hclose ps)) false
  have hf' : s'.Faces style (header .switch (expr level e) (tok "\x7b"
    (Printer.switchCases (level + 1) cases (newline level (tok "\x7d" ps))))) := hf
  obtain ⟨hk', u, hm', e', v, he', hme, hv⟩ := header_rereads hstyle hR hc he ⟨hen, hey⟩
    (by rw [ahead_tok (k := .leftBrace) trivial rfl]; rfl) hf'
  obtain ⟨hk₂, v₂, hm₂, hv₂⟩ := State.Faces.step hstyle hv (k := .leftBrace) trivial rfl hstart
  have hentered : Lax { c with scope := c.scope.enter .switch }
      { c' with scope := c'.scope.enter .switch } := ⟨hc.labels, hc.budget⟩
  obtain ⟨cases', v₃, hcases', hmc, hv₃⟩ := cases_rereads hstyle hR hentered hcases ⟨hcn, hcy⟩
    (hclose ps) hv₂
  obtain ⟨hk₄, t', hm₄, ht⟩ := State.Faces.step hstyle hv₃ (k := .rightBrace) trivial rfl hs.suits
  have hlength : cases'.length < c'.budget := by
    rw [← List.length_map (SwitchCase.map forget), hmc, List.length_map]
    exact Nat.lt_of_lt_of_le hn hc.budget
  refine ⟨_, t', .switch hk' hm' he' hk₂ hm₂ hcases' hlength hm₄, ?_, ht⟩
  rw [Stmt.map, Stmt.map, hme, SwitchCase.mapList_eq, SwitchCase.mapList_eq, hmc]

theorem try_rereads (stacked' : Nat) {note : Span} {body : Block Span}
    {handler : Option (CatchClause Span)} {finalizer : Option (Block Span)} {s₁ s₂ s₃ : State}
    (hb : Returns (block R) c s₁ body s₂) (hh : HandlerForm R c s₂ handler s₃)
    (hfin : Announced (.keyword .finally) (block R) c s₃ finalizer t)
    (hsound : Sound (Stmt.try note body handler finalizer).nodes
      (Stmt.try note body handler finalizer).yield)
    (hs : (ahead ps).Follows)
    (hf : s'.Faces style (stmt level (.try note body handler finalizer) ps)) :
    FormRereads style R' c' stacked' s' (Stmt.try note body handler finalizer) ps := by
  obtain ⟨hn, hfn⟩ := List.forall_mem_append.1 hsound.1
  obtain ⟨hbn, hhn⟩ := List.forall_mem_append.1 hn
  obtain ⟨hy, hfy⟩ := List.forall_mem_append.1 hsound.2
  obtain ⟨hby, hhy⟩ := List.forall_mem_append.1 hy
  have hf' : s'.Faces style (word .try (Printer.space (Printer.block level body
    (Printer.handler level handler (Printer.finalizer level finalizer ps))))) := hf
  obtain ⟨hk', u, hm', hu⟩ := State.Faces.step hstyle hf' (k := .keyword .try) trivial rfl
    (b := false) (by rw [ahead_space, ahead_block]; rfl)
  have hcatch : ∀ h : CatchClause Span, ∀ qs, ahead (Printer.handler level (some h) qs) =
      .keyword .catch := by
    rintro ⟨note, param, body⟩ qs
    rw [Printer.handler, Printer.catchClause, Function.comp_apply, ahead_space, Function.comp_apply,
      ahead_word]
  cases hh with
  | @present handler _ hk hh =>
    obtain ⟨body', v, hb', hmb, hv⟩ := block_rereads hstyle hR.statements hc hb ⟨hbn, hby⟩
      (by rw [hcatch]; rfl) hu
    obtain ⟨hk₂, handler', w, hh', hmh, hw⟩ := catchClause_rereads hstyle hR hc hh ⟨hhn, hhy⟩
      (suits_finalizer hs.suits) hv
    obtain ⟨finalizer', t', hfin', hmf, ht⟩ := finalizer_rereads hstyle hR hc hfin ⟨hfn, hfy⟩ hs hw
    refine ⟨_, t', .try hk' hm' hb' (.present hk₂ hh') hfin', ?_, ht⟩
    rw [Stmt.map, Stmt.map, hmb, CatchClause.mapOption, CatchClause.mapOption, hmh, hmf]
  | absent hk =>
    obtain ⟨body', v, hb', hmb, hv⟩ := block_rereads hstyle hR.statements hc hb ⟨hbn, hby⟩
      (suits_finalizer hs.suits) hu
    obtain ⟨finalizer', t', hfin', hmf, ht⟩ := finalizer_rereads hstyle hR hc hfin ⟨hfn, hfy⟩ hs hv
    have hfinally : v.current.kind = .keyword .finally := by
      cases hfin with
      | absent hne => exact absurd hk hne
      | present _ _ _ =>
        rw [hv.kind, Printer.finalizer, Function.comp_apply, ahead_space, Function.comp_apply,
          ahead_word]
    refine ⟨_, t', .try hk' hm' hb' (.absent hfinally) hfin', ?_, ht⟩
    rw [Stmt.map, Stmt.map, hmb, hmf]

theorem statementForm_rereads {stacked : Nat} (stacked' : Nat) {x : Stmt Span}
    (h : StatementForm R c stacked s x t) (hshape : x.Shapely) (hsound : Sound x.nodes x.yield)
    (hs : (ahead ps).Follows)
    (helse : x.endsOpen = true → ahead ps ≠ .keyword .else)
    (hf : s'.Faces style (stmt level x ps)) :
    FormRereads style R' c' stacked' s' x ps := by
  have hsemi : ∀ qs, ahead (tok ";" qs) = .semicolon := ahead_tok (k := .semicolon) trivial rfl
  cases h with
  | empty hk hm =>
    obtain ⟨hk', t', hm', ht⟩ := State.Faces.step hstyle hf (k := .semicolon) trivial rfl hs.suits
    exact ⟨_, t', .empty hk' hm', rfl, ht⟩
  | @block b _ hk hb =>
    obtain ⟨b', t', hb', hmap, ht⟩ := block_rereads hstyle hR.statements hc hb hsound hs.suits hf
    have hkind : s'.current.kind = .leftBrace := hf.kind.trans (ahead_block level b ps)
    exact ⟨_, t', .block hkind hb', by rw [Stmt.map, Stmt.map, hmap], ht⟩
  | @expression e _ _ ho he hne hend =>
    have hf' : s'.Faces style (expr level e (tok ";" ps)) := hf
    obtain ⟨e', u, he', hmap, hu⟩ := closedComma_rereads hstyle hR hc he hsound unheaded
      (by rw [hsemi]; rfl) (by rw [hsemi]; rintro ⟨⟩) hf'
    obtain ⟨t', hend', ht⟩ := semicolon_ends hstyle hs.suits hu
    refine ⟨_, t', .expression ?_ he' (fun _ _ => ?_) hend', by rw [Stmt.map, Stmt.map, hmap], ht⟩
    · rw [hf'.kind, Expr.ahead_pieces (Expr.first_spellable hsound.2)]
      exact Expr.opensStatement_first (fun x hx => (hsound.1 x hx).1) hshape
    · rw [hu.kind, hsemi]
      rintro ⟨⟩
  | labeled _ he _ _ _ hb =>
    exact labeled_rereads hstyle hR hc stacked' he hb hsound hs helse hf
  | «if» _ _ htest hy hz =>
    exact if_rereads hstyle hR hc stacked' htest hy hz hshape hsound hs helse hf
  | debugger hk hm hend =>
    obtain ⟨hk', u, hm', hu⟩ := State.Faces.step hstyle hf (k := .keyword .debugger) trivial rfl
      (b := false) (by rw [hsemi]; rfl)
    obtain ⟨t', hend', ht⟩ := semicolon_ends hstyle hs.suits hu
    exact ⟨_, t', .debugger hk' hm' hend', rfl, ht⟩
  | @«with» _ object _ body _ hk hm ho hb =>
    obtain ⟨hon, hbn⟩ := List.forall_mem_append.1 hsound.1
    obtain ⟨hoy, hby⟩ := List.forall_mem_append.1 hsound.2
    have hbody : Sound body.nodes body.yield := ⟨hbn, hby⟩
    obtain ⟨hk', u, hm', object', v, ho', hmo, hv⟩ := header_rereads hstyle hR hc ho ⟨hon, hoy⟩
      (TokenKind.suits_of_begins (hbody.begins level ps)) hf
    obtain ⟨body', t', hb', hmb, ht⟩ := hR.statements hb hbody hc hs helse hv
    exact ⟨_, t', .with hk' hm' ho' hb', by rw [Stmt.map, Stmt.map, hmo, hmb], ht⟩
  | @«return» _ e _ hk hm he =>
    obtain ⟨hk', u, hm', hu, hgap⟩ := word_moves hstyle
      (suits_spaced (k := .semicolon) hsound trivial rfl rfl) breaks_spaced hf
    obtain ⟨e', t', he', hmap, ht⟩ := argument_rereads hstyle hR hc he hsound hs.suits hgap hu
    exact ⟨_, t', .return hk' hm' he', by rw [Stmt.map, Stmt.map, hmap], ht⟩
  | @throw _ e _ hk hm he =>
    obtain ⟨hk', u, hm', hu, hgap⟩ := word_moves hstyle
      (suits_spaced (k := .semicolon) (e := some e) hsound trivial rfl rfl) breaks_spaced hf
    obtain ⟨e', t', he', hmap, ht⟩ := argument_rereads hstyle hR hc he hsound hs.suits hgap hu
    cases e' with
    | none => cases hmap
    | some e' =>
      exact ⟨_, t', .throw hk' hm' he', by rw [Stmt.map, Stmt.map, Option.some.inj hmap], ht⟩
  | jump _ _ _ _ => exact jump_rereads hstyle hc stacked' hsound hs hf
  | «switch» _ _ he _ _ hcases hn _ =>
    exact switch_rereads hstyle hR hc stacked' he hcases hn hsound hs hf
  | «try» _ _ hb hh hfin => exact try_rereads hstyle hR hc stacked' hb hh hfin hsound hs hf
  | @«while» _ test _ body _ hk hm ht hb =>
    obtain ⟨htn, hbn⟩ := List.forall_mem_append.1 hsound.1
    obtain ⟨hty, hby⟩ := List.forall_mem_append.1 hsound.2
    have hbody : Sound body.nodes body.yield := ⟨hbn, hby⟩
    obtain ⟨hk', u, hm', test', v, ht', hmt, hv⟩ := header_rereads hstyle hR hc ht ⟨htn, hty⟩
      (TokenKind.suits_of_begins (hbody.begins level ps)) hf
    obtain ⟨body', t', hb', hmb, ht⟩ := body_rereads hR hc hb hbody hs helse hv
    exact ⟨_, t', .while hk' hm' ht' hb', by rw [Stmt.map, Stmt.map, hmt, hmb], ht⟩
  | @doWhile _ body _ _ test _ hk hm hb hword hm' ht =>
    obtain ⟨hbn, htn⟩ := List.forall_mem_append.1 hsound.1
    obtain ⟨hby, hty⟩ := List.forall_mem_append.1 hsound.2
    have hbody : Sound body.nodes body.yield := ⟨hbn, hby⟩
    have hf' : s'.Faces style (word .do (Printer.space (stmt level body (Printer.space (word .while
      (Printer.space (tok "(" (expr level test (tok ")" ps))))))))) := hf
    have hwhile : ∀ qs, ahead (Printer.space (word .while qs)) = .keyword .while := ahead_word .while
    obtain ⟨hk', u, hm', hu⟩ := State.Faces.step hstyle hf' (k := .keyword .do) trivial rfl
      (b := false) (TokenKind.suits_of_begins (hbody.begins level _))
    obtain ⟨body', v, hb', hmb, hv⟩ := body_rereads hR hc hb hbody (by rw [hwhile]; exact ⟨rfl, by rintro ⟨⟩⟩)
      (by rw [hwhile]; rintro - ⟨⟩) hu
    obtain ⟨hk₂, v₂, hm₂, hv₂⟩ := State.Faces.step hstyle hv (k := .keyword .while) trivial rfl
      (b := false) (by rw [ahead_space, ahead_tok (k := .leftParen) trivial rfl]; rfl)
    obtain ⟨test', t', ht', hmt, hft⟩ := condition_rereads hstyle hR hc ht ⟨htn, hty⟩ hs.suits hv₂
    exact ⟨_, t', .doWhile hk' hm' hb' hk₂ hm₂ ht', by rw [Stmt.map, Stmt.map, hmb, hmt], hft⟩
  | @declaration d _ hk hd =>
    obtain ⟨hk', u, ds, v, hm', hds, hmap, hv⟩ := declaration_rereads hstyle hR hc hd hsound
      (by rw [hsemi]; rfl) (by rw [hsemi]; exact inits_precede hR hd rfl)
      (by rw [hsemi]; rintro ⟨⟩) (by rw [hsemi]; rintro ⟨⟩) (by rw [hsemi]; rfl) hf
    obtain ⟨t', hend, ht⟩ := semicolon_ends hstyle hs.suits hv
    refine ⟨_, t', .declaration hk' (returns_declaration.2 ⟨u, ds, v, hm', hds, .inr ⟨rfl, hend⟩, rfl⟩),
      ?_, ht⟩
    obtain ⟨note, ds₀⟩ := d
    rw [Stmt.map, Stmt.map, Declaration.map, Declaration.map, Declarator.mapList_eq,
      Declarator.mapList_eq, hmap]
    rfl
  | @«for» _ _ _ _ hk hm hparen hm' hform =>
    obtain ⟨qs, hprint, hfirst, hstep⟩ := forForm_rereads hstyle hR hc
      s'.current.span.start level hform hsound hs helse
    rw [hprint] at hf
    obtain ⟨hk₁, u, hm₁, hu⟩ := State.Faces.step hstyle hf (k := .keyword .for) trivial rfl
      (b := false) (by rw [ahead_space, ahead_tok (k := .leftParen) trivial rfl]; rfl)
    obtain ⟨hk₂, v, hm₂, hv⟩ := State.Faces.step hstyle hu (k := .leftParen) trivial rfl hfirst
    obtain ⟨x', t', hx', hmap, ht⟩ := hstep v hv
    exact ⟨x', t', .for hk₁ hm₁ hk₂ hm₂ hx', hmap, ht⟩
  | @function _ id _ params _ body _ hk hm hid hp hb =>
    obtain ⟨hy, hby⟩ := List.forall_mem_append.1 hsound.2
    obtain ⟨hidy, hpy⟩ := List.forall_mem_append.1 hy
    have hi : (TokenKind.identifier id.name).Spellable := hidy _ List.mem_cons_self
    have hf' : s'.Faces style (word .function (name id (tok "(" (commas (params.map name) (tok ")"
      (Printer.space (Printer.block level body ps))))))) := hf
    obtain ⟨hk', u, hm', hu⟩ := State.Faces.step hstyle hf' (k := .keyword .function) trivial rfl
      (b := false) (by rw [name, ahead_tok hi rfl]; rfl)
    obtain ⟨id', v, hid', hmi, hv⟩ := identifier_rereads hstyle (c := c') hi
      (by rw [ahead_tok (k := .leftParen) trivial rfl]; rfl) hu
    obtain ⟨params', w, body', t', hp', hb', hmp, hmb, ht⟩ := function_rereads hstyle hR.statements hc
      hp hb hpy ⟨hsound.1, hby⟩ hs.suits hv
    exact ⟨_, t', .function hk' hm' hid' hp' hb', by rw [Stmt.map, Stmt.map, hmi, hmp, hmb], ht⟩

end
end Parser
end ScriptTree
