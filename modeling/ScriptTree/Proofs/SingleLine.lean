import ScriptTree.Proofs.Respacing
import ScriptTree.Proofs.Yield
import ScriptTree.Transform

/-! # A minified script is one line

A tree is written as tokens, and those that speak are the ones that it was read from. All of them can be
spelled, and no spelling holds a line break: a string escapes it, and a regular expression ends before
it. Between tokens a minified script has no more than a space. -/
namespace ScriptTree

/-! ## What is written -/

namespace Printer

/-- Writers that put the spellings of tokens, some of which speak. -/
inductive Writes : Writer → List TokenKind → Prop
  | silent {text k} : text.toList = TokenKind.spelling k → k.speaks = false → Writes (tok text) []
  | spoken {text k} : text.toList = TokenKind.spelling k → k.speaks = true → Writes (tok text) [k]
  | space : Writes space []
  | blank : Writes blank []
  | nothing : Writes nothing []
  | newline (level : Nat) : Writes (newline level) []
  | comp {v w ks ls} : Writes v ks → Writes w ls → Writes (v ∘ w) (ks ++ ls)

namespace Writes
variable {w : Writer} {ks : List TokenKind}

/-- The texts that are put are spellings of tokens that are silent or listed. -/
theorem exists_spelling (h : Writes w ks) {text : String} {rest : List Piece}
    (ht : .token text ∈ w rest) :
    .token text ∈ rest ∨ ∃ k, (k.speaks = false ∨ k ∈ ks) ∧ text.toList = k.spelling := by
  induction h generalizing rest with
  | @silent text' k hs hk =>
    rcases List.mem_cons.1 ht with he | ht
    · obtain rfl := Piece.token.inj he
      exact .inr ⟨k, .inl hk, hs⟩
    · exact .inl ht
  | @spoken text' k hs _ =>
    rcases List.mem_cons.1 ht with he | ht
    · obtain rfl := Piece.token.inj he
      exact .inr ⟨k, .inr List.mem_cons_self, hs⟩
    · exact .inl ht
  | space | blank | newline _ => exact .inl ((List.mem_cons.1 ht).resolve_left nofun)
  | nothing => exact .inl ht
  | comp _ _ ih ih' =>
    rcases ih ht with ht | ⟨k, hk, hs⟩
    · rcases ih' ht with ht | ⟨k, hk, hs⟩
      · exact .inl ht
      · exact .inr ⟨k, hk.imp_right (List.mem_append_right _), hs⟩
    · exact .inr ⟨k, hk.imp_right (List.mem_append_left _), hs⟩

theorem word (k : Keyword) : Writes (word k) [] := .silent (k := .keyword k) rfl rfl

theorem symbol (op : Operator) : Writes (symbol op) [.operator op] := .spoken rfl rfl

theorem name (i : Identifier α) : Writes (name i) i.yield := .spoken rfl rfl

theorem optionalName (i : Option (Identifier α)) :
    Writes (optionalName i) (Identifier.yieldOption i) := by
  cases i with
  | none => exact .nothing
  | some i => exact .name i

section
variable (h : Writes w ks) {v : Writer}
include h

theorem before (hv : Writes v []) : Writes (w ∘ v) ks := by
  have hboth := h.comp hv
  rwa [List.append_nil] at hboth

theorem alone : Writes w (ks ++ []) := by rwa [List.append_nil]

theorem after (hv : Writes v []) : Writes (v ∘ w) ks := hv.comp h

theorem said {k : TokenKind} (hv : Writes v [k]) : Writes (v ∘ w) (k :: ks) := hv.comp h

theorem spaced : Writes (Printer.space ∘ w) ks := h.after .space

theorem semicolon : Writes (w ∘ tok ";") ks := h.before (.silent (k := .semicolon) rfl rfl)

theorem afterSemicolon : Writes (tok ";" ∘ w) ks := h.after (.silent (k := .semicolon) rfl rfl)

theorem afterOpening : Writes (tok "(" ∘ w) ks := h.after (.silent (k := .leftParen) rfl rfl)

theorem afterClosing : Writes (tok ")" ∘ Printer.space ∘ w) ks :=
  h.spaced.after (.silent (k := .rightParen) rfl rfl)

theorem afterColon : Writes (tok ":" ∘ w) ks := h.after (.silent (k := .colon) rfl rfl)

theorem afterComma : Writes (tok "," ∘ Printer.space ∘ w) ks :=
  h.spaced.after (.silent (k := .comma) rfl rfl)

theorem afterWord (k : Keyword) : Writes (Printer.word k ∘ Printer.space ∘ w) ks :=
  h.spaced.after (word k)

theorem afterSymbol (op : Operator) :
    Writes (Printer.space ∘ Printer.symbol op ∘ Printer.space ∘ w) (.operator op :: ks) :=
  (h.spaced.said (symbol op)).spaced

theorem parens : Writes (tok "(" ∘ w ∘ tok ")") ks :=
  (h.before (.silent (k := .rightParen) rfl rfl)).afterOpening

theorem brackets : Writes (tok "[" ∘ w ∘ tok "]") ks :=
  (h.before (.silent (k := .rightBracket) rfl rfl)).after (.silent (k := .leftBracket) rfl rfl)

theorem braces : Writes (tok "\x7b" ∘ w ∘ tok "\x7d") ks :=
  (h.before (.silent (k := .rightBrace) rfl rfl)).after (.silent (k := .leftBrace) rfl rfl)

theorem lined (level : Nat) : Writes (tok "\x7b" ∘ w ∘ Printer.newline level ∘ tok "\x7d") ks :=
  (h.before (.newline level)).braces

theorem header (k : Keyword) : Writes (header k w) ks := (h.parens.before .space).afterWord k

end

end Writes

theorem writes_names (is : List (Identifier α)) :
    Writes (commas (is.map name)) (is.flatMap (·.yield)) := by
  induction is with
  | nil => exact .nothing
  | cons i is ih =>
    cases is with
    | nil => exact .name i
    | cons j is => exact (Writes.name i).comp ih.afterComma

theorem writes_literal (l : Literal α) : Writes (literal l) l.yield := by
  have hspelling : (String.ofList (literalText l.value)).toList = l.value.token.spelling := by
    rw [String.toList_ofList]
    cases l.value with
    | boolean b => cases b <;> rfl
    | _ => rfl
  have hspeaks : l.value.token.speaks = true := by
    cases l.value <;> rfl
  exact .spoken hspelling hspeaks

theorem writes_key (k : PropertyKey α) : Writes (key k) k.yield := by
  cases k with
  | literal l => exact writes_literal l
  | identifier i => exact .name i

theorem writes_signature (id : Option (Identifier α)) (params : List (Identifier α)) :
    Writes (signature id params) (Identifier.yieldOption id ++ params.flatMap (·.yield)) :=
  ((Writes.optionalName id).comp ((writes_names params).parens.before .space)).after (.word .function)

theorem writes_jump (k : Keyword) (label : Option (Identifier α)) :
    Writes (jump k label) (Identifier.yieldOption label) :=
  (Writes.optionalName label).semicolon.after (.word k)

mutual
theorem writes_expr (level : Nat) : ∀ e : Expr α, Writes (expr level e) e.yield
  | .identifier i => .name i
  | .literal l => writes_literal l
  | .this _ => .spoken (k := .this) rfl rfl
  | .array _ es => (writes_exprs level es).brackets
  | .object _ ps => (writes_properties level ps).braces
  | .function _ id params body => (writes_signature id params).comp (writes_block level body)
  | .unary _ op e | .update _ op e true => (writes_expr level e).said (.symbol op)
  | .update _ op e false => (writes_expr level e).comp (.symbol op)
  | .binary _ op l r | .logical _ op l r | .assignment _ op l r =>
    (writes_expr level l).comp ((writes_expr level r).afterSymbol op)
  | .conditional _ t c a => by
    have hrest := (writes_expr level c).comp (writes_expr level a).spaced.afterColon.spaced
    have hall := (writes_expr level t).comp (hrest.afterSymbol .question)
    rwa [← List.cons_append, ← List.append_assoc] at hall
  | .member _ o p true => by
    have hgap : Writes (if isInteger o then blank else nothing) [] := by
      split
      · exact .blank
      · exact .nothing
    exact (writes_expr level o).comp (((writes_expr level p).said (.symbol .dot)).after hgap)
  | .member _ o p false => (writes_expr level o).comp (writes_expr level p).brackets
  | .call _ f es => (writes_expr level f).comp (writes_exprs level es).parens
  | .new _ f es => by
    have hf := writes_expr level f
    have hes := writes_exprs level es
    -- without arguments there are no parentheses, and they would be silent
    cases es with
    | nil =>
      rw [Expr.yield, Expr.yieldList, List.append_nil]
      exact hf.spaced.said (.symbol .new)
    | cons e es => exact (hf.comp hes.parens).spaced.said (.symbol .new)
  | .sequence _ es => (writes_exprs level es).parens
theorem writes_exprs (level : Nat) : ∀ es : List (Expr α),
    Writes (commas (exprs level es)) (Expr.yieldList es)
  | [] => .nothing
  | [e] => (writes_expr level e).alone
  | e :: e' :: es => (writes_expr level e).comp (writes_exprs level (e' :: es)).afterComma
theorem writes_property (level : Nat) : ∀ p : Property α, Writes (property level p) p.yield
  | .mk _ k value => (writes_key k).comp (writes_expr level value).spaced.afterColon
theorem writes_properties (level : Nat) : ∀ ps : List (Property α),
    Writes (commas (properties level ps)) (Property.yieldList ps)
  | [] => .nothing
  | [p] => (writes_property level p).alone
  | p :: p' :: ps => (writes_property level p).comp (writes_properties level (p' :: ps)).afterComma
theorem writes_spaced (level : Nat) : ∀ e : Option (Expr α),
    Writes (spaced level e) (Expr.yieldOption e)
  | none => .nothing
  | some e => (writes_expr level e).spaced
theorem writes_declarator (level : Nat) : ∀ d : Declarator α, Writes (declarator level d) d.yield
  | .mk _ id none => .name id
  | .mk _ id (some e) => (Writes.name id).comp ((writes_expr level e).afterSymbol .assign)
theorem writes_declarators (level : Nat) : ∀ ds : List (Declarator α),
    Writes (commas (declarators level ds)) (Declarator.yieldList ds)
  | [] => .nothing
  | [d] => (writes_declarator level d).alone
  | d :: d' :: ds => (writes_declarator level d).comp (writes_declarators level (d' :: ds)).afterComma
theorem writes_declaration (level : Nat) : ∀ d : Declaration α,
    Writes (declaration level d) d.yield
  | .mk _ ds => (writes_declarators level ds).after (.word .var)
theorem writes_block (level : Nat) : ∀ b : Block α, Writes (block level b) b.yield
  | .mk _ ss => by
    have hss := writes_lines (level + 1) ss
    cases ss with
    | nil => exact Writes.nothing.braces
    | cons s ss => exact hss.lined level
theorem writes_lines (level : Nat) : ∀ ss : List (Stmt α), Writes (lines level ss) (Stmt.yieldList ss)
  | [] => .nothing
  | s :: ss => ((writes_stmt level s).comp (writes_lines level ss)).after (.newline level)
theorem writes_switchCase (level : Nat) : ∀ c : SwitchCase α, Writes (switchCase level c) c.yield
  | .mk _ none ss => (writes_lines (level + 1) ss).afterColon.after (.word .default)
  | .mk _ (some e) ss =>
    ((writes_expr level e).comp (writes_lines (level + 1) ss).afterColon).afterWord .case
theorem writes_switchCases (level : Nat) : ∀ cs : List (SwitchCase α),
    Writes (switchCases level cs) (SwitchCase.yieldList cs)
  | [] => .nothing
  | c :: cs => ((writes_switchCase level c).comp (writes_switchCases level cs)).after (.newline level)
theorem writes_catchClause (level : Nat) : ∀ c : CatchClause α,
    Writes (catchClause level c) c.yield
  | .mk _ param body =>
    (((Writes.name param).parens.comp (writes_block level body).spaced).afterWord .catch).spaced
theorem writes_handler (level : Nat) : ∀ c : Option (CatchClause α),
    Writes (handler level c) (CatchClause.yieldOption c)
  | none => .nothing
  | some c => writes_catchClause level c
theorem writes_finalizer (level : Nat) : ∀ b : Option (Block α),
    Writes (finalizer level b) (Block.yieldOption b)
  | none => .nothing
  | some b => ((writes_block level b).afterWord .finally).spaced
theorem writes_alternate (level : Nat) : ∀ s : Option (Stmt α),
    Writes (alternate level s) (Stmt.yieldOption s)
  | none => .nothing
  | some s => ((writes_stmt level s).afterWord .else).spaced
theorem writes_forInit (level : Nat) : ∀ i : ForInit α, Writes (forInit level i) i.yield
  | .declaration d => writes_declaration level d
  | .expression e => writes_expr level e
theorem writes_forStart (level : Nat) : ∀ i : Option (ForInit α),
    Writes (forStart level i) (ForInit.yieldOption i)
  | none => .nothing
  | some i => writes_forInit level i
theorem writes_forTarget (level : Nat) : ∀ t : ForTarget α, Writes (forTarget level t) t.yield
  | .declaration d => writes_declaration level d
  | .identifier i => .name i
theorem writes_stmt (level : Nat) : ∀ s : Stmt α, Writes (stmt level s) s.yield
  | .empty _ => .silent (k := .semicolon) rfl rfl
  | .block b => writes_block level b
  | .expression _ e => (writes_expr level e).semicolon
  | .declaration d => (writes_declaration level d).semicolon
  | .if _ t c a => by
    have hrest := (writes_stmt level c).comp (writes_alternate level a)
    have hall := ((writes_expr level t).header .if).comp hrest
    rwa [← List.append_assoc] at hall
  | .debugger _ => (Writes.word .debugger).semicolon
  | .with _ o b => ((writes_expr level o).header .with).comp (writes_stmt level b)
  | .return _ e => (writes_spaced level e).semicolon.after (.word .return)
  | .throw _ e => (writes_expr level e).semicolon.afterWord .throw
  | .break _ l | .continue _ l => writes_jump _ l
  | .switch _ d cs =>
    ((writes_expr level d).header .switch).comp ((writes_switchCases (level + 1) cs).lined level)
  | .try _ b h f => by
    have hrest := (writes_handler level h).comp (writes_finalizer level f)
    have hall := ((writes_block level b).comp hrest).afterWord .try
    rwa [← List.append_assoc] at hall
  | .while _ t b => ((writes_expr level t).header .while).comp (writes_stmt level b)
  | .doWhile _ b t =>
    ((writes_stmt level b).comp ((writes_expr level t).parens.afterWord .while).spaced).afterWord .do
  | .for _ i t u b => by
    have hlast := (writes_spaced level u).comp (writes_stmt level b).afterClosing
    have hrest := (writes_spaced level t).comp hlast.afterSemicolon
    have hall := ((writes_forStart level i).comp hrest.afterSemicolon).afterOpening.afterWord .for
    rwa [← List.append_assoc, ← List.append_assoc] at hall
  | .forIn _ t o b => by
    have hrest := (writes_expr level o).comp (writes_stmt level b).afterClosing
    have hall := ((writes_forTarget level t).comp (hrest.afterSymbol .in)).afterOpening.afterWord .for
    rwa [← List.cons_append, ← List.append_assoc] at hall
  | .function _ id params body => (writes_signature (some id) params).comp (writes_block level body)
  | .labeled _ l b => (Writes.name l).comp (writes_stmt level b).spaced.afterColon
end

/-- A script says what its tree says. -/
theorem writes_program (body : List (Stmt α)) : Writes (program body) (Stmt.yieldList body) := by
  cases body with
  | nil => exact .nothing
  | cons s ss => exact (writes_stmt 0 s).comp (writes_lines 0 ss)

end Printer

/-! ## Spellings -/

namespace Text

/-- No line ends inside a text. -/
def Inline (cs : List Char) : Prop := ∀ c ∈ cs, isLineBreak c = false

instance (cs : List Char) : Decidable (Inline cs) := List.decidableBAll _ cs

theorem isLineBreak_eq_false {c : Char} (h : isBlank c = false) : isLineBreak c = false := by
  cases hb : isLineBreak c with
  | false => rfl
  | true =>
    rw [isBlank_of_isLineBreak hb] at h
    cases h

theorem isLineBreak_of_isWordPart {c : Char} (h : isWordPart c = true) : isLineBreak c = false :=
  isLineBreak_eq_false (isBlank_eq_false_of_isWordPart h)

theorem isLineBreak_of_isDigit {c : Char} (h : isDigit c = true) : isLineBreak c = false :=
  isLineBreak_of_isWordPart (isWordPart_iff.2 (.inr h))

theorem inline_of_isWord {cs : List Char} (h : isWord cs = true) : Inline cs := fun c hc =>
  isLineBreak_of_isWordPart (List.all_eq_true.1 (Bool.and_eq_true_iff.1 h).2 c hc)

theorem inline_nil : Inline [] := List.forall_mem_nil _

theorem inline_append {as bs : List Char} (ha : Inline as) (hb : Inline bs) : Inline (as ++ bs) :=
  List.forall_mem_append.2 ⟨ha, hb⟩

theorem inline_cons {c : Char} {cs : List Char} (hc : isLineBreak c = false) (h : Inline cs) :
    Inline (c :: cs) :=
  List.forall_mem_cons.2 ⟨hc, h⟩

end Text

open Text

theorem inline_hex4 {n : Nat} (h : n < 0x10000) : Inline (hex4 n) := fun c hc => by
  have hhex := List.all_eq_true.1 (hex4_spec h).1 c hc
  cases hb : isLineBreak c with
  | false => rfl
  | true =>
    rw [isHexDigit_eq_false_of_isBlank (isBlank_of_isLineBreak hb)] at hhex
    cases hhex

theorem inline_quoteChar (c : Char) : Inline (quoteChar c) := by
  unfold quoteChar
  split
  case h_8 =>
    split
    · rename_i hc
      have hlt := lt_of_escaped hc
      exact inline_cons rfl (inline_cons rfl (inline_hex4 (by omega)))
    · rename_i hc
      rw [Bool.not_eq_true, Bool.or_eq_false_iff] at hc
      exact inline_cons hc.2 inline_nil
  all_goals exact inline_cons rfl (inline_cons rfl inline_nil)

theorem inline_quote (s : String) : Inline (quote s) := by
  refine inline_cons rfl (inline_append (fun c hc => ?_) (inline_cons rfl inline_nil))
  obtain ⟨d, -, hd⟩ := List.mem_flatMap.1 hc
  exact inline_quoteChar d c hd

theorem inline_literal {x : Double} (h : x.Unsigned) : Inline x.literal := by
  rcases Numeral.literal_forms h with ⟨hlit, -⟩ | ⟨hs, -⟩ | ⟨w, f, hw, -, hf, hlit, -⟩ | ⟨hlit, -⟩
  · rw [hlit]
    exact inline_cons rfl inline_nil
  · exact fun c hc => isLineBreak_of_isDigit (hs.digit c hc)
  · rw [hlit]
    exact inline_append (fun c hc => isLineBreak_of_isDigit (isDigit_of_whole hw hc))
      (inline_cons rfl fun c hc => isLineBreak_of_isDigit (hf c hc))
  · rw [hlit]
    decide

namespace Pattern

/-- A pattern that is closed ends before a line does. -/
theorem bodyExtent_inline {isEscaped : Bool} {opened cs : List Char}
    (h : (bodyExtent isEscaped opened cs).valid = true) :
    Inline (cs.take (bodyExtent isEscaped opened cs).length) := by
  have behind {e : Extent} {c : Char} {cs : List Char} (hc : ¬ isLineBreak c = true)
      (ih : Inline (cs.take e.length)) : Inline ((c :: cs).take (e.after 1).length) := by
    rw [Extent.after, Nat.add_comm, List.take_succ_cons]
    exact inline_cons (Bool.eq_false_iff.2 hc) ih
  fun_induction bodyExtent isEscaped opened cs with
  | case1 | case2 => cases h
  | case3 _ _ _ hc ih => exact behind hc (ih h)
  | case4 _ _ _ _ hc ih => exact behind hc (ih h)
  | case5 _ _ c _ hc => exact inline_cons (Bool.eq_false_iff.2 hc) inline_nil
  | case6 _ _ _ _ hc _ _ _ ih => exact behind hc (ih h)

theorem flagExtent_inline (seen cs : List Char) : Inline (cs.take (flagExtent seen cs).length) := by
  fun_induction flagExtent seen cs with
  | case1 | case3 => exact inline_nil
  | case2 seen c cs hc ih =>
    rw [Extent.after, Nat.add_comm, List.take_succ_cons]
    have hflag := isWordStart_of_isFlag (Bool.and_eq_true_iff.1 hc).1
    exact inline_cons (isLineBreak_of_isWordPart (isWordPart_iff.2 (.inl hflag))) ih

theorem WellFormed.inline {pattern flags : String} (h : WellFormed pattern flags) :
    Inline (pattern.toList ++ flags.toList) := by
  obtain ⟨c, cs, hp, -, -, hbody⟩ := h.body
  have hinside := bodyExtent_inline (congrArg Extent.valid hbody)
  have hflags := flagExtent_inline [] flags.toList
  rw [hbody, List.take_length] at hinside
  rw [h.flags, List.take_length] at hflags
  rw [hp]
  exact inline_append (inline_cons rfl hinside) hflags

end Pattern

theorem TokenKind.spellable_of_silent {k : TokenKind} (h : k.speaks = false) : k.Spellable := by
  cases k with
  | number _ | regex _ _ | identifier _ => cases h
  | _ => trivial

/-- No token that the lexer finds would be spelled over two lines. -/
theorem TokenKind.Spellable.inline {k : TokenKind} (h : k.Spellable) : Inline k.spelling := by
  cases k with
  | number x => exact inline_literal h
  | string s => exact inline_quote s
  | regex pattern flags => exact Pattern.WellFormed.inline h
  | identifier name => exact inline_of_isWord h.1
  | boolean b => cases b <;> decide
  | keyword word => exact inline_of_isWord (keyword_word word).1
  | operator op => cases op <;> decide
  | _ => decide

/-! ## Scripts -/

namespace Piece

theorem inline_parted {cs : List Char} (h : Inline cs) (last : Option Char) :
    Inline (parted last cs) := by
  unfold parted
  split
  · split
    · exact inline_cons rfl h
    · exact h
  · exact h

/-- Between the tokens of a minified script there is at most a space. -/
theorem render_inline {style : Style} (hs : style.minified = true) {ps : List Piece}
    (h : ∀ text, .token text ∈ ps → Inline text.toList) (last : Option Char) :
    Inline (render style last ps) := by
  -- only the last two kinds of piece depend on the style, and neither is written
  fun_induction render style last ps with
  | case1 => exact inline_nil
  | case2 last text ps cs ih =>
    exact inline_append (inline_parted (h text List.mem_cons_self) last)
      (ih fun t ht => h t (List.mem_cons_of_mem _ ht))
  | case3 _ ps ih => exact inline_cons rfl (ih fun t ht => h t (List.mem_cons_of_mem _ ht))
  | case4 _ ps _ ih => exact ih fun t ht => h t (List.mem_cons_of_mem _ ht)
  | case5 _ _ hm => exact absurd hs hm
  | case6 _ _ ps _ ih => exact ih fun t ht => h t (List.mem_cons_of_mem _ ht)
  | case7 _ _ _ hm => exact absurd hs hm

end Piece

namespace Parser

/-- Every token that is obtained can be spelled. -/
theorem Reaches.spellable {source : List Char} {s t : State} (hb : s.Begins source)
    (h : Reaches s t) : ∀ token ∈ t.tokens, token.kind.Spellable := by
  induction h with
  | refl =>
    intro token ht
    rw [State.tokens, hb.1, List.reverse_singleton, List.mem_singleton] at ht
    exact ht ▸ (Lexer.next_spellable hb.2.2).1
  | step _ hm ih =>
    rw [hm.tokens]
    exact List.forall_mem_append.2 ⟨ih, List.forall_mem_singleton.2 (Lexer.next_spellable hm.next).1⟩

end Parser

/-- Every token that a finished script says can be spelled. -/
theorem Parser.run_spellable {c : Context} {source : List Char} {q : Program Span}
    (h : (run c source).result = .ok q) : ∀ k ∈ q.yield, k.Spellable := by
  intro k hk
  rw [← run_yield h] at hk
  obtain ⟨token, ht, rfl⟩ := List.mem_map.1 (List.mem_filter.1 hk).1
  obtain ⟨s, t, hb, hp⟩ := run_eq_ok.1 h
  rw [run_tokens hb hp] at ht
  exact (program_reaches hp).spellable hb token ht

/-- What is minified has no line break. -/
theorem Program.inline_print {q : Program α} (h : ∀ k ∈ q.yield, k.Spellable)
    (indent : Option String) : Inline (q.print ⟨true, indent⟩).toList := by
  rw [Program.print, Bool.true_or, if_pos rfl, String.toList_ofList]
  refine Piece.render_inline rfl (fun text ht => ?_) none
  rcases (Printer.writes_program q.body).exists_spelling ht with ht | ⟨k, hk, hs⟩
  · cases ht
  · rw [hs]
    exact (hk.elim TokenKind.spellable_of_silent (h k)).inline

/-- However a script is minified that is accepted under any limit, the text is one line: it has none
of the four characters that end a line. -/
theorem minified_single_line {source : String} {maxDepth : Nat} {p : Program Location}
    (h : parse source maxDepth = .ok p) (indent : Option String) :
    ∃ text, transform source maxDepth ⟨true, indent⟩ = .ok text ∧
      ∀ c ∈ ['\n', '\r', '\u2028', '\u2029'], c ∉ text.toList := by
  obtain ⟨q, hq, rfl⟩ := parse_eq_ok.1 h
  refine ⟨q.print ⟨true, indent⟩, by rw [transform, parseSpans, hq]; rfl, fun c hc hmem => ?_⟩
  have hbreak : isLineBreak c = true := by
    simp only [List.mem_cons, List.not_mem_nil, or_false] at hc
    rcases hc with rfl | rfl | rfl | rfl <;> rfl
  rw [Program.inline_print (Parser.run_spellable hq) indent c hmem] at hbreak
  cases hbreak

/-- A string with an escaped line break, and a regular expression on the next line. -/
theorem minified_single_line_escapes : ∃ p, parse "a = 'b\\nc';\n/d/.e;" 9 = .ok p ∧
    ∃ text, transform "a = 'b\\nc';\n/d/.e;" 9 ⟨true, some "\n"⟩ = .ok text ∧
      ∀ c ∈ ['\n', '\r', '\u2028', '\u2029'], c ∉ text.toList := by
  have hok : (parse "a = 'b\\nc';\n/d/.e;" 9).isOk = true := by decide +kernel
  obtain ⟨p, hp⟩ := exists_parse_of_isOk hok
  exact ⟨p, hp, minified_single_line hp (some "\n")⟩

end ScriptTree
