import ScriptTree.Proofs.Linked

/-! # Reading again what was printed

A part of a tree reads again if, from its pieces, its reader gives the same part up to the notes, and
stops in front of the pieces that follow. Names, literals and lists read again; what expressions and
statements need for it is said here, and proved next. -/
namespace ScriptTree

open Piece Printer

/-- What is left of a note when notes do not matter. -/
abbrev forget : α → Unit := fun _ => ()

namespace TokenKind

/-- Tokens that end what stands before them, whatever it is. -/
def closes : TokenKind → Bool
  | .comma | .rightParen | .rightBracket | .rightBrace | .colon | .semicolon => true
  | _ => false

variable {k : TokenKind}

theorem priority?_of_closes (h : k.closes = true) : k.priority? = none := by
  cases k <;> first | rfl | cases h

theorem suits_of_closes (h : k.closes = true) (flag : Bool) : k.suits flag = true := by
  rcases k.slash_cases with ⟨pattern, flags, rfl⟩ | rfl | rfl | hall
  · cases h
  · cases h
  · cases h
  · exact hall flag

end TokenKind

namespace Printer
variable (level : Nat)

theorem exprs_eq_map (es : List (Expr α)) : exprs level es = es.map (expr level) := by
  induction es with
  | nil => rfl
  | cons e es ih => rw [exprs, ih, List.map_cons]

theorem properties_eq_map (ps : List (Property α)) :
    properties level ps = ps.map (property level) := by
  induction ps with
  | nil => rfl
  | cons p ps ih => rw [properties, ih, List.map_cons]

theorem declarators_eq_map (ds : List (Declarator α)) :
    declarators level ds = ds.map (declarator level) := by
  induction ds with
  | nil => rfl
  | cons d ds ih => rw [declarators, ih, List.map_cons]

end Printer

/-- What a list begins with: its first item, or else what comes after it. -/
theorem Printer.ahead_commas {w : α → Writer} {P : TokenKind → Prop} {xs : List α}
    {ps : List Piece} (hnil : P (ahead ps)) (h : ∀ x ∈ xs, ∀ ps, P (ahead (w x ps))) :
    P (ahead (commas (xs.map w) ps)) := by
  match xs with
  | [] => exact hnil
  | [x] => exact h x List.mem_cons_self _
  | x :: _ :: _ => exact h x List.mem_cons_self _

theorem Piece.ahead_tok {t : String} {k : TokenKind} (hk : k.Spellable)
    (ht : t.toList = k.spelling) (ps : List Piece) : ahead (tok t ps) = k := by
  rw [tok, ahead, ht, ofSpelling_spelling hk]

theorem Piece.ahead_space (ps : List Piece) : ahead (Printer.space ps) = ahead ps := rfl

theorem Piece.ahead_newline (level : Nat) (ps : List Piece) :
    ahead (Printer.newline level ps) = ahead ps := rfl

theorem Piece.ahead_word (k : Keyword) (ps : List Piece) : ahead (word k ps) = .keyword k :=
  ahead_tok (k := .keyword k) trivial rfl ps

theorem Piece.ahead_symbol (op : Operator) (ps : List Piece) : ahead (symbol op ps) = .operator op :=
  ahead_tok (k := .operator op) trivial rfl ps

namespace Parser
variable {style : Style} {c : Context} {s : State} {ps : List Piece}

/-- From `s`, `p` reads something that differs from `a` in its notes alone, and stops in front of the
pieces. -/
def Rereads (style : Style) (f : α → β) (p : Parse α) (c : Context) (s : State) (a : α)
    (ps : List Piece) : Prop :=
  ∃ a' t, Returns p c s a' t ∧ f a' = f a ∧ t.Faces style ps

section
variable (hstyle : ∀ c ∈ style.indentation, Text.isBlank c = true)
include hstyle

/-- From a token on to the next one. -/
theorem State.Faces.step {text : String} {k : TokenKind} (h : s.Faces style (tok text ps))
    (hk : k.Spellable) (htext : text.toList = k.spelling) {b : Bool}
    (hs : (Piece.ahead ps).suits b = true) :
    s.current.kind = k ∧ ∃ t, Moves b s t ∧ t.Faces style ps := by
  obtain ⟨t, hm, ht, -⟩ := h.exists_moves hstyle hs
  exact ⟨h.kind.trans (ahead_tok hk htext ps), t, hm, ht⟩

theorem identifier_rereads {i : Identifier Span} (hi : (TokenKind.identifier i.name).Spellable)
    (hs : (ahead ps).suits true = true) (h : s.Faces style (name i ps)) :
    Rereads style (Identifier.map forget) identifier c s i ps := by
  obtain ⟨hk, t, hm, ht⟩ := h.step hstyle (k := .identifier i.name) hi rfl hs
  exact ⟨_, t, returns_identifier.2 ⟨i.name, hk, hm, rfl⟩, rfl, ht⟩

theorem literal_rereads {l : Literal Span} (hl : l.value.token.Spellable)
    (hs : (ahead ps).suits true = true) (h : s.Faces style (Printer.literal l ps)) :
    Rereads style (Literal.map forget) literal c s l ps := by
  obtain ⟨note, v⟩ := l
  have htext : (String.ofList (literalText v)).toList = v.token.spelling := by
    rw [String.toList_ofList]
    cases v with
    | boolean b => cases b <;> rfl
    | _ => rfl
  obtain ⟨hk, t, hm, ht⟩ := h.step hstyle hl htext hs
  have hv : literalValue? s.current.kind = some v := by
    rw [hk]
    cases v <;> rfl
  exact ⟨_, t, returns_literal.2 ⟨v, hv, hm, rfl⟩, rfl, ht⟩

theorem key_rereads {k : PropertyKey Span} (hy : ∀ x ∈ k.yield, x.Spellable)
    (hs : (ahead ps).suits true = true) (h : s.Faces style (key k ps)) :
    Rereads style (PropertyKey.map forget) propertyKey c s k ps := by
  cases k with
  | identifier i =>
    obtain ⟨i', t, hr, he, ht⟩ := identifier_rereads hstyle (hy _ List.mem_cons_self) hs h
    exact ⟨_, t, returns_propertyKey.2 (.inl ⟨i', hr, rfl⟩), congrArg PropertyKey.identifier he, ht⟩
  | literal l =>
    obtain ⟨l', t, hr, he, ht⟩ := literal_rereads hstyle (hy _ List.mem_cons_self) hs h
    exact ⟨_, t, returns_propertyKey.2 (.inr ⟨l', hr, rfl⟩), congrArg PropertyKey.literal he, ht⟩

/-! ## Lists -/

section
variable {f : α → β} {p : Parse α} {w : α → Writer} {P : TokenKind → Prop}

theorem separated_rereads (hcomma : P .comma) (hP : P (ahead ps))
    (hne : ahead ps ≠ .comma) : ∀ {x : α} {xs : List α} {s : State},
    (∀ y ∈ x :: xs, ∀ ps s, P (ahead ps) → s.Faces style (w y ps) → Rereads style f p c s y ps) →
    (∀ y ∈ xs, ∀ ps, (ahead (w y ps)).suits false = true) →
    s.Faces style (commas ((x :: xs).map w) ps) →
    ∃ x' u xs' t, Returns p c s x' u ∧ AfterCommas (Returns p c) u xs' t ∧ f x' = f x ∧
      xs'.map f = xs.map f ∧ t.Faces style ps
  | x, [], s, hitem, _, h => by
    obtain ⟨x', u, hx, he, hu⟩ := hitem x List.mem_cons_self ps s hP h
    exact ⟨x', u, [], u, hx, .done (hu.kind ▸ hne), he, rfl, hu⟩
  | x, y :: ys, s, hitem, hfirst, h => by
    have hcommas : s.Faces style
        (w x (tok "," (space (commas ((y :: ys).map w) ps)))) := h
    obtain ⟨x', u, hx, he, hu⟩ := hitem x List.mem_cons_self _ s
      (by rwa [ahead_tok (k := .comma) trivial rfl]) hcommas
    have hsuits : (ahead (space (commas ((y :: ys).map w) ps))).suits false = true := by
      cases ys with
      | nil => exact hfirst y List.mem_cons_self _
      | cons z zs => exact hfirst y List.mem_cons_self _
    obtain ⟨hk, v, hm, hv⟩ := hu.step hstyle (k := .comma) trivial rfl hsuits
    obtain ⟨y', v', ys', t, hy, hys, hey, heys, ht⟩ := separated_rereads hcomma hP hne
      (fun z hz => hitem z (List.mem_cons_of_mem _ hz))
      (fun z hz => hfirst z (List.mem_cons_of_mem _ hz)) hv
    refine ⟨x', u, y' :: ys', t, hx, .more hk hm hy hys, he, ?_, ht⟩
    rw [List.map_cons, List.map_cons, hey, heys]

theorem closedList_rereads {k : TokenKind} {close : String} {xs : List α} (hlast : k.Spellable)
    (hclose : close.toList = k.spelling) (hP : P k) (hcomma : P .comma)
    (hne : k ≠ .comma)
    (hitem : ∀ y ∈ xs, ∀ ps s, P (ahead ps) → s.Faces style (w y ps) →
      Rereads style f p c s y ps)
    (hfirst : ∀ y ∈ xs, ∀ ps, (ahead (w y ps)).suits false = true ∧ ahead (w y ps) ≠ k)
    (hn : xs.length ≤ c.budget) (hs : (ahead ps).suits true = true)
    (h : s.Faces style (commas (xs.map w) (tok close ps))) :
    Rereads style (List.map f) (closedList k p) c s xs ps := by
  cases xs with
  | nil =>
    obtain ⟨hk, t, hm, ht⟩ := State.Faces.step hstyle h hlast hclose hs
    exact ⟨[], t, returns_closedList.2 ⟨.empty hk hm, hn⟩, rfl, ht⟩
  | cons x xs =>
    have hahead := ahead_tok hlast hclose ps
    have hkind : s.current.kind ≠ k := by
      rw [h.kind]
      cases xs with
      | nil => exact (hfirst x List.mem_cons_self _).2
      | cons y ys => exact (hfirst x List.mem_cons_self _).2
    obtain ⟨x', u, xs', v, hx, hxs, he, hes, hv⟩ := separated_rereads hstyle hcomma
      (by rwa [hahead]) (by rwa [hahead]) hitem
      (fun y hy ps => (hfirst y (List.mem_cons_of_mem _ hy) ps).1) h
    obtain ⟨hk, t, hm, ht⟩ := State.Faces.step hstyle hv hlast hclose hs
    have hlength : xs'.length = xs.length := by
      rw [← List.length_map f, hes, List.length_map]
    refine ⟨x' :: xs', t, returns_closedList.2 ⟨.filled hkind hx hxs hk hm, ?_⟩, ?_, ht⟩
    · simpa [hlength] using hn
    · rw [List.map_cons, List.map_cons, he, hes]

end

theorem parameters_rereads {is : List (Identifier Span)}
    (hy : ∀ k ∈ is.flatMap (·.yield), k.Spellable) (hn : is.length ≤ c.budget)
    (hs : (ahead ps).suits true = true)
    (h : s.Faces style (tok "(" (commas (is.map name) (tok ")" ps)))) :
    Rereads style (Identifier.mapList forget) parameters c s is ps := by
  have hspell : ∀ i ∈ is, (TokenKind.identifier i.name).Spellable := fun i hi =>
    hy _ (List.mem_flatMap.2 ⟨i, hi, List.mem_cons_self⟩)
  have hfirst : ∀ i ∈ is, ∀ ps, ahead (name i ps) = .identifier i.name := fun i hi ps =>
    ahead_tok (k := .identifier i.name) (hspell i hi) rfl ps
  have hstart : (ahead (commas (is.map name) (tok ")" ps))).suits false = true :=
    ahead_commas (P := fun k => k.suits false = true)
      ((ahead_tok (t := ")") (k := .rightParen) trivial rfl ps).symm ▸ rfl)
      fun i hi ps => hfirst i hi ps ▸ rfl
  obtain ⟨hk, u, hm, hu⟩ := State.Faces.step hstyle h (k := .leftParen) trivial rfl hstart
  obtain ⟨is', t, hr, he, ht⟩ := closedList_rereads hstyle (f := Identifier.map forget)
    (P := fun k => k.closes = true) (k := .rightParen) trivial rfl rfl rfl nofun
    (fun i hi ps s hP hf => identifier_rereads hstyle (hspell i hi)
      (TokenKind.suits_of_closes hP true) hf)
    (fun i hi ps => by rw [hfirst i hi ps]; exact ⟨rfl, nofun⟩) hn hs hu
  obtain ⟨hl, hlen⟩ := returns_closedList.1 hr
  exact ⟨is', t, returns_parameters.2 ⟨u, hk, hm, hl, hlen⟩, he, ht⟩

end
end Parser
end ScriptTree
