import ScriptTree.Proofs.Depth
import ScriptTree.Proofs.Indentation
import ScriptTree.Proofs.Labels
import ScriptTree.Proofs.Notes
import ScriptTree.Proofs.RereadStatements
import ScriptTree.Proofs.SinglePass
import ScriptTree.Transform

/-! # A printed script is read as it was

Twice as many levels of nesting are enough to read what was printed, since a list of expressions that
commas join is printed as a group, and a group takes one level more. Labels are read alike because the
checks depend on nothing but the tree. -/
namespace ScriptTree

open Piece Printer

/-! ## The pieces of a script -/

theorem Printer.program_append (body : List (Stmt α)) (ps : List Piece) :
    program body ps = program body [] ++ ps := by
  cases body with
  | nil => rfl
  | cons s ss =>
    have hrel : ∀ ps, program (s :: ss) ps = _ :=
      (drawn_stmt s).relative.comp (drawn_lines ss).relative 0
    rw [hrel ps, hrel [], List.append_nil]

theorem Piece.render_append_newline {style : Style} (h : style.minified = false) (ps : List Piece)
    (last : Option Char) :
    render style last (ps ++ [.newline 0]) = render style last ps ++ ['\n'] := by
  induction ps generalizing last with
  | nil => simp [render, h, Style.lineStart]
  | cons p ps ih => cases p <;> simp [render, h, ih]

/-- The text of a script is that of its pieces, with at most a line break behind them. -/
theorem Program.exists_render (style : Style) (p : Program α) : ∃ ps, ahead ps = .endOfInput ∧
    Linked ps ∧ (p.print style).toList = render style none (program p.body ps) := by
  rw [print, String.toList_ofList]
  split
  · exact ⟨[], rfl, trivial, rfl⟩
  · rename_i h
    have hm : style.minified = false := (Bool.or_eq_false_iff.1 (Bool.eq_false_iff.2 h)).1
    refine ⟨[.newline 0], rfl, trivial, ?_⟩
    rw [program_append p.body [.newline 0], render_append_newline hm]

theorem Printer.suits_program {body : List (Stmt α)} {ps : List Piece}
    (h : Sound (Stmt.nodesList body) (Stmt.yieldList body)) (hps : ahead ps = .endOfInput) :
    (ahead (program body ps)).suits false = true := by
  cases body with
  | nil => exact hps.symm ▸ rfl
  | cons x xs =>
    have hx : Sound x.nodes x.yield :=
      ⟨(List.forall_mem_append.1 h.1).1, (List.forall_mem_append.1 h.2).1⟩
    exact TokenKind.suits_of_begins (hx.begins 0 (lines 0 xs ps))

namespace Parser

variable {style : Style} {c c' : Context} {s s' t : State} {ps : List Piece}

section
variable (hstyle : ∀ c ∈ style.indentation, Text.isBlank c = true)
include hstyle

/-! ## All levels of nesting -/

/-- A list of expressions takes one level more when it is read again, and nothing takes more. -/
theorem readers_reread (n m : Nat) (h : 2 * n ≤ m) :
    RereadsExpressions style (readers n) (readers m) ∧
      RereadsStatements style (readers n) (readers m) := by
  induction n generalizing m with
  | zero =>
    exact ⟨fun _ _ _ _ _ _ h => absurd h returns_tooDeep, fun _ _ _ _ h => absurd h returns_tooDeep⟩
  | succ n ih =>
    obtain ⟨k, rfl⟩ := Nat.exists_eq_add_of_le' (Nat.le_trans (Nat.le_add_left 2 (2 * n)) h)
    have hk : 2 * n ≤ k := by omega
    obtain ⟨hexpressions, hstatements⟩ := ih (k + 1) (Nat.le_succ_of_le hk)
    have hR : Rereading style (readers n) (readers (k + 1)) (readers k) :=
      ⟨(readers_obey fits_local n).ended, hexpressions, hstatements, (ih k hk).1, fun h => h⟩
    constructor
    · intro c s floor forHead e t h e₀ he hsound c' s' level ps forHead' hc hin hnone hprec hf
      exact expression_rereads hstyle hR hc hin h he hsound hnone hprec hf
    · intro c s x t h hsound c' s' level ps hc hs helse hf
      have hsettled : Lax { c with scope := c.scope.settle } { c' with scope := c'.scope.settle } :=
        ⟨hc.labels, hc.budget⟩
      obtain ⟨x', t', hform, hmap, ht⟩ := statementForm_rereads hstyle hR hsettled
        c'.scope.stacked (returns_statement.1 h) (statement_shapely h) hsound hs helse hf
      exact ⟨x', t', returns_statement.2 hform, hmap, ht⟩

theorem program_rereads {n m : Nat} (hn : 2 * n ≤ m) {p : Program Span}
    (hp : Returns (program (readers n)) c s p t) (hsound : Sound p.nodes p.yield) (hc : Lax c c')
    (hps : ahead ps = .endOfInput) (hf : s'.Faces style (Printer.lines 0 p.body ps)) :
    ∃ p' t', Returns (program (readers m)) c' s' p' t' ∧ p'.map forget = p.map forget := by
  obtain ⟨body, hi, hlen, rfl⟩ := returns_program.1 hp
  obtain ⟨body', t', hi', hmap, -⟩ := lines_rereads (readers_reread hstyle n m hn).2 hc
    (· == .endOfInput) (fun k hk => by rcases k with _ | _ <;> first | rfl | cases hk)
    (by rw [hps]; rfl) (by rw [hps]; exact ⟨rfl, nofun⟩) (by rw [hps]; nofun)
    (Items.forall_mem (fun s x t h => ⟨s, t, h⟩) hi) hsound hf
  have hlen' : body'.length = body.length := by
    simpa using congrArg List.length hmap
  refine ⟨_, t', returns_program.2 ⟨body', hi', ?_, rfl⟩, ?_⟩
  · exact hlen' ▸ Nat.lt_of_lt_of_le hlen hc.budget
  · rw [Program.map, Program.map, Stmt.mapList_eq, Stmt.mapList_eq, hmap]

/-- What was printed of a script that was read is read without checks. -/
theorem run_rereads {source : List Char} {q : Program Span} {text : List Char} {limit : Nat}
    (h : (run c source).result = .ok q) (hq : ∀ e ∈ q.nodes, e.restorable = true)
    (htext : (q.print style).toList = text) (hl : 2 * c.limit ≤ limit) :
    ∃ q', (run (Context.ofText text limit).unchecked text).result.map (·.locate text) = .ok q' ∧
      q'.map forget = q.map forget := by
  obtain ⟨s, t, -, hp⟩ := run_eq_ok.1 h
  have hsound : Sound q.nodes q.yield :=
    ⟨fun e he => ⟨run_obeys fits_local h e he, hq e he⟩, run_spellable h⟩
  obtain ⟨ps, hps, hlinked, hrender⟩ := q.exists_render style
  obtain ⟨s', hbegins, hfaces⟩ := exists_begins hstyle
    (linked_program hsound hlinked (by rw [hps]; nofun)) (suits_program hsound hps)
  rw [← hrender, htext] at hbegins
  -- lists are read again with room for those of both texts, which makes no difference
  have hlax : Lax c { (Context.ofText text limit).unchecked with
      budget := c.budget + text.length + 1 } :=
    ⟨rfl, Nat.le_trans (Nat.le_add_right _ _) (Nat.le_add_right _ _)⟩
  have hlines : s'.Faces style (Printer.lines 0 q.body ps) := by
    cases hbody : q.body with
    | nil => rwa [hbody] at hfaces
    | cons x xs => rwa [hbody] at hfaces
  obtain ⟨q', t', hp', hmap⟩ := program_rereads hstyle hl hp hsound hlax hps hlines
  have hrun := run_eq_ok.2 ⟨s', t', hbegins, hp'⟩
  refine ⟨q'.locate text, ?_, ?_⟩
  · have hbudget := (@run_budget (Context.ofText text limit).unchecked text
      (c.budget + text.length + 1) (Nat.lt_add_of_pos_right (by decide)) (by omega)).2
    rw [← hbudget, hrun]
    rfl
  · rw [Program.locate, Program.map_map]
    exact hmap

/-- A script that was read is printed as a text that is read with the same tree, but for the notes. -/
theorem exists_parse_print {source : List Char} {maxDepth limit : Nat} {q : Program Span}
    (h : (run (Context.ofText source maxDepth) source).result = .ok q)
    (hq : ∀ e ∈ q.nodes, e.restorable = true) (hl : 2 * maxDepth ≤ limit) :
    ∃ p', parse (q.print style) limit = .ok p' ∧ p'.map forget = q.map forget := by
  obtain ⟨q', hq', hmap⟩ := run_rereads hstyle h hq rfl hl
  cases hr : (run (Context.ofText (q.print style).toList limit).unchecked
      (q.print style).toList).result with
  | error f =>
    rw [hr] at hq'
    cases hq'
  | ok r =>
    rw [hr] at hq'
    obtain rfl : r.locate (q.print style).toList = q' := Except.ok.inj hq'
    rw [Program.locate, Program.map_map] at hmap
    have hscoped : Scoped r.sites := by
      rw [← Program.scoped_map forget r, show r.map forget = q.map forget from hmap,
        Program.scoped_map]
      exact ((run_eq_ok_iff_scoped rfl rfl).1 h).2
    refine ⟨_, parse_eq_ok.2 ⟨r, (run_eq_ok_iff_scoped rfl rfl).2 ⟨hr, hscoped⟩, rfl⟩, ?_⟩
    rw [Program.locate, Program.map_map]
    exact hmap

end
end Parser

/-! ## The laws -/

/-- What is laid out anew is the print of the tree. -/
theorem transform_eq_ok {source text : String} {maxDepth : Nat} {style : Style} :
    transform source maxDepth style = .ok text ↔
      ∃ p, parse source maxDepth = .ok p ∧ p.print style = text := by
  rw [transform, parse]
  cases parseSpans source maxDepth with
  | error f =>
    constructor
    · intro h
      cases h
    · rintro ⟨p, hp, -⟩
      cases hp
  | ok q =>
    constructor
    · intro h
      exact ⟨_, rfl, (Program.print_map _ style q).trans (Except.ok.inj h)⟩
    · rintro ⟨_, hp, rfl⟩
      obtain rfl := Except.ok.inj hp
      exact congrArg Except.ok (Program.print_map _ style q).symm

/-- What fails under each limit that a script of its length may exceed fails under any limit. -/
theorem Parser.parse_fails {source : String}
    (h : ∀ limit < 2 * source.toList.length + 3, (parse source limit).isOk = false) (limit : Nat) :
    (parse source limit).isOk = false := by
  rcases Nat.lt_or_ge limit (2 * source.toList.length + 3) with hl | hl
  · exact h limit hl
  · rw [parse_eq_of_le (Nat.le_of_succ_le hl) (exceeds_eq_false_of_le (Nat.le_refl _))]
    exact h _ (Nat.lt_succ_self _)

theorem exists_parse_of_any (source : String) (maxDepth : Nat) (check : Program Location → Bool)
    (h : (parse source maxDepth).toOption.any check = true) :
    ∃ p, parse source maxDepth = .ok p ∧ check p = true := by
  cases hp : parse source maxDepth with
  | error f =>
    rw [hp] at h
    cases h
  | ok p =>
    rw [hp] at h
    exact ⟨p, rfl, h⟩

/-- Printing keeps the tree: if it restores the nodes of a script, what is printed is read, under twice
the limit or more, with the same tree but for its locations. -/
theorem parse_print {source : String} {maxDepth limit : Nat} {style : Style}
    {p : Program Location} (hstyle : ∀ c ∈ style.indentation, Text.isBlank c = true)
    (h : parse source maxDepth = .ok p) (hp : ∀ e ∈ p.nodes, e.restorable = true)
    (hl : 2 * maxDepth ≤ limit) :
    ∃ p', parse (p.print style) limit = .ok p' ∧ p'.map forget = p.map forget := by
  obtain ⟨q, hq, rfl⟩ := parse_eq_ok.1 h
  rw [Program.locate] at hp ⊢
  rw [Program.print_map, Program.map_map]
  exact Parser.exists_parse_print hstyle hq ((Program.restorable_map _ q).1 hp) hl

/-- A loop with a list in its head, behind a condition with a construction that has arguments. -/
theorem parse_print_list : ∃ p p',
    parse "if (a) new b(c / 2)[d]; else for (var i in e, f) l: g++" 9 = .ok p ∧
    parse (p.print ⟨true, some "\t"⟩) 18 = .ok p' ∧ p'.map forget = p.map forget := by
  obtain ⟨p, hp, hr⟩ := exists_parse_of_any
    "if (a) new b(c / 2)[d]; else for (var i in e, f) l: g++" 9 (fun p => p.nodes.all Expr.restorable)
    (by decide +kernel)
  have hstyle : ∀ c ∈ (⟨true, some "\t"⟩ : Style).indentation, Text.isBlank c = true :=
    List.all_eq_true.1 (by decide)
  obtain ⟨p', hp', hmap⟩ := parse_print hstyle hp (List.all_eq_true.1 hr) (show 2 * 9 ≤ 18 by decide)
  exact ⟨p, p', hp, hp', hmap⟩

/-- A division by what `new` makes of a function: without its empty parentheses, the slash stands
right behind the body, and no limit lets that be read. No number stands after a dot in it, and `new`
takes no call. -/
theorem parse_print_body : ∃ p, parse "new function()\x7b\x7d()/a;" 9 = .ok p ∧
    (p.nodes.all fun
      | .member _ _ property true => !property.leadsWithNumber
      | .new _ (.call _ _ _) [] => false
      | _ => true) = true ∧
    ∀ limit, (parse (p.print ⟨true, none⟩) limit).isOk = false := by
  obtain ⟨p, hp, hcheck⟩ := exists_parse_of_any
    "new function()\x7b\x7d()/a;" 9 (fun p => (p.nodes.all fun
      | .member _ _ property true => !property.leadsWithNumber
      | .new _ (.call _ _ _) [] => false
      | _ => true) && p.print ⟨true, none⟩ == "new function()\x7b\x7d/ a;") (by decide +kernel)
  obtain ⟨hnodes, hprint⟩ := Bool.and_eq_true_iff.1 hcheck
  refine ⟨p, hp, hnodes, ?_⟩
  rw [beq_iff_eq.1 hprint]
  exact Parser.parse_fails (by decide +kernel)

/-- What is laid out stays as it is: if the printer restores the nodes of a script, laying it out a
second time changes nothing. Twice the limit is enough, and so is any limit that no script of that
length exceeds. -/
theorem transform_transform {source text : String} {maxDepth limit : Nat} {style : Style}
    {p : Program Location} (hstyle : ∀ c ∈ style.indentation, Text.isBlank c = true)
    (hp : parse source maxDepth = .ok p) (hr : ∀ e ∈ p.nodes, e.restorable = true)
    (h : transform source maxDepth style = .ok text)
    (hl : 2 * maxDepth ≤ limit ∨ 2 * text.toList.length + 2 ≤ limit) :
    transform text limit style = .ok text := by
  obtain ⟨q, hq, rfl⟩ := parse_eq_ok.1 hp
  obtain ⟨p₁, hp₁, rfl⟩ := transform_eq_ok.1 h
  obtain rfl := Except.ok.inj (hp.symm.trans hp₁)
  rw [Program.locate, Program.print_map] at hl ⊢
  obtain ⟨p', hp', hmap⟩ := Parser.exists_parse_print hstyle hq ((Program.restorable_map _ q).1 hr)
    (Nat.le_max_right limit (2 * maxDepth))
  have hprint : p'.print style = q.print style := by
    rw [← Program.print_map forget style p', hmap, Program.print_map]
  refine transform_eq_ok.2 ⟨p', ?_, hprint⟩
  rcases hl with hl | hl
  · rwa [Nat.max_eq_left hl] at hp'
  · rwa [Parser.parse_eq_of_le (Nat.le_max_left _ _) (Parser.exceeds_eq_false_of_le hl)] at hp'

/-- A function that is called, and its result divided. -/
theorem transform_transform_call : ∃ text,
    transform "(function f(x)\x7b return x = \x7b\x7d; \x7d)(1) . y / 2" 9 ⟨false, none⟩ = .ok text ∧
    transform text 18 ⟨false, none⟩ = .ok text := by
  obtain ⟨p, hp, hr⟩ := exists_parse_of_any
    "(function f(x)\x7b return x = \x7b\x7d; \x7d)(1) . y / 2" 9 (fun p => p.nodes.all Expr.restorable)
    (by decide +kernel)
  have h : transform _ 9 ⟨false, none⟩ = .ok (p.print ⟨false, none⟩) := transform_eq_ok.2 ⟨p, hp, rfl⟩
  have hstyle : ∀ c ∈ (⟨false, none⟩ : Style).indentation, Text.isBlank c = true :=
    List.all_eq_true.1 (by decide)
  exact ⟨_, h, transform_transform hstyle hp (List.all_eq_true.1 hr) h (.inl (by decide))⟩

/-- A number after a dot: printed without the blank, it takes the dot, and no limit lets that be
read. -/
theorem transform_transform_number : transform "a. 1;" 9 ⟨false, none⟩ = .ok "a.1;\n" ∧
    ∀ limit, transform "a.1;\n" limit ⟨false, none⟩ ≠ .ok "a.1;\n" := by
  constructor
  · decide +kernel
  · intro limit h
    obtain ⟨p, hp, -⟩ := transform_eq_ok.1 h
    have hfails : (parse "a.1;\n" limit).isOk = false := Parser.parse_fails (by decide +kernel) limit
    rw [hp] at hfails
    cases hfails

end ScriptTree
