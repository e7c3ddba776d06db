import Mathlib.Data.List.Forall2
import ScriptTree.Proofs.Lockstep
import ScriptTree.Proofs.Tokens

/-! # Only line breaks in trivia matter

A text can be laid out anew: its tokens stay, and other blanks and comments come between them. Tokens
that touched may be moved apart, tokens that stood apart stay apart, and a line ends between two
tokens if one did before. Then the lexer finds the same tokens, whatever stands after them, and the
script is read in lockstep. -/
namespace ScriptTree

/-! ## Trivia -/

namespace Trivia

/-- Blanks, line comments that a line break closes, and block comments that are closed. -/
inductive Closed : List Char → Prop
  | nil : Closed []
  | blank {c cs} : Text.isBlank c = true → Closed cs → Closed (c :: cs)
  | line {body c cs} : (∀ d ∈ body, Text.isLineBreak d = false) → Text.isLineBreak c = true →
      Closed cs → Closed ('/' :: '/' :: (body ++ c :: cs))
  | block {body cs} : ¬ ['*', '/'] <:+: body → Closed cs →
      Closed ('/' :: '*' :: (body ++ '*' :: '/' :: cs))

theorem skipFrom_blank {c : Char} (h : Text.isBlank c = true) (n : Nat) (cs : List Char) :
    skipFrom .between n (c :: cs) = skipFrom .between (n + 1) cs := by
  have hslash : c ≠ '/' := Text.ne_of_isBlank h (by decide)
  rw [skipFrom.eq_def]
  split
  case h_5 e =>
    obtain ⟨rfl, rfl⟩ := List.cons.inj e
    rw [h]
    rfl
  all_goals simp_all

theorem skipFrom_lineComment {body : List Char} (h : ∀ d ∈ body, Text.isLineBreak d = false)
    {c : Char} (hc : Text.isLineBreak c = true) (n : Nat) (cs : List Char) :
    skipFrom .lineComment n (body ++ c :: cs) = skipFrom .between (n + (body.length + 1)) cs := by
  have step (d : Char) (n : Nat) (ds : List Char) : skipFrom .lineComment n (d :: ds) =
      skipFrom (if Text.isLineBreak d then .between else .lineComment) (n + 1) ds := rfl
  induction body generalizing n with
  | nil => rw [List.nil_append, step, if_pos hc, List.length_nil]
  | cons d body ih =>
    rw [List.cons_append, step, if_neg (by simp [h d List.mem_cons_self]),
      ih fun e he => h e (List.mem_cons_of_mem _ he)]
    congr 1
    rw [List.length_cons]
    omega

/-- A character of a block comment that does not close it. -/
theorem skipFrom_inBlock {d : Char} {ds : List Char} (h : d = '*' → ds.head? ≠ some '/')
    (start n : Nat) :
    skipFrom (.blockComment start) n (d :: ds) = skipFrom (.blockComment start) (n + 1) ds := by
  rw [skipFrom.eq_def]
  split
  case h_7 e =>
    obtain ⟨rfl, rfl⟩ := List.cons.inj e
    exact absurd rfl (h rfl)
  all_goals simp_all

theorem skipFrom_blockComment {body : List Char} (h : ¬ ['*', '/'] <:+: body) (start n : Nat)
    (cs : List Char) : skipFrom (.blockComment start) n (body ++ '*' :: '/' :: cs) =
      skipFrom .between (n + (body.length + 2)) cs := by
  induction body generalizing n with
  | nil => rfl
  | cons d body ih =>
    have hopen : d = '*' → (body ++ '*' :: '/' :: cs).head? ≠ some '/' := by
      rintro rfl
      cases body with
      | nil => simp
      | cons d' body =>
        intro hd
        obtain rfl : d' = '/' := by simpa using hd
        exact h ⟨[], body, rfl⟩
    rw [List.cons_append, skipFrom_inBlock hopen, ih fun hin => h (List.infix_cons hin)]
    congr 1
    rw [List.length_cons]
    omega

theorem Closed.skipFrom {cs rest : List Char} (h : Closed cs) (hr : Bare rest) (n : Nat) :
    skipFrom .between n (cs ++ rest) = ⟨n + cs.length, true⟩ := by
  have hline (n : Nat) (ds : List Char) :
      Trivia.skipFrom .between n ('/' :: '/' :: ds) = Trivia.skipFrom .lineComment (n + 2) ds := rfl
  have hblock (n : Nat) (ds : List Char) : Trivia.skipFrom .between n ('/' :: '*' :: ds) =
      Trivia.skipFrom (.blockComment n) (n + 2) ds := rfl
  induction h generalizing n with
  | nil => exact hr n
  | blank hc _ ih =>
    rw [List.cons_append, skipFrom_blank hc, ih, List.length_cons]
    congr 1
    omega
  | line hbody hc _ ih =>
    simp only [List.cons_append, List.append_assoc, List.length_cons, List.length_append]
    rw [hline, skipFrom_lineComment hbody hc, ih]
    congr 1
    omega
  | block hbody _ ih =>
    simp only [List.cons_append, List.append_assoc, List.length_cons, List.length_append]
    rw [hblock, skipFrom_blockComment hbody, ih]
    congr 1
    omega

/-- Trivia that a walk in some mode is over with, before other text. -/
def Mode.Closes : Mode → List Char → Prop
  | .between, cs => Closed cs
  | .lineComment, cs => ∃ body c after, cs = body ++ c :: after ∧
      (∀ d ∈ body, Text.isLineBreak d = false) ∧ Text.isLineBreak c = true ∧ Closed after
  | .blockComment _, cs => ∃ body after, cs = body ++ '*' :: '/' :: after ∧
      ¬ ['*', '/'] <:+: body ∧ Closed after

theorem skipFrom_closes {mode : Mode} {n : Nat} {cs : List Char}
    (h : (Trivia.skipFrom mode n cs).valid = true)
    (hlt : (Trivia.skipFrom mode n cs).length < n + cs.length) :
    mode.Closes (cs.take ((Trivia.skipFrom mode n cs).length - n)) := by
  have take_one {n length : Nat} (h : n + 1 ≤ length) (c : Char) (cs : List Char) :
      (c :: cs).take (length - n) = c :: cs.take (length - (n + 1)) := by
    rw [show length - n = length - (n + 1) + 1 by omega, List.take_succ_cons]
  have take_two {n length : Nat} (h : n + 2 ≤ length) (c d : Char) (cs : List Char) :
      (c :: d :: cs).take (length - n) = c :: d :: cs.take (length - (n + 2)) := by
    rw [show length - n = length - (n + 2) + 1 + 1 by omega, List.take_succ_cons,
      List.take_succ_cons]
  fun_induction Trivia.skipFrom mode n cs with
  | case1 => cases h
  | case2 => exact absurd hlt (Nat.lt_irrefl _)
  | case3 n cs ih =>
    rw [take_two (skipFrom_spec h).1]
    obtain ⟨body, c, after, hcs, hbody, hc, hafter⟩ :=
      ih h (by simp only [List.length_cons] at hlt; omega)
    rw [hcs]
    exact .line hbody hc hafter
  | case4 n cs ih =>
    rw [take_two (skipFrom_spec h).1]
    obtain ⟨body, after, hcs, hbody, hafter⟩ :=
      ih h (by simp only [List.length_cons] at hlt; omega)
    rw [hcs]
    exact .block hbody hafter
  | case5 n c cs _ _ hblank ih =>
    rw [take_one (skipFrom_spec h).1]
    exact .blank hblank (ih h (by rw [List.length_cons] at hlt; omega))
  | case6 => rw [Nat.sub_self]; exact .nil
  | case7 n c cs ih =>
    rw [take_one (skipFrom_spec h).1]
    have hrest := ih h (by rw [List.length_cons] at hlt; omega)
    cases hc : Text.isLineBreak c with
    | true =>
      rw [hc] at hrest
      exact ⟨[], c, _, rfl, by simp, hc, hrest⟩
    | false =>
      rw [hc] at hrest
      obtain ⟨body, d, after, hcs, hbody, hd, hafter⟩ := hrest
      refine ⟨c :: body, d, after, by rw [hcs, List.cons_append], ?_, hd, hafter⟩
      simpa [hc] using hbody
  | case8 start n cs ih =>
    rw [take_two (skipFrom_spec h).1]
    exact ⟨[], _, rfl, by simp, ih h (by simp only [List.length_cons] at hlt; omega)⟩
  | case9 start n c cs hopen ih =>
    rw [take_one (skipFrom_spec h).1]
    obtain ⟨body, after, hcs, hbody, hafter⟩ := ih h (by rw [List.length_cons] at hlt; omega)
    refine ⟨c :: body, after, by rw [hcs, List.cons_append], ?_, hafter⟩
    intro hin
    rcases List.infix_cons_iff.1 hin with ⟨after', hpre⟩ | hin
    · obtain ⟨rfl, rfl⟩ := List.cons.inj hpre
      obtain ⟨more, hmore⟩ := hcs ▸ List.take_prefix _ cs
      exact hopen _ rfl hmore.symm
    · exact hbody hin

theorem Bare.isBlank_eq_false {c : Char} {cs : List Char} (h : Bare (c :: cs)) :
    Text.isBlank c = false := by
  rw [Bool.eq_false_iff]
  intro hb
  have hskip := skipFrom_blank hb 0 cs
  have hend : Trivia.skipFrom .between 1 cs = ⟨0, true⟩ := hskip.symm.trans (h 0)
  have hle := (skipFrom_spec (congrArg Extent.valid hend)).1
  rw [hend] at hle
  exact absurd hle (by decide)

/-- Text without trivia in front stays so if what follows its first characters is loosened. -/
theorem Bare.looser {text rest rest' : List Char} (h : Bare (text ++ rest)) (ht : text ≠ [])
    (hr : Text.Looser rest rest') : Bare (text ++ rest') := by
  obtain ⟨c, text, rfl⟩ := List.exists_cons_of_ne_nil ht
  refine bare_cons (c := c) h.isBlank_eq_false ?_
  rintro rfl
  obtain ⟨hslash, hstar⟩ := bare_slash h
  cases text with
  | cons d text => exact ⟨hslash, hstar⟩
  | nil =>
    constructor
    · intro hd
      rcases hr.head hd with hb | hd
      · exact absurd hb (by decide)
      · exact hslash hd
    · intro hd
      rcases hr.head hd with hb | hd
      · exact absurd hb (by decide)
      · exact hstar hd

end Trivia

/-! ## Layouts -/

/-- How a text is laid out: its tokens, each with the gap before it, and the gap at its end. -/
structure Layout where
  tokens : List (List Char × List Char)
  last : List Char

namespace Layout

/-- The tokens and gaps in order. -/
def weave : List (List Char × List Char) → List Char → List Char
  | [], last => last
  | (gap, text) :: tokens, last => gap ++ (text ++ weave tokens last)

def text (l : Layout) : List Char := weave l.tokens l.last

/-- Where the tokens stand in a text that begins at an offset. -/
def spansFrom (offset : Nat) : List (List Char × List Char) → List Span
  | [] => []
  | (gap, text) :: tokens =>
    let start := offset + Text.bytes gap
    ⟨start, start + Text.bytes text⟩ :: spansFrom (start + Text.bytes text) tokens

def spans (l : Layout) : List Span := spansFrom 0 l.tokens

theorem weave_append (xs ys : List (List Char × List Char)) (last : List Char) :
    weave (xs ++ ys) last = weave xs [] ++ weave ys last := by
  induction xs with
  | nil => rfl
  | cons x xs ih =>
    obtain ⟨gap, text⟩ := x
    simp only [List.cons_append, weave, ih, List.append_assoc]

theorem weave_eq_append (xs : List (List Char × List Char)) (last : List Char) :
    weave xs last = weave xs [] ++ last := by
  simpa [weave] using weave_append xs [] last

theorem spansFrom_append (offset : Nat) (xs ys : List (List Char × List Char)) :
    spansFrom offset (xs ++ ys) =
      spansFrom offset xs ++ spansFrom (offset + Text.bytes (weave xs [])) ys := by
  induction xs generalizing offset with
  | nil => rfl
  | cons x xs ih =>
    obtain ⟨gap, text⟩ := x
    simp only [List.cons_append, spansFrom, ih, weave, Text.bytes_append, Nat.add_assoc]

theorem length_spansFrom (offset : Nat) (xs : List (List Char × List Char)) :
    (spansFrom offset xs).length = xs.length := by
  induction xs generalizing offset with
  | nil => rfl
  | cons x xs ih => simp [spansFrom, ih]

/-- A text is cut in one way where its tokens stand. -/
theorem eq_of_spans {l m : Layout} (ht : l.text = m.text) (hs : l.spans = m.spans) : l = m := by
  obtain ⟨xs, last⟩ := l
  obtain ⟨ys, last'⟩ := m
  simp only [Layout.text, spans] at ht hs
  generalize 0 = offset at hs
  induction xs generalizing ys offset with
  | nil =>
    cases ys with
    | nil => rw [show last = last' from ht]
    | cons y ys => cases hs
  | cons x xs ih =>
    cases ys with
    | nil => cases hs
    | cons y ys =>
      obtain ⟨gap, x⟩ := x
      obtain ⟨gap', y⟩ := y
      simp only [spansFrom, List.cons.injEq, Span.mk.injEq] at hs
      obtain ⟨⟨hstart, hstop⟩, hrest⟩ := hs
      obtain ⟨rfl, hcut⟩ := Text.append_inj_of_bytes_eq ht (by omega)
      obtain ⟨rfl, htail⟩ := Text.append_inj_of_bytes_eq hcut (by omega)
      obtain ⟨rfl, rfl⟩ := Layout.mk.inj (ih ys htail _ hrest)
      rfl

/-- Another gap in place of a gap: trivia that begins with a blank, if it is not empty, with a line
break if there was one. Only where there was nothing may be nothing. -/
structure Regaps (gap gap' : List Char) : Prop where
  closed : Trivia.Closed gap'
  empty : gap' = [] → gap = []
  blank : ∀ c, gap'.head? = some c → Text.isBlank c = true
  lines : gap'.any Text.isLineBreak = true ↔ gap.any Text.isLineBreak = true

/-- The same tokens in another layout. -/
structure Respaces (l l' : Layout) : Prop where
  tokens : List.Forall₂ (fun x y => x.2 = y.2 ∧ Regaps x.1 y.1) l.tokens l'.tokens
  last : Regaps l.last l'.last

theorem regaps_nil : Regaps [] [] := ⟨.nil, fun _ => rfl, by simp, Iff.rfl⟩

theorem Regaps.looser {gap gap' : List Char} (h : Regaps gap gap') {rest rest' : List Char}
    (hr : Text.Looser rest rest') : Text.Looser (gap ++ rest) (gap' ++ rest') := by
  cases gap' with
  | nil =>
    rw [h.empty rfl]
    exact hr
  | cons c gap' => exact .apart fun d hd => h.blank d hd

/-- Tokens that are not empty take up room in every layout. -/
theorem Respaces.length_le {l l' : Layout} (h : Respaces l l') (hl : ∀ x ∈ l.tokens, x.2 ≠ []) :
    l.tokens.length ≤ l'.text.length := by
  have htokens := h.tokens
  rw [Layout.text]
  generalize l.tokens = tokens, l'.tokens = tokens' at htokens hl
  induction htokens with
  | nil => exact Nat.zero_le _
  | @cons x y _ _ hx _ ih =>
    obtain ⟨hfirst, hrest⟩ := List.forall_mem_cons.1 hl
    have hpos := List.length_pos_iff.2 hfirst
    have hle := ih hrest
    rw [hx.1] at hpos
    simp only [weave, List.length_cons, List.length_append]
    omega

theorem Respaces.looser {l l' : Layout} (h : Respaces l l') : Text.Looser l.text l'.text := by
  have hlast : Text.Looser l.last l'.last := by simpa using h.last.looser (.refl [])
  have htokens := h.tokens
  rw [Layout.text, Layout.text]
  generalize l.tokens = tokens, l'.tokens = tokens' at htokens
  induction htokens with
  | nil => exact hlast
  | cons hx _ ih =>
    obtain ⟨htext, hgap⟩ := hx
    rw [weave, weave, htext]
    exact hgap.looser (ih.append_left _)

end Layout

/-! ## The next token -/

namespace Lexer

/-- Trivia, a token and the rest are found as they stand. -/
theorem next_of_cut (flag : Bool) {c : Cursor} {gap text rest : List Char} {k : TokenKind}
    (hc : c.rest = gap ++ (text ++ rest)) (hgap : Trivia.Closed gap)
    (hbare : Trivia.Bare (text ++ rest)) (hscan : scan flag (text ++ rest) = ⟨text.length, .ok k⟩) :
    ∃ token d, next flag c = (.ok token, d) ∧ token.kind = k ∧ d.rest = rest ∧
      Lexer.gap c = gap := by
  have hskip : Trivia.skip c.rest = ⟨gap.length, true⟩ := by
    rw [hc, Trivia.skip, hgap.skipFrom hbare, Nat.zero_add]
  have hrest : (c.advance gap.length).rest = text ++ rest := by
    show c.rest.drop gap.length = _
    rw [hc, List.drop_left]
  have hfound : next flag c = (.ok ⟨k, (c.advance gap.length).offset,
      ((c.advance gap.length).advance text.length).offset⟩,
      (c.advance gap.length).advance text.length) := by
    unfold next
    simp only [hskip, if_true, hrest, hscan]
  refine ⟨_, _, hfound, rfl, ?_, ?_⟩
  · show (c.advance gap.length).rest.drop text.length = rest
    rw [hrest, List.drop_left]
  · rw [Lexer.gap, hskip, hc, List.take_left]

/-- A token that was found is found in another gap, in front of a looser rest. -/
theorem Finds.respaced {flag : Bool} {c c' d : Cursor} {token : Token} {text gap' rest' : List Char}
    (h : Finds flag c token text d) (hk : token.kind ≠ .endOfInput)
    (hc : c'.rest = gap' ++ (text ++ rest')) (hgap : Trivia.Closed gap')
    (hr : Text.Looser d.rest rest') : ∃ token' d', next flag c' = (.ok token', d') ∧
      token'.kind = token.kind ∧ d'.rest = rest' ∧ Lexer.gap c' = gap' := by
  have ht := h.text_ne_nil hk
  refine next_of_cut flag hc hgap (h.bare.looser ht hr) ?_
  obtain ⟨a, text, rfl⟩ := List.exists_cons_of_ne_nil ht
  have hscan : Lexer.scan flag (a :: (text ++ d.rest)) = _ := h.scan
  obtain ⟨-, text₀, rest₀, hcs, hlen, hsame⟩ := scan_settles (congrArg (·.found.isOk) hscan)
  rw [hscan] at hlen hsame
  obtain ⟨rfl, rfl⟩ := List.append_inj hcs.symm hlen
  exact hsame rest' hr

end Lexer

/-- Two cursors in front of the same tokens, in two layouts of the text. -/
structure Layout.Ahead (tokens : List Token) (c c' : Cursor) (l l' : Layout) : Prop where
  text : l.text = c.rest
  text' : l'.text = c'.rest
  respaces : l.Respaces l'
  spans : Layout.spansFrom c.offset l.tokens = tokens.map (·.span)

namespace Layout.Ahead
variable {flag : Bool} {c c' d : Cursor} {token : Token} {text : List Char} {tokens : List Token}
  {l l' : Layout}

/-- At the end of both layouts only trivia are left. -/
theorem next_end (h : Ahead [] c c' l l') (hf : Lexer.Finds flag c token text d)
    (hk : token.kind = .endOfInput) :
    ∃ token' d' m m', Lexer.next flag c' = (.ok token', d') ∧ token.kind = token'.kind ∧
      (Lexer.gap c).any Text.isLineBreak = (Lexer.gap c').any Text.isLineBreak ∧
      Ahead [] d d' m m' := by
  obtain ⟨ts, last⟩ := l
  obtain ⟨ts', last'⟩ := l'
  obtain ⟨htext, htext', ⟨htokens, hlast⟩, hspans⟩ := h
  dsimp only at htokens hlast hspans
  cases ts with
  | cons x ts => cases hspans
  | nil =>
    cases htokens
    obtain ⟨rfl, hd⟩ := hf.at_end hk
    obtain rfl : last = Lexer.gap c := by
      simpa only [Layout.text, weave, hd, List.append_nil] using htext.trans hf.rest
    have hc' : c'.rest = last' ++ ([] ++ []) := by simpa [Layout.text, weave] using htext'.symm
    obtain ⟨token', d', hn, hk', hd', hgap⟩ :=
      Lexer.next_of_cut flag hc' hlast.closed Trivia.bare_nil rfl
    refine ⟨token', d', ⟨[], []⟩, ⟨[], []⟩, hn, hk.trans hk'.symm, ?_, hd.symm, hd'.symm,
      ⟨.nil, regaps_nil⟩, rfl⟩
    rw [hgap, Bool.eq_iff_iff]
    exact hlast.lines.symm

theorem next_token (h : Ahead (token :: tokens) c c' l l') (hf : Lexer.Finds flag c token text d)
    (hk : token.kind ≠ .endOfInput) :
    ∃ token' d' m m', Lexer.next flag c' = (.ok token', d') ∧ token.kind = token'.kind ∧
      (Lexer.gap c).any Text.isLineBreak = (Lexer.gap c').any Text.isLineBreak ∧
      Ahead tokens d d' m m' := by
  obtain ⟨ts, last⟩ := l
  obtain ⟨ts', last'⟩ := l'
  obtain ⟨htext, htext', ⟨htokens, hlast⟩, hspans⟩ := h
  dsimp only at htokens hlast hspans
  cases htokens with
  | nil => cases hspans
  | @cons x y ts ts' hx htokens =>
    obtain ⟨gap, x⟩ := x
    obtain ⟨gap', x'⟩ := y
    obtain ⟨rfl, hgap⟩ := hx
    obtain ⟨hspan, hspans⟩ := List.cons.inj hspans
    -- The token stands where the layout says, so the layout cuts the text as the lexer does.
    have hstart : c.offset + Text.bytes gap = token.span.start := congrArg Span.start hspan
    have hstop : c.offset + Text.bytes gap + Text.bytes x = token.span.stop :=
      congrArg Span.stop hspan
    have hfound := hf.start
    have hends := hf.stop
    obtain ⟨rfl, hcut⟩ := Text.append_inj_of_bytes_eq (htext.trans hf.rest) (by omega)
    obtain ⟨rfl, hrest⟩ := Text.append_inj_of_bytes_eq hcut (by omega)
    have hr : Respaces ⟨ts, last⟩ ⟨ts', last'⟩ := ⟨htokens, hlast⟩
    obtain ⟨token', d', hn, hk', hd', hgap'⟩ :=
      hf.respaced hk htext'.symm hgap.closed (hrest ▸ hr.looser)
    refine ⟨token', d', ⟨ts, last⟩, ⟨ts', last'⟩, hn, hk'.symm, ?_, hrest, hd'.symm, hr, ?_⟩
    · rw [hgap', Bool.eq_iff_iff]
      exact hgap.lines.symm
    · rw [hf.offset, ← hstop]
      exact hspans

end Layout.Ahead

namespace Parser

/-! ## Tokens on the way -/

section
variable {s t : State}

theorem Moves.tokens {flag} (h : Moves flag s t) : t.tokens = s.tokens ++ [t.current] := by
  simp [State.tokens, h.earlier]

theorem Reaches.tokens (h : Reaches s t) : ∃ after, t.tokens = s.tokens ++ after := by
  induction h with
  | refl => exact ⟨[], by simp⟩
  | step _ hm ih =>
    obtain ⟨after, ih⟩ := ih
    exact ⟨after ++ [_], by rw [hm.tokens, ih, List.append_assoc]⟩

/-- After the end of input comes nothing else. -/
theorem Reaches.at_end (h : Reaches s t) (hk : s.current.kind = .endOfInput)
    (hs : s.cursor.rest = []) : t.current.kind = .endOfInput ∧ t.cursor.rest = [] ∧
      ∃ after, t.tokens = s.tokens ++ after ∧ ∀ token ∈ after, token.kind = .endOfInput := by
  induction h with
  | refl => exact ⟨hk, hs, [], by simp, by simp⟩
  | @step _ t u _ hm ih =>
    obtain ⟨-, ht, after, htokens, hall⟩ := ih
    obtain ⟨text, hf⟩ := hm.finds
    have hnil := hf.rest
    rw [ht, eq_comm, List.append_eq_nil_iff, List.append_eq_nil_iff] at hnil
    have hu : u.current.kind = .endOfInput := by
      by_contra hne
      exact hf.text_ne_nil hne hnil.2.1
    refine ⟨hu, hnil.2.2, after ++ [u.current], by rw [hm.tokens, htokens, List.append_assoc], ?_⟩
    simpa [or_imp, forall_and, hu] using hall

theorem Reaches.rest_at_end {source : List Char} (h : Reaches s t) (hb : s.Begins source)
    (hk : t.current.kind = .endOfInput) : t.cursor.rest = [] := by
  cases h with
  | refl =>
    obtain ⟨text, hf⟩ := hb.finds
    exact (hf.at_end hk).2
  | step _ hm =>
    obtain ⟨text, hf⟩ := hm.finds
    exact (hf.at_end hk).2

end

/-- A layout of the text before a cursor. -/
structure Laid (source : List Char) (tokens : List Token) (c : Cursor) (l : Layout) : Prop where
  text : source = l.text ++ c.rest
  offset : c.offset = Text.bytes l.text
  spans : l.spans = tokens.map (·.span)
  solid : ∀ x ∈ l.tokens, x.2 ≠ []

section
variable {source : List Char} {tokens : List Token} {flag : Bool} {c d : Cursor} {token : Token}
  {text : List Char} {l : Layout}

theorem Laid.at_end (h : Laid source tokens c l) (hf : Lexer.Finds flag c token text d)
    (hk : token.kind = .endOfInput) : Laid source tokens d ⟨l.tokens, l.last ++ Lexer.gap c⟩ := by
  obtain ⟨rfl, hd⟩ := hf.at_end hk
  have hstart := hf.start
  have hstop := hf.stop
  have hoffset := hf.offset
  have hrest := hf.rest
  have htext : Layout.text ⟨l.tokens, l.last ++ Lexer.gap c⟩ = l.text ++ Lexer.gap c := by
    rw [Layout.text, Layout.text, Layout.weave_eq_append, Layout.weave_eq_append l.tokens l.last,
      List.append_assoc]
  refine ⟨?_, ?_, h.spans, h.solid⟩
  · rw [htext, h.text, hrest, List.append_assoc, List.nil_append]
  · rw [htext, Text.bytes_append, ← h.offset, hoffset, hstop, hstart]
    rfl

theorem Laid.with_token (h : Laid source tokens c l) (hf : Lexer.Finds flag c token text d)
    (hk : token.kind ≠ .endOfInput) (hl : l.last = []) :
    Laid source (tokens ++ [token]) d ⟨l.tokens ++ [(Lexer.gap c, text)], []⟩ := by
  have htext : Layout.text ⟨l.tokens ++ [(Lexer.gap c, text)], []⟩ =
      l.text ++ (Lexer.gap c ++ text) := by
    rw [Layout.text, Layout.text, Layout.weave_append, hl]
    simp [Layout.weave]
  have hbytes : Text.bytes (Layout.weave l.tokens []) = c.offset := by
    rw [h.offset, Layout.text, hl]
  have hspan : token.span = ⟨c.offset + Text.bytes (Lexer.gap c),
      c.offset + Text.bytes (Lexer.gap c) + Text.bytes text⟩ := by
    rw [← hf.start, ← hf.stop]
  refine ⟨?_, ?_, ?_, ?_⟩
  · rw [htext, h.text, hf.rest]
    simp
  · rw [htext, Text.bytes_append, Text.bytes_append, ← h.offset, hf.offset, hf.stop, hf.start,
      Nat.add_assoc]
  · rw [Layout.spans, Layout.spansFrom_append, hbytes, Nat.zero_add, List.map_append, ← h.spans]
    simp [Layout.spansFrom, Layout.spans, hspan]
  · intro x hx
    rcases List.mem_append.1 hx with hx | hx
    · exact h.solid x hx
    · rw [List.mem_singleton.1 hx]
      exact hf.text_ne_nil hk

end

/-- The text before the cursor of every state on the way can be laid out, with its last gap empty as
long as the end is not reached. -/
theorem exists_laid {source : List Char} {s t : State} (hb : s.Begins source) (h : Reaches s t) :
    ∃ l, Laid source (t.tokens.filter (·.kind ≠ .endOfInput)) t.cursor l ∧
      (t.current.kind ≠ .endOfInput → l.last = []) := by
  have next {before : List Token} {c : Cursor} {flag text l} {t : State}
      (hl : Laid source (before.filter (·.kind ≠ .endOfInput)) c l)
      (hlast : t.current.kind ≠ .endOfInput → l.last = [])
      (ht : t.tokens = before ++ [t.current]) (hf : Lexer.Finds flag c t.current text t.cursor) :
      ∃ l, Laid source (t.tokens.filter (·.kind ≠ .endOfInput)) t.cursor l ∧
        (t.current.kind ≠ .endOfInput → l.last = []) := by
    rw [ht, List.filter_append]
    by_cases hk : t.current.kind = .endOfInput
    · exact ⟨_, by simpa [hk] using hl.at_end hf hk, fun hne => absurd hk hne⟩
    · exact ⟨_, by simpa [hk] using hl.with_token hf hk (hlast hk), fun _ => rfl⟩
  induction h with
  | refl =>
    obtain ⟨text, hf⟩ := hb.finds
    have hstart : Laid source ([].filter (·.kind ≠ .endOfInput)) (Cursor.ofText source) ⟨[], []⟩ :=
      ⟨rfl, rfl, rfl, by simp⟩
    exact next hstart (fun _ => rfl) (by simp [State.tokens, hb.1]) hf
  | @step _ t u hr hm ih =>
    obtain ⟨l, hl, hlast⟩ := ih
    obtain ⟨text, hf⟩ := hm.finds
    refine next hl (fun hk => hlast fun ht => hk ?_) hm.tokens hf
    exact (hm.reaches.at_end ht (hr.rest_at_end hb ht)).1

/-! ## Two layouts in lockstep -/

/-- States that look alike, in front of the same tokens on the way to `last`. -/
def InStep (last s s' : State) : Prop :=
  Alike s s' ∧ ∃ after l l', last.tokens = s.tokens ++ after ∧
    Layout.Ahead (after.filter (·.kind ≠ .endOfInput)) s.cursor s'.cursor l l'

/-- The first token of a state and the tokens after it, in both layouts. -/
theorem exists_inStep {flag : Bool} {c c' : Cursor} {last t : State} {l l' : Layout}
    {before after : List Token} {text : List Char}
    (hf : Lexer.Finds flag c t.current text t.cursor) (hgap : t.gap = Lexer.gap c)
    (htokens : t.tokens = before ++ [t.current]) (hlast : last.tokens = before ++ after)
    (hreach : Reaches t last)
    (h : Layout.Ahead (after.filter (·.kind ≠ .endOfInput)) c c' l l') :
    ∃ token' d', Lexer.next flag c' = (.ok token', d') ∧
      ∀ earlier, InStep last t ⟨token', Lexer.gap c', earlier, d'⟩ := by
  by_cases hk : t.current.kind = .endOfInput
  · obtain ⟨-, -, after', hafter, hall⟩ := hreach.at_end hk (hf.at_end hk).2
    have hnone : (t.current :: after').filter (·.kind ≠ .endOfInput) = [] := by
      simpa [hk] using hall
    obtain rfl : after = t.current :: after' := by
      rw [hlast, htokens, List.append_assoc] at hafter
      exact List.append_cancel_left hafter
    rw [hnone] at h
    obtain ⟨token', d', m, m', hn, hkind, hlines, hahead⟩ := h.next_end hf hk
    refine ⟨token', d', hn, fun earlier => ⟨⟨hkind, ?_⟩, after', m, m', hafter, ?_⟩⟩
    · rw [hgap, hlines]
    · rwa [List.filter_eq_nil_iff.2 (by simpa using hall)]
  · obtain ⟨after', hafter⟩ := hreach.tokens
    obtain rfl : after = t.current :: after' := by
      rw [hlast, htokens, List.append_assoc] at hafter
      exact List.append_cancel_left hafter
    rw [List.filter_cons_of_pos (by simpa using hk)] at h
    obtain ⟨token', d', m, m', hn, hkind, hlines, hahead⟩ := h.next_token hf hk
    refine ⟨token', d', hn, fun earlier => ⟨⟨hkind, ?_⟩, after', m, m', hafter, hahead⟩⟩
    rw [hgap, hlines]

theorem inStep_lockstep (last : State) : Lockstep last (InStep last) where
  alike h := h.1
  follow {flag s s' t} h hm ht := by
    obtain ⟨-, after, l, l', hlast, hahead⟩ := h
    obtain ⟨text, hf⟩ := hm.finds
    obtain ⟨token', d', hn, hstep⟩ := exists_inStep hf hm.gap hm.tokens hlast ht hahead
    exact ⟨⟨token', Lexer.gap s'.cursor, s'.current :: s'.earlier, d'⟩, ⟨rfl, rfl, hn⟩, hstep _⟩

end Parser

/-- The layout of a source by the tokens that are obtained in reading it. -/
def Layout.IsOf (source : String) (maxDepth : Nat) (l : Layout) : Prop :=
  l.text = source.toList ∧ l.spans =
    ((Parser.run (Parser.Context.ofText source.toList maxDepth) source.toList).tokens.filter
      (·.kind ≠ .endOfInput)).map (·.span)

namespace Parser

/-- The tokens of a text that was read, as a layout of it. -/
theorem exists_layout {source : List Char} {s t : State} (hb : s.Begins source) (h : Reaches s t)
    (hk : t.current.kind = .endOfInput) : ∃ l : Layout, l.text = source ∧
      l.spans = (t.tokens.filter (·.kind ≠ .endOfInput)).map (·.span) ∧
      t.rank = l.tokens.length ∧ ∀ x ∈ l.tokens, x.2 ≠ [] := by
  obtain ⟨l, hl, -⟩ := exists_laid hb h
  refine ⟨l, ?_, hl.spans, ?_, hl.solid⟩
  · rw [hl.text, h.rest_at_end hb hk, List.append_nil]
  · have hlength := congrArg List.length hl.spans
    rw [Layout.spans, Layout.length_spansFrom, List.length_map] at hlength
    rw [hlength, State.rank, State.tokens, List.filter_reverse, List.length_reverse,
      List.filter_cons_of_neg (by simpa using hk)]

/-- A text that is read from its first token to its last one is read alike in any other layout. -/
theorem run_respaced {c : Context} {source : List Char} {s t : State} {p : Program Span}
    (hb : s.Begins source) (hreach : Reaches s t)
    (h : Returns (program (readers c.limit)) c s p t) {l l' : Layout} {budget : Nat}
    (htext : l.text = source) (hspans : l.spans = (t.tokens.filter (·.kind ≠ .endOfInput)).map (·.span))
    (hl : l.Respaces l') (hbudget : t.rank < budget) :
    ∃ p', (run { c with budget } l'.text).result = .ok p' ∧
      p.map (fun _ => ()) = p'.map (fun _ => ()) := by
  obtain ⟨text, hf⟩ := hb.finds
  have htokens : s.tokens = [] ++ [s.current] := by simp [State.tokens, hb.1]
  have hahead : Layout.Ahead (t.tokens.filter (·.kind ≠ .endOfInput)) (Cursor.ofText source)
      (Cursor.ofText l'.text) l l' := ⟨htext, rfl, hl, hspans⟩
  obtain ⟨token', d', hn, hstep⟩ := exists_inStep hf hb.2.1 htokens rfl hreach hahead
  obtain ⟨p', t', hkey, hp'⟩ := (inStep_lockstep t).program hbudget h (hstep [])
  exact ⟨p', run_eq_ok.2 ⟨_, t', ⟨rfl, rfl, hn⟩, hp'⟩, hkey⟩

end Parser

/-- Only line breaks in trivia matter: a source that is read has one layout, and any other layout of
the same tokens is read to the same tree, notes aside. -/
theorem parse_respaced {source : String} {maxDepth : Nat} {p : Program Location}
    (h : parse source maxDepth = .ok p) :
    (∃! l, Layout.IsOf source maxDepth l) ∧
      ∀ l l', Layout.IsOf source maxDepth l → l.Respaces l' →
        ∃ p', parse (String.ofList l'.text) maxDepth = .ok p' ∧
          p'.map (fun _ => ()) = p.map (fun _ => ()) := by
  obtain ⟨q, hq, rfl⟩ := parse_eq_ok.1 h
  obtain ⟨s, t, hb, hr⟩ := Parser.run_eq_ok.1 hq
  have htokens := Parser.run_tokens hb hr
  have hreach := Parser.program_reaches hr
  have hk : t.current.kind = .endOfInput := by
    obtain ⟨body, hi, -⟩ := Parser.returns_program.1 hr
    exact beq_iff_eq.1 hi.last
  obtain ⟨l₀, htext₀, hspans₀, hrank, hsolid⟩ := Parser.exists_layout hb hreach hk
  have unique (l : Layout) (hl : Layout.IsOf source maxDepth l) : l = l₀ :=
    Layout.eq_of_spans (hl.1.trans htext₀.symm) (by rw [hl.2, htokens, hspans₀])
  refine ⟨⟨l₀, ⟨htext₀, by rw [hspans₀, htokens]⟩, unique⟩, fun l l' hl hl' => ?_⟩
  obtain rfl := unique l hl
  have hbudget : t.rank < l'.text.length + 2 := by
    have hle := hl'.length_le hsolid
    omega
  obtain ⟨p', hp', hkey⟩ := Parser.run_respaced hb hreach hr htext₀ hspans₀ hl' hbudget
  refine ⟨p'.locate l'.text, parse_eq_ok.2 ⟨p', ?_, ?_⟩, ?_⟩
  · rw [String.toList_ofList]
    exact hp'
  · rw [String.toList_ofList]
  · rw [Program.locate, Program.locate, Program.map_map, Program.map_map]
    exact hkey.symm

/-- The end of a line may move into a comment, and operands away from their operator. -/
theorem parse_respaced_comment : ∃ p p', parse "a\nb+c" 9 = .ok p ∧
    parse "a /*\n*/b +\tc" 9 = .ok p' ∧ p'.map (fun _ => ()) = p.map (fun _ => ()) := by
  have hof : Layout.IsOf "a\nb+c" 9
      ⟨[([], ['a']), (['\n'], ['b']), ([], ['+']), ([], ['c'])], []⟩ :=
    ⟨by decide +kernel, by decide +kernel⟩
  have hline : Layout.Regaps ['\n'] [' ', '/', '*', '\n', '*', '/'] :=
    ⟨.blank rfl (@Trivia.Closed.block ['\n'] [] (by decide) .nil), nofun, by simp [Text.isBlank],
      by decide +kernel⟩
  have hblank (c : Char) (hb : Text.isBlank c = true) (hl : Text.isLineBreak c = false) :
      Layout.Regaps [] [c] :=
    ⟨.blank hb .nil, fun _ => rfl, by simpa using hb, by simp [hl]⟩
  have hspaced : Layout.Respaces ⟨[([], ['a']), (['\n'], ['b']), ([], ['+']), ([], ['c'])], []⟩
      ⟨[([], ['a']), ([' ', '/', '*', '\n', '*', '/'], ['b']), ([' '], ['+']), (['\t'], ['c'])], []⟩ :=
    ⟨.cons ⟨rfl, Layout.regaps_nil⟩ (.cons ⟨rfl, hline⟩ (.cons ⟨rfl, hblank ' ' rfl rfl⟩
      (.cons ⟨rfl, hblank '\t' rfl rfl⟩ .nil))), Layout.regaps_nil⟩
  obtain ⟨p, hp⟩ := exists_parse_of_isOk (show (parse "a\nb+c" 9).isOk = true by decide +kernel)
  obtain ⟨p', hp', hsame⟩ := (parse_respaced hp).2 _ _ hof hspaced
  exact ⟨p, p', hp, hp', hsame⟩

end ScriptTree
