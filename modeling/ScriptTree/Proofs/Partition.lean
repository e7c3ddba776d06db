import ScriptTree.Proofs.Calls
import ScriptTree.Proofs.Foresight

/-! # Tokens and trivia partition a text

A text that is cut into tokens is a layout: the tokens as they stand in the text, the gap before each
of them and the gap at the end. The gaps are trivia, and the text of a token says alone which token
it is, since the lexer sees nothing of what follows but that the token does not go on. -/
namespace ScriptTree

namespace Trivia

/-- Trivia at the end of a text, where a line comment needs no line break. -/
inductive Complete : List Char → Prop
  | nil : Complete []
  | blank {c cs} : Text.isBlank c = true → Complete cs → Complete (c :: cs)
  | line {body c cs} : (∀ d ∈ body, Text.isLineBreak d = false) → Text.isLineBreak c = true →
      Complete cs → Complete ('/' :: '/' :: (body ++ c :: cs))
  | block {body cs} : ¬ ['*', '/'] <:+: body → Complete cs →
      Complete ('/' :: '*' :: (body ++ '*' :: '/' :: cs))
  | ending {body} : (∀ d ∈ body, Text.isLineBreak d = false) → Complete ('/' :: '/' :: body)

/-- Trivia that a walk in some mode is over with, at the end of the text. -/
def Mode.Completes : Mode → List Char → Prop
  | .between, cs => Complete cs
  | .lineComment, cs => (∀ d ∈ cs, Text.isLineBreak d = false) ∨
      ∃ body c after, cs = body ++ c :: after ∧
        (∀ d ∈ body, Text.isLineBreak d = false) ∧ Text.isLineBreak c = true ∧ Complete after
  | .blockComment _, cs => ∃ body after, cs = body ++ '*' :: '/' :: after ∧
      ¬ ['*', '/'] <:+: body ∧ Complete after

theorem skipFrom_completes {mode : Mode} {n : Nat} {cs : List Char}
    (h : (skipFrom mode n cs).valid = true) (hle : n + cs.length ≤ (skipFrom mode n cs).length) :
    mode.Completes cs := by
  fun_induction skipFrom mode n cs with
  | case1 => cases h
  | case2 mode n hmode =>
    cases mode with
    | between => exact .nil
    | lineComment => exact .inl (List.forall_mem_nil _)
    | blockComment start => exact absurd rfl (hmode start)
  | case3 n cs ih =>
    have hrest := ih h (by simp only [List.length_cons] at hle; omega)
    rcases hrest with hopen | ⟨body, c, after, rfl, hbody, hc, hafter⟩
    · exact .ending hopen
    · exact .line hbody hc hafter
  | case4 n cs ih =>
    obtain ⟨body, after, rfl, hbody, hafter⟩ :=
      ih h (by simp only [List.length_cons] at hle; omega)
    exact .block hbody hafter
  | case5 n c cs _ _ hblank ih =>
    exact .blank hblank (ih h (by rw [List.length_cons] at hle; omega))
  | case6 n c cs =>
    exact absurd hle (Nat.not_le.2 (Nat.lt_add_of_pos_right (Nat.succ_pos _)))
  | case7 n c cs ih =>
    have hrest := ih h (by rw [List.length_cons] at hle; omega)
    cases hc : Text.isLineBreak c with
    | true =>
      rw [hc] at hrest
      exact .inr ⟨[], c, cs, rfl, List.forall_mem_nil _, hc, hrest⟩
    | false =>
      rw [hc] at hrest
      have hcons {body : List Char} (hbody : ∀ d ∈ body, Text.isLineBreak d = false) :
          ∀ d ∈ c :: body, Text.isLineBreak d = false := List.forall_mem_cons.2 ⟨hc, hbody⟩
      rcases hrest with hopen | ⟨body, d, after, rfl, hbody, hd, hafter⟩
      · exact .inl (hcons hopen)
      · exact .inr ⟨c :: body, d, after, rfl, hcons hbody, hd, hafter⟩
  | case8 start n cs ih =>
    exact ⟨[], cs, rfl, by simp, ih h (by simp only [List.length_cons] at hle; omega)⟩
  | case9 start n c cs hopen ih =>
    obtain ⟨body, after, rfl, hbody, hafter⟩ := ih h (by rw [List.length_cons] at hle; omega)
    refine ⟨c :: body, after, rfl, ?_, hafter⟩
    intro hin
    rcases List.infix_cons_iff.1 hin with ⟨more, hmore⟩ | hin
    · obtain ⟨rfl, rfl⟩ := List.cons.inj hmore
      exact hopen _ rfl rfl
    · exact hbody hin

end Trivia

/-! ## Places in a layout -/

namespace Layout

/-- The tokens of a layout that are not empty stand between characters, one behind the other. -/
theorem spansFrom_ordered {offset : Nat} {tokens : List (List Char × List Char)}
    (h : ∀ x ∈ tokens, x.2 ≠ []) :
    (∀ s ∈ spansFrom offset tokens, offset ≤ s.start ∧ s.start < s.stop) ∧
      (spansFrom offset tokens).Pairwise fun s t => s.stop ≤ t.start := by
  induction tokens generalizing offset with
  | nil => exact ⟨List.forall_mem_nil _, .nil⟩
  | cons x tokens ih =>
    obtain ⟨gap, text⟩ := x
    obtain ⟨hfirst, hrest⟩ := List.forall_mem_cons.1 h
    have hpos : 0 < Text.bytes text :=
      Nat.pos_of_ne_zero fun hz => hfirst (Text.eq_nil_of_bytes_eq_zero hz)
    obtain ⟨hlater, hpairwise⟩ := @ih (offset + Text.bytes gap + Text.bytes text) hrest
    refine ⟨List.forall_mem_cons.2 ⟨⟨Nat.le_add_right _ _, Nat.lt_add_of_pos_right hpos⟩, ?_⟩,
      List.pairwise_cons.2 ⟨fun t ht => (hlater t ht).1, hpairwise⟩⟩
    intro s hs
    have hle := (hlater s hs).1
    exact ⟨by omega, (hlater s hs).2⟩

theorem spansFrom_boundary {source before last : List Char}
    {tokens : List (List Char × List Char)} (h : source = before ++ weave tokens last) :
    ∀ s ∈ spansFrom (Text.bytes before) tokens,
      Text.Boundary source s.start ∧ Text.Boundary source s.stop := by
  induction tokens generalizing before with
  | nil => exact List.forall_mem_nil _
  | cons x tokens ih =>
    obtain ⟨gap, text⟩ := x
    have hstart : Text.bytes (before ++ gap) = Text.bytes before + Text.bytes gap :=
      Text.bytes_append ..
    have hstop : Text.bytes (before ++ gap ++ text) =
        Text.bytes before + Text.bytes gap + Text.bytes text := by
      rw [Text.bytes_append, hstart]
    have hcut : source = before ++ gap ++ text ++ weave tokens last := by
      simpa only [weave, List.append_assoc] using h
    have hlater := ih hcut
    rw [hstop] at hlater
    refine List.forall_mem_cons.2 ⟨⟨?_, ?_⟩, hlater⟩
    · exact ⟨before ++ gap, text ++ weave tokens last, by rw [hcut, List.append_assoc], hstart⟩
    · exact ⟨before ++ gap ++ text, weave tokens last, hcut, hstop⟩

end Layout

/-! ## Texts of tokens -/

namespace Lexer

/-- The tokens, each with the flag that is guessed for it. -/
def flagged : (flag : Bool) → List Token → List (Bool × Token)
  | _, [] => []
  | flag, token :: tokens => (flag, token) :: flagged token.kind.endsOperand tokens

/-- A text that alone is one token, if it is looked for with a flag, and then the end of input. -/
def Alone (flag : Bool) (kind : TokenKind) (text : List Char) : Prop :=
  ∀ flag', run [flag, flag'] (Cursor.ofText text) =
    [.ok ⟨kind, 0, Text.bytes text⟩, .ok ⟨.endOfInput, Text.bytes text, Text.bytes text⟩]

/-- The text of a token that was found is that token, whatever stood around it. -/
theorem Finds.alone {flag : Bool} {c d : Cursor} {token : Token} {text : List Char}
    (h : Finds flag c token text d) (hk : token.kind ≠ .endOfInput) :
    Alone flag token.kind text := by
  intro flag'
  have hloose : Text.Looser d.rest [] := .apart (by simp)
  have htext : (Cursor.ofText text).rest = [] ++ (text ++ []) := (List.append_nil text).symm
  obtain ⟨found, e, hn, hkind, hrest, hgap⟩ := h.respaced hk htext .nil hloose
  obtain ⟨text', h'⟩ := finds_of_next hn
  obtain rfl : text = text' := by
    have htext := h'.rest
    rwa [hgap, hrest, List.nil_append, List.append_nil] at htext
  have hstart : found.span.start = 0 := by rw [h'.start, hgap]; rfl
  have hstop : found.span.stop = Text.bytes text := by rw [h'.stop, hstart, Nat.zero_add]
  have hfound : found = ⟨token.kind, 0, Text.bytes text⟩ := Token.eq_of_parts hkind hstart hstop
  have he : e = ⟨Text.bytes text, []⟩ := by rw [← hstop, ← h'.offset, ← hrest]
  simp only [run, hn, he, next_nil, hfound]

/-- A layout of a text from an offset on, in which the tokens stand where they were found. -/
structure Partitions (flag : Bool) (offset : Nat) (cs : List Char) (tokens : List Token)
    (l : Layout) : Prop where
  text : l.text = cs
  spans : Layout.spansFrom offset l.tokens = tokens.map (·.span)
  gaps : ∀ x ∈ l.tokens, Trivia.Closed x.1 ∧ x.2 ≠ []
  last : Trivia.Complete l.last
  alone : List.Forall₂ (fun t x => Alone t.1 t.2.kind x.2) (flagged flag tokens) l.tokens

variable {flag : Bool} {c d : Cursor} {token : Token} {text : List Char} {tokens : List Token}

/-- Where the input ends there is one gap. -/
theorem Finds.partitions_end (h : Finds flag c token text d) (hk : token.kind = .endOfInput) :
    Partitions flag c.offset c.rest [] ⟨[], c.rest⟩ := by
  obtain ⟨rfl, hd⟩ := h.at_end hk
  have hgap : c.rest = gap c := by simpa [hd] using h.rest
  have hle : 0 + c.rest.length ≤ (Trivia.skip c.rest).length := by
    have hlen := congrArg List.length hgap
    rw [gap, List.length_take] at hlen
    omega
  exact ⟨rfl, rfl, List.forall_mem_nil _, Trivia.skipFrom_completes h.valid hle, .nil⟩

/-- A token goes in front of what is cut behind it. -/
theorem Finds.partitions_cons {l : Layout} (h : Finds flag c token text d)
    (hk : token.kind ≠ .endOfInput)
    (hl : Partitions token.kind.endsOperand d.offset d.rest tokens l) :
    Partitions flag c.offset c.rest (token :: tokens) ⟨(gap c, text) :: l.tokens, l.last⟩ where
  text := by
    show gap c ++ (text ++ l.text) = c.rest
    rw [hl.text, ← h.rest]
  spans := by
    have hspan : token.span = ⟨c.offset + Text.bytes (gap c),
        c.offset + Text.bytes (gap c) + Text.bytes text⟩ := by
      rw [← h.start, ← h.stop]
    rw [Layout.spansFrom, List.map_cons, hspan, ← hl.spans, h.offset, h.stop, h.start]
  gaps := List.forall_mem_cons.2 ⟨⟨h.closed hk, h.text_ne_nil hk⟩, hl.gaps⟩
  last := hl.last
  alone := .cons (h.alone hk) hl.alone

theorem exists_partitions {fuel : Nat} (h : collect fuel flag c = .ok tokens)
    (hfuel : c.rest.length < fuel) : ∃ l, Partitions flag c.offset c.rest tokens l := by
  induction fuel generalizing flag c tokens with
  | zero => exact absurd hfuel (Nat.not_lt_zero _)
  | succ fuel ih =>
    obtain ⟨token, d, hn, htokens⟩ := collect_eq_ok.1 h
    obtain ⟨text, hf⟩ := finds_of_next hn
    split at htokens
    case isTrue hk =>
      subst htokens
      exact ⟨_, hf.partitions_end hk⟩
    case isFalse hk =>
      obtain ⟨later, hlater, rfl⟩ := htokens
      have hpos := List.length_pos_iff.2 (hf.text_ne_nil hk)
      have hlen := congrArg List.length hf.rest
      simp only [List.length_append] at hlen
      obtain ⟨l, hl⟩ := ih hlater (by omega)
      exact ⟨_, hf.partitions_cons hk hl⟩

/-- The tokens of a text stand between characters, take up room and come one behind the other; what
is between them are blanks and complete comments; and each token is found alone in its own text. -/
theorem tokenize_partition {source : String} (h : tokenize source = .ok tokens) :
    (∀ t ∈ tokens, t.span.start < t.span.stop ∧ Text.Boundary source.toList t.span.start ∧
      Text.Boundary source.toList t.span.stop) ∧
    tokens.Pairwise (fun t u => t.span.stop ≤ u.span.start) ∧
    ∃ l, Partitions false 0 source.toList tokens l := by
  obtain ⟨l, hl⟩ : ∃ l, Partitions false 0 source.toList tokens l :=
    exists_partitions (tokenize_eq_ok.1 h) (Nat.lt_succ_self _)
  obtain ⟨hspans, hpairwise⟩ := @Layout.spansFrom_ordered 0 _ fun x hx => (hl.gaps x hx).2
  have hboundary := @Layout.spansFrom_boundary _ [] _ _ hl.text.symm
  rw [show Text.bytes [] = 0 from rfl] at hboundary
  rw [hl.spans] at hspans hpairwise hboundary
  refine ⟨fun t ht => ?_, List.pairwise_map.1 hpairwise, l, hl⟩
  have hmem : t.span ∈ tokens.map (·.span) := List.mem_map_of_mem ht
  exact ⟨(hspans _ hmem).2, hboundary _ hmem⟩

/-- A slash in a class, a slash that divides, and comments of both kinds, the last of which the end
of the text closes. -/
theorem tokenize_partition_comments : ∃ tokens,
    tokenize "(/[/]/g)/ /*/*/.5e1// c" = .ok tokens ∧ tokens.length = 5 ∧
      (∀ t ∈ tokens, t.span.start < t.span.stop) ∧
      ∃ l, Partitions false 0 "(/[/]/g)/ /*/*/.5e1// c".toList tokens l := by
  have hlength : (tokenize "(/[/]/g)/ /*/*/.5e1// c").map List.length = .ok 5 := by decide +kernel
  cases h : tokenize "(/[/]/g)/ /*/*/.5e1// c" with
  | ok tokens =>
    obtain ⟨hspans, -, hl⟩ := tokenize_partition h
    rw [h] at hlength
    exact ⟨tokens, rfl, Except.ok.inj hlength, fun t ht => (hspans t ht).1, hl⟩
  | error f =>
    rw [h] at hlength
    cases hlength

end Lexer
end ScriptTree
