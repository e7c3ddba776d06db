import ScriptTree.Proofs.SingleLine

/-! # What is laid out is read token by token

A renderer parts two tokens that would run together, and puts blanks only where the pieces have room
for them. Two pairs are left that it does not part: a number and a point, and two symbols of which the
second one cannot lead. Where no such pair touches, the lexer finds the tokens of the pieces, one by
one, whatever it is told as long as it suits them. -/
namespace ScriptTree

open Text

/-! ## Two tokens side by side -/

/-- Whether two tokens may not touch although a renderer does not part them. -/
def TokenKind.clashes (k k' : TokenKind) : Bool :=
  match k with
  | .number x => !x.pointed && k' == .operator .dot
  | .operator op =>
    match k' with
    | .number _ => op == .dot
    | .operator op' => op != .dot && !op.isUpdate && !(op'.canLead || op' == .new)
    | _ => false
  | _ => false

namespace Operator

/-- The characters that a symbol may go on with. -/
def inner : List Char := ['+', '-', '*', '=', '<', '>', '&', '|']

theorem tail_inner {op : Operator} (hop : op ∈ symbols) {c : Char}
    (hc : c ∈ op.text.toList.tail) : c ∈ inner := by
  have hall : ∀ op ∈ symbols, op.text.toList.tail.all inner.contains = true := by decide
  exact List.contains_iff_mem.1 (List.all_eq_true.1 (hall op hop) c hc)

theorem allows_of_not_inner {op : Operator} (hop : op ∈ symbols) {c : Char} (hc : c ∉ inner)
    (hslash : op = .divide → c ≠ '/') : op.allows c = true := by
  obtain ⟨hword, hdot⟩ := symbol_not_word op hop
  rw [allows, hword, if_neg Bool.false_ne_true, if_neg hdot, Bool.and_eq_true]
  constructor
  · rw [List.all_eq_true]
    intro o ho
    rw [Bool.not_eq_true', ← Bool.not_eq_true, List.isPrefixOf_iff_prefix]
    rintro ⟨after, hafter⟩
    refine hc (tail_inner ho ?_)
    obtain ⟨d, ds, hd⟩ := List.exists_cons_of_ne_nil (List.length_pos_iff.1 (length_text_pos op hop))
    rw [← hafter, hd]
    simp
  · rw [Bool.not_eq_true', Bool.and_eq_false_iff, beq_eq_false_iff_ne, Bool.or_eq_false_iff,
      beq_eq_false_iff_ne, beq_eq_false_iff_ne]
    by_cases h : op = .divide
    · refine .inr ⟨hslash h, ?_⟩
      rintro rfl
      exact hc (by decide)
    · exact .inl h

/-- A symbol in front of a sign makes no other symbol with it, unless the renderer parts them. -/
theorem allows_sign {op : Operator} (hop : op ∈ symbols) {c last : Char} (hc : c ∈ ['+', '-'])
    (hl : op.text.toList.getLast? = some last) (hm : Piece.merges last c = false) :
    op.allows c = true := by
  have hall : ∀ op ∈ symbols, ['+', '-'].all (fun c =>
      op.text.toList.getLast?.all fun last => Piece.merges last c || op.allows c) = true := by
    decide +kernel
  have h := List.all_eq_true.1 (hall op hop) c hc
  rwa [hl, Option.all_some, hm, Bool.false_or] at h

theorem allows_after_update {op op' : Operator} (hop : op ∈ [increment, decrement])
    (hop' : op' ∈ symbols) {c : Char} (hc : op'.text.toList.head? = some c) : op.allows c = true := by
  have hall : ∀ op ∈ [increment, decrement], ∀ op' ∈ symbols,
      op'.text.toList.head?.all op.allows = true := by
    decide +kernel
  simpa [hc] using hall op hop op' hop'

theorem leading_first {op : Operator} (hop : op ∈ symbols) (hlead : op.canLead = true) {c : Char}
    (hc : op.text.toList.head? = some c) : c ∈ ['+', '-'] ∨ c ∉ inner ∧ c ≠ '/' := by
  have hall : ∀ op ∈ symbols, op.canLead = true → op.text.toList.head?.all (fun c =>
      decide (c ∈ ['+', '-'] ∨ c ∉ inner ∧ c ≠ '/')) = true := by
    decide +kernel
  have h := hall op hop hlead
  rw [hc, Option.all_some] at h
  exact of_decide_eq_true h

end Operator

namespace TokenKind
variable {k k' : TokenKind} {first last : Char}

theorem isDigit_last {x : Double} (h : x.Unsigned) (hl : x.literal.getLast? = some last) :
    isDigit last = true := by
  rcases Numeral.literal_forms h with ⟨hlit, -⟩ | ⟨hs, -⟩ | ⟨w, f, -, hne, hf, hlit, -⟩ | ⟨hlit, -⟩
  · rw [hlit] at hl
    cases hl
    rfl
  · exact hs.digit last (List.mem_of_getLast? hl)
  · obtain ⟨d, f, rfl⟩ := List.exists_cons_of_ne_nil hne
    rw [hlit, List.getLast?_append_cons, List.getLast?_cons_cons] at hl
    exact hf last (List.mem_of_getLast? hl)
  · rw [hlit] at hl
    cases hl
    rfl

/-- Flags are letters. -/
theorem isWordPart_of_flagExtent {seen cs : List Char}
    (h : Pattern.flagExtent seen cs = ⟨cs.length, true⟩) : ∀ c ∈ cs, isWordPart c = true := by
  induction cs generalizing seen with
  | nil => exact List.forall_mem_nil _
  | cons c cs ih =>
    rw [Pattern.flagExtent] at h
    split at h
    · rename_i hc
      obtain ⟨n, hn, he⟩ := Pattern.eq_of_after h
      obtain rfl : cs.length = n := Nat.succ.inj hn
      have hstart := Pattern.isWordStart_of_isFlag (Bool.and_eq_true_iff.1 hc).1
      exact List.forall_mem_cons.2 ⟨isWordPart_iff.2 (.inl hstart), ih he⟩
    · cases (Extent.mk.inj h).1

theorem last_of_wellFormed {pattern flags : String} (h : Pattern.WellFormed pattern flags)
    (hl : (pattern.toList ++ flags.toList).getLast? = some last) :
    isWordPart last = true ∨ last = '/' := by
  rw [List.getLast?_append] at hl
  cases hf : flags.toList.getLast? with
  | some c =>
    rw [hf, Option.some_or] at hl
    obtain rfl := Option.some.inj hl
    exact .inl (isWordPart_of_flagExtent h.flags c (List.mem_of_getLast? hf))
  | none =>
    obtain ⟨c, cs, hp, -, -, hbody⟩ := h.body
    rw [hf, Option.none_or, hp, List.getLast?_cons_cons,
      Pattern.getLast?_of_bodyExtent hbody] at hl
    exact .inr (Option.some.inj hl).symm

/-- What a name, a keyword, a literal word or a word for an operator ends in. -/
theorem isWordPart_last {cs : List Char} (h : isWord cs = true) (hl : cs.getLast? = some last) :
    isWordPart last = true :=
  List.all_eq_true.1 (Bool.and_eq_true_iff.1 h).2 last (List.mem_of_getLast? hl)

/-- After a word no word may begin. -/
theorem not_isWordPart_of_merges (hl : isWordPart last = true ∨ last = '/')
    (hm : Piece.merges last first = false) : isWordPart first = false := by
  rw [Piece.merges] at hm
  cases hf : isWordPart first with
  | false => rfl
  | true => rcases hl with hl | rfl <;> simp_all

/-- What a token begins with tells numbers, the point and symbols from the rest. -/
theorem first_cases (hk : k.Spellable) (hf : k.spelling.head? = some first) :
    (∃ x, k = .number x ∧ isDigit first = true) ∨ (k = .operator .dot ∧ first = '.') ∨
      (∃ op ∈ Operator.symbols, k = .operator op ∧ isDigit first = false ∧ first ≠ '.') ∨
      isDigit first = false ∧ first ≠ '.' ∧ first ∉ Operator.inner := by
  have word {cs : List Char} (hw : isWord cs = true) (hf : cs.head? = some first) :
      isDigit first = false ∧ first ≠ '.' ∧ first ∉ Operator.inner := by
    have hstart : isWordStart first = true := by
      have hany := (Bool.and_eq_true_iff.1 hw).1
      rwa [hf] at hany
    refine ⟨?_, ?_, ?_⟩
    · cases hd : isDigit first with
      | false => rfl
      | true =>
        rw [isWordStart_eq_false_of_isDigit hd] at hstart
        cases hstart
    · rintro rfl
      cases hstart
    · intro hin
      simp only [Operator.inner, List.mem_cons, List.not_mem_nil, or_false] at hin
      rcases hin with rfl | rfl | rfl | rfl | rfl | rfl | rfl | rfl <;> cases hstart
  cases k with
  | number x =>
    have hx : x.Unsigned := hk
    obtain ⟨c, cs, hlit, hc⟩ := Numeral.literal_eq_cons hx
    rw [show spelling (.number x) = x.literal from rfl, hlit] at hf
    have he : c = first := Option.some.inj hf
    exact .inl ⟨x, rfl, by rwa [← he]⟩
  | regex pattern flags =>
    obtain ⟨c, cs, hp, -⟩ := (show Pattern.WellFormed pattern flags from hk).body
    rw [show spelling (.regex pattern flags) = pattern.toList ++ flags.toList from rfl, hp] at hf
    have he : '/' = first := Option.some.inj hf
    rw [← he]
    exact .inr (.inr (.inr (by decide)))
  | identifier name => exact .inr (.inr (.inr (word hk.1 hf)))
  | keyword k => exact .inr (.inr (.inr (word (keyword_word k).1 hf)))
  | operator op =>
    rcases op.mem_words_or_symbols with hop | rfl | hop
    · exact .inr (.inr (.inr (word (operator_word op hop).1 hf)))
    · exact .inr (.inl ⟨rfl, (Option.some.inj hf).symm⟩)
    · have hsymbol := Operator.symbol_first op hop
      rw [show op.text.toList.head? = some first from hf] at hsymbol
      simp only [Option.any_some, Bool.and_eq_true, Bool.not_eq_true', bne_iff_ne] at hsymbol
      obtain ⟨⟨⟨⟨⟨⟨hword, -⟩, -⟩, -⟩, -⟩, hdot⟩, -⟩ := hsymbol
      exact .inr (.inr (.inl ⟨op, hop, rfl, (Bool.or_eq_false_iff.1 hword).2, hdot⟩))
  | this | null | undefined => exact .inr (.inr (.inr (word (by decide) hf)))
  | boolean b => cases b <;> exact .inr (.inr (.inr (word (by decide) hf)))
  | endOfInput => cases hf
  | string s | leftParen | rightParen | leftBrace | rightBrace | leftBracket | rightBracket
  | semicolon | comma | colon =>
    obtain rfl := Option.some.inj hf
    exact .inr (.inr (.inr (by decide)))

theorem not_inner_of_isDigit (h : isDigit first = true) : first ∉ Operator.inner := by
  intro hin
  simp only [Operator.inner, List.mem_cons, List.not_mem_nil, or_false] at hin
  rcases hin with rfl | rfl | rfl | rfl | rfl | rfl | rfl | rfl <;> cases h

/-- A symbol that can lead is no longer symbol with what stands in front of it. -/
theorem allows_leading {op op' : Operator} (hop : op ∈ Operator.symbols) (hop' : op' ∈ Operator.symbols)
    (hlead : op'.canLead = true) (hl : op.text.toList.getLast? = some last)
    (hf : op'.text.toList.head? = some first) (hm : Piece.merges last first = false) :
    op.allows first = true := by
  have hfirst := Operator.leading_first hop' hlead hf
  rcases hfirst with hsign | ⟨hin, hslash⟩
  · exact Operator.allows_sign hop hsign hl hm
  · exact Operator.allows_of_not_inner hop hin fun _ => hslash

theorem allows_of_symbol {op : Operator} (hop : op ∈ Operator.symbols) (hk' : k'.Spellable)
    (hc : clashes (.operator op) k' = false) (hl : op.text.toList.getLast? = some last)
    (hf : k'.spelling.head? = some first) (hm : Piece.merges last first = false) :
    op.allows first = true := by
  have slash : op = .divide → first ≠ '/' := by
    rintro rfl rfl
    cases hl
    cases hm
  rcases first_cases hk' hf with ⟨x, -, hd⟩ | ⟨-, rfl⟩ | ⟨op', hop', rfl, -⟩ | ⟨-, -, hin⟩
  · exact Operator.allows_of_not_inner hop (not_inner_of_isDigit hd) slash
  · exact Operator.allows_of_not_inner hop (by decide) slash
  · by_cases hu : op.isUpdate = true
    · refine Operator.allows_after_update ?_ hop' hf
      revert hu
      cases op <;> decide
    · have hdot := (Operator.symbol_not_word op hop).2
      have hnew : op' ≠ .new := by
        rintro rfl
        exact absurd hop' (by decide)
      have hlead : op'.canLead = true := by simpa [clashes, hu, hdot, hnew] using hc
      exact allows_leading hop hop' hlead hl hf hm
  · exact Operator.allows_of_not_inner hop hin slash

/-- Where two tokens meet that do not clash, either the renderer parts them or the second one may
stand right after the first. -/
theorem allows_of_not_clashes (hk : k.Spellable) (hk' : k'.Spellable) (hc : k.clashes k' = false)
    (hl : k.spelling.getLast? = some last) (hf : k'.spelling.head? = some first)
    (hm : Piece.merges last first = false) : k.allows first = true := by
  have word {cs : List Char} (hw : isWord cs = true) (hl : cs.getLast? = some last) :
      (!isWordPart first) = true := by
    rw [Bool.not_eq_true']
    exact not_isWordPart_of_merges (.inl (isWordPart_last hw hl)) hm
  cases k with
  | number x =>
    have hlast := isWordPart_iff.2 (.inr (isDigit_last (show x.Unsigned from hk) hl))
    have hpart := not_isWordPart_of_merges (.inl hlast) hm
    rw [allows, hpart, Bool.not_false, Bool.true_and, Bool.or_eq_true, bne_iff_ne]
    by_cases hp : x.pointed = true
    · exact .inr hp
    · left
      rintro rfl
      rcases first_cases hk' hf with ⟨_, -, hd⟩ | ⟨rfl, -⟩ | ⟨op, -, -, -, hdot⟩ | ⟨-, hne, -⟩
      · cases hd
      · simp [clashes, hp] at hc
      · exact hdot rfl
      · exact hne rfl
  | regex pattern flags =>
    rw [allows, Bool.not_eq_true']
    exact not_isWordPart_of_merges (last_of_wellFormed hk hl) hm
  | identifier name => exact word hk.1 hl
  | keyword k => exact word (keyword_word k).1 hl
  | operator op =>
    rcases op.mem_words_or_symbols with hop | rfl | hop
    · rw [allows, Operator.allows, if_pos (List.contains_iff_mem.2 hop)]
      exact word (operator_word op hop).1 hl
    · show (!isDigit first) = true
      rcases first_cases hk' hf with ⟨x, rfl, -⟩ | ⟨-, rfl⟩ | ⟨op, -, -, hd, -⟩ | ⟨hd, -⟩
      · cases hc
      · rfl
      · rw [hd, Bool.not_false]
      · rw [hd, Bool.not_false]
    · exact allows_of_symbol hop hk' hc hl hf hm
  | this | null | undefined => exact word (by decide) hl
  | boolean b => cases b <;> exact word (by decide) hl
  | endOfInput => cases hl
  | _ => rfl

/-- After a token a blank may stand. -/
theorem allows_blank (hne : k ≠ .endOfInput) {c : Char} (hc : isBlank c = true) :
    k.allows c = true := by
  have hpart := isWordPart_eq_false_of_isBlank hc
  have hdigit := (Bool.or_eq_false_iff.1 hpart).2
  cases k with
  | number x =>
    have hdot : c ≠ '.' := ne_of_isBlank hc (by decide)
    simp [allows, hpart, hdot]
  | operator op =>
    rcases op.mem_words_or_symbols with hop | rfl | hop
    · rw [allows, Operator.allows, if_pos (List.contains_iff_mem.2 hop), hpart, Bool.not_false]
    · show (!isDigit c) = true
      rw [hdigit, Bool.not_false]
    · refine Operator.allows_of_not_inner hop (fun hin => ?_) fun _ => ne_of_isBlank hc (by decide)
      simp only [Operator.inner, List.mem_cons, List.not_mem_nil, or_false] at hin
      rcases hin with rfl | rfl | rfl | rfl | rfl | rfl | rfl | rfl <;> cases hc
  | endOfInput => exact absurd rfl hne
  | regex _ _ | identifier _ | this | null | undefined | boolean _ | keyword _ =>
    rw [allows, hpart, Bool.not_false]
  | _ => rfl

/-- Every token but the end of input has a first and a last character. -/
theorem spelling_ne_nil (hk : k.Spellable) (hne : k ≠ .endOfInput) : k.spelling ≠ [] := by
  intro hnil
  have hread : Reads k.spelling [] k := reads hk (by simp)
  have hscan := hread.scan (suits_spelling hk)
  rw [hnil] at hscan
  exact hne (Except.ok.inj (Scan.mk.inj hscan).2).symm

end TokenKind

/-! ## Pieces -/

namespace Piece

/-- The kind of the first token. -/
def ahead : List Piece → TokenKind
  | [] => .endOfInput
  | .token text :: _ => .ofSpelling text.toList
  | _ :: ps => ahead ps

/-- Whether the first token may touch what stands in front of the pieces. -/
def touches : List Piece → Bool
  | .blank :: _ => false
  | .space :: ps | .newline _ :: ps => touches ps
  | _ => true

/-- Whether a line may end before the first token. -/
def breaks : List Piece → Bool
  | .newline _ :: _ => true
  | .blank :: ps | .space :: ps => breaks ps
  | _ => false

/-- All tokens are ones that the lexer finds, and no two that may touch clash. -/
def Linked : List Piece → Prop
  | [] => True
  | .token text :: ps => (∃ k : TokenKind, k.Spellable ∧ k ≠ .endOfInput ∧ text.toList = k.spelling ∧
      (touches ps = true → k.clashes (ahead ps) = false)) ∧ Linked ps
  | _ :: ps => Linked ps

theorem parted_cases (last : Option Char) (cs : List Char) :
    parted last cs = ' ' :: cs ∨ parted last cs = cs := by
  unfold parted
  split
  · split
    · exact .inl rfl
    · exact .inr rfl
  · exact .inr rfl

variable {style : Style} {ps : List Piece}

/-- What comes right after a token is allowed there. -/
theorem allows_render {k : TokenKind} (hk : k.Spellable) (hne : k ≠ .endOfInput) (hp : Linked ps)
    (hc : touches ps = true → k.clashes (ahead ps) = false) :
    ∀ c, (render style k.spelling.getLast? ps).head? = some c → k.allows c = true := by
  have blank {c : Char} {cs : List Char} (hb : isBlank c = true) :
      ∀ d, (c :: cs).head? = some d → k.allows d = true :=
    fun d hd => Option.some.inj hd ▸ TokenKind.allows_blank hne hb
  induction ps with
  | nil => exact fun c hc => by cases hc
  | cons p ps ih =>
    cases p with
    | token text =>
      obtain ⟨⟨k', hk', hne', htext, -⟩, -⟩ := hp
      have hclash : k.clashes k' = false := by
        rw [← ofSpelling_spelling hk', ← htext]
        exact hc rfl
      have hlast := List.getLast?_eq_some_getLast (TokenKind.spelling_ne_nil hk hne)
      obtain ⟨first, cs, hfirst⟩ := List.exists_cons_of_ne_nil (TokenKind.spelling_ne_nil hk' hne')
      rw [render, htext, hlast, hfirst, parted]
      split
      · exact blank rfl
      · rename_i hm
        intro d hd
        obtain rfl := Option.some.inj hd
        exact TokenKind.allows_of_not_clashes hk hk' hclash hlast (by rw [hfirst]; rfl)
          (Bool.eq_false_iff.2 hm)
    | blank => exact blank rfl
    | space =>
      rw [render]
      split
      · exact ih hp hc
      · exact blank rfl
    | newline level =>
      rw [render]
      split
      · exact ih hp hc
      · exact blank rfl

end Piece

open Piece

/-- Standing at the first token of pieces, with the rest of their text behind it. -/
def Parser.State.Faces (style : Style) : List Piece → Parser.State → Prop
  | [], s => s.current.kind = .endOfInput
  | .token text :: ps, s => s.current.kind = .ofSpelling text.toList ∧
      s.cursor.rest = render style text.toList.getLast? ps ∧ Linked ps
  | _ :: ps, s => Faces style ps s

theorem Parser.State.Faces.kind {style : Style} {ps : List Piece} {s : Parser.State}
    (h : s.Faces style ps) : s.current.kind = Piece.ahead ps := by
  induction ps with
  | nil => exact h
  | cons p ps ih =>
    cases p with
    | token text => exact h.1
    | _ => exact ih h

theorem Trivia.closed_of_blank {cs : List Char} (h : ∀ c ∈ cs, isBlank c = true) : Closed cs := by
  induction cs with
  | nil => exact .nil
  | cons c cs ih =>
    obtain ⟨hc, hcs⟩ := List.forall_mem_cons.1 h
    exact .blank hc (ih hcs)

section
variable {style : Style} (hstyle : ∀ c ∈ style.indentation, isBlank c = true)
include hstyle

theorem Style.isBlank_lineStart (level : Nat) : ∀ c ∈ style.lineStart level, isBlank c = true := by
  refine List.forall_mem_cons.2 ⟨rfl, fun c hc => ?_⟩
  obtain ⟨cs, hcs, hc⟩ := List.mem_flatten.1 hc
  rw [(List.mem_replicate.1 hcs).2] at hc
  exact hstyle c hc

omit hstyle in
theorem Lexer.next_of_token {k : TokenKind} {text : String} {ps : List Piece} {gap : List Char}
    {c : Cursor} {flag : Bool} (hk : k.Spellable) (hne : k ≠ .endOfInput)
    (htext : text.toList = k.spelling) (hp : Linked ps)
    (hclash : touches ps = true → k.clashes (ahead ps) = false) (hs : k.suits flag = true)
    (hgap : ∀ d ∈ gap, isBlank d = true)
    (hc : c.rest = gap ++ (k.spelling ++ render style k.spelling.getLast? ps)) :
    ∃ token d, next flag c = (.ok token, d) ∧
      (∀ earlier, Parser.State.Faces style (.token text :: ps) ⟨token, Lexer.gap c, earlier, d⟩) ∧
      (Inline gap → Inline (Lexer.gap c)) := by
  have hallows : ∀ c, (render style k.spelling.getLast? ps).head? = some c → k.allows c = true :=
    allows_render hk hne hp hclash
  have hread := reads hk hallows
  obtain ⟨token, d, hn, htoken, hd, hg⟩ :=
    next_of_cut flag hc (Trivia.closed_of_blank hgap) hread.bare (hread.scan hs)
  refine ⟨token, d, hn, fun _ => ⟨?_, ?_, hp⟩, fun hin => by rwa [hg]⟩
  · rw [htoken, htext, ofSpelling_spelling hk]
  · rw [hd, htext]

/-- In front of pieces, and blanks that were put before them, the lexer finds their first token. -/
theorem Lexer.next_of_pieces {ps : List Piece} {last : Option Char} {gap : List Char} {c : Cursor}
    {flag : Bool} (hp : Linked ps) (hs : (ahead ps).suits flag = true)
    (hgap : ∀ d ∈ gap, isBlank d = true) (hc : c.rest = gap ++ render style last ps) :
    ∃ token d, next flag c = (.ok token, d) ∧
      (∀ earlier, Parser.State.Faces style ps ⟨token, Lexer.gap c, earlier, d⟩) ∧
      (breaks ps = false → Inline gap → Inline (Lexer.gap c)) := by
  have longer {gap cs : List Char} (hgap : ∀ d ∈ gap, isBlank d = true)
      (hcs : ∀ d ∈ cs, isBlank d = true) : ∀ d ∈ gap ++ cs, isBlank d = true :=
    List.forall_mem_append.2 ⟨hgap, hcs⟩
  induction ps generalizing last gap with
  | nil =>
    have hrest : c.rest = gap ++ ([] ++ []) := hc
    obtain ⟨token, d, hn, hk, -, hg⟩ :=
      next_of_cut flag hrest (Trivia.closed_of_blank hgap) Trivia.bare_nil rfl
    exact ⟨token, d, hn, fun _ => hk, fun _ hin => by rwa [hg]⟩
  | cons p ps ih =>
    have spaced {last : Option Char} (hc : c.rest = gap ++ (' ' :: render style last ps))
        (hp : Linked ps) (hs : (ahead ps).suits flag = true) :
        ∃ token d, next flag c = (.ok token, d) ∧
          (∀ earlier, Parser.State.Faces style ps ⟨token, Lexer.gap c, earlier, d⟩) ∧
          (breaks ps = false → Inline gap → Inline (Lexer.gap c)) := by
      obtain ⟨token, d, hn, hf, hin⟩ := ih hp hs (longer hgap (List.forall_mem_singleton.2 rfl))
        (show c.rest = gap ++ [' '] ++ render style last ps by
          rw [hc, List.append_assoc, List.singleton_append])
      exact ⟨token, d, hn, hf, fun hb hg => hin hb (inline_append hg (List.forall_mem_singleton.2 rfl))⟩
    cases p with
    | token text =>
      obtain ⟨⟨k, hk, hne, htext, hclash⟩, hp⟩ := hp
      have hkind : ahead (.token text :: ps) = k := by rw [ahead, htext, ofSpelling_spelling hk]
      have hlast : (k.spelling.getLast?.or last) = k.spelling.getLast? := by
        rw [List.getLast?_eq_some_getLast (TokenKind.spelling_ne_nil hk hne), Option.some_or]
      rw [hkind] at hs
      rw [render, htext, hlast] at hc
      rcases parted_cases last k.spelling with hparted | hparted <;> rw [hparted] at hc
      · obtain ⟨token, d, hn, hf, hin⟩ := next_of_token hk hne htext hp hclash hs
          (longer hgap (List.forall_mem_singleton.2 rfl))
          (show c.rest = gap ++ [' '] ++ (k.spelling ++ render style k.spelling.getLast? ps) by
            rw [hc]; simp)
        exact ⟨token, d, hn, hf, fun _ hg => hin (inline_append hg (List.forall_mem_singleton.2 rfl))⟩
      · obtain ⟨token, d, hn, hf, hin⟩ := next_of_token hk hne htext hp hclash hs hgap hc
        exact ⟨token, d, hn, hf, fun _ => hin⟩
    | blank => exact spaced hc hp hs
    | space =>
      rw [render] at hc
      split at hc
      · exact ih hp hs hgap hc
      · exact spaced hc hp hs
    | newline level =>
      rw [render] at hc
      split at hc
      · obtain ⟨token, d, hn, hf, -⟩ := ih hp hs hgap hc
        exact ⟨token, d, hn, hf, nofun⟩
      · obtain ⟨token, d, hn, hf, -⟩ :=
          ih hp hs (longer hgap (Style.isBlank_lineStart hstyle level))
            (by rw [hc, List.append_assoc])
        exact ⟨token, d, hn, hf, nofun⟩

/-- From a token the lexer goes on to the next one, if it is told what suits that one. -/
theorem Parser.State.Faces.exists_moves {text : String} {ps : List Piece} {s : Parser.State}
    {flag : Bool} (h : s.Faces style (.token text :: ps)) (hs : (Piece.ahead ps).suits flag = true) :
    ∃ t, Parser.Moves flag s t ∧ t.Faces style ps ∧
      (breaks ps = false → t.gap.any isLineBreak = false) := by
  obtain ⟨-, hrest, hp⟩ := h
  obtain ⟨token, d, hn, hf, hin⟩ := Lexer.next_of_pieces hstyle hp hs (List.forall_mem_nil _) hrest
  refine ⟨⟨token, Lexer.gap s.cursor, s.current :: s.earlier, d⟩, ⟨rfl, rfl, hn⟩, hf _, fun hb => ?_⟩
  rw [List.any_eq_false]
  exact fun c hc => Bool.not_eq_true _ ▸ hin hb inline_nil c hc

/-- The text of pieces is read from their first token on. -/
theorem Parser.exists_begins {ps : List Piece} (hp : Linked ps) (hs : (Piece.ahead ps).suits false = true) :
    ∃ s : State, s.Begins (render style none ps) ∧ s.Faces style ps := by
  obtain ⟨token, d, hn, hf, -⟩ := Lexer.next_of_pieces hstyle hp hs (List.forall_mem_nil _)
    (show (Cursor.ofText (render style none ps)).rest = [] ++ render style none ps from rfl)
  exact ⟨⟨token, _, [], d⟩, ⟨rfl, rfl, hn⟩, hf []⟩

end
end ScriptTree
