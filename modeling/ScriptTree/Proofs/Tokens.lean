import ScriptTree.Proofs.Adjacency
import ScriptTree.Proofs.StatementForms

/-! # What one step finds in the text

Looking for a token cuts the text into trivia, the token and the rest. Every token but the end of
input takes a character, so there are no more steps to real tokens than there are characters. -/
namespace ScriptTree

/-- A scan of a text that is not empty: a real token, or a fault of the text. -/
def Scan.Proper (s : Scan) : Prop :=
  match s.found with
  | .ok k => k ≠ .endOfInput
  | .error cause => cause.kind = .lexical

namespace Quoted

theorem body_error {quote : Char} {cs : List Char} {cause : Cause}
    (h : (body quote cs).found = .error cause) : cause.kind = .lexical := by
  fun_induction body quote cs with
  | case1 | case3 | case5 | case6 => cases h; rfl
  | case2 => cases h
  | case4 _ _ _ _ cs _ _ ih | case7 _ cs _ _ _ ih | case8 _ cs _ _ ih =>
    refine ih ?_
    cases hb : (body quote cs).found with
    | ok es => simp [Body.after, hb, Except.map] at h
    | error cause' => simpa [Body.after, hb, Except.map] using h

theorem scan_proper (quote : Char) (cs : List Char) : (scan quote cs).Proper := by
  rw [Scan.Proper, scan]
  dsimp only
  cases hb : (body quote cs).found with
  | ok es =>
    intro h
    cases h
  | error cause => exact body_error hb

end Quoted

namespace Numeral

theorem report_proper (e : Extent) (value : Double) : (report e value).Proper := by
  rw [Scan.Proper, report]
  cases e.valid with
  | true =>
    intro h
    cases h
  | false => rfl

theorem scan_proper (cs : List Char) : (scan cs).Proper := by
  unfold scan
  repeat' split
  all_goals exact report_proper _ _

end Numeral

namespace Pattern

theorem scan_proper (cs : List Char) : (scan cs).Proper := by
  unfold scan
  dsimp only
  split
  · split
    · nofun
    · rfl
  · rfl

end Pattern

namespace Lexer

theorem wordKind_ne_end (word : String) : wordKind word ≠ .endOfInput := by
  rcases wordKind_cases word with h | ⟨op, -, h⟩ | ⟨k, h⟩ | h
  · rw [h]; nofun
  · rw [h]; nofun
  · rw [h]; nofun
  · intro he
    rw [he] at h
    simp at h

theorem scan_proper (flag : Bool) (c : Char) (cs : List Char) : (scan flag (c :: cs)).Proper := by
  by_cases hw : Text.isWordStart c = true
  · rw [scan_word hw]
    exact wordKind_ne_end _
  cases hp : punctuation? c with
  | some k =>
    rw [scan_punctuation hw hp]
    unfold punctuation? at hp
    split at hp <;> cases hp <;> nofun
  | none =>
    rw [scan_other hw hp]
    split
    · exact Quoted.scan_proper _ _
    split
    · exact Numeral.scan_proper _
    split
    · nofun
    split
    · exact Pattern.scan_proper _
    · cases symbol? (c :: cs) with
      | none => rfl
      | some op => nofun

theorem next_nil (flag : Bool) (n : Nat) :
    next flag ⟨n, []⟩ = (.ok ⟨.endOfInput, n, n⟩, ⟨n, []⟩) := rfl

/-- A token that was found behind trivia: its text, and where it stands. -/
structure Finds (flag : Bool) (c : Cursor) (token : Token) (text : List Char) (d : Cursor) : Prop where
  valid : (Trivia.skip c.rest).valid = true
  rest : c.rest = gap c ++ (text ++ d.rest)
  scan : Lexer.scan flag (text ++ d.rest) = ⟨text.length, .ok token.kind⟩
  start : token.span.start = c.offset + Text.bytes (gap c)
  stop : token.span.stop = token.span.start + Text.bytes text
  offset : d.offset = token.span.stop

theorem exists_text_of_scan {flag : Bool} {cs : List Char} {k : TokenKind}
    (h : (Lexer.scan flag cs).found = .ok k) : ∃ text rest, cs = text ++ rest ∧
      Lexer.scan flag cs = ⟨text.length, .ok k⟩ := by
  cases cs with
  | nil => exact ⟨[], [], rfl, by rw [← h]; rfl⟩
  | cons c cs =>
    have hok : (Lexer.scan flag (c :: cs)).found.isOk = true := by rw [h]; rfl
    obtain ⟨-, text, rest, hcs, hlen, -⟩ := scan_settles hok
    exact ⟨text, rest, hcs, by rw [hlen, ← h]⟩

theorem finds_of_next {flag : Bool} {c d : Cursor} {token : Token}
    (h : next flag c = (.ok token, d)) : ∃ text, Finds flag c token text d := by
  unfold next at h
  dsimp only at h
  split at h
  · rename_i hvalid
    split at h
    · rename_i k hfound
      obtain ⟨htoken, hd⟩ := Prod.mk.inj h
      obtain rfl := Except.ok.inj htoken
      obtain ⟨text, rest, hcs, hscan⟩ := exists_text_of_scan hfound
      have hrest : d.rest = rest := by
        rw [← hd, hscan]
        show List.drop _ _ = _
        rw [hcs, List.drop_left]
      have htext : (c.advance (Trivia.skip c.rest).length).rest.take text.length = text := by
        rw [hcs, List.take_left]
      refine ⟨text, hvalid, ?_, ?_, rfl, ?_, ?_⟩
      · rw [hrest, ← hcs, gap]
        exact (List.take_append_drop _ _).symm
      · rw [hrest, ← hcs, hscan]
      · rw [hscan]
        show _ + Text.bytes _ = _
        rw [htext]
      · rw [← hd]
    · cases (Prod.mk.inj h).1
  · cases (Prod.mk.inj h).1

/-- The lexer's own faults are faults of the text. -/
theorem lexical_of_next {flag : Bool} {c d : Cursor} {f : Fault}
    (h : next flag c = (.error f, d)) : f.cause.kind = .lexical := by
  unfold next at h
  dsimp only at h
  split at h
  · split at h
    · cases (Prod.mk.inj h).1
    · rename_i cause hfound
      obtain rfl := Except.error.inj (Prod.mk.inj h).1
      revert hfound
      generalize (c.advance (Trivia.skip c.rest).length).rest = cs
      intro hfound
      cases cs with
      | nil => cases hfound
      | cons a cs =>
        have hproper := scan_proper flag a cs
        rwa [Scan.Proper, hfound] at hproper
  · obtain rfl := Except.error.inj (Prod.mk.inj h).1
    rfl

namespace Finds
variable {flag : Bool} {c d : Cursor} {token : Token} {text : List Char}
  (h : Finds flag c token text d)
include h

theorem bare : Trivia.Bare (text ++ d.rest) := by
  have hspec := (Trivia.skipFrom_spec (n := 0) h.valid).2
  have hdrop : c.rest.drop (Trivia.skip c.rest).length = text ++ d.rest :=
    List.append_cancel_left ((List.take_append_drop _ _).trans h.rest)
  rwa [Nat.sub_zero, show Trivia.skipFrom .between 0 c.rest = Trivia.skip c.rest from rfl,
    hdrop] at hspec

/-- At the end of input nothing is left. -/
theorem at_end (hk : token.kind = .endOfInput) : text = [] ∧ d.rest = [] := by
  cases hcs : text ++ d.rest with
  | nil => exact List.append_eq_nil_iff.1 hcs
  | cons a cs =>
    have hproper := scan_proper flag a cs
    rw [← hcs, Scan.Proper, h.scan] at hproper
    exact absurd hk hproper

/-- Any other token takes a character. -/
theorem text_ne_nil (hk : token.kind ≠ .endOfInput) : text ≠ [] := by
  rintro rfl
  have hscan := h.scan
  cases hcs : d.rest with
  | nil =>
    rw [hcs] at hscan
    exact hk (Except.ok.inj (congrArg Scan.found hscan)).symm
  | cons a cs =>
    rw [List.nil_append, hcs] at hscan
    have hok : (Lexer.scan flag (a :: cs)).found.isOk = true := by rw [hscan]; rfl
    have hpos := (scan_settles hok).1
    rw [hscan] at hpos
    exact absurd hpos (Nat.lt_irrefl 0)

end Finds
end Lexer

namespace Parser

theorem Moves.finds {flag : Bool} {s t : State} (h : Moves flag s t) :
    ∃ text, Lexer.Finds flag s.cursor t.current text t.cursor :=
  Lexer.finds_of_next h.next

theorem State.Begins.finds {source : List Char} {s : State} (h : s.Begins source) :
    ∃ text, Lexer.Finds false (Cursor.ofText source) s.current text s.cursor :=
  Lexer.finds_of_next h.2.2

end Parser
end ScriptTree
