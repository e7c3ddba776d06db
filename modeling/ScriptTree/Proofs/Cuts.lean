import ScriptTree.Proofs.Calls

/-! # The lexer cuts inside its text

A scan says how many characters it used, and the cursor moves over as many. No scan says more than
there are, also when it fails. So no move is cut short by the end of the text, and what lies between
two stops can be cut out of the source. -/
namespace ScriptTree

/-! ## Lengths -/

theorem Trivia.skipFrom_length_le {mode : Mode} {n : Nat} (cs : List Char)
    (h : ∀ start, mode = .blockComment start → start ≤ n) :
    (skipFrom mode n cs).length ≤ n + cs.length := by
  fun_induction skipFrom mode n cs with
  | case1 n start => exact h _ rfl
  | case2 | case6 => exact Nat.le_add_right _ _
  | case3 n cs ih | case5 n c cs _ _ _ ih | case7 n c cs ih | case8 start n cs ih =>
    have := ih (by grind)
    simp only [List.length_cons]
    omega
  | case4 n cs ih =>
    have := ih fun _ he => by cases he; omega
    simp only [List.length_cons]
    omega
  | case9 start n c cs _ ih =>
    have := ih fun _ he => by cases he; exact Nat.le_succ_of_le (h _ rfl)
    simp only [List.length_cons]
    omega

theorem Trivia.skip_length_le (cs : List Char) : (skip cs).length ≤ cs.length := by
  have h := @skipFrom_length_le .between 0 cs nofun
  rwa [Nat.zero_add] at h

theorem Quoted.body_length_le (quote : Char) (cs : List Char) :
    (body quote cs).length ≤ cs.length := by
  fun_induction body quote cs with
  | case1 | case2 | case3 | case5 | case6 => simp
  | case4 _ _ _ _ _ _ _ ih | case7 _ _ _ _ _ ih | case8 _ _ _ _ ih =>
    simp only [Body.after, List.length_cons]
    omega

theorem Numeral.decimalExtent_length_le (phase : Phase) (cs : List Char) :
    (decimalExtent phase cs).length ≤ cs.length := by
  fun_induction decimalExtent phase cs with
  | case1 | case7 => exact Nat.zero_le _
  | case2 _ _ _ _ ih | case3 _ _ _ _ _ ih | case4 _ _ _ _ _ _ ih | case5 _ _ _ _ _ _ ih
  | case6 _ _ _ _ _ _ _ _ ih =>
    simp only [Extent.after, List.length_cons]
    omega

theorem Numeral.runExtent_length_le (isDigit : Char → Bool) (cs : List Char) :
    (runExtent isDigit cs).length ≤ cs.length :=
  (List.takeWhile_prefix _).length_le

theorem Numeral.scan_length_le (cs : List Char) : (scan cs).length ≤ cs.length := by
  have decimal (xs : List Char) : (scanDecimal xs).length ≤ xs.length :=
    decimalExtent_length_le .whole xs
  have hex (x : Char) (xs : List Char) : (scanHex xs).length ≤ ('0' :: x :: xs).length := by
    have := runExtent_length_le Text.isHexDigit xs
    simp only [scanHex, report, List.length_cons]
    omega
  have octal (xs : List Char) : (scanOctal xs).length ≤ ('0' :: xs).length := by
    have := runExtent_length_le Text.isDigit xs
    simp only [scanOctal, report, List.length_cons]
    omega
  unfold scan
  split
  · rename_i rest
    cases rest with
    | nil => exact octal []
    | cons x xs =>
      dsimp only [List.head?_cons, List.drop_succ_cons, List.drop_zero]
      split
      · exact hex x xs
      · exact hex x xs
      · exact decimal _
      · exact decimal _
      · exact decimal _
      · exact octal _
  · exact decimal _

theorem Pattern.bodyExtent_length_le (isEscaped : Bool) (opened cs : List Char) :
    (bodyExtent isEscaped opened cs).length ≤ cs.length := by
  fun_induction bodyExtent isEscaped opened cs with
  | case1 | case2 | case5 => simp
  | case3 _ _ _ _ ih | case4 _ _ _ _ ih | case6 _ _ _ _ _ _ _ ih =>
    simp only [Extent.after, List.length_cons]
    omega

theorem Pattern.flagExtent_length_le (seen cs : List Char) :
    (flagExtent seen cs).length ≤ cs.length := by
  fun_induction flagExtent seen cs with
  | case1 | case3 => simp
  | case2 _ _ _ _ ih =>
    simp only [Extent.after, List.length_cons]
    omega

theorem Pattern.scan_length_le (cs : List Char) : (scan cs).length ≤ cs.length + 1 := by
  have hbody := bodyExtent_length_le false [] cs
  have hflags := flagExtent_length_le [] (cs.drop (bodyExtent false [] cs).length)
  rw [List.length_drop] at hflags
  unfold scan
  dsimp only
  repeat' split
  all_goals dsimp only
  all_goals omega

namespace Lexer

theorem reportSymbol_length_le (c : Char) (cs : List Char) :
    (reportSymbol c (symbol? (c :: cs))).length ≤ (c :: cs).length := by
  cases hop : symbol? (c :: cs) with
  | none => exact Nat.zero_le _
  | some op =>
    obtain ⟨n, -, hn⟩ := List.exists_of_findSome?_eq_some hop
    show op.text.length ≤ _
    rw [Operator.text_of_ofSymbol? hn, String.length_ofList]
    exact List.length_take_le' _ _

/-- A scan uses characters that are there, also when it fails. -/
theorem scan_length_le (flag : Bool) (cs : List Char) : (scan flag cs).length ≤ cs.length := by
  cases cs with
  | nil => exact Nat.le_refl _
  | cons c cs =>
    by_cases hw : Text.isWordStart c = true
    · rw [scan_word hw]
      exact (List.takeWhile_prefix _).length_le
    cases hp : punctuation? c with
    | some k =>
      rw [scan_punctuation hw hp]
      exact Nat.succ_pos _
    | none =>
      rw [scan_other hw hp]
      split
      · have := Quoted.body_length_le c cs
        simp only [Quoted.scan, List.length_cons]
        omega
      split
      · exact Numeral.scan_length_le _
      split
      · exact Nat.succ_pos _
      split
      · exact Pattern.scan_length_le cs
      · exact reportSymbol_length_le c cs

/-! ## One call -/

/-- What a call of the lexer cuts is there: the text from the cursor on, the trivia, the two characters
that open a comment, and what a scan uses. Where the token or the comment begins, and where the call
stops, the source can be cut. -/
structure Cuts (source : List Char) (flag : Bool) (c : Cursor) : Prop where
  rest : Text.dropBytes c.offset source = some c.rest
  trivia : (Trivia.skip c.rest).length ≤ c.rest.length
  comment : (Trivia.skip c.rest).valid = false → 2 ≤ (front c).rest.length
  scanned : (scan flag (front c).rest).length ≤ (front c).rest.length
  gap : Text.slice source c.offset (front c).offset = some (String.ofList (gap c))
  token : ∃ text, Text.slice source (front c).offset (next flag c).2.offset = some text

end Lexer

namespace Text

theorem Boundary.exists_slice {source : List Char} {a b : Nat} (ha : Boundary source a)
    (hb : Boundary source b) (h : a ≤ b) : ∃ text, slice source a b = some text := by
  obtain ⟨before, text, after, rfl, rfl, rfl⟩ := ha.cut hb h
  exact ⟨_, slice_append before text after⟩

end Text

/-- A call at any cursor of the source. -/
theorem Cursor.Stands.cuts {source : List Char} {c : Cursor} (h : c.Stands source) (flag : Bool) :
    Lexer.Cuts source flag c where
  rest := by
    obtain ⟨before, hs, hb⟩ := h
    rw [hs, ← hb, Text.dropBytes_append]
  trivia := Trivia.skip_length_le c.rest
  comment hopen := by
    have hlength : (Lexer.front c).rest.length = c.rest.length - (Trivia.skip c.rest).length :=
      List.length_drop
    rcases Trivia.skipFrom_open hopen with he | hle
    · cases he
    · have hle : (Trivia.skip c.rest).length + 2 ≤ 0 + c.rest.length := hle
      omega
  scanned := Lexer.scan_length_le flag _
  gap := by
    obtain ⟨before, hs, hb⟩ := h
    have hcut := Text.slice_append before (Lexer.gap c) (Lexer.front c).rest
    rwa [show Lexer.gap c ++ (Lexer.front c).rest = c.rest from c.take_append_rest _, ← hs, hb]
      at hcut
  token := by
    obtain ⟨n, hn⟩ := (Lexer.next_called flag c).cursor
    have hfront : (Lexer.front c).Stands source := h.advance _
    rw [hn]
    exact hfront.boundary.exists_slice (hfront.advance n).boundary (Cursor.offset_le_advance _ n)

end ScriptTree
