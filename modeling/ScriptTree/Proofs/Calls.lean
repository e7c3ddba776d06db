import ScriptTree.Proofs.Locations

/-! # The lexer under any sequence of calls

The lexer may be called with any flags, and called again after a fault. Each call moves forward over
whole characters, unless it reports the end of input or a character that begins no token; and from
there every further call reports the same. -/
namespace ScriptTree

/-! ## Where a cursor stands -/

/-- The cursor is in front of the rest of the source. -/
def Cursor.Stands (source : List Char) (c : Cursor) : Prop :=
  ∃ before, source = before ++ c.rest ∧ Text.bytes before = c.offset

namespace Cursor
variable {source : List Char} {c : Cursor}

theorem stands_ofText (source : List Char) : (ofText source).Stands source := ⟨[], rfl, rfl⟩

theorem Stands.boundary (h : c.Stands source) : Text.Boundary source c.offset := by
  obtain ⟨before, hs, hb⟩ := h
  exact ⟨before, c.rest, hs, hb⟩

theorem Stands.offset_le (h : c.Stands source) : c.offset ≤ Text.bytes source := by
  obtain ⟨before, rfl, hb⟩ := h
  rw [Text.bytes_append]
  omega

theorem Stands.advance (h : c.Stands source) (n : Nat) : (c.advance n).Stands source := by
  obtain ⟨before, hs, hb⟩ := h
  refine ⟨before ++ c.rest.take n, ?_, ?_⟩
  · rw [List.append_assoc, c.take_append_rest, hs]
  · rw [Text.bytes_append, hb]
    rfl

theorem offset_le_advance (c : Cursor) (n : Nat) : c.offset ≤ (c.advance n).offset :=
  Nat.le_add_right _ _

theorem offset_lt_advance {n : Nat} (hn : 0 < n) (hc : c.rest ≠ []) :
    c.offset < (c.advance n).offset := by
  obtain ⟨a, cs, hcs⟩ := List.exists_cons_of_ne_nil hc
  obtain ⟨m, rfl⟩ : ∃ m, n = m + 1 := ⟨n - 1, by omega⟩
  have hpos := a.utf8Size_pos
  show c.offset < c.offset + Text.bytes (c.rest.take (m + 1))
  rw [hcs, List.take_succ_cons, Text.bytes]
  omega

theorem advance_zero (c : Cursor) : c.advance 0 = c := by
  simp [Cursor.advance, Text.bytes]

end Cursor

/-! ## Trivia -/

namespace Trivia

/-- A comment that stays open began before the walk, or begins in the text, with two characters. -/
theorem skipFrom_open {mode : Mode} {n : Nat} {cs : List Char}
    (h : (skipFrom mode n cs).valid = false) : mode = .blockComment (skipFrom mode n cs).length ∨
      (skipFrom mode n cs).length + 2 ≤ n + cs.length := by
  fun_induction skipFrom mode n cs with
  | case1 => exact .inl rfl
  | case2 | case6 => cases h
  | case4 n cs ih =>
    rcases ih h with he | hlt
    · have hn := Mode.blockComment.inj he
      exact .inr (by simp only [← hn, List.length_cons]; omega)
    · exact .inr (by simp only [List.length_cons]; omega)
  | case7 n c cs ih =>
    rcases ih h with he | hlt
    · split at he <;> cases he
    · exact .inr (by rw [List.length_cons]; omega)
  | case9 start n c cs _ ih =>
    rcases ih h with he | hlt
    · exact .inl he
    · exact .inr (by rw [List.length_cons]; omega)
  | case3 _ _ ih | case5 _ _ _ _ _ _ ih | case8 _ _ _ ih =>
    rcases ih h with he | hlt
    · cases he
    · exact .inr (by simp only [List.length_cons]; omega)

end Trivia

/-! ## One scan -/

/-- A scan that takes a character, and does not stop at one that begins no token. -/
structure Scan.Taking (s : Scan) : Prop where
  length : 0 < s.length
  found (c : Char) : s.found ≠ .error (.unexpectedCharacter c)

theorem Quoted.body_found (quote : Char) (cs : List Char) (c : Char) :
    (body quote cs).found ≠ .error (.unexpectedCharacter c) := by
  fun_induction body quote cs with
  | case1 | case2 | case3 | case5 | case6 =>
    intro h
    cases h
  | case4 _ _ _ _ cs _ _ ih | case7 _ cs _ _ _ ih | case8 _ cs _ _ ih =>
    intro h
    refine ih ?_
    cases hb : (body quote cs).found with
    | ok es => simp [Body.after, hb, Except.map] at h
    | error cause => simpa [Body.after, hb, Except.map] using h

theorem Quoted.scan_taking (quote : Char) (cs : List Char) : (scan quote cs).Taking where
  length := Nat.lt_of_lt_of_le Nat.one_pos (Nat.le_add_right 1 _)
  found c h := by
    have hbody := body_found quote cs c
    simp only [scan] at h
    cases hb : (body quote cs).found with
    | ok es =>
      rw [hb] at h
      cases h
    | error cause =>
      rw [hb] at h hbody
      cases h
      exact hbody rfl

theorem Numeral.scan_found (cs : List Char) (c : Char) :
    (scan cs).found ≠ .error (.unexpectedCharacter c) := by
  have report_found {e : Extent} {value : Double} :
      (report e value).found ≠ .error (.unexpectedCharacter c) := by
    rw [report]
    intro h
    cases hvalid : e.valid with
    | true =>
      rw [hvalid] at h
      cases h
    | false =>
      rw [hvalid] at h
      cases h
  unfold scan
  repeat' split
  all_goals exact report_found

theorem Pattern.scan_taking (cs : List Char) : (scan cs).Taking := by
  unfold scan
  dsimp only
  split
  · split
    · exact ⟨by simp only; omega, nofun⟩
    · exact ⟨by simp only; omega, nofun⟩
  · exact ⟨by simp only; omega, nofun⟩

namespace Lexer

/-- The flag matters only at a slash. -/
theorem scan_eq_of_ne_slash {c : Char} (hc : c ≠ '/') (cs : List Char) (flag flag' : Bool) :
    scan flag (c :: cs) = scan flag' (c :: cs) := by
  by_cases hw : Text.isWordStart c = true
  · rw [scan_word hw, scan_word hw]
  cases hp : punctuation? c with
  | some k => rw [scan_punctuation hw hp, scan_punctuation hw hp]
  | none =>
    rw [scan_other hw hp, scan_other hw hp]
    simp only [hc, false_and, if_false]

/-- A slash begins an operator, whatever follows. -/
theorem symbol?_slash (cs : List Char) : symbol? ('/' :: cs) ≠ none := by
  intro h
  have hone := List.findSome?_eq_none_iff.1 h 1 (by simp)
  cases hone

theorem reportSymbol_taking {c : Char} {cs : List Char} {op : Operator}
    (h : symbol? (c :: cs) = some op) : (reportSymbol c (some op)).Taking := by
  obtain ⟨n, -, hn⟩ := List.exists_of_findSome?_eq_some h
  refine ⟨?_, nofun⟩
  show 0 < op.text.length
  rw [← String.length_toList]
  exact Operator.length_text_pos op (List.mem_of_find?_eq_some hn)

/-- A scan takes a character, or stops at one that begins no token. -/
theorem scan_taking (flag : Bool) (c : Char) (cs : List Char) : (scan flag (c :: cs)).Taking ∨
    c ≠ '/' ∧ scan flag (c :: cs) = ⟨0, .error (.unexpectedCharacter c)⟩ := by
  by_cases hw : Text.isWordStart c = true
  · rw [scan_word hw, List.takeWhile_cons, if_pos (Text.isWordPart_iff.2 (.inl hw))]
    exact .inl ⟨Nat.succ_pos _, nofun⟩
  cases hp : punctuation? c with
  | some k =>
    rw [scan_punctuation hw hp]
    exact .inl ⟨Nat.one_pos, nofun⟩
  | none =>
    rw [scan_other hw hp]
    split
    · exact .inl (Quoted.scan_taking _ _)
    split
    · rename_i hnumber
      refine .inl ⟨?_, Numeral.scan_found _⟩
      by_cases hd : Text.isDigit c = true
      · exact Numeral.one_le_scan hd cs
      · simp only [hd, Bool.false_or, Bool.and_eq_true, beq_iff_eq] at hnumber
        obtain ⟨rfl, hnext⟩ := hnumber
        cases cs with
        | nil => cases hnext
        | cons d cs => exact Nat.lt_of_lt_of_le Nat.two_pos (Numeral.two_le_scan hnext cs)
    split
    · exact .inl ⟨Nat.one_pos, nofun⟩
    split
    · exact .inl (Pattern.scan_taking _)
    cases hop : symbol? (c :: cs) with
    | some op => exact .inl (reportSymbol_taking hop)
    | none =>
      refine .inr ⟨?_, rfl⟩
      rintro rfl
      exact symbol?_slash cs hop

/-! ## One call -/

/-- The end of input, or a character that begins no token. -/
def isFinal : Except Fault Token → Bool
  | .ok token => token.kind == .endOfInput
  | .error ⟨.unexpectedCharacter _, _⟩ => true
  | .error _ => false

/-- Where the token or the open comment begins that a call is about. -/
def front (c : Cursor) : Cursor := c.advance (Trivia.skip c.rest).length

variable {c : Cursor}

theorem next_of_open (flag : Bool) (h : (Trivia.skip c.rest).valid = false) :
    next flag c = (.error ⟨.unterminatedComment, (front c).offset⟩, (front c).advance 2) := by
  unfold next
  dsimp only
  rw [if_neg (by rw [h]; decide)]
  rfl

theorem next_of_closed (flag : Bool) (h : (Trivia.skip c.rest).valid = true) :
    next flag c =
      ((scan flag (front c).rest).found.map
          (⟨·, (front c).offset, ((front c).advance (scan flag (front c).rest).length).offset⟩)
        |>.mapError (⟨·, (front c).offset⟩),
        (front c).advance (scan flag (front c).rest).length) := by
  unfold next
  dsimp only
  rw [if_pos h, front]
  split <;> rename_i hfound <;> rw [hfound] <;> rfl

/-- In front of no trivia a call begins where the cursor stands. -/
theorem front_of_bare (h : Trivia.Bare c.rest) :
    (Trivia.skip c.rest).valid = true ∧ front c = c := by
  have hskip : Trivia.skip c.rest = ⟨0, true⟩ := h 0
  refine ⟨by rw [hskip], ?_⟩
  rw [front, hskip, c.advance_zero]

/-- A call takes the text that its scan takes. -/
theorem next_of_scan {flag : Bool} {text rest : List Char} {k : TokenKind}
    (h : (Trivia.skip c.rest).valid = true) (hrest : (front c).rest = text ++ rest)
    (hscan : scan flag (front c).rest = ⟨text.length, .ok k⟩) :
    next flag c = (.ok ⟨k, (front c).offset, (front c).offset + Text.bytes text⟩,
      ⟨(front c).offset + Text.bytes text, rest⟩) := by
  have hstop : (front c).advance text.length = ⟨(front c).offset + Text.bytes text, rest⟩ := by
    rw [Cursor.advance, hrest, List.take_left, List.drop_left]
  rw [next_of_closed flag h, hscan, hstop]
  rfl

/-- What a call reports and where it stops. -/
inductive Called (c : Cursor) : Except Fault Token → Cursor → Prop
  | token {k n} : (front c).rest ≠ [] → 0 < n → k ≠ .endOfInput →
      Called c (.ok ⟨k, (front c).offset, ((front c).advance n).offset⟩) ((front c).advance n)
  | fault {cause n} : (front c).rest ≠ [] → 0 < n → (∀ a, cause ≠ .unexpectedCharacter a) →
      Called c (.error ⟨cause, (front c).offset⟩) ((front c).advance n)
  | ending : (front c).rest = [] →
      Called c (.ok ⟨.endOfInput, (front c).offset, (front c).offset⟩) (front c)
  | stray {a cs} : (front c).rest = a :: cs → Trivia.Bare (a :: cs) →
      (∀ flag, scan flag (a :: cs) = ⟨0, .error (.unexpectedCharacter a)⟩) →
      Called c (.error ⟨.unexpectedCharacter a, (front c).offset⟩) (front c)

theorem next_called (flag : Bool) (c : Cursor) : Called c (next flag c).1 (next flag c).2 := by
  cases hvalid : (Trivia.skip c.rest).valid with
  | false =>
    rw [next_of_open flag hvalid]
    refine .fault ?_ Nat.two_pos nofun
    rcases Trivia.skipFrom_open hvalid with he | hlt
    · cases he
    · have hlt : (Trivia.skip c.rest).length + 2 ≤ 0 + c.rest.length := hlt
      show c.rest.drop _ ≠ []
      rw [Ne, List.drop_eq_nil_iff]
      omega
  | true =>
    rw [next_of_closed flag hvalid]
    cases hrest : (front c).rest with
    | nil =>
      show Called c (.ok ⟨.endOfInput, _, ((front c).advance 0).offset⟩) ((front c).advance 0)
      rw [(front c).advance_zero]
      exact .ending hrest
    | cons a cs =>
      rcases scan_taking flag a cs with ⟨hlength, hfound⟩ | ⟨hslash, hstray⟩
      · have hne : (front c).rest ≠ [] := by rw [hrest]; nofun
        have hproper := scan_proper flag a cs
        revert hproper hlength hfound
        rcases scan flag (a :: cs) with ⟨n, cause | k⟩
        · intro hn hfound _
          exact .fault hne hn fun b hb => hfound b (by rw [hb])
        · intro hn _ hproper
          exact .token hne hn hproper
      · rw [hstray]
        show Called c _ ((front c).advance 0)
        rw [(front c).advance_zero]
        refine .stray hrest ?_ fun flag' => (scan_eq_of_ne_slash hslash cs flag' flag).trans hstray
        rw [← hrest]
        exact (Trivia.skipFrom_spec (n := 0) hvalid).2

namespace Called
variable {result : Except Fault Token} {d : Cursor} (h : Called c result d)
include h

/-- A call goes forward, over whole characters. -/
theorem cursor : ∃ n, d = (front c).advance n := by
  cases h with
  | token _ _ _ | fault _ _ _ => exact ⟨_, rfl⟩
  | ending _ | stray _ _ _ => exact ⟨0, (front c).advance_zero.symm⟩

theorem stands {source : List Char} (hc : c.Stands source) : d.Stands source := by
  obtain ⟨n, rfl⟩ := h.cursor
  exact (hc.advance _).advance n

theorem offset_le : c.offset ≤ d.offset := by
  obtain ⟨n, rfl⟩ := h.cursor
  exact Nat.le_trans (c.offset_le_advance _) ((front c).offset_le_advance n)

/-- A token lies between where its call began and where it stopped. -/
theorem span {token : Token} (ht : result = .ok token) : c.offset ≤ token.span.start ∧
    token.span.start ≤ token.span.stop ∧ token.span.stop ≤ d.offset := by
  have hfront : c.offset ≤ (front c).offset := c.offset_le_advance _
  cases h with
  | token _ _ _ =>
    cases ht
    exact ⟨hfront, (front c).offset_le_advance _, Nat.le_refl _⟩
  | ending _ =>
    cases ht
    exact ⟨hfront, Nat.le_refl _, Nat.le_refl _⟩
  | fault _ _ _ | stray _ _ _ => cases ht

theorem offset_lt (hf : isFinal result = false) : c.offset < d.offset := by
  have hfront : c.offset ≤ (front c).offset := c.offset_le_advance _
  cases h with
  | token hne hn _ | fault hne hn _ =>
    exact Nat.lt_of_le_of_lt hfront (Cursor.offset_lt_advance hn hne)
  | ending _ | stray _ _ _ => cases hf

/-- From a final result on every call reports the same, and does not move. -/
theorem again (hf : isFinal result = true) (flag : Bool) : next flag d = (result, d) := by
  have stay {cs : List Char} (hrest : (front c).rest = cs) (hbare : Trivia.Bare cs) :
      (Trivia.skip (front c).rest).valid = true ∧ front (front c) = front c :=
    front_of_bare (hrest ▸ hbare)
  cases h with
  | token _ _ hk => exact absurd (beq_iff_eq.1 hf) hk
  | @fault cause _ _ _ hcause =>
    cases cause with
    | unexpectedCharacter a => exact absurd rfl (hcause a)
    | _ => cases hf
  | ending hrest =>
    obtain ⟨hvalid, hfront⟩ := stay hrest Trivia.bare_nil
    rw [next_of_closed flag hvalid, hfront, hrest]
    show (Except.ok (Token.mk .endOfInput ⟨_, ((front c).advance 0).offset⟩),
      (front c).advance 0) = _
    rw [(front c).advance_zero]
  | stray hrest hbare hscan =>
    obtain ⟨hvalid, hfront⟩ := stay hrest hbare
    rw [next_of_closed flag hvalid, hfront, hrest, hscan flag]
    show (_, (front c).advance 0) = _
    rw [(front c).advance_zero]
    rfl

end Called

/-! ## Many calls -/

/-- Where the lexer stands after some calls. -/
def after : List Bool → Cursor → Cursor
  | [], c => c
  | flag :: flags, c => after flags (next flag c).2

theorem after_stands {source : List Char} (flags : List Bool) (h : c.Stands source) :
    (after flags c).Stands source := by
  induction flags generalizing c with
  | nil => exact h
  | cons flag flags ih => exact ih ((next_called flag c).stands h)

theorem run_of_final {result : Except Fault Token} (h : ∀ flag, next flag c = (result, c))
    (flags : List Bool) : ∀ r ∈ run flags c, r = result := by
  induction flags with
  | nil => nofun
  | cons flag flags ih =>
    intro r hr
    rw [run, h flag] at hr
    rcases List.mem_cons.1 hr with rfl | hr
    · rfl
    · exact ih r hr

/-- As long as nothing final is reported, each call takes a byte. -/
theorem length_le_of_run (flags : List Bool) (h : (run flags c).any isFinal = false) :
    c.offset + flags.length ≤ (after flags c).offset := by
  induction flags generalizing c with
  | nil => exact Nat.le_refl _
  | cons flag flags ih =>
    obtain ⟨hfirst, hrest⟩ : isFinal (next flag c).1 = false ∧
        (run flags (next flag c).2).any isFinal = false := Bool.or_eq_false_iff.1 h
    calc c.offset + (flags.length + 1) ≤ (next flag c).2.offset + flags.length := by
          have hlt := (next_called flag c).offset_lt hfirst
          omega
      _ ≤ (after flags (next flag c).2).offset := ih hrest

/-! ## Collecting tokens -/

theorem collect_eq_ok {fuel : Nat} {flag : Bool} {tokens : List Token} :
    collect (fuel + 1) flag c = .ok tokens ↔ ∃ token d, next flag c = (.ok token, d) ∧
      if token.kind = .endOfInput then [] = tokens
      else ∃ later, collect fuel token.kind.endsOperand d = .ok later ∧ token :: later = tokens := by
  rw [collect]
  rcases next flag c with ⟨f | token, d⟩
  · simp
  · by_cases hk : token.kind = .endOfInput
    · simp [and_assoc, hk]
    · cases hc : collect fuel token.kind.endsOperand d with
      | error f => simp [and_assoc, hk, hc, Except.map]
      | ok later => simp [and_assoc, hk, hc, Except.map]

theorem collect_eq_error {fuel : Nat} {flag : Bool} {f : Fault} :
    collect (fuel + 1) flag c = .error f ↔ (∃ d, next flag c = (.error f, d)) ∨
      ∃ token d, next flag c = (.ok token, d) ∧ token.kind ≠ .endOfInput ∧
        collect fuel token.kind.endsOperand d = .error f := by
  rw [collect]
  rcases next flag c with ⟨g | token, d⟩
  · simp
  · by_cases hk : token.kind = .endOfInput
    · simp [and_assoc, hk]
    · cases hc : collect fuel token.kind.endsOperand d with
      | error g => simp [and_assoc, hk, hc, Except.map]
      | ok later => simp [and_assoc, hk, hc, Except.map]

theorem tokenize_eq_ok {source : String} {tokens : List Token} :
    tokenize source = .ok tokens ↔ tokensOf source.toList = .ok tokens := by
  show (tokensOf source.toList).mapError _ = _ ↔ _
  cases tokensOf source.toList with
  | ok later =>
    exact ⟨fun h => congrArg Except.ok (Except.ok.inj h),
      fun h => congrArg Except.ok (Except.ok.inj h)⟩
  | error f => exact ⟨nofun, nofun⟩

/-! ## Soundness -/

/-- The lexer is sound under any sequence of calls: it stands at a boundary of the source; a call
never goes back, its token lies between where it began and where it stopped, and it goes forward
unless it reports the end of input or a character that begins no token; from there every further
call reports the same; and that happens no later than in one call more than there are bytes. -/
theorem calls_sound (source : String) (flags : List Bool) :
    (after flags (Cursor.ofText source.toList)).Stands source.toList ∧
    (∀ flag, let c := after flags (Cursor.ofText source.toList)
      let d := (next flag c).2
      c.offset ≤ d.offset ∧
      (∀ token, (next flag c).1 = .ok token →
        c.offset ≤ token.span.start ∧ token.span.start ≤ token.span.stop ∧
          token.span.stop ≤ d.offset) ∧
      (c.offset < d.offset ∨ isFinal (next flag c).1 = true) ∧
      (isFinal (next flag c).1 = true →
        ∀ flags', ∀ r ∈ run flags' d, r = (next flag c).1)) ∧
    (Text.bytes source.toList < flags.length →
      ∃ r ∈ run flags (Cursor.ofText source.toList), isFinal r = true) := by
  have hstands := after_stands flags (Cursor.stands_ofText source.toList)
  refine ⟨hstands, fun flag => ?_, fun hlength => ?_⟩
  · intro c d
    have hcall := next_called flag c
    refine ⟨hcall.offset_le, fun token ht => hcall.span ht, ?_, fun hf => ?_⟩
    · cases hf : isFinal (next flag c).1 with
      | true => exact .inr rfl
      | false => exact .inl (hcall.offset_lt hf)
    · exact run_of_final (hcall.again hf)
  · cases hany : (run flags (Cursor.ofText source.toList)).any isFinal with
    | true => exact List.any_eq_true.1 hany
    | false =>
      have hrun := length_le_of_run flags hany
      have hle := hstands.offset_le
      omega

end Lexer
end ScriptTree
