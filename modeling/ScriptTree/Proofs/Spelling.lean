import ScriptTree.Lexer
import ScriptTree.Printer.Quote
import ScriptTree.Proofs.Numerals

/-! # Tokens are read as they are spelled

Every token that the lexer can find has a spelling, and the lexer finds it again at the front of any
text that begins with the spelling and goes on with a character that is allowed there. -/
namespace ScriptTree

/-- Whether a text is a word: a name, a keyword, or an operator written with letters. -/
def Text.isWord (cs : List Char) : Bool := cs.head?.any isWordStart && cs.all isWordPart

/-- Whether a character may stand right after an operator: it makes no other operator, no comment
and no number of it. -/
def Operator.allows (op : Operator) (c : Char) : Bool :=
  if words.contains op then !Text.isWordPart c
  else if op = .dot then !Text.isDigit c
  else (symbols.all fun o => !(op.text.toList ++ [c]).isPrefixOf o.text.toList) &&
    !(op == .divide && (c == '/' || c == '*'))

/-- A pattern with its slashes that no comment can be mistaken for, and its flags. -/
structure Pattern.WellFormed (pattern flags : String) : Prop where
  body : ∃ c cs, pattern.toList = '/' :: c :: cs ∧ c ≠ '/' ∧ c ≠ '*' ∧
    bodyExtent false [] (c :: cs) = ⟨(c :: cs).length, true⟩
  flags : flagExtent [] flags.toList = ⟨flags.toList.length, true⟩

namespace TokenKind

/-- The text of a token in a script. -/
def spelling : TokenKind → List Char
  | .number x => x.literal
  | .string s => quote s
  | .regex pattern flags => pattern.toList ++ flags.toList
  | .identifier name => name.toList
  | .this => "this".toList
  | .null => "null".toList
  | .undefined => "undefined".toList
  | .boolean true => "true".toList
  | .boolean false => "false".toList
  | .keyword word => word.text.toList
  | .operator op => op.text.toList
  | .leftParen => ['(']
  | .rightParen => [')']
  | .leftBrace => ['\x7b']
  | .rightBrace => ['\x7d']
  | .leftBracket => ['[']
  | .rightBracket => [']']
  | .semicolon => [';']
  | .comma => [',']
  | .colon => [':']
  | .endOfInput => []

/-- What the lexer knows of the tokens it finds. -/
def Spellable : TokenKind → Prop
  | .number x => x.Unsigned
  | .regex pattern flags => Pattern.WellFormed pattern flags
  | .identifier name =>
    Text.isWord name.toList = true ∧ Lexer.wordKind name = .identifier name
  | _ => True

/-- Whether the lexer can find the token when it is told if an operator may come. -/
def suits (expectOperator : Bool) : TokenKind → Bool
  | .regex _ _ => !expectOperator
  | .operator .divide | .operator .divideAssign => expectOperator
  | _ => true

/-- Whether a character may stand right after the token. -/
def allows : TokenKind → Char → Bool
  | .number x, c => !Text.isWordPart c && (c != '.' || x.pointed)
  | .operator op, c => op.allows c
  | .regex _ _, c | .identifier _, c | .this, c | .null, c | .undefined, c | .boolean _, c
  | .keyword _, c => !Text.isWordPart c
  | .endOfInput, _ => false
  | _, _ => true

end TokenKind

/-- Text that begins with no blank and no comment. -/
def Trivia.Bare (cs : List Char) : Prop := ∀ n, skipFrom .between n cs = ⟨n, true⟩

/-- The lexer finds the token `k`, spelled `text`, in front of `rest`. -/
structure Reads (text rest : List Char) (k : TokenKind) : Prop where
  bare : Trivia.Bare (text ++ rest)
  scan {flag} : k.suits flag = true → Lexer.scan flag (text ++ rest) = ⟨text.length, .ok k⟩

/-! ## Trivia -/

namespace Trivia

theorem bare_nil : Bare [] := fun _ => rfl

theorem bare_cons {c : Char} {cs : List Char} (h : Text.isBlank c = false)
    (hc : c = '/' → cs.head? ≠ some '/' ∧ cs.head? ≠ some '*') : Bare (c :: cs) := by
  intro n
  rw [skipFrom.eq_def]
  split
  case h_5 e =>
    obtain ⟨rfl, rfl⟩ := List.cons.inj e
    rw [h]
    rfl
  all_goals simp_all

/-- One character that was walked over. -/
theorem bare_drop_cons {n length : Nat} {c : Char} {cs : List Char}
    (h : n + 1 ≤ length ∧ Bare (cs.drop (length - (n + 1)))) :
    n ≤ length ∧ Bare ((c :: cs).drop (length - n)) := by
  have hlength : length - n = length - (n + 1) + 1 := by omega
  rw [hlength, List.drop_succ_cons]
  exact ⟨by omega, h.2⟩

/-- A walk that ends well ends no earlier than it began, and in front of no trivia. -/
theorem skipFrom_spec {mode : Mode} {n : Nat} {cs : List Char}
    (h : (skipFrom mode n cs).valid = true) : n ≤ (skipFrom mode n cs).length ∧
      Bare (cs.drop ((skipFrom mode n cs).length - n)) := by
  fun_induction skipFrom mode n cs with
  | case1 => cases h
  | case2 => exact ⟨Nat.le_refl _, by simpa using bare_nil⟩
  | case6 n c cs hslash hstar hblank =>
    rw [Nat.sub_self, List.drop_zero]
    refine ⟨Nat.le_refl _, bare_cons (by simpa using hblank) ?_⟩
    rintro rfl
    constructor
    · intro hc
      obtain ⟨cs, rfl⟩ := List.head?_eq_some_iff.1 hc
      exact hslash cs rfl rfl
    · intro hc
      obtain ⟨cs, rfl⟩ := List.head?_eq_some_iff.1 hc
      exact hstar cs rfl rfl
  | case3 _ _ ih | case4 _ _ ih | case8 _ _ _ ih => exact bare_drop_cons (bare_drop_cons (ih h))
  | case5 _ _ _ _ _ _ ih | case7 _ _ _ ih | case9 _ _ _ _ _ ih => exact bare_drop_cons (ih h)

theorem bare_slash {cs : List Char} (h : Bare ('/' :: cs)) :
    cs.head? ≠ some '/' ∧ cs.head? ≠ some '*' := by
  have stuck {mode cs} (he : skipFrom mode 2 cs = ⟨0, true⟩) : False := by
    have hle := (skipFrom_spec (congrArg Extent.valid he)).1
    rw [he] at hle
    exact absurd hle (by decide)
  constructor
  · intro hc
    obtain ⟨cs, rfl⟩ := List.head?_eq_some_iff.1 hc
    exact stuck (h 0)
  · intro hc
    obtain ⟨cs, rfl⟩ := List.head?_eq_some_iff.1 hc
    exact stuck (h 0)

end Trivia

theorem takeWhile_append_of_head {p : Char → Bool} {xs rest : List Char}
    (h : ∀ x ∈ xs, p x = true) (hrest : ∀ c, rest.head? = some c → p c = false) :
    (xs ++ rest).takeWhile p = xs := by
  cases rest with
  | nil => rw [List.append_nil, Numeral.takeWhile_eq_self h]
  | cons c cs => exact Numeral.takeWhile_append_cons h (hrest c rfl)

/-! ## Words -/

theorem reads_word {text rest : List Char} (h : Text.isWord text = true)
    (hrest : ∀ c, rest.head? = some c → Text.isWordPart c = false) :
    Reads text rest (Lexer.wordKind (String.ofList text)) := by
  obtain ⟨hstart, hpart⟩ := Bool.and_eq_true_iff.1 h
  cases text with
  | nil => cases hstart
  | cons c cs =>
    have hc : Text.isWordStart c = true := hstart
    have hall : ∀ x ∈ c :: cs, Text.isWordPart x = true := List.all_eq_true.1 hpart
    have hpart : Text.isWordPart c = true := Text.isWordPart_iff.2 (.inl hc)
    constructor
    · exact Trivia.bare_cons (Text.isBlank_eq_false_of_isWordPart hpart) fun e =>
        absurd e (Text.ne_of_isWordPart hpart (by decide))
    · intro flag _
      rw [List.cons_append, Lexer.scan, if_pos hc, ← List.cons_append,
        takeWhile_append_of_head hall hrest]

/-! ## Strings -/

theorem hexDigit_spec : ∀ d < 16, Text.isHexDigit (Nat.digitChar d) = true ∧
    Text.digitValue (Nat.digitChar d) = d := by decide

theorem hex4_spec {n : Nat} (h : n < 0x10000) :
    (hex4 n).all Text.isHexDigit = true ∧ Text.ofDigits 16 (hex4 n) = n := by
  have hd (m : Nat) := hexDigit_spec (m % 16) (Nat.mod_lt _ (by omega))
  constructor
  · simp [hex4, hd]
  · simp only [hex4, List.map_cons, List.map_nil, Text.ofDigits, List.foldl_cons, List.foldl_nil, hd]
    omega

/-- The characters written with an escape of their code are in the first plane. -/
theorem lt_of_escaped {c : Char} (h : (Text.isControl c || Text.isLineBreak c) = true) :
    c.toNat < 0xd800 := by
  simp only [Text.isControl, Text.isLineBreak, Bool.or_eq_true, Bool.and_eq_true, beq_iff_eq,
    decide_eq_true_eq, ← Char.toNat_inj, Char.reduceToNat] at h
  omega

namespace Quoted

/-- An element that decodes to a character, whatever comes next. -/
def Element.Stands (e : Element) (c : Char) : Prop :=
  e = .char c ∨ e = .unit c.toNat ∧ c.toNat < 0xd800

theorem decode_cons {e : Element} {c : Char} (h : e.Stands c) (es : List Element) :
    decode (e :: es) = c :: decode es := by
  rcases h with rfl | ⟨rfl, hlt⟩
  · rfl
  · have hhigh : isHighSurrogate c.toNat = false := by
      simp only [isHighSurrogate, Bool.and_eq_false_iff, decide_eq_false_iff_not]
      omega
    have hlow : isLowSurrogate c.toNat = false := by
      simp only [isLowSurrogate, Bool.and_eq_false_iff, decide_eq_false_iff_not]
      omega
    have hunit : ofUnit c.toNat = c := by
      simp [ofUnit, hhigh, hlow]
    rcases es with _ | ⟨_ | low, es⟩
    · simp [decode, hunit]
    · simp [decode, hunit]
    · simp [decode, hunit, hhigh]

theorem body_quoteChar (c : Char) (cs : List Char) : ∃ e : Element, e.Stands c ∧
    body '\x22' (quoteChar c ++ cs) = (body '\x22' cs).after (quoteChar c).length e := by
  unfold quoteChar
  split
  iterate 7 exact ⟨.char _, .inl rfl, by simp [body, escaped]⟩
  rename_i hslash hquote _ _ _ _ _
  split
  · rename_i hesc
    have hlt := lt_of_escaped hesc
    obtain ⟨hall, hval⟩ := hex4_spec (n := c.toNat) (by omega)
    refine ⟨.unit c.toNat, .inr ⟨rfl, hlt⟩, ?_⟩
    simp only [hex4, List.map_cons, List.map_nil] at hall hval
    simp [body, hex4, hall, hval]
  · refine ⟨.char c, .inl rfl, ?_⟩
    rw [List.singleton_append, body.eq_def]
    dsimp only
    rw [if_neg hquote, if_neg hslash]
    rfl

/-- The body of a written string ends at its closing quote and decodes to the string. -/
theorem body_written (cs rest : List Char) : ∃ es, decode es = cs ∧
    body '\x22' (cs.flatMap quoteChar ++ '\x22' :: rest) =
      ⟨(cs.flatMap quoteChar).length + 1, .ok es⟩ := by
  induction cs with
  | nil => exact ⟨[], rfl, by rw [List.flatMap_nil, List.nil_append, body.eq_def]; rfl⟩
  | cons c cs ih =>
    obtain ⟨es, hes, hbody⟩ := ih
    obtain ⟨e, he, hchar⟩ := body_quoteChar c (cs.flatMap quoteChar ++ '\x22' :: rest)
    refine ⟨e :: es, by rw [decode_cons he, hes], ?_⟩
    rw [List.flatMap_cons, List.append_assoc, hchar, hbody, List.length_append]
    simp only [Body.after, Except.map, Body.mk.injEq, and_true]
    omega

end Quoted

theorem reads_string (s : String) (rest : List Char) : Reads (quote s) rest (.string s) := by
  have hquote : quote s ++ rest = '\x22' :: (s.toList.flatMap quoteChar ++ '\x22' :: rest) := by
    simp [quote]
  rw [quote]
  constructor
  · rw [← quote, hquote]
    exact Trivia.bare_cons (by decide) (by simp)
  · intro flag _
    obtain ⟨es, hes, hbody⟩ := Quoted.body_written s.toList rest
    have hscan : Lexer.scan flag (quote s ++ rest) =
        Quoted.scan '\x22' (s.toList.flatMap quoteChar ++ '\x22' :: rest) := by
      rw [hquote]
      rfl
    rw [← quote, hscan, Quoted.scan, hbody, quote]
    simp [Except.map, hes]
    omega

/-! ## Regular expressions -/

namespace Pattern

theorem eq_of_after {e : Extent} {n : Nat} (h : e.after 1 = ⟨n, true⟩) :
    ∃ m, n = m + 1 ∧ e = ⟨m, true⟩ := by
  obtain ⟨length, valid⟩ := e
  rw [Extent.after, Extent.mk.injEq] at h
  obtain ⟨rfl, rfl⟩ := h
  exact ⟨length, Nat.add_comm 1 length, rfl⟩

/-- A body that was found is found again, whatever follows. -/
theorem bodyExtent_prefix {escaped : Bool} {opened cs : List Char} {n : Nat}
    (h : bodyExtent escaped opened cs = ⟨n, true⟩) : ∃ pre post, cs = pre ++ post ∧
      pre.length = n ∧ ∀ rest, bodyExtent escaped opened (pre ++ rest) = ⟨n, true⟩ := by
  induction cs generalizing escaped opened n with
  | nil => simp [bodyExtent] at h
  | cons c cs ih =>
    have step {escaped opened} (h : (bodyExtent escaped opened cs).after 1 = ⟨n, true⟩) :
        ∃ pre post, cs = pre ++ post ∧ (c :: pre).length = n ∧
          ∀ rest, (bodyExtent escaped opened (pre ++ rest)).after 1 = ⟨n, true⟩ := by
      obtain ⟨m, rfl, he⟩ := eq_of_after h
      obtain ⟨pre, post, hcs, hlen, hpre⟩ := ih he
      refine ⟨pre, post, hcs, by rw [List.length_cons, hlen], fun rest => ?_⟩
      rw [hpre, Extent.after, Nat.add_comm]
    rw [bodyExtent] at h
    split at h
    · simp at h
    · rename_i hbreak
      split at h
      · rename_i hesc
        obtain ⟨pre, post, rfl, hlen, hpre⟩ := step h
        refine ⟨c :: pre, post, rfl, hlen, fun rest => ?_⟩
        rw [List.cons_append, bodyExtent, if_neg hbreak, if_pos hesc, hpre]
      · rename_i hesc
        split at h
        · rename_i hslash
          obtain ⟨pre, post, rfl, hlen, hpre⟩ := step h
          refine ⟨c :: pre, post, rfl, hlen, fun rest => ?_⟩
          rw [List.cons_append, bodyExtent, if_neg hbreak, if_neg hesc, if_pos hslash, hpre]
        · rename_i hslash
          split at h
          · rename_i hclose
            obtain ⟨rfl, -⟩ := Extent.mk.inj h
            refine ⟨[c], cs, rfl, rfl, fun rest => ?_⟩
            rw [List.cons_append, bodyExtent, if_neg hbreak, if_neg hesc, if_neg hslash,
              if_pos hclose]
          · rename_i hclose
            obtain ⟨pre, post, rfl, hlen, hpre⟩ := step h
            refine ⟨c :: pre, post, rfl, hlen, fun rest => ?_⟩
            rw [List.cons_append, bodyExtent, if_neg hbreak, if_neg hesc, if_neg hslash,
              if_neg hclose, hpre]

theorem getLast?_of_bodyExtent {escaped : Bool} {opened cs : List Char}
    (h : bodyExtent escaped opened cs = ⟨cs.length, true⟩) : cs.getLast? = some '/' := by
  induction cs generalizing escaped opened with
  | nil => simp [bodyExtent] at h
  | cons c cs ih =>
    have step {escaped opened} (h : (bodyExtent escaped opened cs).after 1 = ⟨cs.length + 1, true⟩) :
        (c :: cs).getLast? = some '/' := by
      obtain ⟨m, hm, he⟩ := eq_of_after h
      obtain rfl : m = cs.length := by omega
      rw [List.getLast?_cons, ih he]
      rfl
    rw [List.length_cons, bodyExtent] at h
    split at h
    · simp at h
    · split at h
      · exact step h
      · split at h
        · exact step h
        · split at h
          · rename_i hclose
            have hlen := (Extent.mk.inj h).1
            obtain rfl : cs = [] := List.eq_nil_of_length_eq_zero (by omega)
            rw [hclose.1]
            rfl
          · exact step h

theorem isWordStart_of_isFlag {c : Char} (h : isFlag c = true) : Text.isWordStart c = true := by
  simp only [isFlag, Bool.or_eq_true, beq_iff_eq] at h
  rcases h with (rfl | rfl) | rfl <;> decide

/-- Flags that were found are found again, unless a name goes on with them. -/
theorem flagExtent_prefix {seen cs : List Char} {n : Nat} (h : flagExtent seen cs = ⟨n, true⟩) :
    ∃ pre post, cs = pre ++ post ∧ pre.length = n ∧
      ∀ rest, (∀ c, rest.head? = some c → Text.isWordPart c = false) →
        flagExtent seen (pre ++ rest) = ⟨n, true⟩ := by
  have stop {seen rest} (hrest : ∀ c, rest.head? = some c → Text.isWordPart c = false) :
      flagExtent seen rest = ⟨0, true⟩ := by
    cases rest with
    | nil => rfl
    | cons c rest =>
      obtain ⟨hstart, -⟩ := Bool.or_eq_false_iff.1 (hrest c rfl)
      have hflag : isFlag c = false := by
        cases hf : isFlag c with
        | false => rfl
        | true =>
          rw [isWordStart_of_isFlag hf] at hstart
          cases hstart
      rw [flagExtent, hflag, hstart]
      rfl
  induction cs generalizing seen n with
  | nil =>
    obtain ⟨rfl, -⟩ := Extent.mk.inj h
    exact ⟨[], [], rfl, rfl, fun rest hrest => stop hrest⟩
  | cons c cs ih =>
    rw [flagExtent] at h
    split at h
    · rename_i hc
      obtain ⟨m, rfl, he⟩ := eq_of_after h
      obtain ⟨pre, post, rfl, rfl, hpre⟩ := ih he
      refine ⟨c :: pre, post, rfl, rfl, fun rest hrest => ?_⟩
      rw [List.cons_append, flagExtent, if_pos hc, hpre rest hrest, Extent.after, Nat.add_comm]
    · obtain ⟨rfl, -⟩ := Extent.mk.inj h
      exact ⟨[], c :: cs, rfl, rfl, fun rest hrest => stop hrest⟩

theorem eq_mk_of_valid {e : Extent} (h : e.valid = true) : e = ⟨e.length, true⟩ := by
  rw [← h]

/-- What the scanner finds is well-formed, as long as it was not called at a comment. -/
theorem scan_wellFormed {cs : List Char} {k : TokenKind} (h : (scan cs).found = .ok k)
    (hslash : cs.head? ≠ some '/') (hstar : cs.head? ≠ some '*') :
    ∃ pattern flags, k = .regex pattern flags ∧ WellFormed pattern flags := by
  unfold scan at h
  dsimp only at h
  split at h
  · rename_i hbody
    split at h
    · rename_i hflags
      obtain ⟨pre, post, hcs, hlen, hpre⟩ := bodyExtent_prefix (eq_mk_of_valid hbody)
      rw [← hlen] at h hflags hpre
      obtain rfl := hcs
      rw [List.drop_left, List.take_left] at h
      rw [List.drop_left] at hflags
      obtain ⟨pre', post', hcs', hlen', hpre'⟩ := flagExtent_prefix (eq_mk_of_valid hflags)
      rw [← hlen'] at h hpre'
      obtain rfl := hcs'
      rw [List.take_left] at h
      obtain rfl := Except.ok.inj h
      refine ⟨_, _, rfl, ?_, ?_⟩
      · have halone := hpre []
        rw [List.append_nil] at halone
        cases pre with
        | nil => simp [bodyExtent] at halone
        | cons c pre =>
          refine ⟨c, pre, by simp, ?_, ?_, halone⟩
          · rintro rfl
            exact hslash rfl
          · rintro rfl
            exact hstar rfl
      · have halone := hpre' [] (by simp)
        rw [List.append_nil] at halone
        rwa [String.toList_ofList]
    · cases h
  · cases h

end Pattern

theorem reads_regex {pattern flags : String} (h : Pattern.WellFormed pattern flags)
    {rest : List Char} (hrest : ∀ c, rest.head? = some c → Text.isWordPart c = false) :
    Reads (pattern.toList ++ flags.toList) rest (.regex pattern flags) := by
  obtain ⟨c, cs, hp, hslash, hstar, hbody⟩ := h.body
  obtain ⟨pre, post, hcs, hlen, hpre⟩ := Pattern.bodyExtent_prefix hbody
  obtain rfl : post = [] := by
    have hl := congrArg List.length hcs
    rw [List.length_append, hlen] at hl
    exact List.eq_nil_of_length_eq_zero (by omega)
  obtain ⟨pre', post', hcs', hlen', hpre'⟩ := Pattern.flagExtent_prefix h.flags
  obtain rfl : post' = [] := by
    have hl := congrArg List.length hcs'
    rw [List.length_append, hlen'] at hl
    exact List.eq_nil_of_length_eq_zero (by omega)
  rw [List.append_nil] at hcs hcs'
  rw [← hcs] at hpre
  rw [← hcs'] at hpre'
  have htext : pattern.toList ++ flags.toList ++ rest =
      '/' :: ((c :: cs) ++ (flags.toList ++ rest)) := by
    rw [hp]
    simp
  constructor
  · rw [htext]
    refine Trivia.bare_cons (by decide) fun _ => ⟨?_, ?_⟩
    · exact fun e => hslash (Option.some.inj e)
    · exact fun e => hstar (Option.some.inj e)
  · intro flag hflag
    obtain rfl : flag = false := by
      cases flag with
      | false => rfl
      | true => cases hflag
    have hscan : Lexer.scan false (pattern.toList ++ flags.toList ++ rest) =
        Pattern.scan ((c :: cs) ++ (flags.toList ++ rest)) := by
      rw [htext]
      rfl
    have hpattern : String.ofList ('/' :: c :: cs) = pattern := by
      rw [← hp, String.ofList_toList]
    rw [hscan, Pattern.scan, hpre (flags.toList ++ rest)]
    dsimp only
    rw [if_pos rfl, List.drop_left, hpre' rest hrest, if_pos rfl, List.take_left, List.take_left,
      hpattern, String.ofList_toList, hp]
    simp only [List.length_append, List.length_cons, Scan.mk.injEq, and_true]
    omega

/-! ## Symbols -/

namespace Operator

/-- What is true of the first character of every symbol. -/
theorem symbol_first : ∀ op ∈ symbols, op.text.toList.head?.any (fun c =>
    !Text.isWordPart c && !Text.isBlank c && (Lexer.punctuation? c).isNone && c != '\x22' &&
      c != '\x27' && c != '.' && (c != '/' || op == .divide || op == .divideAssign)) = true := by
  decide

theorem symbol_not_word : ∀ op ∈ symbols, words.contains op = false ∧ op ≠ .dot := by
  decide

theorem length_text_le : ∀ op ∈ symbols, op.text.toList.length ≤ 4 := by decide

theorem length_text_pos : ∀ op ∈ symbols, 0 < op.text.toList.length := by decide

/-- A longer text than the symbol's is no symbol. -/
theorem ofSymbol?_longer {op : Operator} (hop : op ∈ symbols) {c : Char} (hc : op.allows c = true)
    (cs : List Char) : ofSymbol? (String.ofList (op.text.toList ++ c :: cs)) = none := by
  obtain ⟨hword, hdot⟩ := symbol_not_word op hop
  rw [allows, hword, if_neg Bool.false_ne_true, if_neg hdot, Bool.and_eq_true] at hc
  cases ho : ofSymbol? (String.ofList (op.text.toList ++ c :: cs)) with
  | none => rfl
  | some o =>
    have hmem : o ∈ symbols := List.mem_of_find?_eq_some ho
    have htext := text_of_ofSymbol? ho
    have hno := List.all_eq_true.1 hc.1 o hmem
    have hprefix := List.isPrefixOf_iff_prefix.2
      (⟨cs, by simp⟩ : op.text.toList ++ [c] <+: op.text.toList ++ c :: cs)
    rw [htext, String.toList_ofList, hprefix] at hno
    cases hno

/-- Looking for four characters, then three and so on, finds the length that works. -/
theorem findSome?_lengths {f : Nat → Option Operator} {op : Operator} {n : Nat}
    (hlong : ∀ m, n < m → f m = none ∨ f m = some op) (hn : f n = some op) (hpos : 0 < n)
    (hle : n ≤ 4) : [4, 3, 2, 1].findSome? f = some op := by
  have look (m : Nat) (hm : n ≤ m) : f m = none ∨ f m = some op := by
    rcases Nat.eq_or_lt_of_le hm with rfl | hlt
    · exact .inr hn
    · exact hlong m hlt
  simp only [List.findSome?_cons]
  rcases look 4 hle with h4 | h4 <;> rw [h4]
  have h3 : n ≤ 3 := by
    rcases Nat.lt_or_ge 3 n with h | h
    · obtain rfl : n = 4 := by omega
      rw [h4] at hn
      cases hn
    · exact h
  rcases look 3 h3 with h3' | h3' <;> rw [h3']
  have h2 : n ≤ 2 := by
    rcases Nat.lt_or_ge 2 n with h | h
    · obtain rfl : n = 3 := by omega
      rw [h3'] at hn
      cases hn
    · exact h
  rcases look 2 h2 with h2' | h2' <;> rw [h2']
  obtain rfl : n = 1 := by
    rcases Nat.lt_or_ge 1 n with h | h
    · obtain rfl : n = 2 := by omega
      rw [h2'] at hn
      cases hn
    · omega
  rw [hn]

/-- The longest symbol at the front is the one that is there. -/
theorem symbol?_append {op : Operator} (hop : op ∈ symbols) {rest : List Char}
    (hrest : ∀ c, rest.head? = some c → op.allows c = true) :
    Lexer.symbol? (op.text.toList ++ rest) = some op := by
  have hfound {n : Nat} (hn : (op.text.toList ++ rest).take n = op.text.toList) :
      ofSymbol? (String.ofList ((op.text.toList ++ rest).take n)) = some op := by
    rw [hn, String.ofList_toList, ofSymbol?_text hop]
  refine findSome?_lengths (fun m hm => ?_) (hfound List.take_left) (length_text_pos op hop)
    (length_text_le op hop)
  obtain ⟨k, rfl⟩ := Nat.exists_eq_add_of_lt hm
  cases rest with
  | nil => exact .inr (hfound (by rw [List.append_nil, List.take_of_length_le (by omega)]))
  | cons c cs =>
    left
    rw [Nat.add_assoc, List.take_length_add_append, List.take_succ_cons]
    exact ofSymbol?_longer hop (hrest c rfl) _

end Operator

theorem reads_symbol {op : Operator} (hop : op ∈ Operator.symbols) {rest : List Char}
    (hrest : ∀ c, rest.head? = some c → op.allows c = true) :
    Reads op.text.toList rest (.operator op) := by
  have hfirst := Operator.symbol_first op hop
  have hsymbol := Operator.symbol?_append hop hrest
  obtain ⟨c, cs, htext⟩ : ∃ c cs, op.text.toList = c :: cs := by
    cases htext : op.text.toList with
    | nil =>
      rw [htext] at hfirst
      cases hfirst
    | cons c cs => exact ⟨c, cs, rfl⟩
  rw [htext] at hfirst
  simp only [List.head?_cons, Option.any_some, Bool.and_eq_true, Bool.not_eq_true', Bool.or_eq_true,
    bne_iff_ne, beq_iff_eq, Option.isNone_iff_eq_none] at hfirst
  obtain ⟨⟨⟨⟨⟨⟨hword, hblank⟩, hpunct⟩, hdouble⟩, hsingle⟩, hdot⟩, hslash⟩ := hfirst
  obtain ⟨hstart, hdigit⟩ := Bool.or_eq_false_iff.1 hword
  constructor
  · rw [htext]
    refine Trivia.bare_cons hblank fun e => ?_
    subst e
    rcases hslash with (h | rfl) | rfl
    · exact absurd rfl h
    · obtain rfl : cs = [] := (List.cons.inj htext).2.symm
      constructor
      · intro hc
        exact absurd (hrest '/' hc) (by decide)
      · intro hc
        exact absurd (hrest '*' hc) (by decide)
    · obtain rfl : cs = ['='] := (List.cons.inj htext).2.symm
      exact ⟨by simp, by simp⟩
  · intro flag hflag
    have hregex : ¬ (c = '/' ∧ (!flag) = true) := by
      rintro ⟨rfl, hf⟩
      rcases hslash with (h | rfl) | rfl
      · exact h rfl
      · rw [show flag = true from hflag] at hf
        cases hf
      · rw [show flag = true from hflag] at hf
        cases hf
    rw [htext] at hsymbol ⊢
    simp only [List.cons_append] at hsymbol ⊢
    have hpoint : (c == '.' && (cs ++ rest).head?.any Text.isDigit) = false := by simp [hdot]
    rw [Lexer.scan, hstart, hpunct, hdigit, hpoint, hsymbol]
    simp only [hdouble, hsingle, hdot, hregex, Bool.false_eq_true, if_false, Bool.or_self, or_self]
    rw [← htext, String.length_toList]

theorem reads_dot {rest : List Char} (hrest : ∀ c, rest.head? = some c → Text.isDigit c = false) :
    Reads ['.'] rest (.operator .dot) := by
  constructor
  · exact Trivia.bare_cons (by decide) (fun e => absurd e (by decide))
  · intro flag _
    have hpoint : ('.' == '.' && rest.head?.any Text.isDigit) = false := by
      cases hc : rest.head? with
      | none => rfl
      | some c => simpa using hrest c hc
    rw [List.singleton_append, Lexer.scan, if_neg (by decide)]
    simp only [show Lexer.punctuation? '.' = none from rfl, hpoint]
    rfl

theorem reads_punctuation {c : Char} {k : TokenKind} (hc : Lexer.punctuation? c = some k)
    (rest : List Char) : Reads [c] rest k := by
  have hfirst : Text.isWordStart c = false ∧ Text.isBlank c = false ∧ c ≠ '/' := by
    unfold Lexer.punctuation? at hc
    split at hc <;> first | decide | cases hc
  constructor
  · exact Trivia.bare_cons hfirst.2.1 fun e => absurd e hfirst.2.2
  · intro flag _
    rw [List.singleton_append, Lexer.scan, hfirst.1]
    simp only [hc]
    rfl

/-! ## Numbers -/

theorem reads_number {x : Double} (hx : x.Unsigned) {rest : List Char}
    (hrest : ∀ c, rest.head? = some c → Numeral.Ends x c) : Reads x.literal rest (.number x) := by
  obtain ⟨c, cs, hlit, hc⟩ := Numeral.literal_eq_cons hx
  have hword := Text.isWordStart_eq_false_of_isDigit hc
  have hpart : Text.isWordPart c = true := Text.isWordPart_iff.2 (.inr hc)
  constructor
  · rw [hlit]
    exact Trivia.bare_cons (Text.isBlank_eq_false_of_isWordPart hpart) fun e =>
      absurd e (Numeral.ne_of_isDigit hc (by decide))
  · intro flag _
    have hpunct : Lexer.punctuation? c = none := by
      unfold Lexer.punctuation?
      split <;> first | rfl | cases hc
    have hquote : ¬ (c = '\x22' ∨ c = '\x27') := by
      rintro (rfl | rfl) <;> cases hc
    have hscan : Lexer.scan flag (x.literal ++ rest) = Numeral.scan (x.literal ++ rest) := by
      rw [hlit, List.cons_append, Lexer.scan, hword, hpunct]
      simp only [hquote, hc, Bool.true_or, Bool.false_eq_true, if_false, if_true]
    rw [hscan, Numeral.scan_literal hx hrest]

/-! ## All tokens -/

theorem keyword_word (k : Keyword) :
    Text.isWord k.text.toList = true ∧ Lexer.wordKind k.text = .keyword k := by
  cases k <;> decide

theorem operator_word : ∀ op ∈ Operator.words,
    Text.isWord op.text.toList = true ∧ Lexer.wordKind op.text = .operator op := by
  decide

/-- Every operator is a word, the dot or a symbol. -/
theorem Operator.mem_words_or_symbols (op : Operator) :
    op ∈ words ∨ op = .dot ∨ op ∈ symbols := by
  cases op <;> decide

/-- A token is found by its spelling, in front of every text that may come right after it. -/
theorem reads {k : TokenKind} (h : k.Spellable) {rest : List Char}
    (hrest : ∀ c, rest.head? = some c → k.allows c = true) : Reads k.spelling rest k := by
  have word {text : String} (hw : Text.isWord text.toList = true) (hk : Lexer.wordKind text = k)
      (ha : ∀ c, k.allows c = !Text.isWordPart c) : Reads text.toList rest k := by
    have hword : ∀ c, rest.head? = some c → Text.isWordPart c = false := by
      intro c hc
      have hallowed := hrest c hc
      rwa [ha, Bool.not_eq_true'] at hallowed
    have hread := reads_word hw hword
    rwa [String.ofList_toList, hk] at hread
  match k, h with
  | .number x, hx =>
    refine reads_number hx fun c hc => ?_
    obtain ⟨hword, hdot⟩ := Bool.and_eq_true_iff.1 (hrest c hc)
    refine ⟨by simpa using hword, ?_⟩
    rintro rfl
    simpa using hdot
  | .string s, _ => exact reads_string s rest
  | .regex pattern flags, hp =>
    refine reads_regex hp fun c hc => ?_
    simpa [TokenKind.allows] using hrest c hc
  | .identifier name, hn => exact word hn.1 hn.2 fun _ => rfl
  | .this, _ | .null, _ | .undefined, _ | .boolean true, _ | .boolean false, _ =>
    exact word (by decide) (by decide) fun _ => rfl
  | .keyword k, _ => exact word (keyword_word k).1 (keyword_word k).2 fun _ => rfl
  | .operator op, _ =>
    rcases op.mem_words_or_symbols with hop | rfl | hop
    · obtain ⟨hw, hk⟩ := operator_word op hop
      refine word hw hk fun c => ?_
      have hc : Operator.words.contains op = true := List.contains_iff_mem.2 hop
      rw [TokenKind.allows, Operator.allows, if_pos hc]
    · refine reads_dot fun c hc => ?_
      have hallowed : (!Text.isDigit c) = true := hrest c hc
      rwa [Bool.not_eq_true'] at hallowed
    · exact reads_symbol hop hrest
  | .leftParen, _ | .rightParen, _ | .leftBrace, _ | .rightBrace, _ | .leftBracket, _
  | .rightBracket, _ | .semicolon, _ | .comma, _ | .colon, _ => exact reads_punctuation rfl rest
  | .endOfInput, _ =>
    cases rest with
    | nil => exact ⟨Trivia.bare_nil, fun _ => rfl⟩
    | cons c cs => cases hrest c rfl

/-! ## What the lexer finds -/

/-- The kind of token that a text spells. Only a lone slash, or one before an equals sign, needs an
operator to be expected. -/
def TokenKind.ofSpelling (text : List Char) : TokenKind :=
  match (Lexer.scan (text == ['/'] || text == ['/', '=']) text).found with
  | .ok k => k
  | .error _ => .endOfInput

/-- A pattern has its two slashes and something in between. -/
theorem Pattern.WellFormed.length_le {pattern flags : String} (h : WellFormed pattern flags) :
    3 ≤ (pattern.toList ++ flags.toList).length := by
  obtain ⟨c, cs, hp, hslash, -, hbody⟩ := h.body
  have hlast := getLast?_of_bodyExtent hbody
  cases cs with
  | nil => exact absurd (Option.some.inj hlast) hslash
  | cons d cs =>
    rw [hp]
    simp only [List.length_append, List.length_cons]
    omega

/-- The flag matters to regular expressions and to the two operators that begin with a slash. -/
theorem TokenKind.slash_cases (k : TokenKind) : (∃ pattern flags, k = .regex pattern flags) ∨
    k = .operator .divide ∨ k = .operator .divideAssign ∨ ∀ flag, k.suits flag = true := by
  unfold suits
  split
  · exact .inl ⟨_, _, rfl⟩
  · exact .inr (.inl rfl)
  · exact .inr (.inr (.inl rfl))
  · exact .inr (.inr (.inr fun _ => rfl))

theorem suits_spelling {k : TokenKind} (h : k.Spellable) :
    k.suits (k.spelling == ['/'] || k.spelling == ['/', '=']) = true := by
  rcases k.slash_cases with ⟨pattern, flags, rfl⟩ | rfl | rfl | hall
  · have hwell : Pattern.WellFormed pattern flags := h
    have hlen := hwell.length_le
    show (!(pattern.toList ++ flags.toList == ['/'] ||
      pattern.toList ++ flags.toList == ['/', '='])) = true
    rw [Bool.not_eq_true', Bool.or_eq_false_iff, beq_eq_false_iff_ne, beq_eq_false_iff_ne]
    constructor
    · intro e
      simp [e] at hlen
    · intro e
      simp [e] at hlen
  · rfl
  · rfl
  · exact hall _

theorem ofSpelling_spelling {k : TokenKind} (h : k.Spellable) :
    TokenKind.ofSpelling k.spelling = k := by
  have hread : Reads k.spelling [] k := reads h (by simp)
  have hscan := hread.scan (suits_spelling h)
  rw [List.append_nil] at hscan
  rw [TokenKind.ofSpelling, hscan]

namespace Lexer

/-- A word is a name unless it stands for something else. -/
theorem wordKind_cases (word : String) : wordKind word = .identifier word ∨
    (∃ op ∈ Operator.words, wordKind word = .operator op) ∨ (∃ k, wordKind word = .keyword k) ∨
    wordKind word ∈ [.boolean true, .boolean false, .null, .undefined, .this] := by
  unfold wordKind
  split
  · rename_i op h
    exact .inr (.inl ⟨op, List.mem_of_find?_eq_some h, rfl⟩)
  · split
    iterate 5 exact .inr (.inr (.inr (by simp)))
    split
    · exact .inr (.inr (.inl ⟨_, rfl⟩))
    · exact .inl rfl

theorem wordKind_spellable {word : String} (h : Text.isWord word.toList = true) (flag : Bool) :
    (wordKind word).Spellable ∧ (wordKind word).suits flag = true := by
  rcases wordKind_cases word with hk | ⟨op, hop, hk⟩ | ⟨k, hk⟩ | hk
  · rw [hk]
    exact ⟨⟨h, hk⟩, rfl⟩
  · rw [hk]
    have hall : ∀ op ∈ Operator.words, ∀ flag, TokenKind.suits flag (.operator op) = true := by
      decide
    exact ⟨trivial, hall op hop flag⟩
  · rw [hk]
    exact ⟨trivial, rfl⟩
  · revert hk
    generalize wordKind word = k
    intro hk
    simp only [List.mem_cons, List.not_mem_nil, or_false] at hk
    rcases hk with rfl | rfl | rfl | rfl | rfl <;> exact ⟨trivial, rfl⟩

theorem symbol?_head {c : Char} {cs : List Char} {op : Operator} (h : symbol? (c :: cs) = some op) :
    op.text.toList.head? = some c := by
  obtain ⟨n, hn, hop⟩ := List.exists_of_findSome?_eq_some h
  rw [Operator.text_of_ofSymbol? hop, String.toList_ofList]
  obtain ⟨m, rfl⟩ : ∃ m, n = m + 1 := by
    simp only [List.mem_cons, List.not_mem_nil, or_false] at hn
    exact ⟨n - 1, by omega⟩
  rfl

/-- What the lexer finds behind trivia can be spelled, and suits what it was told. -/
theorem scan_spellable {flag : Bool} {cs : List Char} {k : TokenKind} (hcs : Trivia.Bare cs)
    (h : (scan flag cs).found = .ok k) : k.Spellable ∧ k.suits flag = true := by
  unfold scan at h
  split at h
  · obtain rfl := Except.ok.inj h
    exact ⟨trivial, rfl⟩
  · rename_i c cs
    split at h
    · rename_i hc
      obtain rfl := Except.ok.inj h
      refine wordKind_spellable ?_ flag
      rw [String.toList_ofList, Text.isWord, List.takeWhile_cons,
        if_pos (Text.isWordPart_iff.2 (.inl hc))]
      simp only [List.head?_cons, Option.any_some, hc, Bool.true_and, List.all_cons,
        Text.isWordPart_iff.2 (.inl hc), List.all_takeWhile]
    · split at h
      · rename_i kind hpunct
        obtain rfl := Except.ok.inj h
        unfold punctuation? at hpunct
        split at hpunct <;> cases hpunct <;> exact ⟨trivial, rfl⟩
      · split at h
        · cases hb : (Quoted.body c cs).found with
          | error cause => simp [Quoted.scan, hb, Except.map] at h
          | ok es =>
            simp only [Quoted.scan, hb, Except.map] at h
            obtain rfl := Except.ok.inj h
            exact ⟨trivial, rfl⟩
        · split at h
          · obtain ⟨x, rfl, hx⟩ := Numeral.scan_unsigned h
            exact ⟨hx, rfl⟩
          · split at h
            · obtain rfl := Except.ok.inj h
              exact ⟨trivial, rfl⟩
            · split at h
              · rename_i hslash
                obtain ⟨rfl, hflag⟩ := hslash
                obtain ⟨hslash, hstar⟩ := Trivia.bare_slash hcs
                obtain ⟨pattern, flags, rfl, hp⟩ := Pattern.scan_wellFormed h hslash hstar
                exact ⟨hp, hflag⟩
              · rename_i hslash
                split at h
                · rename_i op hop
                  obtain rfl := Except.ok.inj h
                  have hhead := symbol?_head hop
                  refine ⟨trivial, ?_⟩
                  have hflag (hc : c = '/') : flag = true := by
                    simpa [hc] using hslash
                  rcases (TokenKind.operator op).slash_cases with ⟨_, _, e⟩ | e | e | hall
                  · cases e
                  · cases e
                    exact hflag (Option.some.inj hhead).symm
                  · cases e
                    exact hflag (Option.some.inj hhead).symm
                  · exact hall flag
                · cases h

/-- A token that was found can be spelled, and suits what the lexer was told. -/
theorem next_spellable {flag : Bool} {c c' : Cursor} {t : Token} (h : next flag c = (.ok t, c')) :
    t.kind.Spellable ∧ t.kind.suits flag = true := by
  unfold next at h
  dsimp only at h
  split at h
  · rename_i hvalid
    have hbare := (Trivia.skipFrom_spec (n := 0) hvalid).2
    rw [Nat.sub_zero] at hbare
    split at h
    · rename_i kind hfound
      obtain ⟨⟨⟨⟩⟩, -⟩ := Prod.mk.inj h
      exact scan_spellable hbare hfound
    · cases (Prod.mk.inj h).1
  · cases (Prod.mk.inj h).1

end Lexer
end ScriptTree
