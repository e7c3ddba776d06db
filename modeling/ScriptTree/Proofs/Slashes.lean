import ScriptTree.Proofs.Calls
import ScriptTree.Proofs.Respacing

/-! # What a slash means

A token that can be found with either flag is the same token with both; only a slash is read in two
ways. So lexers that are called with different flags go together until a call stands at a slash.

Tokenizing a text guesses the flag from the token before, while a reader knows it from the
production it is in. So both obtain the same tokens of a script just if every guess suits the token
that the reader obtained. -/
namespace ScriptTree

namespace Lexer

/-- A slash is not read alike with both flags. -/
theorem suits_slash {flag : Bool} {cs : List Char} {k : TokenKind}
    (h : (scan flag ('/' :: cs)).found = .ok k) : k.suits (!flag) = false := by
  have hw : ¬ Text.isWordStart '/' = true := by decide
  rw [scan_other hw rfl] at h
  cases flag with
  | false =>
    have h : (Pattern.scan cs).found = .ok k := h
    unfold Pattern.scan at h
    dsimp only at h
    split at h
    · split at h
      · cases h
        rfl
      · cases h
    · cases h
  | true =>
    have h : (reportSymbol '/' (symbol? ('/' :: cs))).found = .ok k := h
    have hslash : ∀ op ∈ Operator.symbols, op.text.toList.head? = some '/' →
        TokenKind.suits false (.operator op) = false := by decide
    cases hop : symbol? ('/' :: cs) with
    | none => exact absurd hop (symbol?_slash cs)
    | some op =>
      rw [hop] at h
      cases h
      obtain ⟨n, -, hn⟩ := List.exists_of_findSome?_eq_some hop
      exact hslash op (List.mem_of_find?_eq_some hn) (symbol?_head hop)

/-- A token that suits another flag is found with it as well. -/
theorem next_of_suits {flag flag' : Bool} {c d : Cursor} {token : Token}
    (h : next flag c = (.ok token, d)) (hs : token.kind.suits flag' = true) :
    next flag' c = (.ok token, d) := by
  obtain ⟨text, hf⟩ := finds_of_next h
  by_cases hflag : flag' = flag
  · rw [hflag, h]
  have hrest : (front c).rest = text ++ d.rest :=
    List.append_cancel_left ((c.take_append_rest _).trans hf.rest)
  have hscan : scan flag' (front c).rest = scan flag (front c).rest := by
    cases hcs : text ++ d.rest with
    | nil => rw [hrest, hcs]; rfl
    | cons a cs =>
      rw [hrest, hcs]
      by_cases ha : a = '/'
      · subst ha
        have hno := suits_slash (congrArg Scan.found (hcs ▸ hf.scan))
        have hnot : flag' = !flag := by cases flag <;> cases flag' <;> simp_all
        rw [hnot] at hs
        cases hno.symm.trans hs
      · exact scan_eq_of_ne_slash ha cs flag' flag
  rw [next_of_closed flag' hf.valid, hscan, ← next_of_closed flag hf.valid, h]

/-! ## Where the flag matters -/

/-- Trivia can be skipped, and a slash stands behind it. -/
def AtSlash (c : Cursor) : Prop :=
  (Trivia.skip c.rest).valid = true ∧ (front c).rest.head? = some '/'

instance (c : Cursor) : Decidable (AtSlash c) := inferInstanceAs (Decidable (_ ∧ _))

theorem next_eq_of_not_atSlash {c : Cursor} (h : ¬ AtSlash c) (flag flag' : Bool) :
    next flag c = next flag' c := by
  cases hvalid : (Trivia.skip c.rest).valid with
  | false => rw [next_of_open flag hvalid, next_of_open flag' hvalid]
  | true =>
    have hscan : scan flag (front c).rest = scan flag' (front c).rest := by
      cases hrest : (front c).rest with
      | nil => rfl
      | cons a cs =>
        refine scan_eq_of_ne_slash ?_ cs flag flag'
        rintro rfl
        exact h ⟨hvalid, by rw [hrest]; rfl⟩
    rw [next_of_closed flag hvalid, next_of_closed flag' hvalid, hscan]

/-- Where an operator may come, a slash is one. -/
theorem exists_next_of_atSlash {c : Cursor} (h : AtSlash c) :
    ∃ op start stop d, next true c = (.ok ⟨.operator op, start, stop⟩, d) := by
  obtain ⟨hvalid, hslash⟩ := h
  obtain ⟨cs, hrest⟩ := List.head?_eq_some_iff.1 hslash
  have hscan : scan true (front c).rest = reportSymbol '/' (symbol? ('/' :: cs)) := by
    rw [hrest, scan_other (by decide) rfl]
    rfl
  rw [next_of_closed true hvalid, hscan]
  cases hop : symbol? ('/' :: cs) with
  | none => exact absurd hop (symbol?_slash cs)
  | some op => exact ⟨op, _, _, _, rfl⟩

/-- At a slash the two flags never give the same. -/
theorem next_ne_of_atSlash {c : Cursor} (h : AtSlash c) : next true c ≠ next false c := by
  obtain ⟨op, start, stop, d, htrue⟩ := exists_next_of_atSlash h
  obtain ⟨cs, hrest⟩ := List.head?_eq_some_iff.1 h.2
  intro heq
  have hfalse := next_of_closed false h.1
  rw [← heq, htrue, hrest] at hfalse
  have hresult := (Prod.mk.inj hfalse).1
  cases hfound : (scan false ('/' :: cs)).found with
  | error cause =>
    rw [hfound] at hresult
    cases hresult
  | ok k =>
    rw [hfound] at hresult
    obtain rfl : TokenKind.operator op = k := congrArg Token.kind (Except.ok.inj hresult)
    -- what is found at a slash suits the flag with which it was found and no other one
    have hsuits : (TokenKind.operator op).suits true = true := (next_spellable htrue).2
    exact absurd hsuits (by rw [show true = !false from rfl, suits_slash hfound]; decide)

theorem next_eq_next_iff (c : Cursor) (flag flag' : Bool) :
    next flag c = next flag' c ↔ flag = flag' ∨ ¬ AtSlash c := by
  refine ⟨fun h => or_iff_not_imp_left.2 fun hne hslash => next_ne_of_atSlash hslash ?_, ?_⟩
  · cases flag with
    | true =>
      obtain rfl : flag' = false := by simpa using Ne.symm hne
      exact h
    | false =>
      obtain rfl : flag' = true := by simpa using Ne.symm hne
      exact h.symm
  · rintro (rfl | h)
    · rfl
    · exact next_eq_of_not_atSlash h flag flag'

/-- As long as no call stands at a slash, other flags give the same results at the same places. -/
theorem run_eq_of_not_atSlash {n : Nat} {c : Cursor} {flags flags' : List Bool}
    (hn : n ≤ flags.length) (hn' : n ≤ flags'.length)
    (h : ∀ m < n, ¬ AtSlash (after (flags.take m) c)) :
    (run flags c).take n = (run flags' c).take n ∧
      ∀ m ≤ n, after (flags.take m) c = after (flags'.take m) c := by
  induction n generalizing c flags flags' with
  | zero =>
    refine ⟨rfl, fun m hm => ?_⟩
    obtain rfl := Nat.le_zero.1 hm
    rfl
  | succ n ih =>
    obtain ⟨flag, flags, rfl⟩ := List.exists_cons_of_length_pos (Nat.lt_of_lt_of_le n.succ_pos hn)
    obtain ⟨flag', flags', rfl⟩ := List.exists_cons_of_length_pos (Nat.lt_of_lt_of_le n.succ_pos hn')
    have hfirst : next flag' c = next flag c :=
      next_eq_of_not_atSlash (h 0 n.succ_pos) flag' flag
    obtain ⟨hrun, hafter⟩ := ih (Nat.le_of_succ_le_succ hn) (Nat.le_of_succ_le_succ hn')
      fun m hm => h (m + 1) (Nat.succ_lt_succ hm)
    refine ⟨?_, fun m hm => ?_⟩
    · simp only [run, List.take_succ_cons, hfirst, hrun]
    · cases m with
      | zero => rfl
      | succ m =>
        simp only [List.take_succ_cons, after, hfirst]
        exact hafter m (Nat.le_of_succ_le_succ hm)

/-- Two lexers of one source, called with any two sequences of flags, report the same and stand at
the same places until a call stands at a slash behind trivia. There, and only there, the two flags
give different results. -/
theorem run_eq_before_slash (source : String) {flags flags' : List Bool} {n : Nat}
    (hn : n ≤ flags.length) (hn' : n ≤ flags'.length)
    (h : ∀ m < n, ¬ AtSlash (after (flags.take m) (Cursor.ofText source.toList))) :
    (run flags (Cursor.ofText source.toList)).take n =
        (run flags' (Cursor.ofText source.toList)).take n ∧
      (∀ m ≤ n, after (flags.take m) (Cursor.ofText source.toList) =
        after (flags'.take m) (Cursor.ofText source.toList)) ∧
      ∀ c flag flag', next flag c = next flag' c ↔ flag = flag' ∨ ¬ AtSlash c :=
  have hsame := run_eq_of_not_atSlash hn hn' h
  ⟨hsame.1, hsame.2, next_eq_next_iff⟩

/-- A bad number and an open comment are faults with all flags; the first call behind the start of
the open comment stands at its slash. -/
theorem run_eq_before_slash_comment :
    (run [true, false, true, false] (Cursor.ofText "1a /*/b".toList)).take 3 =
        (run [false, true, false, true] (Cursor.ofText "1a /*/b".toList)).take 3 ∧
      AtSlash (after [true, false, true] (Cursor.ofText "1a /*/b".toList)) :=
  ⟨(run_eq_before_slash "1a /*/b" (by decide) (by decide) (by decide +kernel)).1,
    by decide +kernel⟩

/-! ## Guessing the flag -/

/-- Whether each token suits the flag that is guessed from the token before it. -/
def guessed : (flag : Bool) → List Token → Bool
  | _, [] => true
  | flag, token :: tokens => token.kind.suits flag && guessed token.kind.endsOperand tokens

/-- Tokens that are obtained one after the other, with any flags. -/
inductive Obtains : Cursor → List Token → Cursor → Prop
  | nil {c} : Obtains c [] c
  | cons {c d e flag token tokens} : next flag c = (.ok token, d) → Obtains d tokens e →
      Obtains c (token :: tokens) e

theorem Obtains.snoc {c d e : Cursor} {tokens : List Token} {flag : Bool} {token : Token}
    (h : Obtains c tokens d) (hn : next flag d = (.ok token, e)) :
    Obtains c (tokens ++ [token]) e := by
  induction h with
  | nil => exact .cons hn .nil
  | cons hfirst _ ih => exact .cons hfirst (ih hn)

/-- At the end of the text nothing else is obtained. -/
theorem Obtains.at_end {c d : Cursor} {tokens : List Token} (h : Obtains c tokens d)
    (hc : c.rest = []) : tokens.filter (·.kind ≠ .endOfInput) = [] := by
  induction h with
  | nil => rfl
  | @cons c d _ flag token _ hn _ ih =>
    obtain ⟨text, hf⟩ := finds_of_next hn
    have hnil := hf.rest
    rw [hc, eq_comm, List.append_eq_nil_iff, List.append_eq_nil_iff] at hnil
    have hk : token.kind = .endOfInput := by
      by_contra hne
      exact hf.text_ne_nil hne hnil.2.1
    rw [List.filter_cons_of_neg (by simpa using hk)]
    exact ih hnil.2.2

/-- Guessing obtains the same tokens just if every guess suits. -/
theorem collect_eq_ok_iff {c d : Cursor} {tokens : List Token} (h : Obtains c tokens d)
    (hend : ∃ token ∈ tokens, token.kind = .endOfInput) (flag : Bool) {fuel : Nat}
    (hfuel : c.rest.length < fuel) :
    collect fuel flag c = .ok (tokens.filter (·.kind ≠ .endOfInput)) ↔
      guessed flag (tokens.filter (·.kind ≠ .endOfInput)) = true := by
  induction h generalizing flag fuel with
  | nil =>
    obtain ⟨token, hmem, -⟩ := hend
    cases hmem
  | @cons c d _ flag₀ token tokens hn hrest ih =>
    obtain ⟨fuel, rfl⟩ : ∃ m, fuel = m + 1 := ⟨fuel - 1, by omega⟩
    obtain ⟨text, hf⟩ := finds_of_next hn
    by_cases hk : token.kind = .endOfInput
    · have hnext : next flag c = (.ok token, d) := next_of_suits hn (by rw [hk]; rfl)
      rw [List.filter_cons_of_neg (by simpa using hk), hrest.at_end (hf.at_end hk).2]
      exact ⟨fun _ => rfl, fun _ => collect_eq_ok.2 ⟨token, d, hnext, if_pos hk ▸ rfl⟩⟩
    · have hlength : d.rest.length < fuel := by
        have hpos := List.length_pos_iff.2 (hf.text_ne_nil hk)
        have hlen := congrArg List.length hf.rest
        simp only [List.length_append] at hlen
        omega
      have hend : ∃ token ∈ tokens, token.kind = .endOfInput := by
        obtain ⟨last, hmem, hlast⟩ := hend
        rcases List.mem_cons.1 hmem with rfl | hmem
        · exact absurd hlast hk
        · exact ⟨last, hmem, hlast⟩
      have hlater := ih hend token.kind.endsOperand hlength
      rw [List.filter_cons_of_pos (by simpa using hk), guessed, Bool.and_eq_true, ← hlater,
        collect_eq_ok]
      refine ⟨fun hcollect => ?_, fun ⟨hs, hcollect⟩ => ?_⟩
      · obtain ⟨token', d', hnext, hcollect⟩ := hcollect
        split at hcollect
        · cases hcollect
        · obtain ⟨later, hcollect, hcons⟩ := hcollect
          obtain ⟨rfl, rfl⟩ := List.cons.inj hcons
          have hs := (next_spellable hnext).2
          obtain rfl : d' = d := (Prod.mk.inj (hnext.symm.trans (next_of_suits hn hs))).2
          exact ⟨hs, hcollect⟩
      · refine ⟨token, d, next_of_suits hn hs, ?_⟩
        rw [if_neg hk]
        exact ⟨_, hcollect, rfl⟩

end Lexer

theorem Parser.Reaches.obtains {source : List Char} {s t : Parser.State} (hb : s.Begins source)
    (h : Parser.Reaches s t) : Lexer.Obtains (Cursor.ofText source) t.tokens t.cursor := by
  induction h with
  | refl =>
    rw [Parser.State.tokens, hb.1]
    exact .cons hb.2.2 .nil
  | step _ hm ih =>
    rw [hm.tokens]
    exact ih.snoc hm.next

/-- Tokenizing a script that is read gives the tokens that its reader obtained just if every guess
suits them. -/
theorem tokenize_eq_tokens_iff {source : String} {maxDepth : Nat} {p : Program Location}
    (h : parse source maxDepth = .ok p) :
    let tokens := (Parser.run (Parser.Context.ofText source.toList maxDepth) source.toList).tokens
      |>.filter (·.kind ≠ .endOfInput)
    Lexer.tokenize source = .ok tokens ↔ Lexer.guessed false tokens = true := by
  obtain ⟨q, hq, -⟩ := parse_eq_ok.1 h
  obtain ⟨s, t, hb, hr⟩ := Parser.run_eq_ok.1 hq
  have hobtains := (Parser.program_reaches hr).obtains hb
  have hend : ∃ token ∈ t.tokens, token.kind = .endOfInput := by
    obtain ⟨body, hi, -⟩ := Parser.returns_program.1 hr
    exact ⟨t.current, by simp [Parser.State.tokens], beq_iff_eq.1 hi.last⟩
  rw [Parser.run_tokens hb hr]
  dsimp only
  rw [← Lexer.collect_eq_ok_iff hobtains hend false (Nat.lt_succ_self _)]
  exact Lexer.tokenize_eq_ok

/-- After a name a slash divides, for both. -/
theorem tokenize_eq_tokens_division : ∃ tokens, Lexer.tokenize "a/b;" = .ok tokens ∧
    (Parser.run (Parser.Context.ofText "a/b;".toList 9) "a/b;".toList).tokens.filter
      (·.kind ≠ .endOfInput) = tokens := by
  obtain ⟨p, hp⟩ := exists_parse_of_isOk (show (parse "a/b;" 9).isOk = true by decide +kernel)
  exact ⟨_, (tokenize_eq_tokens_iff hp).2 (by decide +kernel), rfl⟩

/-- After the head of a statement an operand begins, although its last token ends an operand
elsewhere. -/
theorem tokenize_ne_tokens_header : (parse "if(a)/b/.c;" 9).isOk = true ∧
    Lexer.tokenize "if(a)/b/.c;" ≠ .ok ((Parser.run (Parser.Context.ofText "if(a)/b/.c;".toList 9)
      "if(a)/b/.c;".toList).tokens.filter (·.kind ≠ .endOfInput)) := by
  decide +kernel

end ScriptTree
