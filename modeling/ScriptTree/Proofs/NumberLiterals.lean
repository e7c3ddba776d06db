import ScriptTree.Proofs.Calls

/-! # Number literals follow their grammar

What a number literal takes of a text, in three forms. The walk over a decimal literal with its
phases takes the parts one after the other, each as far as it goes; and what it accepts is a decimal
that any reader of decimals knows. -/
namespace ScriptTree.Numeral

open Text (isDigit isHexDigit isWordStart isWordPart)

/-! ## The grammar -/

/-- The forms of literals: hexadecimal after `0x`, digits after a zero, and decimal. -/
inductive Form where
  | hex
  | zero
  | decimal
deriving DecidableEq, Repr

/-- The form is told by a leading zero and the character behind it. -/
def Form.ofText : List Char → Form
  | '0' :: cs =>
    if cs.head? = some 'x' ∨ cs.head? = some 'X' then .hex
    else if cs.head? = some '.' ∨ cs.head? = some 'e' ∨ cs.head? = some 'E' then .decimal
    else .zero
  | _ => .decimal

/-- A point and the digits behind it. -/
def fraction : List Char → List Char
  | '.' :: cs => '.' :: cs.takeWhile isDigit
  | _ => []

def sign : List Char → List Char
  | '+' :: _ => ['+']
  | '-' :: _ => ['-']
  | _ => []

/-- What begins an exponent: its letter and a sign. -/
def marker : List Char → List Char
  | c :: cs => if c = 'e' ∨ c = 'E' then c :: sign cs else []
  | [] => []

/-- The digits of an exponent. -/
def power (cs : List Char) : List Char :=
  if (marker cs).isEmpty then [] else (cs.drop (marker cs).length).takeWhile isDigit

/-- The parts of a decimal literal, each taken as far as it goes. -/
structure Parts where
  whole : List Char
  fraction : List Char
  marker : List Char
  power : List Char

def Parts.ofText (cs : List Char) : Parts :=
  let whole := cs.takeWhile isDigit
  let behindWhole := cs.drop whole.length
  let fraction := Numeral.fraction behindWhole
  let behindFraction := behindWhole.drop fraction.length
  ⟨whole, fraction, Numeral.marker behindFraction, Numeral.power behindFraction⟩

def Parts.text (p : Parts) : List Char := p.whole ++ (p.fraction ++ (p.marker ++ p.power))

/-- What a literal takes of a text. -/
def taken (cs : List Char) : List Char :=
  match Form.ofText cs with
  | .hex => cs.take 2 ++ (cs.drop 2).takeWhile isHexDigit
  | .zero => cs.take 1 ++ (cs.drop 1).takeWhile isDigit
  | .decimal => (Parts.ofText cs).text

/-- Whether the literal is well formed: there are digits where there must be, and no name goes on
with it. -/
def legal (cs : List Char) : Bool :=
  let next := (cs.drop (taken cs).length).head?
  match Form.ofText cs with
  | .hex => !((cs.drop 2).takeWhile isHexDigit).isEmpty && !next.any isWordStart
  | .zero => !next.any isWordStart
  | .decimal =>
    ((Parts.ofText cs).marker.isEmpty || !(Parts.ofText cs).power.isEmpty) && !next.any isWordPart

/-- Whether a number begins a text: with a digit, or with a point and a digit. -/
def begins : List Char → Bool
  | [] => false
  | c :: cs => isDigit c || (c == '.' && cs.head?.any isDigit)

def Digits (cs : List Char) : Prop := ∀ c ∈ cs, isDigit c = true

/-- Digits, digits with a point and digits behind it or none, or a point with digits behind it. -/
inductive Mantissa : List Char → Prop
  | whole {ds} : ds ≠ [] → Digits ds → Mantissa ds
  | fraction {ds fs} : ds ≠ [] → Digits ds → Digits fs → Mantissa (ds ++ '.' :: fs)
  | point {fs} : fs ≠ [] → Digits fs → Mantissa ('.' :: fs)

/-- An exponent, or none. -/
inductive Exponent : List Char → Prop
  | none : Exponent []
  | some {c sign ds} : c = 'e' ∨ c = 'E' → sign ∈ [[], ['+'], ['-']] → ds ≠ [] → Digits ds →
      Exponent (c :: sign ++ ds)

/-- The decimals that every reader of decimals knows. -/
def Readable (cs : List Char) : Prop :=
  ∃ mantissa exponent, cs = mantissa ++ exponent ∧ Mantissa mantissa ∧ Exponent exponent

/-! ## Decimal extents -/

theorem decimalExtent_power (hasDigit : Bool) (cs : List Char) :
    decimalExtent (.exponent hasDigit) cs = ⟨(cs.takeWhile isDigit).length,
      (hasDigit || !(cs.takeWhile isDigit).isEmpty) &&
        !(cs.drop (cs.takeWhile isDigit).length).head?.any isWordPart⟩ := by
  induction cs generalizing hasDigit with
  | nil => simp [decimalExtent, Phase.complete]
  | cons c cs ih =>
    by_cases hc : isDigit c = true
    · rw [decimalExtent_digit hc, Phase.afterDigit, ih, List.takeWhile_cons_of_pos hc]
      simp [Extent.after, Nat.add_comm]
    · rw [List.takeWhile_cons_of_neg hc, decimalExtent.eq_def]
      simp [hc, Phase.inExponent, Phase.complete]

/-- An exponent is walked over after its letter and its sign. -/
theorem decimalExtent_marker {phase : Phase} (hp : phase.inExponent = false) {c : Char}
    (hc : c = 'e' ∨ c = 'E') (cs : List Char) : decimalExtent phase (c :: cs) =
      (decimalExtent (.exponent false) (cs.drop (sign cs).length)).after (1 + (sign cs).length) := by
  have hd : ¬ isDigit c = true := by rcases hc with rfl | rfl <;> decide
  have hdot : ¬ (c = '.' ∧ phase = .whole) := by rcases hc with rfl | rfl <;> simp
  rw [decimalExtent.eq_def]
  dsimp only
  rw [if_neg hd, if_neg hdot, if_pos ⟨hc, by rw [hp]; rfl⟩]
  unfold sign
  split <;> simp_all

/-- What is walked over behind the whole digits and the fraction. -/
theorem decimalExtent_exponent_part {phase : Phase} (hp : phase.inExponent = false) {cs : List Char}
    (hd : ∀ c, cs.head? = some c → isDigit c = false)
    (hdot : phase = .whole → cs.head? ≠ some '.') :
    decimalExtent phase cs = ⟨(marker cs ++ power cs).length,
      ((marker cs).isEmpty || !(power cs).isEmpty) &&
        !(cs.drop (marker cs ++ power cs).length).head?.any isWordPart⟩ := by
  have hcomplete : phase.complete = true := by
    cases phase with
    | whole | fraction => rfl
    | exponent hasDigit => cases hp
  cases cs with
  | nil => simp [decimalExtent, marker, power, hcomplete]
  | cons c cs =>
    by_cases hc : c = 'e' ∨ c = 'E'
    · have hmarker : marker (c :: cs) = c :: sign cs := if_pos hc
      have hpower : power (c :: cs) = (cs.drop (sign cs).length).takeWhile isDigit := by
        rw [power, hmarker]
        rfl
      rw [decimalExtent_marker hp hc, decimalExtent_power, hmarker, hpower, List.cons_append,
        List.length_cons, List.drop_succ_cons, List.length_append, List.drop_drop, Extent.after]
      simp only [List.isEmpty_cons, Bool.false_or, Extent.mk.injEq, and_true]
      omega
    · have hmarker : marker (c :: cs) = [] := if_neg hc
      have hpoint : ¬ (c = '.' ∧ phase = .whole) := by
        rintro ⟨rfl, hwhole⟩
        exact hdot hwhole rfl
      rw [power, hmarker, decimalExtent.eq_def]
      simp [hd c rfl, hc, hpoint, hcomplete]

theorem digits_takeWhile (cs : List Char) : Digits (cs.takeWhile isDigit) :=
  fun c hc => List.all_eq_true.1 List.all_takeWhile c hc

theorem drop_length_takeWhile (p : Char → Bool) (cs : List Char) :
    cs.drop (cs.takeWhile p).length = cs.dropWhile p := by
  have hcut : (cs.takeWhile p ++ cs.dropWhile p).drop (cs.takeWhile p).length = cs.dropWhile p :=
    List.drop_left
  rwa [List.takeWhile_append_dropWhile] at hcut

/-- Behind a run its characters do not go on. -/
theorem head?_dropWhile {p : Char → Bool} {cs : List Char} {c : Char}
    (h : (cs.dropWhile p).head? = some c) : p c = false := by
  have hnot := List.head?_dropWhile_not p cs
  rw [h] at hnot
  simpa using hnot

/-- The walk over digits and a fraction leaves the exponent. -/
theorem decimalExtent_fraction_part {cs : List Char}
    (hd : ∀ c, cs.head? = some c → isDigit c = false) :
    ∃ phase, phase.inExponent = false ∧
      decimalExtent .whole cs =
        (decimalExtent phase (cs.drop (fraction cs).length)).after (fraction cs).length ∧
      (∀ c, (cs.drop (fraction cs).length).head? = some c → isDigit c = false) ∧
      (phase = .whole → (cs.drop (fraction cs).length).head? ≠ some '.') := by
  by_cases hdot : cs.head? = some '.'
  · obtain ⟨cs, rfl⟩ := List.head?_eq_some_iff.1 hdot
    have hfraction : fraction ('.' :: cs) = '.' :: cs.takeWhile isDigit := rfl
    have hpoint : decimalExtent .whole ('.' :: cs) = (decimalExtent .fraction cs).after 1 := by
      rw [decimalExtent.eq_def]
      rfl
    have hdigits :=
      @decimalExtent_digits .fraction rfl _ (digits_takeWhile cs) (cs.dropWhile isDigit)
    rw [List.takeWhile_append_dropWhile] at hdigits
    rw [hfraction, List.length_cons, List.drop_succ_cons, drop_length_takeWhile, hpoint, hdigits]
    refine ⟨.fraction, rfl, ?_, fun c => head?_dropWhile, Phase.noConfusion⟩
    simp only [Extent.after, Extent.mk.injEq, and_true]
    omega
  · have hfraction : fraction cs = [] := by
      unfold fraction
      split
      · exact absurd rfl hdot
      · rfl
    rw [hfraction]
    exact ⟨.whole, rfl, by simp [Extent.after], hd, fun _ => hdot⟩

/-- The walk over a decimal literal takes its parts, and accepts it if it is legal. -/
theorem decimalExtent_eq (cs : List Char) :
    decimalExtent .whole cs = ⟨(Parts.ofText cs).text.length,
      ((Parts.ofText cs).marker.isEmpty || !(Parts.ofText cs).power.isEmpty) &&
        !(cs.drop (Parts.ofText cs).text.length).head?.any isWordPart⟩ := by
  have hdigits := @decimalExtent_digits .whole rfl _ (digits_takeWhile cs) (cs.dropWhile isDigit)
  rw [List.takeWhile_append_dropWhile] at hdigits
  obtain ⟨phase, hp, hfraction, hd, hdot⟩ :=
    decimalExtent_fraction_part fun c => @head?_dropWhile isDigit cs c
  have hrest := decimalExtent_exponent_part hp hd hdot
  rw [hdigits, hfraction, hrest]
  simp only [Parts.text, Parts.ofText, ← drop_length_takeWhile, Extent.after, List.length_append,
    List.drop_drop, Nat.add_assoc]

/-! ## Decimals that are taken -/

theorem sign_mem (cs : List Char) : sign cs ∈ [[], ['+'], ['-']] := by
  unfold sign
  split <;> simp

/-- What is taken of an exponent, if it has a digit. -/
theorem exponent_part {cs : List Char}
    (h : ((marker cs).isEmpty || !(power cs).isEmpty) = true) : Exponent (marker cs ++ power cs) := by
  cases hm : (marker cs).isEmpty with
  | true =>
    have hmarker : marker cs = [] := List.isEmpty_iff.1 hm
    rw [power, hm, hmarker]
    exact .none
  | false =>
    rw [hm, Bool.false_or, Bool.not_eq_true'] at h
    obtain ⟨c, rest, rfl⟩ : ∃ c rest, cs = c :: rest := by
      cases cs with
      | nil => cases hm
      | cons c rest => exact ⟨c, rest, rfl⟩
    by_cases hc : c = 'e' ∨ c = 'E'
    · have hmarker : marker (c :: rest) = c :: sign rest := if_pos hc
      have hpower : Digits (power (c :: rest)) := by
        rw [power, hm]
        exact digits_takeWhile _
      rw [hmarker]
      exact .some hc (sign_mem rest) (fun e => by rw [e] at h; cases h) hpower
    · rw [marker, if_neg hc] at hm
      cases hm

theorem mantissa_part {cs : List Char} (h : begins cs = true) :
    Mantissa (cs.takeWhile isDigit ++ fraction (cs.dropWhile isDigit)) := by
  have hfraction (rest : List Char) :
      fraction rest = [] ∨ ∃ fs, rest = '.' :: fs ∧ fraction rest = '.' :: fs.takeWhile isDigit := by
    unfold fraction
    split
    · exact .inr ⟨_, rfl, rfl⟩
    · exact .inl rfl
  cases cs with
  | nil => cases h
  | cons c cs =>
    by_cases hc : isDigit c = true
    · have hne : (c :: cs).takeWhile isDigit ≠ [] := by
        rw [List.takeWhile_cons_of_pos hc]
        exact List.cons_ne_nil _ _
      rcases hfraction ((c :: cs).dropWhile isDigit) with he | ⟨fs, -, he⟩
      · rw [he, List.append_nil]
        exact .whole hne (digits_takeWhile _)
      · rw [he]
        exact .fraction hne (digits_takeWhile _) (digits_takeWhile _)
    · obtain ⟨rfl, hnext⟩ : c = '.' ∧ cs.head?.any isDigit = true := by
        simpa [begins, hc] using h
      have hne : cs.takeWhile isDigit ≠ [] := by
        cases cs with
        | nil => cases hnext
        | cons d cs =>
          have hd : isDigit d = true := hnext
          rw [List.takeWhile_cons_of_pos hd]
          exact List.cons_ne_nil _ _
      rw [List.takeWhile_cons_of_neg hc, List.dropWhile_cons_of_neg hc]
      exact .point hne (digits_takeWhile _)

/-- A legal decimal is one that readers of decimals know. -/
theorem readable_taken {cs : List Char} (hb : begins cs = true) (hf : Form.ofText cs = .decimal)
    (h : legal cs = true) : Readable (taken cs) := by
  rw [legal, hf] at h
  have hcomplete := (Bool.and_eq_true_iff.1 h).1
  have htaken : taken cs = cs.takeWhile isDigit ++ fraction (cs.dropWhile isDigit) ++
      ((Parts.ofText cs).marker ++ (Parts.ofText cs).power) := by
    rw [taken, hf, ← drop_length_takeWhile, List.append_assoc]
    rfl
  exact ⟨_, _, htaken, mantissa_part hb, exponent_part hcomplete⟩

theorem begins_of_readable {cs : List Char} (h : Readable cs) : begins cs = true := by
  obtain ⟨mantissa, exponent, rfl, hmantissa, -⟩ := h
  have first {ds : List Char} (hne : ds ≠ []) (hds : Digits ds) (rest : List Char) :
      begins (ds ++ rest) = true ∧ (ds ++ rest).head?.any isDigit = true := by
    obtain ⟨d, ds, rfl⟩ := List.exists_cons_of_ne_nil hne
    have hd := hds d List.mem_cons_self
    exact ⟨Bool.or_eq_true_iff.2 (.inl hd), hd⟩
  cases hmantissa with
  | whole hne hds => exact (first hne hds _).1
  | fraction hne hds _ =>
    rw [List.append_assoc]
    exact (first hne hds _).1
  | point hne hfs =>
    rw [List.cons_append, begins, (first hne hfs exponent).2]
    rfl

/-! ## All forms -/

theorem scan_of_form (cs : List Char) : scan cs =
    match Form.ofText cs with
    | .hex => scanHex (cs.drop 2)
    | .zero => scanOctal (cs.drop 1)
    | .decimal => scanDecimal cs := by
  unfold scan
  split
  · rename_i rest
    unfold Form.ofText
    generalize hhead : rest.head? = head
    split <;> simp_all
  · rename_i hzero
    have hform : Form.ofText cs = .decimal := by
      unfold Form.ofText
      split
      · exact (hzero _ rfl).elim
      · rfl
    rw [hform]

theorem two_le_of_hex {cs : List Char} (h : Form.ofText cs = .hex) : 2 ≤ cs.length := by
  unfold Form.ofText at h
  split at h
  · rename_i rest
    cases rest with
    | nil => simp at h
    | cons c rest => exact Nat.le_add_left 2 _
  · cases h

theorem one_le_of_zero {cs : List Char} (h : Form.ofText cs = .zero) : 1 ≤ cs.length := by
  unfold Form.ofText at h
  split at h
  · exact Nat.le_add_left 1 _
  · cases h

/-- A run of digits behind some characters of a text. -/
theorem taken_run {p : Char → Bool} {cs : List Char} {n : Nat} (hn : n ≤ cs.length)
    (h : taken cs = cs.take n ++ (cs.drop n).takeWhile p) :
    (taken cs).length = n + (runExtent p (cs.drop n)).length ∧
      (runExtent p (cs.drop n)).valid = !(cs.drop (taken cs).length).head?.any isWordStart := by
  have hlength : (taken cs).length = n + (runExtent p (cs.drop n)).length := by
    rw [h, List.length_append, List.length_take, Nat.min_eq_left hn]
    rfl
  rw [hlength, ← List.drop_drop]
  exact ⟨rfl, rfl⟩

/-- The scanner takes what the grammar takes, and accepts what the grammar makes legal. -/
theorem scan_eq_report (cs : List Char) :
    ∃ x, scan cs = report ⟨(taken cs).length, legal cs⟩ x := by
  rw [scan_of_form]
  cases hf : Form.ofText cs with
  | hex =>
    obtain ⟨hlength, hvalid⟩ := @taken_run isHexDigit cs 2 (two_le_of_hex hf) (by rw [taken, hf])
    have hlegal : legal cs = (!((cs.drop 2).takeWhile isHexDigit).isEmpty &&
        (runExtent isHexDigit (cs.drop 2)).valid) := by
      rw [hvalid, legal, hf]
    have hempty : ((cs.drop 2).takeWhile isHexDigit).isEmpty =
        ((runExtent isHexDigit (cs.drop 2)).length == 0) := by
      rw [runExtent]
      cases (cs.drop 2).takeWhile isHexDigit <;> rfl
    rw [hlength, hlegal, hempty, Bool.and_comm]
    exact ⟨_, rfl⟩
  | zero =>
    obtain ⟨hlength, hvalid⟩ := @taken_run isDigit cs 1 (one_le_of_zero hf) (by rw [taken, hf])
    have hlegal : legal cs = (runExtent isDigit (cs.drop 1)).valid := by
      rw [hvalid, legal, hf]
    rw [hlength, hlegal]
    exact ⟨_, rfl⟩
  | decimal =>
    refine ⟨decimalValue (cs.take (decimalExtent .whole cs).length), ?_⟩
    have hlegal : (⟨(taken cs).length, legal cs⟩ : Extent) = decimalExtent .whole cs := by
      rw [decimalExtent_eq, legal, taken, hf]
    rw [hlegal]
    rfl

/-! ## What is taken stands in the text -/

theorem prefix_append {as bs cs : List Char} (ha : as <+: cs) (hb : bs <+: cs.drop as.length) :
    as ++ bs <+: cs := by
  obtain ⟨rest, rfl⟩ := ha
  rw [List.drop_left] at hb
  exact (List.prefix_append_right_inj as).2 hb

theorem prefix_fraction (cs : List Char) : fraction cs <+: cs := by
  unfold fraction
  split
  · exact List.cons_prefix_cons.2 ⟨rfl, List.takeWhile_prefix _⟩
  · exact List.nil_prefix

theorem prefix_sign (cs : List Char) : sign cs <+: cs := by
  unfold sign
  split
  iterate 2 exact List.prefix_append [_] _
  exact List.nil_prefix

theorem prefix_marker (cs : List Char) : marker cs <+: cs := by
  unfold marker
  split
  · split
    · exact List.cons_prefix_cons.2 ⟨rfl, prefix_sign _⟩
    · exact List.nil_prefix
  · exact List.nil_prefix

theorem prefix_power (cs : List Char) : power cs <+: cs.drop (marker cs).length := by
  unfold power
  split
  · exact List.nil_prefix
  · exact List.takeWhile_prefix _

theorem prefix_run {p : Char → Bool} {cs : List Char} {n : Nat} (hn : n ≤ cs.length) :
    cs.take n ++ (cs.drop n).takeWhile p <+: cs := by
  refine prefix_append (List.take_prefix n cs) ?_
  rw [List.length_take, Nat.min_eq_left hn]
  exact List.takeWhile_prefix p

theorem prefix_taken (cs : List Char) : taken cs <+: cs := by
  unfold taken
  split
  · rename_i hf
    exact prefix_run (two_le_of_hex hf)
  · rename_i hf
    exact prefix_run (one_le_of_zero hf)
  · refine prefix_append (List.takeWhile_prefix _) (prefix_append (prefix_fraction _) ?_)
    exact prefix_append (prefix_marker _) (prefix_power _)

end ScriptTree.Numeral

namespace ScriptTree.Lexer

/-- Where a number begins the scanner of numbers is asked. -/
theorem scan_number {flag : Bool} {cs : List Char} (h : Numeral.begins cs = true) :
    scan flag cs = Numeral.scan cs := by
  cases cs with
  | nil => cases h
  | cons c cs =>
    have hfirst : Text.isDigit c = true ∨ c = '.' := by
      rcases Bool.or_eq_true_iff.1 h with hd | hpoint
      · exact .inl hd
      · exact .inr (beq_iff_eq.1 (Bool.and_eq_true_iff.1 hpoint).1)
    have hword : ¬ Text.isWordStart c = true := by
      rcases hfirst with hd | rfl
      · rw [Text.isWordStart_eq_false_of_isDigit hd]
        exact Bool.false_ne_true
      · decide
    have hpunct : punctuation? c = none := by
      rcases hfirst with hd | rfl
      · unfold punctuation?
        split <;> first | rfl | cases hd
      · rfl
    have hquote : ¬ (c = '\x22' ∨ c = '\x27') := by
      rintro (rfl | rfl) <;> rcases hfirst with hd | hpoint <;> contradiction
    rw [scan_other hword hpunct, if_neg hquote]
    exact if_pos h

/-- Where a number begins, the lexer takes what the grammar takes. If that is legal it is the token,
and a decimal is one that every reader of decimals knows; otherwise the fault is located where the
literal begins. -/
theorem next_number {read? : List Char → Option Double}
    (hread : ∀ cs, Numeral.Readable cs → (read? cs).isSome = true) {flag : Bool} {c : Cursor}
    (hclosed : (Trivia.skip c.rest).valid = true)
    (hbegins : Numeral.begins (front c).rest = true) :
    Numeral.taken (front c).rest <+: (front c).rest ∧
    (Numeral.legal (front c).rest = true →
      (∃ x, (next flag c).1 = .ok ⟨.number x, (front c).offset,
        (front c).offset + Text.bytes (Numeral.taken (front c).rest)⟩) ∧
      (Numeral.Form.ofText (front c).rest = .decimal →
        (read? (Numeral.taken (front c).rest)).isSome = true)) ∧
    (Numeral.legal (front c).rest = false →
      (next flag c).1 = .error ⟨.invalidNumber, (front c).offset⟩) := by
  obtain ⟨rest, hrest⟩ := Numeral.prefix_taken (front c).rest
  obtain ⟨x, hscan⟩ := Numeral.scan_eq_report (front c).rest
  have hnumber : scan flag (front c).rest = Numeral.scan (front c).rest := scan_number hbegins
  rw [← hnumber] at hscan
  refine ⟨⟨rest, hrest⟩, fun hlegal => ⟨⟨x, ?_⟩, fun hform => ?_⟩, fun hlegal => ?_⟩
  · rw [hlegal] at hscan
    rw [next_of_scan hclosed hrest.symm hscan]
  · exact hread _ (Numeral.readable_taken hbegins hform hlegal)
  · rw [hlegal] at hscan
    rw [next_of_closed flag hclosed, hscan]
    rfl

/-- A decimal without whole digits, behind a blank; a second point is not taken. The reader asks at
least how a decimal begins. -/
theorem next_number_point :
    let read? := fun cs => if Numeral.begins cs then some (Numeral.decimalValue cs) else none
    let c := Cursor.ofText " .5E-3.".toList
    (∀ cs, Numeral.Readable cs → (read? cs).isSome = true) ∧
    (Trivia.skip c.rest).valid = true ∧ Numeral.begins (front c).rest = true ∧
    Numeral.legal (front c).rest = true ∧
    (∃ x, (next true c).1 = .ok ⟨.number x, 1, 6⟩) ∧ (read? ".5E-3".toList).isSome = true := by
  intro read? c
  have hread : ∀ cs, Numeral.Readable cs → (read? cs).isSome = true := by
    intro cs hcs
    simp only [read?, if_pos (Numeral.begins_of_readable hcs), Option.isSome_some]
  have hclosed : (Trivia.skip c.rest).valid = true := by decide
  have hbegins : Numeral.begins (front c).rest = true := by decide
  have hlegal : Numeral.legal (front c).rest = true := by decide
  have htaken : Numeral.taken (front c).rest = ".5E-3".toList := by decide
  obtain ⟨htoken, hknown⟩ := (@next_number read? hread true c hclosed hbegins).2.1 hlegal
  rw [htaken] at htoken hknown
  exact ⟨hread, hclosed, hbegins, hlegal, htoken, hknown (by decide)⟩

end ScriptTree.Lexer
