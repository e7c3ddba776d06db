import ScriptTree.Lexer.Numeral
import ScriptTree.Proofs.Characters
import ScriptTree.Proofs.Decimals

/-! # Numbers are written as they are read

The scanner of numbers takes the literal of a double whole, and gives the double back, whatever
follows that could not be a part of the literal. -/
namespace ScriptTree

/-- Doubles that a script can spell: a sign is an operator of its own. -/
def Double.Unsigned : Double → Prop
  | .finite false _ | .infinite false => True
  | _ => False

/-- Whether the literal has a fraction or an exponent, so that a point after it is not a part. -/
def Double.pointed (x : Double) : Bool := x.literal.any fun c => c == '.' || c == 'e'

namespace Numeral

/-! ## Extents -/

theorem afterDigit_of_not_inExponent {phase : Phase} (h : phase.inExponent = false) :
    phase.afterDigit = phase := by
  cases phase <;> first | rfl | cases h

/-- Digits are taken in any phase before an exponent. -/
theorem decimalExtent_digits {phase : Phase} (hp : phase.inExponent = false) {ds : List Char}
    (h : ∀ c ∈ ds, Text.isDigit c = true) (cs : List Char) :
    decimalExtent phase (ds ++ cs) = (decimalExtent phase cs).after ds.length := by
  induction ds with
  | nil => simp [Extent.after]
  | cons d ds ih =>
    rw [List.forall_mem_cons] at h
    rw [List.cons_append, decimalExtent.eq_def]
    simp only [h.1, if_true, afterDigit_of_not_inExponent hp, ih h.2, Extent.after,
      List.length_cons, Extent.mk.injEq, and_true]
    omega

/-- A literal ends where neither a name nor its fraction can go on. -/
theorem decimalExtent_end {phase : Phase} (hp : phase.complete = true) {rest : List Char}
    (h : ∀ c, rest.head? = some c → Text.isWordPart c = false)
    (hdot : rest.head? = some '.' → phase ≠ .whole) : decimalExtent phase rest = ⟨0, true⟩ := by
  cases rest with
  | nil => rw [decimalExtent, hp]
  | cons c cs =>
    have hc : Text.isWordPart c = false := h c rfl
    have hd : Text.isDigit c = false := by
      rw [Text.isWordPart, Bool.or_eq_false_iff] at hc
      exact hc.2
    have he : ¬ ((c = 'e' ∨ c = 'E') ∧ (!phase.inExponent) = true) := by
      rintro ⟨rfl | rfl, -⟩ <;> cases hc
    have hpoint : ¬ (c = '.' ∧ phase = .whole) := by
      rintro ⟨rfl, rfl⟩
      exact hdot rfl rfl
    rw [decimalExtent.eq_def]
    simp only [hd, Bool.false_eq_true, if_false, hpoint, he, hp, hc, Bool.not_false,
      Bool.and_self]

/-! ## Literals -/

/-- A character that stands right after a literal without being a part of it. -/
def Ends (x : Double) (c : Char) : Prop :=
  Text.isWordPart c = false ∧ (c = '.' → x.pointed = true)

theorem ne_of_isDigit {c d : Char} (h : Text.isDigit c = true) (hd : Text.isDigit d = false) :
    c ≠ d := by
  rintro rfl
  rw [hd] at h
  cases h

theorem takeWhile_append_cons {p : Char → Bool} {xs ys : List Char} {y : Char}
    (hx : ∀ x ∈ xs, p x = true) (hy : p y = false) : (xs ++ y :: ys).takeWhile p = xs := by
  rw [List.takeWhile_append_of_pos hx, List.takeWhile_cons, hy]
  simp

theorem takeWhile_eq_self {p : Char → Bool} {xs : List Char} (h : ∀ x ∈ xs, p x = true) :
    xs.takeWhile p = xs := by
  have happ : (xs ++ []).takeWhile p = xs ++ [].takeWhile p := List.takeWhile_append_of_pos h
  simpa using happ

theorem decimalValue_whole {w : List Char} (h : ∀ c ∈ w, Text.isDigit c = true) :
    decimalValue w = Double.ofDecimal (Text.ofDigits 10 w) 0 := by
  have hm : w.takeWhile (fun c => c != 'e' && c != 'E') = w := by
    refine takeWhile_eq_self fun c hc => ?_
    simp [ne_of_isDigit (h c hc) (d := 'e') (by decide),
      ne_of_isDigit (h c hc) (d := 'E') (by decide)]
  have hw : w.takeWhile (· != '.') = w := by
    refine takeWhile_eq_self fun c hc => ?_
    simp [ne_of_isDigit (h c hc) (d := '.') (by decide)]
  simp [decimalValue, hm, hw, List.drop_eq_nil_of_le, exponentValue, Text.ofDigits]

theorem decimalValue_fraction {w f : List Char} (hw : ∀ c ∈ w, Text.isDigit c = true)
    (hf : ∀ c ∈ f, Text.isDigit c = true) :
    decimalValue (w ++ '.' :: f) =
      Double.ofDecimal (Text.ofDigits 10 (w ++ f)) (-(f.length : Int)) := by
  have hm : (w ++ '.' :: f).takeWhile (fun c => c != 'e' && c != 'E') = w ++ '.' :: f := by
    refine takeWhile_eq_self fun c hc => ?_
    have hdigit (h : Text.isDigit c = true) : (c != 'e' && c != 'E') = true := by
      simp [ne_of_isDigit h (d := 'e') (by decide), ne_of_isDigit h (d := 'E') (by decide)]
    rcases List.mem_append.1 hc with hc | hc
    · exact hdigit (hw c hc)
    · rcases List.mem_cons.1 hc with rfl | hc
      · decide
      · exact hdigit (hf c hc)
  have hwhole : (w ++ '.' :: f).takeWhile (· != '.') = w := by
    refine takeWhile_append_cons (fun c hc => ?_) (by decide)
    simp [ne_of_isDigit (hw c hc) (d := '.') (by decide)]
  simp [decimalValue, hm, hwhole, List.drop_eq_nil_of_le, exponentValue, Text.ofDigits]

/-- How the literals of all doubles look: whole numbers, decimals with a fraction, and one that is
past all doubles. -/
theorem literal_forms {x : Double} (h : x.Unsigned) :
    x.literal = ['0'] ∧ x = .zero ∨
    (Text.Significant x.literal ∧ decimalValue x.literal = x) ∨
    (∃ w f, (w = ['0'] ∨ Text.Significant w) ∧ f ≠ [] ∧ (∀ c ∈ f, Text.isDigit c = true) ∧
      x.literal = w ++ '.' :: f ∧ decimalValue x.literal = x) ∨
    x.literal = "1e999".toList ∧ x = .infinite false := by
  match x, h with
  | .infinite false, _ => exact .inr (.inr (.inr ⟨rfl, rfl⟩))
  | .finite false rank, _ =>
    by_cases hr : rank.val = 0
    · left
      obtain rfl : rank = ⟨0, by decide⟩ := Fin.ext hr
      exact ⟨by decide, Decimal.zero_eq.symm⟩
    · obtain ⟨hsig, hvalue⟩ := Decimal.shortest_spec .up hr
      have hlit : (Double.finite false rank).literal = (Decimal.shortest .up rank).plain := rfl
      rw [hlit, ← hvalue]
      rcases Decimal.plain_forms hsig with ⟨hs, hv⟩ | ⟨w, f, hw, hne, hf, hp, hv⟩
      · exact .inr (.inl ⟨hs, by rw [decimalValue_whole hs.digit, hv]⟩)
      · refine .inr (.inr (.inl ⟨w, f, hw, hne, hf, hp, ?_⟩))
        rw [hp, hv, decimalValue_fraction (fun c => Text.isDigit_of_whole hw) hf]

theorem pointed_eq_false {x : Double} (h : ∀ c ∈ x.literal, Text.isDigit c = true) :
    x.pointed = false := by
  rw [Double.pointed, List.any_eq_false]
  intro c hc
  simp [ne_of_isDigit (h c hc) (d := '.') (by decide), ne_of_isDigit (h c hc) (d := 'e') (by decide)]

/-- What is not the beginning of a hexadecimal, an octal or a lone zero is a decimal. -/
theorem scan_eq_scanDecimal {cs : List Char} (h : ∀ rest, cs = '0' :: rest → rest.head? = some '.') :
    scan cs = scanDecimal cs := by
  unfold scan
  split
  · rename_i rest
    simp only [h rest rfl]
  · rfl

theorem scanDecimal_of_extent {x : Double} {rest : List Char}
    (he : decimalExtent .whole (x.literal ++ rest) = ⟨x.literal.length, true⟩)
    (hv : decimalValue x.literal = x) :
    scanDecimal (x.literal ++ rest) = ⟨x.literal.length, .ok (.number x)⟩ := by
  simp [scanDecimal, report, he, hv]

theorem decimalExtent_fraction {w f rest : List Char} (hw : ∀ c ∈ w, Text.isDigit c = true)
    (hf : ∀ c ∈ f, Text.isDigit c = true)
    (hrest : ∀ c, rest.head? = some c → Text.isWordPart c = false) :
    decimalExtent .whole (w ++ '.' :: f ++ rest) = ⟨(w ++ '.' :: f).length, true⟩ := by
  have hpoint : decimalExtent .whole ('.' :: (f ++ rest)) =
      (decimalExtent .fraction (f ++ rest)).after 1 := by
    rw [decimalExtent.eq_def]
    rfl
  rw [List.append_assoc, List.cons_append, decimalExtent_digits rfl hw, hpoint,
    decimalExtent_digits rfl hf, decimalExtent_end rfl hrest (by simp)]
  simp only [Extent.after, List.length_append, List.length_cons, Extent.mk.injEq, and_true]
  omega

theorem scan_zero {rest : List Char} (h : ∀ c, rest.head? = some c → Ends .zero c) :
    scan ('0' :: rest) = ⟨1, .ok (.number .zero)⟩ := by
  cases rest with
  | nil => rfl
  | cons c cs =>
    obtain ⟨hc, hdot⟩ := h c rfl
    have hne (d : Char) (hd : Text.isWordPart d = true) : c ≠ d := by
      rintro rfl
      rw [hd] at hc
      cases hc
    have hp : c ≠ '.' := fun e => absurd (hdot e) (by decide)
    rw [Text.isWordPart, Bool.or_eq_false_iff] at hc
    have hx := hne 'x' rfl
    have hX := hne 'X' rfl
    have he := hne 'e' rfl
    have hE := hne 'E' rfl
    simp [scan, scanOctal, runExtent, report, hc, hp, hx, hX, he, hE, Double.ofDigits]

/-- The literal of a double is read as that double, up to a character that is not a part of it. -/
theorem scan_literal {x : Double} (hx : x.Unsigned) {rest : List Char}
    (h : ∀ c, rest.head? = some c → Ends x c) :
    scan (x.literal ++ rest) = ⟨x.literal.length, .ok (.number x)⟩ := by
  have hword : ∀ c, rest.head? = some c → Text.isWordPart c = false := fun c hc => (h c hc).1
  rcases literal_forms hx with ⟨hlit, rfl⟩ | ⟨hs, hv⟩ | ⟨w, f, hw, -, hf, hlit, hv⟩ | ⟨hlit, rfl⟩
  · rw [hlit]
    exact scan_zero h
  · have hdot : rest.head? = some '.' → Phase.whole ≠ .whole := fun e => by
      have hp := (h '.' e).2 rfl
      rw [pointed_eq_false hs.digit] at hp
      cases hp
    have he : decimalExtent .whole (x.literal ++ rest) = ⟨x.literal.length, true⟩ := by
      rw [decimalExtent_digits rfl hs.digit, decimalExtent_end rfl hword hdot]
      rfl
    rw [scan_eq_scanDecimal, scanDecimal_of_extent he hv]
    obtain ⟨c, cs, hc, hne⟩ := hs.first
    intro rest' e
    rw [hc] at e
    exact absurd (List.cons.inj e).1 hne
  · have hdigit : ∀ c ∈ w, Text.isDigit c = true := fun c => Text.isDigit_of_whole hw
    have he : decimalExtent .whole (x.literal ++ rest) = ⟨x.literal.length, true⟩ := by
      rw [hlit, decimalExtent_fraction hdigit hf hword]
    rw [scan_eq_scanDecimal, scanDecimal_of_extent he hv]
    intro rest' e
    rw [hlit] at e
    rcases hw with rfl | hw
    · rw [← (List.cons.inj e).2]
      rfl
    · obtain ⟨c, cs, rfl, hne⟩ := hw.first
      exact absurd (List.cons.inj e).1 hne
  · have he : decimalExtent .whole ((Double.infinite false).literal ++ rest) =
        ⟨(Double.infinite false).literal.length, true⟩ := by
      have hend : decimalExtent (.exponent true) rest = ⟨0, true⟩ :=
        decimalExtent_end rfl hword (by simp)
      have htake : decimalExtent .whole ("1e999".toList ++ rest) =
          (decimalExtent (.exponent true) rest).after 5 := by
        simp [decimalExtent.eq_def _ (_ :: _), Text.isDigit, Phase.afterDigit, Phase.inExponent,
          Extent.after]
        omega
      rw [hlit, htake, hend]
      rfl
    rw [scan_eq_scanDecimal, scanDecimal_of_extent he (by decide)]
    intro rest' e
    rw [hlit] at e
    exact absurd (List.cons.inj e).1 (by decide)

/-- A literal begins with a digit. -/
theorem literal_eq_cons {x : Double} (hx : x.Unsigned) :
    ∃ c cs, x.literal = c :: cs ∧ Text.isDigit c = true := by
  have hsig {w : List Char} (hw : Text.Significant w) :
      ∃ c cs, w = c :: cs ∧ Text.isDigit c = true := by
    obtain ⟨c, cs, rfl, -⟩ := hw.first
    exact ⟨c, cs, rfl, hw.digit c List.mem_cons_self⟩
  rcases literal_forms hx with ⟨hlit, -⟩ | ⟨hs, -⟩ | ⟨w, f, rfl | hw, -, -, hlit, -⟩ | ⟨hlit, -⟩
  · exact ⟨'0', [], hlit, rfl⟩
  · exact hsig hs
  · exact ⟨'0', '.' :: f, hlit, rfl⟩
  · obtain ⟨c, cs, rfl, hc⟩ := hsig hw
    exact ⟨c, cs ++ '.' :: f, hlit, hc⟩
  · exact ⟨'1', "e999".toList, hlit, rfl⟩

/-! ## What is read -/

theorem ofRank_unsigned (rank : Nat) : (Double.ofRank rank).Unsigned := by
  by_cases h : rank < finiteCount
  · rw [Double.ofRank, dif_pos h]
    trivial
  · rw [Double.ofRank, dif_neg h]
    trivial

theorem ofDecimal_unsigned (n : Nat) (e : Int) : (Double.ofDecimal n e).Unsigned := by
  unfold Double.ofDecimal
  dsimp only
  split
  · exact ofRank_unsigned 0
  · split
    · trivial
    · split <;> exact ofRank_unsigned _

theorem onRank_unsigned {f : Nat → Double} (hf : ∀ rank, (f rank).Unsigned) {x : Double}
    (h : x.Unsigned) : (x.onRank f).Unsigned := by
  cases x with
  | finite _ rank => exact hf rank
  | infinite _ | nan => exact h

theorem appendDigit_unsigned {base digit : Nat} {x : Double} (h : x.Unsigned) :
    (Double.appendDigit base digit x).Unsigned := by
  rw [Double.appendDigit]
  exact onRank_unsigned (fun _ => ofRank_unsigned _) (onRank_unsigned (fun _ => ofRank_unsigned _) h)

theorem ofDigits_unsigned (base : Nat) (ds : List Char) : (Double.ofDigits base ds).Unsigned := by
  have hfold (x : Double) (h : x.Unsigned) :
      (ds.foldl (fun x d => Double.appendDigit base (Text.digitValue d) x) x).Unsigned := by
    induction ds generalizing x with
    | nil => exact h
    | cons d ds ih => exact ih _ (appendDigit_unsigned h)
  exact hfold _ (ofRank_unsigned 0)

/-- Only doubles without a sign are read. -/
theorem scan_unsigned {cs : List Char} {k : TokenKind} (h : (scan cs).found = .ok k) :
    ∃ x, k = .number x ∧ x.Unsigned := by
  have hreport {e : Extent} {x : Double} (hx : x.Unsigned) (h : (report e x).found = .ok k) :
      ∃ x, k = .number x ∧ x.Unsigned := by
    unfold report at h
    dsimp only at h
    split at h
    · cases h
      exact ⟨x, rfl, hx⟩
    · cases h
  have hdecimal (cs : List Char) (h : (scanDecimal cs).found = .ok k) :
      ∃ x, k = .number x ∧ x.Unsigned := hreport (ofDecimal_unsigned _ _) h
  unfold scan at h
  split at h
  · split at h
    · exact hreport (ofDigits_unsigned _ _) h
    · exact hreport (ofDigits_unsigned _ _) h
    · exact hdecimal _ h
    · exact hdecimal _ h
    · exact hdecimal _ h
    · exact hreport (ofDigits_unsigned _ _) h
  · exact hdecimal _ h

end Numeral
end ScriptTree
