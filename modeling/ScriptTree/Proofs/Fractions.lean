import ScriptTree.Json.Text
import ScriptTree.Proofs.Numerals

/-! # JSON numbers spell one double

In JSON a number that is not written as an integer has a point or an exponent. Read as a literal it
is the double again, so different doubles are written differently, and none is written like an
integer. -/
namespace ScriptTree

namespace Decimal

/-- A decimal is written with a point unless its digits end before the point. -/
theorem point_mem_plain {d : Decimal} (h : Text.Significant d.digits) :
    '.' ∈ d.plain ↔ ¬ d.digits.length ≤ d.point.toNat := by
  have hnot : '.' ∉ d.digits := fun hmem => absurd (h.digit _ hmem) (by decide)
  obtain ⟨c, cs, hc, -⟩ := h.first
  obtain ⟨digits, point⟩ := d
  dsimp only at hnot hc
  rcases point with (_ | n) | n
  · have hplain : plain ⟨digits, Int.ofNat 0⟩ = '0' :: '.' :: digits := rfl
    rw [hplain, hc]
    simp
  · by_cases hle : digits.length ≤ n + 1
    · have hplain : plain ⟨digits, Int.ofNat (n + 1)⟩ =
          digits ++ List.replicate (n + 1 - digits.length) '0' := if_pos hle
      have hpoint : '.' ∉ digits ++ List.replicate (n + 1 - digits.length) '0' := by
        rw [List.mem_append, List.mem_replicate]
        rintro (hmem | ⟨-, hmem⟩)
        · exact hnot hmem
        · exact absurd hmem (by decide)
      rw [hplain]
      exact ⟨fun hmem => absurd hmem hpoint, fun hgt => absurd hle hgt⟩
    · have hplain : plain ⟨digits, Int.ofNat (n + 1)⟩ =
          digits.take (n + 1) ++ '.' :: digits.drop (n + 1) := if_neg hle
      rw [hplain]
      exact ⟨fun _ => hle, fun _ => List.mem_append_right _ List.mem_cons_self⟩
  · simp [plain, hc]

end Decimal

namespace Numeral

/-- The text of a number that is not written as an integer. -/
structure Fraction (text : List Char) (x : Double) : Prop where
  first : ∃ c cs, text = c :: cs ∧ Text.isDigit c = true
  chars : ∀ c ∈ text, Text.isDigit c = true ∨ c ∈ ['.', 'e', '+', '-']
  marked : '.' ∈ text ∨ 'e' ∈ text
  value : decimalValue text = x

theorem fraction_of_point {w f : List Char} (hne : w ≠ []) (hw : ∀ c ∈ w, Text.isDigit c = true)
    (hf : ∀ c ∈ f, Text.isDigit c = true) :
    Fraction (w ++ '.' :: f) (.ofDecimal (Text.ofDigits 10 (w ++ f)) (-(f.length : Int))) where
  first := by
    obtain ⟨c, w, rfl⟩ := List.exists_cons_of_ne_nil hne
    exact ⟨c, w ++ '.' :: f, rfl, hw c List.mem_cons_self⟩
  chars c hc := by
    rcases List.mem_append.1 hc with hc | hc
    · exact .inl (hw c hc)
    · rcases List.mem_cons.1 hc with rfl | hc
      · exact .inr List.mem_cons_self
      · exact .inl (hf c hc)
  marked := .inl (List.mem_append_right _ List.mem_cons_self)
  value := decimalValue_fraction hw hf

theorem plain_fraction {d : Decimal} (h : Text.Significant d.digits)
    (hlt : ¬ d.digits.length ≤ d.point.toNat) : Fraction d.plain d.value := by
  rcases Decimal.plain_forms h with ⟨hs, -⟩ | ⟨w, f, hw, -, hf, hp, hv⟩
  · exact absurd (hs.digit _ ((Decimal.point_mem_plain h).2 hlt)) (by decide)
  · rw [hp, hv]
    refine fraction_of_point ?_ (fun c => Text.isDigit_of_whole hw) hf
    rcases hw with rfl | hw
    · exact List.cons_ne_nil _ _
    · obtain ⟨c, cs, rfl, -⟩ := hw.first
      exact List.cons_ne_nil _ _

/-- A whole number gets a zero behind a point. -/
theorem plain_fraction_zero {d : Decimal} (h : Text.Significant d.digits)
    (hle : d.digits.length ≤ d.point.toNat) : Fraction (d.plain ++ ['.', '0']) d.value := by
  rcases Decimal.plain_forms h with ⟨hs, hv⟩ | ⟨w, f, -, -, -, hp, -⟩
  · obtain ⟨c, cs, hc, -⟩ := hs.first
    have hne : d.plain ≠ [] := hc ▸ List.cons_ne_nil _ _
    have hdigit : ∀ c ∈ ['0'], Text.isDigit c = true := List.forall_mem_singleton.2 rfl
    have hzero := fraction_of_point hne hs.digit hdigit
    rw [Text.ofDigits_append] at hzero
    have hshift := Double.ofDecimal_shift (Text.ofDigits 10 d.plain) 1 (-1)
    rw [hv]
    exact hshift ▸ hzero
  · have hmem : '.' ∈ d.plain := hp ▸ List.mem_append_right _ List.mem_cons_self
    exact absurd hle ((Decimal.point_mem_plain h).1 hmem)

theorem exponentValue_toDigits (e : Int) :
    exponentValue ((if e < 0 then '-' else '+') :: Nat.toDigits 10 e.natAbs) = e := by
  by_cases h : e < 0
  · rw [if_pos h, exponentValue, Text.ofDigits_toDigits]
    omega
  · rw [if_neg h, exponentValue, Text.ofDigits_toDigits]
    omega

theorem decimalValue_exponent {m e : List Char} (hm : ∀ c ∈ m, c ≠ 'e' ∧ c ≠ 'E')
    {w f : List Char} (hw : m.takeWhile (· != '.') = w) (hf : m.drop (w.length + 1) = f) :
    decimalValue (m ++ 'e' :: e) =
      .ofDecimal (Text.ofDigits 10 (w ++ f)) (exponentValue e - f.length) := by
  have hmantissa : (m ++ 'e' :: e).takeWhile (fun c => c != 'e' && c != 'E') = m :=
    takeWhile_append_cons (fun c hc => by simp [hm c hc]) (by decide)
  have hexponent : (m ++ 'e' :: e).drop (m.length + 1) = e := by
    rw [← List.drop_drop, List.drop_left]
    rfl
  simp only [decimalValue, hmantissa, hexponent, hw, hf]

theorem scientific_fraction {d : Decimal} (h : Text.Significant d.digits) :
    Fraction d.scientific d.value := by
  obtain ⟨c, cs, hc, -⟩ := h.first
  obtain ⟨f, hf⟩ : ∃ f, f = if d.digits.length ≤ 1 then [] else '.' :: cs := ⟨_, rfl⟩
  obtain ⟨e, he⟩ : ∃ e, e = (if d.point - 1 < 0 then '-' else '+') ::
    Nat.toDigits 10 (d.point - 1).natAbs := ⟨_, rfl⟩
  have htext : d.scientific = c :: f ++ 'e' :: e := by
    rw [Decimal.scientific, hf, he, hc]
    rfl
  have hdigit : ∀ x ∈ c :: cs, Text.isDigit x = true := hc ▸ h.digit
  obtain ⟨hfirst, hrest⟩ := List.forall_mem_cons.1 hdigit
  have hmantissa : ∀ x ∈ c :: f, Text.isDigit x = true ∨ x = '.' := by
    intro x hx
    rcases List.mem_cons.1 hx with rfl | hx
    · exact .inl hfirst
    · rw [hf] at hx
      split at hx
      · cases hx
      · rcases List.mem_cons.1 hx with rfl | hx
        · exact .inr rfl
        · exact .inl (hrest x hx)
  have hexponent : ∀ x ∈ e, Text.isDigit x = true ∨ x = '-' ∨ x = '+' := by
    intro x hx
    rw [he] at hx
    rcases List.mem_cons.1 hx with rfl | hx
    · right
      split
      · exact .inl rfl
      · exact .inr rfl
    · exact .inl (Text.isDigit_of_mem_toDigits x hx)
  have hdot : (c != '.') = true := by simpa using ne_of_isDigit hfirst (d := '.') (by decide)
  have hwhole : (c :: f).takeWhile (· != '.') = [c] := by
    rw [List.takeWhile_cons, if_pos hdot, hf]
    split <;> rfl
  have hfraction : (c :: f).drop ([c].length + 1) = cs := by
    show f.drop 1 = cs
    rw [hf, hc]
    split
    · rename_i hle
      rw [List.length_cons] at hle
      exact (List.length_eq_zero_iff.1 (by omega)).symm
    · rfl
  refine ⟨⟨c, f ++ 'e' :: e, htext, hfirst⟩, ?_, ?_, ?_⟩
  · intro x hx
    rw [htext] at hx
    rcases List.mem_append.1 hx with hx | hx
    · exact (hmantissa x hx).imp_right fun hx => by simp [hx]
    · rcases List.mem_cons.1 hx with rfl | hx
      · exact .inr (by simp)
      · exact (hexponent x hx).imp_right fun hx => by rcases hx with rfl | rfl <;> simp
  · exact .inr (htext ▸ List.mem_append_right _ List.mem_cons_self)
  · have hnot : ∀ x ∈ c :: f, x ≠ 'e' ∧ x ≠ 'E' := by
      intro x hx
      rcases hmantissa x hx with hx | rfl
      · exact ⟨ne_of_isDigit hx (by decide), ne_of_isDigit hx (by decide)⟩
      · decide
    rw [htext, decimalValue_exponent hnot hwhole hfraction, he, exponentValue_toDigits,
      Decimal.value, hc, List.length_cons]
    congr 1
    omega

theorem fractional_fraction {d : Decimal} (h : Text.Significant d.digits) :
    Fraction d.fractional d.value := by
  unfold Decimal.fractional
  split
  · split
    · exact plain_fraction_zero h (by assumption)
    · exact plain_fraction h (by assumption)
  · exact scientific_fraction h

/-- A double without its sign. -/
theorem magnitude_fraction (rank : Fin finiteCount) :
    Fraction (Decimal.shortest .toEven rank).fractional (.finite false rank) := by
  by_cases hr : rank.val = 0
  · obtain rfl : rank = ⟨0, by decide⟩ := Fin.ext hr
    have hdigits : Decimal.shortest .toEven ⟨0, by decide⟩ = ⟨['0'], 1⟩ := by decide
    have hdigit : ∀ c ∈ ['0'], Text.isDigit c = true := List.forall_mem_singleton.2 rfl
    have hzero := fraction_of_point (List.cons_ne_nil _ _) hdigit hdigit
    rw [hdigits]
    exact Decimal.zero_eq ▸ hzero
  · obtain ⟨hsig, hvalue⟩ := Decimal.shortest_spec .toEven hr
    exact hvalue ▸ fractional_fraction hsig

end Numeral

namespace Double

theorem sign_append_inj {n m : Bool} {xs ys : List Char} (hx : xs.head? ≠ some '-')
    (hy : ys.head? ≠ some '-') (h : sign n ++ xs = sign m ++ ys) : n = m ∧ xs = ys := by
  cases n <;> cases m
  · exact ⟨rfl, h⟩
  · exact absurd (congrArg List.head? h) hx
  · exact absurd (congrArg List.head? h).symm hy
  · exact ⟨rfl, List.tail_eq_of_cons_eq h⟩

theorem mem_fractional {negative : Bool} {rank : Fin finiteCount} {c : Char} :
    c ∈ (Double.finite negative rank).fractional ↔
      (negative = true ∧ c = '-') ∨ c ∈ (Decimal.shortest .toEven rank).fractional := by
  cases negative <;> simp [fractional, sign]

theorem fractional_chars (x : Double) :
    ∀ c ∈ x.fractional, Text.isWordPart c = true ∨ c = '.' ∨ c = '+' ∨ c = '-' := by
  intro c hc
  cases x with
  | nan =>
    have hletters : "NaN".toList.all Text.isWordPart = true := by decide
    exact .inl (List.all_eq_true.1 hletters c hc)
  | infinite negative =>
    rcases List.mem_append.1 hc with hc | hc
    · cases negative
      · cases hc
      · exact .inr (.inr (.inr (List.mem_singleton.1 hc)))
    · have hletters : "Infinity".toList.all Text.isWordPart = true := by decide
      exact .inl (List.all_eq_true.1 hletters c hc)
  | finite negative rank =>
    rcases mem_fractional.1 hc with ⟨-, rfl⟩ | hc
    · simp
    · rcases (Numeral.magnitude_fraction rank).chars c hc with hc | hc
      · exact .inl (by simp [Text.isWordPart, hc])
      · rcases List.mem_cons.1 hc with rfl | hc
        · simp
        · rcases List.mem_cons.1 hc with rfl | hc
          · exact .inl (by decide)
          · exact .inr (.inr (by simpa using hc))

/-- No constant of the format begins like a number. -/
theorem fractional_head (x : Double) :
    ∃ c cs, x.fractional = c :: cs ∧ (Text.isDigit c = true ∨ c ∈ ['-', 'I', 'N']) := by
  cases x with
  | nan => exact ⟨'N', _, rfl, by decide⟩
  | infinite negative =>
    cases negative
    · exact ⟨'I', _, rfl, by decide⟩
    · exact ⟨'-', _, rfl, by decide⟩
  | finite negative rank =>
    cases negative
    · obtain ⟨c, cs, hc, hdigit⟩ := (Numeral.magnitude_fraction rank).first
      exact ⟨c, cs, hc, .inl hdigit⟩
    · exact ⟨'-', _, rfl, by decide⟩

/-- No integer is written with all of these characters. -/
theorem fractional_marked (x : Double) :
    ∃ c ∈ x.fractional, Text.isDigit c = false ∧ c ≠ '-' := by
  cases x with
  | nan => exact ⟨'N', by decide⟩
  | infinite negative => exact ⟨'I', by cases negative <;> decide⟩
  | finite negative rank =>
    rcases (Numeral.magnitude_fraction rank).marked with h | h
    · exact ⟨'.', mem_fractional.2 (.inr h), by decide⟩
    · exact ⟨'e', mem_fractional.2 (.inr h), by decide⟩

/-- Just the texts of finite doubles have digits. -/
theorem digit_mem_fractional {x : Double} :
    (∃ c ∈ x.fractional, Text.isDigit c = true) ↔ ∃ negative rank, x = .finite negative rank := by
  cases x with
  | finite negative rank =>
    obtain ⟨c, cs, hc, hdigit⟩ := (Numeral.magnitude_fraction rank).first
    have hmem : c ∈ (Double.finite negative rank).fractional :=
      List.mem_append_right _ (hc ▸ List.mem_cons_self)
    exact ⟨fun _ => ⟨negative, rank, rfl⟩, fun _ => ⟨c, hmem, hdigit⟩⟩
  | infinite negative =>
    have hnone : (Double.infinite negative).fractional.any Text.isDigit = false := by
      cases negative <;> decide
    exact ⟨fun ⟨c, hc, h⟩ => absurd (List.any_eq_true.2 ⟨c, hc, h⟩) (by simp [hnone]), nofun⟩
  | nan =>
    have hnone : Double.nan.fractional.any Text.isDigit = false := by decide
    exact ⟨fun ⟨c, hc, h⟩ => absurd (List.any_eq_true.2 ⟨c, hc, h⟩) (by simp [hnone]), nofun⟩

theorem fractional_injective {x y : Double} (h : x.fractional = y.fractional) : x = y := by
  have hfinite := digit_mem_fractional (x := x)
  rw [h, digit_mem_fractional] at hfinite
  by_cases hx : ∃ negative rank, x = .finite negative rank
  · obtain ⟨m, s, rfl⟩ := hfinite.2 hx
    obtain ⟨n, r, rfl⟩ := hx
    have hr := Numeral.magnitude_fraction r
    have hs := Numeral.magnitude_fraction s
    have hminus {rank : Fin finiteCount} (hrank : Numeral.Fraction
        (Decimal.shortest .toEven rank).fractional (.finite false rank)) :
        (Decimal.shortest .toEven rank).fractional.head? ≠ some '-' := by
      obtain ⟨c, cs, hc, hdigit⟩ := hrank.first
      rw [hc]
      exact fun hhead => absurd hdigit (by simp [Option.some.inj hhead]; decide)
    obtain ⟨rfl, hsame⟩ := sign_append_inj (hminus hr) (hminus hs) h
    have hvalue := hr.value.symm.trans (hsame ▸ hs.value)
    rw [(Double.finite.inj hvalue).2]
  · have hy : ¬ ∃ negative rank, y = .finite negative rank := fun hy => hx (hfinite.1 hy)
    rcases x with ⟨n, r⟩ | (_ | _) | _
    · exact absurd ⟨n, r, rfl⟩ hx
    all_goals
      rcases y with ⟨m, s⟩ | (_ | _) | _
      · exact absurd ⟨m, s, rfl⟩ hy
      all_goals first | rfl | exact absurd h (by decide)

end Double
end ScriptTree
