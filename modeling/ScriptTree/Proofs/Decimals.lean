import Mathlib.Algebra.Group.Nat.Defs
import ScriptTree.Number.Spelling

/-! # Decimals read back

A double is written with digits that were read back before they were chosen, or else with its exact
expansion. Reading depends only on the value of a decimal, not on where its point and its zeros are,
so the written form reads back too. -/
namespace ScriptTree

/-! ## Digits -/

namespace Text

/-- Digits of which the first one counts. -/
structure Significant (ds : List Char) : Prop where
  digit : ∀ c ∈ ds, isDigit c = true
  first : ∃ c cs, ds = c :: cs ∧ c ≠ '0'

/-- What stands before the point of a number has only digits. -/
theorem isDigit_of_whole {w : List Char} (h : w = ['0'] ∨ Significant w) {c : Char} (hc : c ∈ w) :
    isDigit c = true := by
  rcases h with rfl | h
  · rw [List.mem_singleton.1 hc]
    rfl
  · exact h.digit c hc

theorem ofDigits_append (base : Nat) (xs ys : List Char) :
    ofDigits base (xs ++ ys) = ofDigits base xs * base ^ ys.length + ofDigits base ys := by
  have shift (zs : List Char) (n : Nat) : zs.foldl (fun n d => n * base + digitValue d) n =
      n * base ^ zs.length + zs.foldl (fun n d => n * base + digitValue d) 0 := by
    induction zs generalizing n with
    | nil => simp
    | cons z zs ih =>
      rw [List.foldl_cons, List.foldl_cons, ih, ih (0 * base + digitValue z), List.length_cons,
        Nat.pow_succ, Nat.zero_mul, Nat.zero_add, Nat.add_mul, Nat.mul_assoc,
        Nat.mul_comm base, Nat.add_assoc]
  rw [ofDigits, List.foldl_append, shift]
  rfl

theorem ofDigits_replicate (base n : Nat) : ofDigits base (List.replicate n '0') = 0 := by
  induction n with
  | zero => rfl
  | succ n ih =>
    rw [List.replicate_succ', ofDigits_append, ih]
    simp [ofDigits, digitValue, isDigit]

theorem digitChar_spec : ∀ d < 10,
    isDigit (Nat.digitChar d) = true ∧ digitValue (Nat.digitChar d) = d := by decide

theorem ofDigits_toDigits (n : Nat) : ofDigits 10 (Nat.toDigits 10 n) = n := by
  induction n using Nat.strongRecOn with
  | ind n ih =>
    have hd := (digitChar_spec (n % 10) (Nat.mod_lt _ (by omega))).2
    rw [Nat.toDigits_eq_if (by omega)]
    split
    · rename_i h
      rw [Nat.mod_eq_of_lt h] at hd
      simp [ofDigits, hd]
    · rw [ofDigits_append, ih (n / 10) (by omega)]
      simp only [ofDigits, List.foldl_cons, List.foldl_nil, hd, List.length_singleton]
      omega

theorem isDigit_of_mem_toDigits {n : Nat} : ∀ c ∈ Nat.toDigits 10 n, isDigit c = true := by
  induction n using Nat.strongRecOn with
  | ind n ih =>
    intro c hc
    rw [Nat.toDigits_eq_if (by omega)] at hc
    split at hc
    · rename_i h
      rw [List.mem_singleton.1 hc]
      exact (digitChar_spec n h).1
    · rcases List.mem_append.1 hc with hc | hc
      · exact ih (n / 10) (by omega) c hc
      · rw [List.mem_singleton.1 hc]
        exact (digitChar_spec _ (Nat.mod_lt _ (by omega))).1

/-- A positive number begins with a digit that counts. -/
theorem head?_toDigits {n : Nat} (h : 0 < n) : (Nat.toDigits 10 n).head? ≠ some '0' := by
  induction n using Nat.strongRecOn with
  | ind n ih =>
    rw [Nat.toDigits_eq_if (by omega)]
    split
    · rename_i hlt
      have hall : ∀ d < 10, 0 < d → Nat.digitChar d ≠ '0' := by decide
      simpa using hall n hlt h
    · obtain ⟨d, ds, hd⟩ := List.exists_cons_of_ne_nil (Nat.toDigits_ne_nil (n := n / 10) (b := 10))
      have hhead := ih (n / 10) (by omega) (by omega)
      rw [hd] at hhead ⊢
      exact hhead

end Text

/-! ## Doubles -/

namespace Double

theorem oneInUnits_eq : oneInUnits = 2 ^ 1074 := Nat.pow_eq

theorem unitsAt_eq (rank : Nat) : unitsAt rank =
    if rank < 2 ^ 53 then rank else (2 ^ 52 + rank % 2 ^ 52) * 2 ^ (rank / 2 ^ 52 - 1) := rfl

theorem nearestRank_eq (num den : Nat) : nearestRank num den = ((num / den).log2 - 52) * 2 ^ 52 +
    roundDiv num (den * 2 ^ ((num / den).log2 - 52)) := rfl

theorem roundDiv_mul {c : Nat} (hc : 0 < c) (num den : Nat) :
    roundDiv (c * num) (c * den) = roundDiv num den := by
  have hlt : 2 * (c * (num % den)) < c * den ↔ 2 * (num % den) < den := by
    rw [← Nat.mul_left_comm]
    exact Nat.mul_lt_mul_left hc
  have heq : (2 * (c * (num % den)) == c * den) = (2 * (num % den) == den) := by
    rw [← Nat.mul_left_comm, Bool.eq_iff_iff, beq_iff_eq, beq_iff_eq]
    exact Nat.mul_right_inj (by omega)
  simp only [roundDiv, Nat.mul_div_mul_left _ _ hc, Nat.mul_mod_mul_left, hlt, heq]

theorem ofRatio_mul {c : Nat} (hc : 0 < c) (num den : Nat) :
    ofRatio (c * num) (c * den) = ofRatio num den := by
  simp only [ofRatio, nearestRank, Nat.mul_assoc, Nat.mul_div_mul_left _ _ hc, roundDiv_mul hc]

theorem digitCount_le_iff {n k : Nat} (hk : 0 < k) : digitCount n ≤ k ↔ n < 10 ^ k :=
  Nat.length_toDigits_le_iff (by omega) hk

theorem digitCount_mul_ten {n : Nat} (h : 0 < n) : digitCount (n * 10) = digitCount n + 1 := by
  rw [digitCount, Nat.toDigits_of_base_le (by omega) (by omega), List.length_append,
    Nat.mul_div_cancel _ (by omega)]
  rfl

theorem digitCount_mul_pow {n : Nat} (h : 0 < n) (k : Nat) :
    digitCount (n * 10 ^ k) = digitCount n + k := by
  induction k with
  | zero => simp
  | succ k ih =>
    rw [Nat.pow_succ, ← Nat.mul_assoc, digitCount_mul_ten (Nat.mul_pos h (Nat.pow_pos (by omega))),
      ih]
    omega

/-- Zeros at the end of the digits may as well be counted in the exponent. -/
theorem ofDecimal_shift (n k : Nat) (e : Int) :
    ofDecimal (n * 10 ^ k) e = ofDecimal n (e + k) := by
  rcases Nat.eq_zero_or_pos n with rfl | hn
  · simp [ofDecimal]
  · have hpow : 0 < 10 ^ k := Nat.pow_pos (by omega)
    have hne : n * 10 ^ k ≠ 0 := Nat.ne_of_gt (Nat.mul_pos hn hpow)
    have hpoint : (digitCount (n * 10 ^ k) : Int) + e = digitCount n + (e + k) := by
      rw [digitCount_mul_pow hn]
      omega
    simp only [ofDecimal, Nat.pow_eq, hpoint, hne, Nat.ne_of_gt hn]
    split
    · rfl
    · split
      · rfl
      · rcases e with a | a
        · have he : Int.ofNat a + (k : Int) = Int.ofNat (a + k) := rfl
          simp only [he]
          rw [Nat.mul_assoc, ← Nat.pow_add, Nat.add_comm k]
        · rcases Nat.lt_or_ge a k with hak | hak
          · obtain ⟨d, rfl⟩ := Nat.exists_eq_add_of_lt hak
            have he : Int.negSucc a + ((a + d + 1 : Nat) : Int) = Int.ofNat d := by
              rw [Int.ofNat_eq_natCast]
              omega
            simp only [he]
            rw [show a + d + 1 = (a + 1) + d by omega, Nat.pow_add, Nat.mul_left_comm]
            have h := ofRatio_mul (c := 10 ^ (a + 1)) (Nat.pow_pos (by omega)) (n * 10 ^ d) 1
            rwa [Nat.mul_one] at h
          · obtain ⟨d, rfl⟩ := Nat.exists_eq_add_of_le hak
            have he : Int.negSucc (k + d) + (k : Int) = Int.negSucc d := by omega
            simp only [he]
            rw [Nat.add_assoc, Nat.pow_add, Nat.mul_comm n]
            exact ofRatio_mul hpow n (10 ^ (d + 1))

theorem roundDiv_exact {d : Nat} (hd : 0 < d) (m : Nat) : roundDiv (m * d) d = m := by
  simp [roundDiv, Nat.mul_div_cancel _ hd, Nat.mul_mod_left, hd]

/-- The nearest rank to a double is its own. -/
theorem nearestRank_units {d : Nat} (hd : 0 < d) (rank : Nat) :
    nearestRank (unitsAt rank * d) d = rank := by
  rw [nearestRank_eq, Nat.mul_div_cancel _ hd, unitsAt_eq]
  by_cases h : rank < 2 ^ 53
  · have hlog : rank.log2 - 52 = 0 := by
      rcases Nat.eq_zero_or_pos rank with rfl | hpos
      · rfl
      · have := (Nat.log2_lt (Nat.ne_of_gt hpos)).2 h
        omega
    simp only [h, if_true, hlog]
    simp [roundDiv_exact hd]
  · generalize hq : rank / 2 ^ 52 - 1 = q
    generalize hm : 2 ^ 52 + rank % 2 ^ 52 = m
    have hlow : 2 ^ 52 ≤ m := by omega
    have hhigh : m < 2 ^ 53 := by omega
    have hne : m * 2 ^ q ≠ 0 := Nat.ne_of_gt (Nat.mul_pos (by omega) (Nat.pow_pos (by omega)))
    have hlog : (m * 2 ^ q).log2 = 52 + q := by
      rw [Nat.log2_eq_iff hne]
      constructor
      · rw [Nat.pow_add]
        exact Nat.mul_le_mul_right _ hlow
      · rw [Nat.add_right_comm, Nat.pow_add]
        exact (Nat.mul_lt_mul_right (Nat.pow_pos (by omega))).2 hhigh
    have hexact : roundDiv (m * 2 ^ q * d) (d * 2 ^ q) = m := by
      rw [Nat.mul_assoc, Nat.mul_comm d]
      exact roundDiv_exact (Nat.mul_pos (Nat.pow_pos (by omega)) hd) m
    simp only [h, if_false, hlog, Nat.add_sub_cancel_left, hexact]
    omega

theorem ofDecimal_eq_ofRatio {n k : Nat} (hk : 0 < k) (hn : 0 < n) (hlow : k ≤ digitCount n + 330)
    (hhigh : digitCount n ≤ k + 310) : ofDecimal n (-k) = ofRatio n (10 ^ k) := by
  obtain ⟨k, rfl⟩ := Nat.exists_eq_add_one.2 hk
  have he : -((k + 1 : Nat) : Int) = Int.negSucc k := rfl
  simp only [ofDecimal]
  rw [if_neg (by omega), if_neg (by omega), he]
  rfl

theorem unitsAt_lt {rank n : Nat} (h : rank / 2 ^ 52 ≤ n + 1) : unitsAt rank < 2 ^ (53 + n) := by
  rw [unitsAt_eq]
  split
  · rename_i hlt
    exact Nat.lt_of_lt_of_le hlt (Nat.pow_le_pow_right (by omega) (by omega))
  · have hm : 2 ^ 52 + rank % 2 ^ 52 < 2 ^ 53 := by omega
    rw [Nat.pow_add]
    exact Nat.mul_lt_mul_of_lt_of_le hm (Nat.pow_le_pow_right (by omega) (by omega))
      (Nat.pow_pos (by omega))

theorem five_pow_pos (k : Nat) : 0 < 5 ^ k := Nat.pow_pos (by omega)

theorem mul_pow_pos {n : Nat} (h : n ≠ 0) (k : Nat) : 0 < n * 5 ^ k :=
  Nat.mul_pos (Nat.pos_of_ne_zero h) (five_pow_pos k)

theorem ten_pow (k : Nat) : 10 ^ k = 5 ^ k * 2 ^ k := Nat.mul_pow 5 2 k

theorem ofRatio_exact (rank : Fin finiteCount) {k : Nat} (hk : oneInUnits = 2 ^ k) :
    ofRatio (unitsAt rank * 5 ^ k) (10 ^ k) = .finite false rank := by
  rw [ofRatio, hk, Nat.mul_assoc, ← ten_pow, nearestRank_units (Nat.pow_pos (by omega)), ofRank,
    dif_pos rank.isLt]

/-- The exact expansion reads back: it has neither too many digits before the point nor too many
zeros after it. -/
theorem ofDecimal_exact (rank : Fin finiteCount) (h : unitsAt rank ≠ 0) :
    ofDecimal (unitsAt rank * 5 ^ 1074) (-1074) = .finite false rank := by
  have hpos := mul_pow_pos h 1074
  have hlow : ¬ digitCount (unitsAt rank * 5 ^ 1074) ≤ 743 := by
    rw [digitCount_le_iff (by omega), Nat.not_lt]
    have hp : 10 ^ 743 ≤ 5 ^ 1074 := by decide +kernel
    exact Nat.le_trans hp (Nat.le_mul_of_pos_left _ (Nat.pos_of_ne_zero h))
  have hhigh : digitCount (unitsAt rank * 5 ^ 1074) ≤ 1384 := by
    rw [digitCount_le_iff (by omega)]
    have hp : 2 ^ (53 + 2045) * 5 ^ 1074 ≤ 10 ^ 1384 := by decide +kernel
    have hrank : rank.val < 0x7ff0000000000000 := rank.isLt
    have hunits := unitsAt_lt (n := 2045) (show rank.val / 2 ^ 52 ≤ 2045 + 1 by omega)
    exact Nat.lt_of_lt_of_le ((Nat.mul_lt_mul_right (five_pow_pos 1074)).2 hunits) hp
  have hratio := ofDecimal_eq_ofRatio (k := 1074) (by omega) hpos (by omega) (by omega)
  exact hratio.trans (ofRatio_exact rank (k := 1074) oneInUnits_eq)

end Double

/-! ## Decimals -/

namespace Decimal

/-- What a decimal reads as. -/
def value (d : Decimal) : Double :=
  Double.ofDecimal (Text.ofDigits 10 d.digits) (d.point - d.digits.length)

theorem value_mk (digits : List Char) (point : Int) :
    value ⟨digits, point⟩ = Double.ofDecimal (Text.ofDigits 10 digits) (point - digits.length) := rfl

theorem exists_eq_append_zeros (ds : List Char) :
    ∃ k, ds = (ds.reverse.dropWhile (· == '0')).reverse ++ List.replicate k '0' := by
  have hall : ∀ c ∈ ds.reverse.takeWhile (· == '0'), c = '0' := by
    intro c hc
    simpa using List.all_eq_true.1 List.all_takeWhile c hc
  have hzeros := List.eq_replicate_iff.2 ⟨rfl, hall⟩
  have hsplit := congrArg List.reverse (List.takeWhile_append_dropWhile (p := (· == '0')) (l := ds.reverse))
  rw [hzeros, List.reverse_append, List.reverse_reverse, List.reverse_replicate] at hsplit
  exact ⟨_, hsplit.symm⟩

/-- Zeros at the end change neither the value nor the first digit. -/
theorem ofScaled_spec {n : Nat} (h : 0 < n) (e : Int) :
    Text.Significant (ofScaled n e).digits ∧ (ofScaled n e).value = Double.ofDecimal n e := by
  obtain ⟨k, hk⟩ := exists_eq_append_zeros (Nat.toDigits 10 n)
  have hdigits : (ofScaled n e).digits =
      ((Nat.toDigits 10 n).reverse.dropWhile (· == '0')).reverse := rfl
  rw [← hdigits] at hk
  have hpoint : (ofScaled n e).point = (ofScaled n e).digits.length + k + e := by
    have hlen := congrArg List.length hk
    rw [List.length_append, List.length_replicate] at hlen
    rw [ofScaled, hlen]
    rfl
  have hn : n = Text.ofDigits 10 (ofScaled n e).digits * 10 ^ k := by
    have hvalue := congrArg (Text.ofDigits 10) hk
    rwa [Text.ofDigits_toDigits, Text.ofDigits_append, Text.ofDigits_replicate,
      List.length_replicate, Nat.add_zero] at hvalue
  refine ⟨⟨?_, ?_⟩, ?_⟩
  · intro c hc
    refine Text.isDigit_of_mem_toDigits c (n := n) ?_
    rw [hk]
    exact List.mem_append_left _ hc
  · cases hd : (ofScaled n e).digits with
    | nil =>
      rw [hd] at hn
      simp [Text.ofDigits] at hn
      omega
    | cons c cs =>
      refine ⟨c, cs, rfl, ?_⟩
      rintro rfl
      have hhead := Text.head?_toDigits h
      rw [hk, hd] at hhead
      simp at hhead
  · rw [value, hpoint]
    conv => rhs; rw [hn]
    rw [Double.ofDecimal_shift]
    congr 1
    omega

theorem exists_of_findSome?_getD {f : α → Option β} {l : List α} {d b : β}
    (h : (l.findSome? f).getD d = b) : b = d ∨ ∃ a ∈ l, f a = some b := by
  cases hf : l.findSome? f with
  | none =>
    rw [hf] at h
    exact .inl h.symm
  | some b' =>
    rw [hf] at h
    obtain rfl : b' = b := h
    obtain ⟨a, ha, hab⟩ := List.exists_of_findSome?_eq_some hf
    exact .inr ⟨a, ha, hab⟩

theorem nearer_passes {tie quotient passes n} (h : nearer tie quotient passes = some n) :
    passes n = true := by
  unfold nearer at h
  dsimp only at h
  split at h
  · rename_i h1 h2
    cases h
    split
    · exact h1
    · exact h2
  · cases h; assumption
  · cases h; assumption
  · cases h

theorem ofDecimal_zero (e : Int) : Double.ofDecimal 0 e = Double.zero := by
  simp [Double.ofDecimal]

theorem zero_eq : Double.zero = .finite false ⟨0, by decide⟩ := by
  simp [Double.zero, Double.ofRank, finiteCount]

/-- The fewest digits that read back do read back. -/
theorem shortest_spec (tie : Tie) {rank : Fin finiteCount} (h : rank.val ≠ 0) :
    Text.Significant (shortest tie rank).digits ∧ (shortest tie rank).value = .finite false rank := by
  have hunits : Double.unitsAt rank ≠ 0 := by
    rw [Double.unitsAt_eq]
    split
    · exact h
    · exact Nat.ne_of_gt (Nat.mul_pos (by omega) (Nat.pow_pos (by omega)))
  generalize hd : shortest tie rank = d
  simp only [shortest, hunits, if_false] at hd
  rcases exists_of_findSome?_getD hd with rfl | ⟨count, -, hc⟩
  · rw [← Double.ofDecimal_exact rank hunits]
    exact ofScaled_spec (Double.mul_pow_pos hunits 1074) _
  · obtain ⟨n, hn, rfl⟩ := Option.map_eq_some_iff.1 hc
    have hback := nearer_passes hn
    rw [beq_iff_eq] at hback
    rw [← hback]
    refine ofScaled_spec (Nat.pos_of_ne_zero ?_) _
    rintro rfl
    rw [ofDecimal_zero, zero_eq, Double.finite.injEq, Fin.ext_iff] at hback
    exact h hback.2.symm

/-- A decimal is written as a whole number, or with a fraction behind a whole part. -/
theorem plain_forms {d : Decimal} (h : Text.Significant d.digits) :
    (Text.Significant d.plain ∧ d.value = Double.ofDecimal (Text.ofDigits 10 d.plain) 0) ∨
    ∃ w f, (w = ['0'] ∨ Text.Significant w) ∧ f ≠ [] ∧ (∀ c ∈ f, Text.isDigit c = true) ∧
      d.plain = w ++ '.' :: f ∧
      d.value = Double.ofDecimal (Text.ofDigits 10 (w ++ f)) (-(f.length : Int)) := by
  obtain ⟨c, cs, hc, hne⟩ := h.first
  obtain ⟨digits, point⟩ := d
  dsimp only at h hc
  have hzeros (n : Nat) : ∀ c ∈ List.replicate n '0', Text.isDigit c = true := by
    intro c hc
    rw [(List.mem_replicate.1 hc).2]
    decide
  rcases point with (_ | n) | n
  · refine .inr ⟨['0'], digits, .inl rfl, by simp [hc], h.digit, rfl, ?_⟩
    rw [value, Text.ofDigits_append]
    simp [Text.ofDigits, Text.digitValue, Text.isDigit]
  · by_cases hle : digits.length ≤ n + 1
    · have hplain : plain ⟨digits, Int.ofNat (n + 1)⟩ =
          digits ++ List.replicate (n + 1 - digits.length) '0' := if_pos hle
      left
      rw [hplain]
      refine ⟨⟨?_, c, cs ++ List.replicate (n + 1 - digits.length) '0', by rw [hc]; rfl, hne⟩, ?_⟩
      · intro d hd
        rcases List.mem_append.1 hd with hd | hd
        · exact h.digit d hd
        · exact hzeros _ d hd
      · rw [value_mk, Text.ofDigits_append, Text.ofDigits_replicate, List.length_replicate,
          Nat.add_zero (_ * _), Double.ofDecimal_shift, Int.ofNat_eq_natCast]
        congr 1
        omega
    · have hplain : plain ⟨digits, Int.ofNat (n + 1)⟩ =
          digits.take (n + 1) ++ '.' :: digits.drop (n + 1) := if_neg hle
      refine .inr ⟨_, _, .inr ⟨?_, c, cs.take n, by rw [hc]; rfl, hne⟩, ?_, ?_, hplain, ?_⟩
      · exact fun d hd => h.digit d (List.mem_of_mem_take hd)
      · rw [Ne, List.drop_eq_nil_iff]
        omega
      · exact fun d hd => h.digit d (List.mem_of_mem_drop hd)
      · rw [value_mk, List.take_append_drop, List.length_drop, Int.ofNat_eq_natCast]
        congr 1
        omega
  · refine .inr ⟨['0'], List.replicate (n + 1) '0' ++ digits, .inl rfl, by simp [hc], ?_, rfl, ?_⟩
    · intro d hd
      rcases List.mem_append.1 hd with hd | hd
      · exact hzeros _ d hd
      · exact h.digit d hd
    · have hzero : Text.ofDigits 10 (['0'] ++ (List.replicate (n + 1) '0' ++ digits)) =
          Text.ofDigits 10 digits := by
        rw [← List.append_assoc, Text.ofDigits_append,
          show ['0'] ++ List.replicate (n + 1) '0' = List.replicate (n + 2) '0' from rfl,
          Text.ofDigits_replicate, Nat.zero_mul, Nat.zero_add]
      rw [value_mk, hzero, List.length_append, List.length_replicate]
      congr 1
      omega

end Decimal
end ScriptTree
