import ScriptTree.Proofs.Spelling

/-! # What stands after a token

A scanner that finds a token looks past it only to see that the token does not go on, and no further
than the longest symbol is. It finds the same token if the text after it is changed further on, cut off
or moved away by a blank. -/
namespace ScriptTree

namespace Text

/-- The second text goes on like the first for four bytes, but may end or come to a blank before. -/
def Looser (xs ys : List Char) : Prop :=
  ∀ look, look <+: ys → bytes look ≤ 4 → (∀ c ∈ look, isBlank c = false) → look <+: xs

/-- A function reads `n` characters of a text, and does not see if the text after them is loosened. -/
def Settles (f : List Char → β) (cs : List Char) (n : Nat) : Prop :=
  ∃ text rest, cs = text ++ rest ∧ text.length = n ∧
    ∀ rest', Looser rest rest' → f (text ++ rest') = f cs

theorem Looser.apart {xs ys : List Char} (h : ∀ c, ys.head? = some c → isBlank c = true) :
    Looser xs ys := by
  intro look hlook _ hblank
  cases look with
  | nil => exact List.nil_prefix
  | cons c look =>
    obtain ⟨after, rfl⟩ := hlook
    have hno := hblank c List.mem_cons_self
    rw [h c rfl] at hno
    cases hno

theorem Looser.same {c : Char} {xs ys : List Char} (h : Looser xs ys) : Looser (c :: xs) (c :: ys) := by
  intro look hlook hbytes hblank
  cases look with
  | nil => exact List.nil_prefix
  | cons d look =>
    obtain ⟨rfl, htail⟩ := List.cons_prefix_cons.1 hlook
    rw [bytes] at hbytes
    exact List.cons_prefix_cons.2 ⟨rfl, h look htail (by omega) fun c hc =>
      hblank c (List.mem_cons_of_mem _ hc)⟩

theorem Looser.head {xs ys : List Char} (h : Looser xs ys) {c : Char} (hc : ys.head? = some c) :
    isBlank c = true ∨ xs.head? = some c := by
  cases hb : isBlank c with
  | true => exact .inl rfl
  | false =>
    obtain ⟨ys, rfl⟩ := List.head?_eq_some_iff.1 hc
    have hsize := c.utf8Size_le_four
    obtain ⟨xs, rfl⟩ := h [c] ⟨ys, rfl⟩ (by simpa [bytes] using hsize) (by simpa using hb)
    exact .inr rfl

/-- A looser text begins with the same character, or apart. -/
theorem Looser.cases_cons {c : Char} {xs ys : List Char} (h : Looser (c :: xs) ys) :
    (∀ d, ys.head? = some d → isBlank d = true) ∨ ∃ zs, ys = c :: zs := by
  cases ys with
  | nil => exact .inl (by simp)
  | cons d ys =>
    rcases h.head rfl with hb | hd
    · exact .inl fun a ha => Option.some.inj ha ▸ hb
    · exact .inr ⟨ys, by rw [Option.some.inj hd]⟩

/-- What a blank does not have, and the next character does not have, the next one of a looser text
does not have either. -/
theorem Looser.head_eq_false {xs ys : List Char} (h : Looser xs ys) {p : Char → Bool}
    (hb : ∀ c, isBlank c = true → p c = false) (hp : ∀ c, xs.head? = some c → p c = false) :
    ∀ c, ys.head? = some c → p c = false := by
  intro c hc
  rcases h.head hc with hblank | hsame
  · exact hb c hblank
  · exact hp c hsame

/-- A function that reads some characters and leaves the rest to another. -/
theorem Settles.append {f : List Char → β} {g : List Char → γ} {cs : List Char} {n : Nat}
    (hg : Settles g cs n) (pre : List Char) (h : γ → β) (hf : ∀ xs, f (pre ++ xs) = h (g xs)) :
    Settles f (pre ++ cs) (pre.length + n) := by
  obtain ⟨text, rest, rfl, rfl, hsame⟩ := hg
  refine ⟨pre ++ text, rest, by rw [List.append_assoc], List.length_append, fun rest' hr => ?_⟩
  rw [List.append_assoc, hf, hf, hsame rest' hr]

theorem Settles.map {g : List Char → γ} {cs : List Char} {n : Nat} (hg : Settles g cs n)
    (f : γ → β) : Settles (fun cs => f (g cs)) cs n := by
  obtain ⟨text, rest, rfl, rfl, hsame⟩ := hg
  exact ⟨text, rest, rfl, rfl, fun rest' hr => congrArg f (hsame rest' hr)⟩

/-- A function that reads nothing here. -/
theorem Settles.nothing {f : List Char → β} {cs : List Char}
    (h : ∀ rest, Looser cs rest → f rest = f cs) : Settles f cs 0 :=
  ⟨[], cs, rfl, rfl, h⟩

/-- A function of what another one has read. -/
theorem Settles.taking {x : List Char → Extent} {cs : List Char} (h : Settles x cs (x cs).length)
    (f : Extent → List Char → β) :
    Settles (fun cs => f (x cs) (cs.take (x cs).length)) cs (x cs).length := by
  obtain ⟨text, rest, rfl, hlen, hsame⟩ := h
  refine ⟨text, rest, rfl, hlen, fun rest' hr => ?_⟩
  dsimp only
  rw [hsame rest' hr, ← hlen, List.take_left, List.take_left]

theorem Looser.append_left {xs ys : List Char} (h : Looser xs ys) (text : List Char) :
    Looser (text ++ xs) (text ++ ys) := by
  induction text with
  | nil => exact h
  | cons c text ih => exact ih.same

theorem Looser.refl (xs : List Char) : Looser xs xs := by
  simpa using (Looser.apart (by simp) : Looser [] []).append_left xs

/-- A function that does the same as another one wherever a text begins with some of the characters
that are read. -/
theorem Settles.congr {f g : List Char → β} (pre : List Char) {cs : List Char} {n : Nat}
    (hg : Settles g (pre ++ cs) n) (hn : pre.length ≤ n)
    (hf : ∀ xs, Looser cs xs → f (pre ++ xs) = g (pre ++ xs)) : Settles f (pre ++ cs) n := by
  obtain ⟨text, rest, hcs, rfl, hsame⟩ := hg
  obtain ⟨text, rfl⟩ : ∃ text', text = pre ++ text' := by
    have hpre : pre <+: text ++ rest := ⟨cs, hcs⟩
    obtain ⟨text', ht⟩ := List.prefix_of_prefix_length_le hpre (List.prefix_append text rest) hn
    exact ⟨text', ht.symm⟩
  obtain rfl : cs = text ++ rest := List.append_cancel_left (hcs.trans (List.append_assoc ..))
  refine ⟨pre ++ text, rest, hcs, rfl, fun rest' hr => ?_⟩
  rw [hf _ (Looser.refl _), ← hsame rest' hr, List.append_assoc]
  exact hf _ (hr.append_left text)

theorem head?_any_eq_false {p : Char → Bool} {cs : List Char} :
    cs.head?.any p = false ↔ ∀ c, cs.head? = some c → p c = false := by
  cases cs.head? <;> simp

theorem isDigit_eq_false_of_isBlank {c : Char} (h : isBlank c = true) : isDigit c = false :=
  (Bool.or_eq_false_iff.1 (isWordPart_eq_false_of_isBlank h)).2

theorem isWordStart_eq_false_of_isBlank {c : Char} (h : isBlank c = true) : isWordStart c = false :=
  (Bool.or_eq_false_iff.1 (isWordPart_eq_false_of_isBlank h)).1

theorem isHexDigit_eq_false_of_isBlank {c : Char} (h : isBlank c = true) : isHexDigit c = false := by
  have hc := le_of_isBlank h
  rw [Bool.eq_false_iff, Ne]
  simp only [isHexDigit, isDigit, Bool.or_eq_true, Bool.and_eq_true, decide_eq_true_eq,
    char_le_iff, Char.reduceToNat]
  omega

/-- A run of characters ends where it ends. -/
theorem takeWhile_settles {p : Char → Bool} (hp : ∀ c, isBlank c = true → p c = false)
    (cs : List Char) : Settles (List.takeWhile p) cs (cs.takeWhile p).length := by
  refine ⟨cs.takeWhile p, cs.dropWhile p, List.takeWhile_append_dropWhile.symm, rfl, ?_⟩
  intro rest' hr
  refine takeWhile_append_of_head (fun x hx => List.all_eq_true.1 List.all_takeWhile x hx) ?_
  refine hr.head_eq_false hp fun c hc => ?_
  have hne := List.head?_dropWhile_not p cs
  rw [hc] at hne
  simpa using hne

end Text

open Text

/-! ## Strings -/

namespace Quoted

theorem isOk_after {n : Nat} {e : Element} {b : Body} :
    (b.after n e).found.isOk = b.found.isOk := by
  cases h : b.found <;> simp [Body.after, h, Except.map, Except.isOk, Except.toBool]

theorem body_close {quote : Char} (cs : List Char) : body quote (quote :: cs) = ⟨1, .ok []⟩ := by
  rw [body.eq_def]
  simp

theorem body_escape {quote : Char} (h : ¬ '\\' = quote) {e : Char} (he : e = 'u' → False)
    (cs : List Char) :
    body quote (['\\', e] ++ cs) = (body quote cs).after 2 (.char (escaped e)) := by
  rw [List.cons_append, List.cons_append, List.nil_append, body.eq_def]
  simp only [h, if_false, if_true]
  split <;> simp_all

theorem body_settles {quote : Char} {cs : List Char} (h : (body quote cs).found.isOk = true) :
    Settles (body quote) cs (body quote cs).length := by
  fun_induction body quote cs with
  | case1 | case3 | case5 | case6 => cases h
  | case2 cs =>
    refine ⟨[quote], cs, rfl, rfl, fun rest' _ => ?_⟩
    rw [List.cons_append, List.nil_append, body_close, body_close]
  | case4 a b c d cs hall hquote ih =>
    rw [isOk_after] at h
    refine (ih h).append ['\\', 'u', a, b, c, d] (·.after 6 (.unit (ofDigits 16 [a, b, c, d]))) fun xs => ?_
    simp only [List.cons_append, List.nil_append]
    rw [body.eq_def]
    simp only [hquote, hall, if_false, if_true]
  | case7 e cs _ he hquote ih =>
    rw [isOk_after] at h
    exact (ih h).append ['\\', e] (·.after 2 _) (body_escape hquote he)
  | case8 c cs hquote hslash ih =>
    rw [isOk_after] at h
    refine (ih h).append [c] (·.after 1 (.char c)) fun xs => ?_
    rw [List.cons_append, List.nil_append, body.eq_def]
    simp only [hquote, hslash, if_false]

theorem scan_settles {quote : Char} {cs : List Char} (h : (scan quote cs).found.isOk = true) :
    Settles (scan quote) cs (body quote cs).length := by
  have hb : (body quote cs).found.isOk = true := by
    cases hf : (body quote cs).found with
    | error cause => simp [scan, hf, Except.map, Except.isOk, Except.toBool] at h
    | ok es => rfl
  obtain ⟨text, rest, hcs, hlen, hsame⟩ := body_settles hb
  refine ⟨text, rest, hcs, hlen, fun rest' hr => ?_⟩
  rw [scan, scan, hsame rest' hr]

end Quoted

/-! ## Numbers -/

namespace Numeral

theorem decimalExtent_apart {phase : Phase} (hp : phase.complete = true) {rest : List Char}
    (h : ∀ c, rest.head? = some c → isBlank c = true) : decimalExtent phase rest = ⟨0, true⟩ := by
  refine decimalExtent_end hp (fun c hc => isWordPart_eq_false_of_isBlank (h c hc)) fun hdot => ?_
  exact absurd (h '.' hdot) (by decide)

/-- The sign of an exponent is read if there is one, and a digit is none. -/
theorem decimalExtent_exponent {phase : Phase} {c : Char} (hd : ¬ isDigit c = true)
    (hdot : ¬ (c = '.' ∧ phase = .whole)) (he : (c = 'e' ∨ c = 'E') ∧ (!phase.inExponent) = true)
    {d : Char} (hplus : d ≠ '+') (hminus : d ≠ '-') (cs : List Char) :
    decimalExtent phase (c :: d :: cs) = (decimalExtent (.exponent false) (d :: cs)).after 1 := by
  rw [decimalExtent.eq_def]
  dsimp only
  rw [if_neg hd, if_neg hdot, if_pos he]
  split
  · exact absurd (List.cons.inj (by assumption)).1 hplus
  · exact absurd (List.cons.inj (by assumption)).1 hminus
  · rfl

theorem decimalExtent_settles {phase : Phase} {cs : List Char}
    (h : (decimalExtent phase cs).valid = true) :
    Settles (decimalExtent phase) cs (decimalExtent phase cs).length := by
  fun_induction decimalExtent phase cs with
  | case1 phase =>
    refine Settles.nothing fun rest hr => ?_
    have hp : phase.complete = true := h
    rw [decimalExtent_apart hp fun c hc => (hr.head hc).resolve_right (by simp),
      decimalExtent_apart hp (by simp)]
  | case2 phase c cs hd ih =>
    refine (ih h).append [c] (·.after 1) fun xs => ?_
    rw [List.cons_append, List.nil_append, decimalExtent.eq_def]
    exact if_pos hd
  | case3 phase c cs hd hdot ih =>
    refine (ih h).append [c] (·.after 1) fun xs => ?_
    rw [List.cons_append, List.nil_append, decimalExtent.eq_def]
    exact (if_neg hd).trans (if_pos hdot)
  | case4 phase c hd hdot he cs ih =>
    refine (ih h).append [c, '+'] (·.after 2) fun xs => ?_
    rw [List.cons_append, List.cons_append, List.nil_append, decimalExtent.eq_def]
    exact (if_neg hd).trans ((if_neg hdot).trans (if_pos he))
  | case5 phase c hd hdot he cs ih =>
    refine (ih h).append [c, '-'] (·.after 2) fun xs => ?_
    rw [List.cons_append, List.cons_append, List.nil_append, decimalExtent.eq_def]
    exact (if_neg hd).trans ((if_neg hdot).trans (if_pos he))
  | case6 phase c hd hdot he cs hplus hminus ih =>
    obtain ⟨text, rest, rfl, hlen, hsame⟩ := ih h
    cases text with
    | nil =>
      -- An exponent without a digit is not valid.
      have hnone := congrArg Extent.valid (hsame [] (.apart (by simp)))
      exact absurd (hnone.trans h) (by decide)
    | cons d text =>
      have hp : d ≠ '+' := fun e => hplus (text ++ rest) (by rw [e]; rfl)
      have hm : d ≠ '-' := fun e => hminus (text ++ rest) (by rw [e]; rfl)
      have hstep := decimalExtent_exponent hd hdot he hp hm
      refine ⟨c :: d :: text, rest, rfl, ?_, fun rest' hr => ?_⟩
      · rw [List.length_cons, hlen, Extent.after, Nat.add_comm]
      · have hs := hsame rest' hr
        simp only [List.cons_append] at hs ⊢
        rw [hstep, hstep, hs]
  | case7 phase c cs hd hdot he =>
    obtain ⟨hp, -⟩ := Bool.and_eq_true_iff.1 h
    have hstop (xs : List Char) :
        decimalExtent phase (c :: xs) = ⟨0, phase.complete && !isWordPart c⟩ := by
      rw [decimalExtent.eq_def]
      exact (if_neg hd).trans ((if_neg hdot).trans (if_neg he))
    refine Settles.nothing fun rest hr => ?_
    rcases hr.cases_cons with hb | ⟨zs, rfl⟩
    · rw [decimalExtent_apart hp hb, hstop]
      exact congrArg (Extent.mk 0) h.symm
    · rw [hstop, hstop]

theorem runExtent_settles {p : Char → Bool} (hp : ∀ c, isBlank c = true → p c = false)
    {cs : List Char} (h : (runExtent p cs).valid = true) :
    Settles (runExtent p) cs (runExtent p cs).length := by
  obtain ⟨text, rest, rfl, hlen, hsame⟩ := takeWhile_settles hp cs
  refine ⟨text, rest, rfl, hlen, fun rest' hr => ?_⟩
  have hnext (xs : List Char) (hx : (text ++ xs).takeWhile p = (text ++ rest).takeWhile p) :
      runExtent p (text ++ xs) = ⟨text.length, !(xs.head?.any isWordStart)⟩ := by
    rw [runExtent, hx, ← hlen, List.drop_left]
  rw [hnext rest rfl] at h ⊢
  have hrest : rest.head?.any isWordStart = false := by simpa only [Bool.not_eq_true'] using h
  have hrest' : rest'.head?.any isWordStart = false :=
    head?_any_eq_false.2 (hr.head_eq_false (fun _ => isWordStart_eq_false_of_isBlank)
      (head?_any_eq_false.1 hrest))
  rw [hnext rest' (hsame rest' hr), hrest, hrest']

theorem isOk_report {e : Extent} {value : Double} : (report e value).found.isOk = e.valid := by
  rw [report]
  split <;> simp_all [Except.isOk, Except.toBool]

theorem scanDecimal_settles {cs : List Char} (h : (scanDecimal cs).found.isOk = true) :
    Settles scanDecimal cs (scanDecimal cs).length :=
  (decimalExtent_settles (isOk_report.symm.trans h)).taking fun e literal =>
    report e (decimalValue literal)

theorem scanHex_settles {cs : List Char} (h : (scanHex cs).found.isOk = true) :
    Settles scanHex cs (runExtent isHexDigit cs).length := by
  have hvalid := (Bool.and_eq_true_iff.1 (isOk_report.symm.trans h)).1
  exact (runExtent_settles (fun _ => isHexDigit_eq_false_of_isBlank) hvalid).taking fun e digits =>
    report ⟨2 + e.length, e.valid && e.length != 0⟩ (Double.ofDigits 16 digits)

theorem scanOctal_settles {cs : List Char} (h : (scanOctal cs).found.isOk = true) :
    Settles scanOctal cs (runExtent isDigit cs).length :=
  (runExtent_settles (fun _ => isDigit_eq_false_of_isBlank) (isOk_report.symm.trans h)).taking
    fun e digits => report ⟨1 + e.length, e.valid⟩
      (Double.ofDigits (if digits.any fun d => d == '8' || d == '9' then 10 else 8) digits)

/-- A zero before a point or an exponent is not the whole literal. -/
theorem two_le_decimalExtent {c : Char} (hc : c = '.' ∨ c = 'e' ∨ c = 'E') (cs : List Char) :
    2 ≤ (decimalExtent .whole ('0' :: c :: cs)).length := by
  have hstep : decimalExtent .whole ('0' :: c :: cs) = (decimalExtent .whole (c :: cs)).after 1 := by
    rw [decimalExtent.eq_def]
    rfl
  have hpos : 1 ≤ (decimalExtent .whole (c :: cs)).length := by
    rcases hc with rfl | hc
    · rw [decimalExtent.eq_def]
      exact Nat.le_add_right 1 _
    · rw [decimalExtent.eq_def]
      dsimp only
      rw [if_neg (by rcases hc with rfl | rfl <;> decide),
        if_neg (by rcases hc with rfl | rfl <;> decide), if_pos ⟨hc, rfl⟩]
      split <;> simp only [Extent.after] <;> omega
  rw [hstep]
  exact Nat.add_le_add_left hpos 1

theorem scan_eq_scanDecimal_of_point {c : Char} (hc : c = '.' ∨ c = 'e' ∨ c = 'E') (cs : List Char) :
    scan ('0' :: c :: cs) = scanDecimal ('0' :: c :: cs) := by
  rcases hc with rfl | rfl | rfl <;> rfl

theorem scan_eq_scanOctal {cs : List Char}
    (h : ∀ c, cs.head? = some c → c ≠ 'x' ∧ c ≠ 'X' ∧ c ≠ '.' ∧ c ≠ 'e' ∧ c ≠ 'E') :
    scan ('0' :: cs) = scanOctal cs := by
  cases cs with
  | nil => rfl
  | cons c cs => simp [scan, h c rfl]

theorem scan_settles_zero {cs : List Char} (h : (scan ('0' :: cs)).found.isOk = true) :
    Settles scan ('0' :: cs) (scan ('0' :: cs)).length := by
  by_cases hx : cs.head? = some 'x' ∨ cs.head? = some 'X'
  · have hex {c : Char} (cs : List Char) (hc : ∀ xs, scan ('0' :: c :: xs) = scanHex xs)
        (h : (scan ('0' :: c :: cs)).found.isOk = true) :
        Settles scan ('0' :: c :: cs) (scan ('0' :: c :: cs)).length := by
      rw [hc] at h ⊢
      exact (scanHex_settles h).append ['0', c] id hc
    rcases hx with hx | hx <;> obtain ⟨cs, rfl⟩ := List.head?_eq_some_iff.1 hx
    · exact hex cs (fun _ => rfl) h
    · exact hex cs (fun _ => rfl) h
  by_cases hp : ∃ c, cs.head? = some c ∧ (c = '.' ∨ c = 'e' ∨ c = 'E')
  · obtain ⟨c, hc, hpoint⟩ := hp
    obtain ⟨cs, rfl⟩ := List.head?_eq_some_iff.1 hc
    rw [scan_eq_scanDecimal_of_point hpoint] at h ⊢
    exact (scanDecimal_settles h).congr ['0', c] (two_le_decimalExtent hpoint cs) fun xs _ =>
      scan_eq_scanDecimal_of_point hpoint xs
  · have hplain (c : Char) (hc : isBlank c = true ∨ cs.head? = some c) :
        c ≠ 'x' ∧ c ≠ 'X' ∧ c ≠ '.' ∧ c ≠ 'e' ∧ c ≠ 'E' := by
      rcases hc with hb | hc
      · have hne {d : Char} (hd : isBlank d = false) : c ≠ d := ne_of_isBlank hb hd
        exact ⟨hne rfl, hne rfl, hne rfl, hne rfl, hne rfl⟩
      · rw [hc, Option.some.injEq, Option.some.injEq, not_or] at hx
        have hpoint := not_exists.1 hp c
        simp only [hc, true_and, not_or] at hpoint
        exact ⟨hx.1, hx.2, hpoint⟩
    have hoctal := scan_eq_scanOctal fun c hc => hplain c (.inr hc)
    rw [hoctal] at h ⊢
    have htail : Settles (fun xs => scan ('0' :: xs)) cs (runExtent isDigit cs).length :=
      (scanOctal_settles h).congr [] (Nat.zero_le _) fun xs hr =>
        scan_eq_scanOctal fun c hc => hplain c (hr.head hc)
    exact htail.append ['0'] id fun _ => rfl

theorem scan_settles {cs : List Char} (h : (scan cs).found.isOk = true) :
    Settles scan cs (scan cs).length := by
  by_cases hzero : ∃ rest, cs = '0' :: rest
  · obtain ⟨rest, rfl⟩ := hzero
    exact scan_settles_zero h
  · have hdecimal : scan cs = scanDecimal cs :=
      scan_eq_scanDecimal fun rest hcs => absurd ⟨rest, hcs⟩ hzero
    rw [hdecimal] at h ⊢
    refine (scanDecimal_settles h).congr [] (Nat.zero_le _) fun xs hr =>
      scan_eq_scanDecimal fun rest hxs => ?_
    rcases hr.head (c := '0') (by rw [← List.nil_append xs, hxs]; rfl) with hb | hc
    · cases hb
    · exact absurd (List.head?_eq_some_iff.1 hc) hzero

theorem decimalExtent_digit {phase : Phase} {c : Char} (hc : isDigit c = true) (cs : List Char) :
    decimalExtent phase (c :: cs) = (decimalExtent phase.afterDigit cs).after 1 := by
  rw [decimalExtent.eq_def]
  exact if_pos hc

/-- A literal takes the digit it begins with. -/
theorem one_le_scan {c : Char} (hc : isDigit c = true) (cs : List Char) :
    1 ≤ (scan (c :: cs)).length := by
  have hdecimal : 1 ≤ (scanDecimal (c :: cs)).length := by
    rw [scanDecimal, decimalExtent_digit hc]
    exact Nat.le_add_right 1 _
  unfold scan
  split
  · rename_i e
    obtain ⟨rfl, rfl⟩ := List.cons.inj e
    split
    iterate 2 exact Nat.le_trans (Nat.le_add_right 1 1) (Nat.le_add_right 2 _)
    iterate 3 exact hdecimal
    exact Nat.le_add_right 1 _
  · exact hdecimal

/-- A literal takes the point it begins with, and a digit. -/
theorem two_le_scan {c : Char} (hc : isDigit c = true) (cs : List Char) :
    2 ≤ (scan ('.' :: c :: cs)).length := by
  have hpoint : decimalExtent .whole ('.' :: c :: cs) = (decimalExtent .fraction (c :: cs)).after 1 := by
    rw [decimalExtent.eq_def]
    rfl
  show 2 ≤ (decimalExtent .whole ('.' :: c :: cs)).length
  rw [hpoint, decimalExtent_digit hc]
  exact Nat.add_le_add_left (Nat.le_add_right 1 _) 1

end Numeral

/-! ## Regular expressions -/

namespace Pattern

theorem flagExtent_settles {seen cs : List Char} (h : (flagExtent seen cs).valid = true) :
    Settles (flagExtent seen) cs (flagExtent seen cs).length := by
  have apart {seen rest : List Char} (hb : ∀ c, rest.head? = some c → isBlank c = true) :
      flagExtent seen rest = ⟨0, true⟩ := by
    cases rest with
    | nil => rfl
    | cons c rest =>
      have hstart := isWordStart_eq_false_of_isBlank (hb c rfl)
      have hflag : isFlag c = false := by
        rw [Bool.eq_false_iff]
        intro hf
        rw [isWordStart_of_isFlag hf] at hstart
        cases hstart
      rw [flagExtent, hflag, hstart]
      rfl
  fun_induction flagExtent seen cs with
  | case1 seen =>
    refine Settles.nothing fun rest hr => ?_
    rw [apart fun c hc => (hr.head hc).resolve_right (by simp), apart (by simp)]
  | case2 seen c cs hc ih =>
    refine (ih h).append [c] (·.after 1) fun xs => ?_
    rw [List.cons_append, List.nil_append, flagExtent, if_pos hc]
  | case3 seen c cs hc =>
    have hstop (xs : List Char) : flagExtent seen (c :: xs) = ⟨0, !isWordStart c⟩ := by
      rw [flagExtent, if_neg hc]
    refine Settles.nothing fun rest hr => ?_
    rcases hr.cases_cons with hb | ⟨zs, rfl⟩
    · rw [apart hb, hstop]
      exact congrArg (Extent.mk 0) h.symm
    · rw [hstop, hstop]

/-- What is reported of a pattern and the text after it. -/
def reportFlags (pattern : List Char) (e : Extent) (flags : List Char) : Scan :=
  ⟨1 + pattern.length + e.length,
    if e.valid then .ok (.regex (String.ofList ('/' :: pattern)) (String.ofList flags))
    else .error .invalidRegexFlags⟩

theorem scan_settles {cs : List Char} (h : (scan cs).found.isOk = true) :
    ∃ n, (scan cs).length = 1 + n ∧ Settles scan cs n := by
  by_cases hbody : (bodyExtent false [] cs).valid = true
  · obtain ⟨pre, post, rfl, hlen, hpre⟩ := bodyExtent_prefix (eq_mk_of_valid hbody)
    have hscan (xs : List Char) : scan (pre ++ xs) =
        reportFlags pre (flagExtent [] xs) (xs.take (flagExtent [] xs).length) := by
      rw [scan, hpre xs, ← hlen]
      dsimp only
      rw [if_pos rfl, List.drop_left, List.take_left, reportFlags]
      split <;> rfl
    rw [hscan] at h ⊢
    have hflags : (flagExtent [] post).valid = true := by
      cases hv : (flagExtent [] post).valid with
      | true => rfl
      | false =>
        rw [reportFlags, hv] at h
        cases h
    exact ⟨_, Nat.add_assoc .., ((flagExtent_settles hflags).taking (reportFlags pre)).append pre id hscan⟩
  · rw [scan, if_neg hbody] at h
    cases h

end Pattern

/-! ## Symbols -/

namespace Lexer

theorem symbols_not_blank : ∀ op ∈ Operator.symbols, op.text.toList.all (!isBlank ·) = true := by
  decide

theorem symbols_short : ∀ op ∈ Operator.symbols, bytes op.text.toList ≤ 4 := by decide

/-- The first length that works is the greatest one. -/
theorem le_of_findSome?_lengths {f : Nat → Option Operator} {op o : Operator} {n : Nat}
    (h : [4, 3, 2, 1].findSome? f = some op) (hn : n ∈ [4, 3, 2, 1]) (hf : f n = some o) :
    ∃ m, n ≤ m ∧ f m = some op := by
  obtain ⟨l₁, m, l₂, hl, hm, hnone⟩ := List.findSome?_eq_some_iff.1 h
  refine ⟨m, ?_, hm⟩
  have hsorted : List.Pairwise (· ≥ ·) (l₁ ++ m :: l₂) := hl ▸ by decide
  rw [hl] at hn
  rcases List.mem_append.1 hn with hmem | hmem
  · rw [hnone n hmem] at hf
    cases hf
  · rcases List.mem_cons.1 hmem with rfl | hmem
    · exact Nat.le_refl _
    · exact (List.pairwise_cons.1 (List.pairwise_append.1 hsorted).2.1).1 n hmem

/-- What goes on with a symbol that was found makes no other symbol of it. -/
theorem ofSymbol?_of_symbol? {cs : List Char} {op : Operator} (h : symbol? cs = some op)
    {more : List Char} (hmore : more ≠ []) (hpre : op.text.toList ++ more <+: cs) :
    Operator.ofSymbol? (String.ofList (op.text.toList ++ more)) = none := by
  cases ho : Operator.ofSymbol? (String.ofList (op.text.toList ++ more)) with
  | none => rfl
  | some o =>
    have hlen := Operator.length_text_le o (List.mem_of_find?_eq_some ho)
    rw [Operator.text_of_ofSymbol? ho, String.toList_ofList] at hlen
    have hpos := List.length_pos_iff.2 hmore
    have htake := List.prefix_iff_eq_take.1 hpre
    rw [htake] at ho
    have hmem : (op.text.toList ++ more).length ∈ [4, 3, 2, 1] := by
      rw [List.length_append] at hlen ⊢
      simp only [List.mem_cons, List.not_mem_nil, or_false]
      omega
    obtain ⟨m, hm, hop⟩ := le_of_findSome?_lengths h hmem ho
    have htext := congrArg (List.length ∘ String.toList) (Operator.text_of_ofSymbol? hop)
    have hle := hpre.length_le
    simp only [Function.comp_apply, String.toList_ofList, List.length_take, List.length_append]
      at htext hm hle
    omega

theorem symbol?_settles {cs : List Char} {op : Operator} (h : symbol? cs = some op) :
    Settles symbol? cs op.text.toList.length := by
  obtain ⟨n, hn, hop⟩ := List.exists_of_findSome?_eq_some h
  have hmem : op ∈ Operator.symbols := List.mem_of_find?_eq_some hop
  have htext : op.text.toList = cs.take n := by
    rw [Operator.text_of_ofSymbol? hop, String.toList_ofList]
  obtain ⟨rest, hcs⟩ : op.text.toList <+: cs := htext ▸ List.take_prefix n cs
  refine ⟨op.text.toList, rest, hcs.symm, rfl, fun rest' hr => ?_⟩
  rw [h]
  have hfound {m : Nat} (hm : (op.text.toList ++ rest').take m = op.text.toList) :
      Operator.ofSymbol? (String.ofList ((op.text.toList ++ rest').take m)) = some op := by
    rw [hm, String.ofList_toList, Operator.ofSymbol?_text hmem]
  refine Operator.findSome?_lengths (fun m hm => ?_) (hfound List.take_left)
    (Operator.length_text_pos op hmem) (Operator.length_text_le op hmem)
  obtain ⟨k, rfl⟩ := Nat.exists_eq_add_of_lt hm
  by_cases hmore : rest'.take (k + 1) = []
  · exact .inr (hfound (by rw [Nat.add_assoc, List.take_length_add_append, hmore, List.append_nil]))
  · left
    rw [Nat.add_assoc, List.take_length_add_append]
    cases ho : Operator.ofSymbol? (String.ofList (op.text.toList ++ rest'.take (k + 1))) with
    | none => rfl
    | some o =>
      have ho' := List.mem_of_find?_eq_some ho
      have hnot := symbols_not_blank o ho'
      have hshort := symbols_short o ho'
      rw [Operator.text_of_ofSymbol? ho, String.toList_ofList] at hnot hshort
      rw [bytes_append] at hshort
      have hpre : rest'.take (k + 1) <+: rest :=
        hr _ (List.take_prefix _ _) (by omega) fun c hc => by
          simpa using List.all_eq_true.1 hnot c (List.mem_append_right _ hc)
      rw [← ho]
      exact ofSymbol?_of_symbol? h hmore (hcs ▸ (List.prefix_append_right_inj _).2 hpre)

/-! ## All tokens -/

theorem scan_word {flag : Bool} {c : Char} (hw : isWordStart c = true) (cs : List Char) :
    scan flag (c :: cs) = ⟨((c :: cs).takeWhile isWordPart).length,
      .ok (wordKind (String.ofList ((c :: cs).takeWhile isWordPart)))⟩ := by
  rw [scan, if_pos hw]

theorem scan_punctuation {flag : Bool} {c : Char} {k : TokenKind} (hw : ¬ isWordStart c = true)
    (hp : punctuation? c = some k) (cs : List Char) : scan flag (c :: cs) = ⟨1, .ok k⟩ := by
  rw [scan, if_neg hw]
  simp only [hp]

/-- What is reported where only a symbol can stand. -/
def reportSymbol (c : Char) : Option Operator → Scan
  | some op => ⟨op.text.length, .ok (.operator op)⟩
  | none => ⟨0, .error (.unexpectedCharacter c)⟩

/-- What begins neither a word nor a punctuation mark. -/
theorem scan_other {flag : Bool} {c : Char} (hw : ¬ isWordStart c = true)
    (hp : punctuation? c = none) (cs : List Char) : scan flag (c :: cs) =
      if c = '\x22' ∨ c = '\x27' then Quoted.scan c cs
      else if (isDigit c || (c == '.' && cs.head?.any isDigit)) = true then Numeral.scan (c :: cs)
      else if c = '.' then ⟨1, .ok (.operator .dot)⟩
      else if c = '/' ∧ (!flag) = true then Pattern.scan cs
      else reportSymbol c (symbol? (c :: cs)) := by
  rw [scan, if_neg hw]
  simp only [hp]
  cases symbol? (c :: cs) <;> rfl

theorem scan_settles_dot {flag : Bool} {cs : List Char}
    (h : (scan flag ('.' :: cs)).found.isOk = true) : 0 < (scan flag ('.' :: cs)).length ∧
      Settles (scan flag) ('.' :: cs) (scan flag ('.' :: cs)).length := by
  have hscan (xs : List Char) : scan flag ('.' :: xs) =
      if xs.head?.any isDigit = true then Numeral.scan ('.' :: xs) else ⟨1, .ok (.operator .dot)⟩ :=
    scan_other (by decide) rfl xs
  by_cases hnext : cs.head?.any isDigit = true
  · obtain ⟨d, hd, hdigit⟩ : ∃ d, cs.head? = some d ∧ isDigit d = true := by
      cases hc : cs.head? with
      | none => simp [hc] at hnext
      | some d => exact ⟨d, rfl, by simpa [hc] using hnext⟩
    obtain ⟨cs, rfl⟩ := List.head?_eq_some_iff.1 hd
    have hnumber (xs : List Char) : scan flag (['.', d] ++ xs) = Numeral.scan (['.', d] ++ xs) :=
      (hscan (d :: xs)).trans (if_pos hdigit)
    have hlen := Numeral.two_le_scan hdigit cs
    rw [show scan flag ('.' :: d :: cs) = _ from hnumber cs] at h ⊢
    exact ⟨Nat.lt_of_lt_of_le Nat.two_pos hlen,
      (Numeral.scan_settles h).congr ['.', d] hlen fun xs _ => hnumber xs⟩
  · rw [hscan, if_neg hnext]
    refine ⟨Nat.one_pos, ['.'], cs, rfl, rfl, fun rest' hr => ?_⟩
    have hrest : rest'.head?.any isDigit = false :=
      head?_any_eq_false.2 (hr.head_eq_false (fun _ => isDigit_eq_false_of_isBlank)
        (head?_any_eq_false.1 (Bool.eq_false_iff.2 hnext)))
    rw [List.singleton_append, hscan, hscan, if_neg hnext, hrest]
    rfl

/-- The lexer takes a character, and sees of the text after a token only whether the token goes
on. -/
theorem scan_settles {flag : Bool} {c : Char} {cs : List Char}
    (h : (scan flag (c :: cs)).found.isOk = true) : 0 < (scan flag (c :: cs)).length ∧
      Settles (scan flag) (c :: cs) (scan flag (c :: cs)).length := by
  by_cases hw : isWordStart c = true
  · have hpos : 0 < ((c :: cs).takeWhile isWordPart).length := by
      rw [List.takeWhile_cons, if_pos (isWordPart_iff.2 (.inl hw))]
      exact Nat.succ_pos _
    have hrun := takeWhile_settles (fun _ => isWordPart_eq_false_of_isBlank) (c :: cs)
    rw [scan_word hw]
    exact ⟨hpos, (hrun.map fun word => ⟨word.length, .ok (wordKind (String.ofList word))⟩).congr [c]
      hpos fun xs _ => scan_word hw xs⟩
  cases hp : punctuation? c with
  | some k =>
    have hscan := @scan_punctuation flag c k hw hp
    rw [hscan]
    refine ⟨Nat.one_pos, [c], cs, rfl, rfl, fun rest' _ => ?_⟩
    rw [List.singleton_append, hscan, hscan]
  | none =>
    have hscan := @scan_other flag c hw hp
    by_cases hq : c = '\x22' ∨ c = '\x27'
    · have hquoted (xs : List Char) : scan flag ([c] ++ xs) = Quoted.scan c xs :=
        (hscan xs).trans (if_pos hq)
      rw [show scan flag (c :: cs) = _ from hquoted cs] at h ⊢
      exact ⟨Nat.lt_of_lt_of_le Nat.one_pos (Nat.le_add_right 1 _),
        (Quoted.scan_settles h).append [c] id hquoted⟩
    by_cases hd : isDigit c = true
    · have hnumber (xs : List Char) : scan flag ([c] ++ xs) = Numeral.scan ([c] ++ xs) :=
        (hscan xs).trans ((if_neg hq).trans (if_pos (by rw [hd]; rfl)))
      have hlen := Numeral.one_le_scan hd cs
      rw [show scan flag (c :: cs) = _ from hnumber cs] at h ⊢
      exact ⟨hlen, (Numeral.scan_settles h).congr [c] hlen fun xs _ => hnumber xs⟩
    by_cases hdot : c = '.'
    · subst hdot
      exact scan_settles_dot h
    have hnot (xs : List Char) : ¬ (isDigit c || (c == '.' && xs.head?.any isDigit)) = true := by
      simp [hd, hdot]
    by_cases hslash : c = '/' ∧ (!flag) = true
    · have hpattern (xs : List Char) : scan flag ([c] ++ xs) = Pattern.scan xs :=
        (hscan xs).trans ((if_neg hq).trans ((if_neg (hnot xs)).trans ((if_neg hdot).trans
          (if_pos hslash))))
      rw [show scan flag (c :: cs) = _ from hpattern cs] at h ⊢
      obtain ⟨n, hn, hs⟩ := Pattern.scan_settles h
      rw [hn]
      exact ⟨Nat.lt_of_lt_of_le Nat.one_pos (Nat.le_add_right 1 _), hs.append [c] id hpattern⟩
    · have hsymbol (xs : List Char) : scan flag ([c] ++ xs) = reportSymbol c (symbol? ([c] ++ xs)) :=
        (hscan xs).trans ((if_neg hq).trans ((if_neg (hnot xs)).trans ((if_neg hdot).trans
          (if_neg hslash))))
      rw [show scan flag (c :: cs) = reportSymbol c (symbol? (c :: cs)) from hsymbol cs] at h ⊢
      cases hop : symbol? (c :: cs) with
      | none =>
        rw [hop] at h
        cases h
      | some op =>
        obtain ⟨n, -, hn⟩ := List.exists_of_findSome?_eq_some hop
        have hpos := Operator.length_text_pos op (List.mem_of_find?_eq_some hn)
        have hs := ((symbol?_settles hop).map (reportSymbol c)).congr [c] hpos fun xs _ => hsymbol xs
        rw [String.length_toList] at hpos hs
        exact ⟨hpos, hs⟩

end Lexer
end ScriptTree
