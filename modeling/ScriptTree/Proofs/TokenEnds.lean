import ScriptTree.Proofs.Foresight
import ScriptTree.Proofs.NumberLiterals
import ScriptTree.Proofs.Seams

/-! # The last character of a token

No token ends in a blank: words and numbers take no blanks, literals end in what closes them or in a
flag, and a symbol has none. So where a text is cut behind a blank, no token ends there. -/
namespace ScriptTree

open Text

/-- What a scan takes of a text does not end in a blank. -/
def Scan.Trims (s : Scan) (cs : List Char) : Prop :=
  s.found.isOk = true → ∀ d ∈ (cs.take s.length).getLast?, isBlank d = false

theorem Quoted.getLast?_of_body {quote : Char} {cs : List Char}
    (h : (body quote cs).found.isOk = true) :
    (cs.take (body quote cs).length).getLast? = some quote := by
  have longer {x : Char} {xs : List Char} (hx : xs.getLast? = some quote) :
      (x :: xs).getLast? = some quote := by rw [List.getLast?_cons, hx]; rfl
  fun_induction body quote cs with
  | case1 | case3 | case5 | case6 => cases h
  | case2 cs => rfl
  | case4 a b c d cs _ _ ih =>
    rw [isOk_after] at h
    rw [Body.after, Nat.add_comm]
    exact longer (longer (longer (longer (longer (longer (ih h))))))
  | case7 e cs _ _ _ ih =>
    rw [isOk_after] at h
    rw [Body.after, Nat.add_comm]
    exact longer (longer (ih h))
  | case8 c cs _ _ ih =>
    rw [isOk_after] at h
    rw [Body.after, Nat.add_comm]
    exact longer (ih h)

namespace Numeral

/-- A number has no blanks in it. -/
theorem isBlank_taken (cs : List Char) : ∀ c ∈ taken cs, isBlank c = false := by
  have run {p : Char → Bool} (hp : ∀ c, isBlank c = true → p c = false) (cs : List Char) :
      ∀ c ∈ cs.takeWhile p, isBlank c = false := fun c hc => by
    have hpc := List.all_eq_true.1 List.all_takeWhile c hc
    cases hb : isBlank c with
    | false => rfl
    | true =>
      rw [hp c hb] at hpc
      cases hpc
  have digits := run fun _ => isDigit_eq_false_of_isBlank
  unfold taken
  split
  · rename_i hf
    refine List.forall_mem_append.2 ⟨?_, run (fun _ => isHexDigit_eq_false_of_isBlank) _⟩
    unfold Form.ofText at hf
    split at hf
    · rename_i rest
      cases rest with
      | nil => exact List.forall_mem_singleton.2 rfl
      | cons c rest =>
        have hc : c = 'x' ∨ c = 'X' := by
          by_contra hne
          simp only [List.head?_cons, Option.some.injEq, if_neg hne] at hf
          split at hf <;> cases hf
        refine List.forall_mem_cons.2 ⟨rfl, List.forall_mem_singleton.2 ?_⟩
        rcases hc with rfl | rfl <;> rfl
    · cases hf
  · rename_i hf
    refine List.forall_mem_append.2 ⟨?_, digits _⟩
    unfold Form.ofText at hf
    split at hf
    · exact List.forall_mem_singleton.2 rfl
    · cases hf
  · refine List.forall_mem_append.2 ⟨digits _, List.forall_mem_append.2 ⟨?_,
      List.forall_mem_append.2 ⟨?_, ?_⟩⟩⟩
    · dsimp only [Parts.ofText]
      unfold fraction
      split
      · exact List.forall_mem_cons.2 ⟨rfl, digits _⟩
      · exact List.forall_mem_nil _
    · dsimp only [Parts.ofText]
      unfold marker
      split
      · rename_i c rest _
        split
        · rename_i hc
          refine List.forall_mem_cons.2 ⟨by rcases hc with rfl | rfl <;> rfl, ?_⟩
          rcases sign_mem rest with h
          simp only [List.mem_cons, List.not_mem_nil, or_false] at h
          rcases h with h | h | h
          · rw [h]; exact List.forall_mem_nil _
          · rw [h]; exact List.forall_mem_singleton.2 rfl
          · rw [h]; exact List.forall_mem_singleton.2 rfl
        · exact List.forall_mem_nil _
      · exact List.forall_mem_nil _
    · dsimp only [Parts.ofText]
      unfold power
      split
      · exact List.forall_mem_nil _
      · exact digits _

end Numeral

theorem Pattern.scan_trims (cs : List Char) : (scan cs).Trims ('/' :: cs) := by
  intro h
  by_cases hbody : (bodyExtent false [] cs).valid = true
  · obtain ⟨pre, post, rfl, hlen, hpre⟩ := bodyExtent_prefix (eq_mk_of_valid hbody)
    by_cases hflags : (flagExtent [] post).valid = true
    · obtain ⟨pre', post', rfl, hlen', hpre'⟩ := flagExtent_prefix (eq_mk_of_valid hflags)
      have hslash := hpre []
      have hparts := hpre' [] (fun _ h => by cases h)
      rw [List.append_nil, ← hlen] at hslash
      rw [List.append_nil, ← hlen'] at hparts
      have hlength : (scan (pre ++ (pre' ++ post'))).length = (pre ++ pre').length + 1 := by
        rw [scan, if_pos hbody]
        dsimp only
        rw [← hlen, List.drop_left, if_pos hflags, ← hlen', List.length_append]
        dsimp only
        omega
      rw [hlength, List.take_succ_cons, ← List.append_assoc, List.take_left, List.getLast?_cons,
        List.getLast?_append, getLast?_of_bodyExtent hslash]
      intro d hd
      cases hlast : pre'.getLast? with
      | none =>
        rw [hlast] at hd
        cases hd
        rfl
      | some last =>
        rw [hlast] at hd
        cases hd
        exact isBlank_eq_false_of_isWordPart
          (TokenKind.isWordPart_of_flagExtent hparts last (List.mem_of_getLast? hlast))
    · rw [scan, if_pos hbody] at h
      dsimp only at h
      rw [← hlen, List.drop_left, if_neg hflags] at h
      cases h
  · rw [scan, if_neg hbody] at h
    cases h

namespace Lexer

theorem scan_trims {flag : Bool} {c : Char} (hc : isBlank c = false) (cs : List Char) :
    (scan flag (c :: cs)).Trims (c :: cs) := by
  have single {k : TokenKind} : Scan.Trims ⟨1, .ok k⟩ (c :: cs) := fun _ d hd => by
    cases hd
    exact hc
  by_cases hw : isWordStart c = true
  · rw [scan_word hw]
    intro _ d hd
    rw [← List.prefix_iff_eq_take.1 (List.takeWhile_prefix isWordPart)] at hd
    exact isBlank_eq_false_of_isWordPart (List.all_eq_true.1 List.all_takeWhile d (List.mem_of_getLast? hd))
  cases hp : punctuation? c with
  | some k =>
    rw [scan_punctuation hw hp]
    exact single
  | none =>
    rw [scan_other hw hp]
    split
    · rename_i hq
      intro h d hd
      have hb : (Quoted.body c cs).found.isOk = true := by
        cases hf : (Quoted.body c cs).found with
        | error cause => simp [Quoted.scan, hf, Except.map, Except.isOk, Except.toBool] at h
        | ok es => rfl
      rw [Quoted.scan, Nat.add_comm, List.take_succ_cons, List.getLast?_cons,
        Quoted.getLast?_of_body hb] at hd
      cases hd
      exact hc
    split
    · intro _ d hd
      obtain ⟨x, hx⟩ := Numeral.scan_eq_report (c :: cs)
      rw [hx, Numeral.report, ← List.prefix_iff_eq_take.1 (Numeral.prefix_taken _)] at hd
      exact Numeral.isBlank_taken _ d (List.mem_of_getLast? hd)
    split
    · exact single
    split
    · rename_i hslash
      rw [hslash.1]
      exact Pattern.scan_trims cs
    · cases hop : symbol? (c :: cs) with
      | none =>
        intro h
        cases h
      | some op =>
        intro _ d hd
        obtain ⟨n, hn, hfound⟩ := List.exists_of_findSome?_eq_some hop
        have htext : op.text.toList = (c :: cs).take n := by
          rw [Operator.text_of_ofSymbol? hfound, String.toList_ofList]
        have hpre : op.text.toList <+: c :: cs := htext ▸ List.take_prefix n _
        rw [reportSymbol, ← String.length_toList, ← List.prefix_iff_eq_take.1 hpre] at hd
        have hall := symbols_not_blank op (List.mem_of_find?_eq_some hfound)
        simpa using List.all_eq_true.1 hall d (List.mem_of_getLast? hd)

/-- A token does not end in a blank. -/
theorem Finds.getLast?_text {flag : Bool} {c d : Cursor} {token : Token} {text : List Char}
    (h : Finds flag c token text d) : ∀ last ∈ text.getLast?, isBlank last = false := by
  cases text with
  | nil =>
    intro last h
    cases h
  | cons a text =>
    have htrims := @scan_trims flag _ h.bare.isBlank_eq_false (text ++ d.rest)
    rw [← List.cons_append, h.scan] at htrims
    simpa only [List.take_left] using htrims rfl

end Lexer
end ScriptTree
