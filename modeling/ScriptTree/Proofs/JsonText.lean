import ScriptTree.Json.Document
import ScriptTree.Proofs.Fractions

/-! # The text of a JSON value tells which value it is

A text is read from its front: a word ends where a character stands that is in no word, a string at
its quote, an array or an object at its bracket. So when a value and the text behind it are written
like another value and the text behind that, the values are equal. -/
namespace ScriptTree

/-! ## Strings -/

namespace Document

/-- The characters that are written with four hexadecimal digits. -/
theorem hexDigit_spec : ∀ n < 32,
    ['0', '0', Json.hexDigit (n / 16), Json.hexDigit n].all Text.isHexDigit = true ∧
      Text.ofDigits 16 ['0', '0', Json.hexDigit (n / 16), Json.hexDigit n] = n ∧
      Quoted.isHighSurrogate n = false ∧ Quoted.isLowSurrogate n = false := by
  decide

/-- A unit that is in no pair is a character by itself. -/
theorem decode?_unit {n : Nat} (hhigh : Quoted.isHighSurrogate n = false)
    (hlow : Quoted.isLowSurrogate n = false) (es : List Quoted.Element) :
    decode? (.unit n :: es) = (decode? es).map (Char.ofNat n :: ·) := by
  rcases es with _ | ⟨_ | _, es⟩ <;> simp [decode?, hhigh, hlow]

/-- A character that needs no escape stands for itself. -/
theorem readElements_raw {c : Char} (hge : 0x20 ≤ c.toNat) (hquote : c ≠ '\x22') (hback : c ≠ '\\')
    (k : List Char) :
    readElements (c :: k) = (readElements k).map fun (es, rest) => (.char c :: es, rest) := by
  rw [readElements.eq_def]
  split
  · cases ‹_ :: _ = []›
  · exact absurd (List.cons.inj ‹c :: k = _›).1 hquote
  · exact absurd (List.cons.inj ‹c :: k = _›).1 hback
  · exact absurd (List.cons.inj ‹c :: k = _›).1 hback
  · obtain ⟨rfl, rfl⟩ := List.cons.inj ‹c :: k = _›
    simp [Nat.not_lt_of_le hge, hback]

/-- A character that is written in quotes is read again. -/
theorem readElements_escape (c : Char) : ∃ e,
    (∀ k, readElements (Json.escape c ++ k) =
      (readElements k).map fun (es, rest) => (e :: es, rest)) ∧
    ∀ es, decode? (e :: es) = (decode? es).map (c :: ·) := by
  unfold Json.escape
  split
  case h_8 hquote hback _ _ _ _ _ =>
    split
    · rename_i hlt
      obtain ⟨hhex, hvalue, hhigh, hlow⟩ := hexDigit_spec c.toNat hlt
      refine ⟨.unit c.toNat, fun k => ?_, fun es => ?_⟩
      · simp only [List.cons_append, List.nil_append, readElements]
        rw [if_pos hhex, hvalue]
      · rw [decode?_unit hhigh hlow, Char.ofNat_toNat]
    · rename_i hge
      exact ⟨.char c, readElements_raw (Nat.le_of_not_lt hge) hquote hback, fun _ => rfl⟩
  all_goals exact ⟨.char _, fun _ => rfl, fun _ => rfl⟩

/-- A string that is written is read again, whatever stands behind it. -/
theorem readString_writeString (s : String) (k : List Char) :
    readString (Json.writeString s k).tail = some (some s, k) := by
  have hread (cs : List Char) : ∃ es, decode? es = some cs ∧
      readElements (cs.foldr (fun c k => Json.escape c ++ k) ('\x22' :: k)) = some (es, k) := by
    induction cs with
    | nil => exact ⟨[], rfl, rfl⟩
    | cons c cs ih =>
      obtain ⟨es, hes, hcs⟩ := ih
      obtain ⟨e, he, hc⟩ := readElements_escape c
      refine ⟨e :: es, ?_, ?_⟩
      · rw [hc, hes]
        rfl
      · rw [List.foldr_cons, he, hcs]
        rfl
  obtain ⟨es, hes, hs⟩ := hread s.toList
  show readString (s.toList.foldr (fun c k => Json.escape c ++ k) ('\x22' :: k)) = _
  rw [readString, hs]
  show some ((decode? es).map String.ofList, k) = _
  rw [hes, Option.map_some, String.ofList_toList]

end Document

namespace Json

theorem writeString_inj {s t : String} {k l : List Char} (h : writeString s k = writeString t l) :
    s = t ∧ k = l := by
  have hread := (Document.readString_writeString s k).symm.trans
    (h ▸ Document.readString_writeString t l)
  simpa using hread

/-! ## Words -/

/-- A character of a name or a number. -/
def isInWord (c : Char) : Bool := Text.isWordPart c || c == '.' || c == '+' || c == '-'

/-- The text of a value without quotes or brackets. -/
def word? : Json → Option (List Char)
  | .null => some "null".toList
  | .bool b => some (if b then "true".toList else "false".toList)
  | .int i => some (intText i)
  | .double x => some x.fractional
  | .string _ | .array _ | .object _ => none

theorem intText_eq (i : Int) : intText i = Double.sign (i < 0) ++ Nat.toDigits 10 i.natAbs := by
  unfold intText
  split <;> simp [Double.sign, *]

/-- Digits behind a sign. -/
theorem intText_chars {i : Int} : ∀ c ∈ intText i, Text.isDigit c = true ∨ c = '-' := by
  intro c hc
  rw [intText_eq, List.mem_append] at hc
  rcases hc with hc | hc
  · unfold Double.sign at hc
    split at hc
    · exact .inr (List.mem_singleton.1 hc)
    · cases hc
  · exact .inl (Text.isDigit_of_mem_toDigits c hc)

theorem intText_injective {i j : Int} (h : intText i = intText j) : i = j := by
  have hminus (n : Nat) : (Nat.toDigits 10 n).head? ≠ some '-' := fun hhead =>
    absurd (Text.isDigit_of_mem_toDigits _ (List.mem_of_mem_head? hhead)) (by decide)
  rw [intText_eq, intText_eq] at h
  obtain ⟨hsign, hdigits⟩ := Double.sign_append_inj (hminus _) (hminus _) h
  have habs := congrArg (Text.ofDigits 10) hdigits
  rw [Text.ofDigits_toDigits, Text.ofDigits_toDigits] at habs
  have : i < 0 ↔ j < 0 := by simpa using hsign
  omega

theorem word_chars {v : Json} {w : List Char} (h : v.word? = some w) :
    w ≠ [] ∧ ∀ c ∈ w, isInWord c = true := by
  cases v with
  | null =>
    cases h
    exact ⟨nofun, List.all_eq_true.1 (by decide)⟩
  | bool b =>
    cases b <;> cases h <;> exact ⟨nofun, List.all_eq_true.1 (by decide)⟩
  | int i =>
    cases h
    refine ⟨?_, fun c hc => ?_⟩
    · rw [intText_eq]
      exact List.append_ne_nil_of_right_ne_nil _ Nat.toDigits_ne_nil
    · rcases intText_chars c hc with hc | rfl
      · simp [isInWord, Text.isWordPart, hc]
      · decide
  | double x =>
    cases h
    obtain ⟨c, cs, hc, -⟩ := x.fractional_head
    exact ⟨hc ▸ List.cons_ne_nil _ _, fun c hc => by
      rcases x.fractional_chars c hc with h | h | h | h <;> simp [isInWord, h]⟩
  | _ => cases h

/-- Just the numbers begin like one. -/
theorem number_of_word {v : Json} {c : Char} {cs : List Char} (h : v.word? = some (c :: cs)) :
    Text.isDigit c = true ∨ c ∈ ['-', 'I', 'N'] ↔ (∃ i, v = .int i) ∨ ∃ x, v = .double x := by
  cases v with
  | null => cases h; exact ⟨fun hc => absurd hc (by decide), by simp⟩
  | bool b => cases b <;> cases h <;> exact ⟨fun hc => absurd hc (by decide), by simp⟩
  | int i =>
    have hmem : c ∈ intText i := Option.some.inj h ▸ List.mem_cons_self
    exact ⟨fun _ => .inl ⟨i, rfl⟩, fun _ => (intText_chars c hmem).imp_right (by simp [·])⟩
  | double x =>
    obtain ⟨d, ds, hd, hhead⟩ := x.fractional_head
    obtain ⟨rfl, -⟩ := List.cons.inj (hd.symm.trans (Option.some.inj h))
    exact ⟨fun _ => .inr ⟨x, rfl⟩, fun _ => hhead⟩
  | _ => cases h

/-- An integer and a double are written apart. -/
theorem intText_ne_fractional (i : Int) (x : Double) : intText i ≠ x.fractional := by
  intro h
  obtain ⟨c, hc, hdigit, hminus⟩ := x.fractional_marked
  rcases intText_chars c (h ▸ hc) with h | h
  · exact absurd h (by simp [hdigit])
  · exact hminus h

theorem word_injective {v u : Json} {w : List Char} (hv : v.word? = some w)
    (hu : u.word? = some w) : v = u := by
  obtain ⟨c, cs, rfl⟩ := List.exists_cons_of_ne_nil (word_chars hv).1
  by_cases hc : Text.isDigit c = true ∨ c ∈ ['-', 'I', 'N']
  · rcases (number_of_word hv).1 hc with ⟨i, rfl⟩ | ⟨x, rfl⟩ <;>
      rcases (number_of_word hu).1 hc with ⟨j, rfl⟩ | ⟨y, rfl⟩ <;>
      have htext := (Option.some.inj hv).trans (Option.some.inj hu).symm
    · rw [intText_injective htext]
    · exact absurd htext (intText_ne_fractional i y)
    · exact absurd htext.symm (intText_ne_fractional j x)
    · rw [Double.fractional_injective htext]
  · have hconstant {a : Json} (ha : a.word? = some (c :: cs)) : a = .null ∨ ∃ b, a = .bool b := by
      cases a with
      | null => exact .inl rfl
      | bool b => exact .inr ⟨b, rfl⟩
      | int i => exact absurd ((number_of_word ha).2 (.inl ⟨i, rfl⟩)) hc
      | double x => exact absurd ((number_of_word ha).2 (.inr ⟨x, rfl⟩)) hc
      | _ => cases ha
    rcases hconstant hv with rfl | ⟨_ | _, rfl⟩ <;> rcases hconstant hu with rfl | ⟨_ | _, rfl⟩ <;>
      first | rfl | cases hv; cases hu

/-- A word in front of a text that does not go on with it. -/
def Ends (k : List Char) : Prop := ∀ c, k.head? = some c → isInWord c = false

theorem ends_nil : Ends [] := by simp [Ends]

theorem ends_cons {c : Char} (hc : isInWord c = false) (k : List Char) : Ends (c :: k) :=
  fun _ h => Option.some.inj h ▸ hc

theorem word_append_inj {xs ys k l : List Char} (hx : ∀ c ∈ xs, isInWord c = true)
    (hy : ∀ c ∈ ys, isInWord c = true) (hk : Ends k) (hl : Ends l) (h : xs ++ k = ys ++ l) :
    xs = ys ∧ k = l := by
  have hfront {zs m : List Char} (hz : ∀ c ∈ zs, isInWord c = true) (hm : Ends m) :
      (zs ++ m).takeWhile isInWord = zs := by
    rw [List.takeWhile_append_of_pos hz]
    rcases m with _ | ⟨c, m⟩
    · simp
    · rw [List.takeWhile_cons_of_neg (by simp [hm c rfl]), List.append_nil]
  obtain rfl : xs = ys := by rw [← hfront hx hk, h, hfront hy hl]
  exact ⟨rfl, List.append_cancel_left h⟩

/-! ## Arrays and objects -/

/-- What a writer puts between the parts of a value: blanks at each level, and a colon. -/
structure Spacing where
  indent : Nat → List Char
  colon : List Char
  blank : ∀ level, ∀ c ∈ indent level, Document.isSpace c = true

namespace Spacing

def compact : Spacing where
  indent _ := []
  colon := [':']
  blank _ := List.forall_mem_nil _

def pretty : Spacing where
  indent level := newLine level []
  colon := [':', ' ']
  blank level c hc := by
    rw [newLine, List.append_nil, List.mem_cons, List.mem_replicate] at hc
    rcases hc with rfl | ⟨-, rfl⟩ <;> rfl

mutual
/-- The text of a value at a level, followed by `k`. -/
def write (s : Spacing) (level : Nat) : Json → List Char → List Char
  | .array (v :: vs), k =>
    '[' :: (s.indent (level + 1) ++ s.write (level + 1) v (s.writeItems level vs k))
  | .object ((name, v) :: fs), k =>
    '\x7b' :: (s.indent (level + 1) ++ writeString name
      (s.colon ++ s.write (level + 1) v (s.writeFields level fs k)))
  | .array [], k => '[' :: ']' :: k
  | .object [], k => '\x7b' :: '\x7d' :: k
  | .null, k => writeCompact .null k
  | .bool b, k => writeCompact (.bool b) k
  | .int i, k => writeCompact (.int i) k
  | .double x, k => writeCompact (.double x) k
  | .string t, k => writeCompact (.string t) k
def writeItems (s : Spacing) (level : Nat) : List Json → List Char → List Char
  | [], k => s.indent level ++ ']' :: k
  | v :: vs, k =>
    ',' :: (s.indent (level + 1) ++ s.write (level + 1) v (s.writeItems level vs k))
def writeFields (s : Spacing) (level : Nat) : List (String × Json) → List Char → List Char
  | [], k => s.indent level ++ '\x7d' :: k
  | (name, v) :: fs, k =>
    ',' :: (s.indent (level + 1) ++ writeString name
      (s.colon ++ s.write (level + 1) v (s.writeFields level fs k)))
end

mutual
theorem write_compact : ∀ (level : Nat) (v : Json) (k : List Char),
    compact.write level v k = writeCompact v k
  | _, .null, _ | _, .bool _, _ | _, .int _, _ | _, .double _, _ | _, .string _, _
  | _, .array [], _ | _, .object [], _ => rfl
  | level, .array (v :: vs), k =>
    congrArg (List.cons '[') ((write_compact (level + 1) v _).trans
      (congrArg (writeCompact v) (writeItems_compact level vs k)))
  | level, .object ((name, v) :: fs), k =>
    congrArg (fun k => '\x7b' :: writeString name (':' :: k))
      ((write_compact (level + 1) v _).trans
        (congrArg (writeCompact v) (writeFields_compact level fs k)))
theorem writeItems_compact : ∀ (level : Nat) (vs : List Json) (k : List Char),
    compact.writeItems level vs k = writeCompactItems vs k
  | _, [], _ => rfl
  | level, v :: vs, k =>
    congrArg (List.cons ',') ((write_compact (level + 1) v _).trans
      (congrArg (writeCompact v) (writeItems_compact level vs k)))
theorem writeFields_compact : ∀ (level : Nat) (fs : List (String × Json)) (k : List Char),
    compact.writeFields level fs k = writeCompactFields fs k
  | _, [], _ => rfl
  | level, (name, v) :: fs, k =>
    congrArg (fun k => ',' :: writeString name (':' :: k))
      ((write_compact (level + 1) v _).trans
        (congrArg (writeCompact v) (writeFields_compact level fs k)))
end

theorem newLine_append (level : Nat) (k : List Char) : newLine level [] ++ k = newLine level k := by
  simp [newLine]

mutual
theorem write_pretty : ∀ (level : Nat) (v : Json) (k : List Char),
    pretty.write level v k = writePretty level v k
  | _, .null, _ | _, .bool _, _ | _, .int _, _ | _, .double _, _ | _, .string _, _
  | _, .array [], _ | _, .object [], _ => rfl
  | level, .array (v :: vs), k =>
    congrArg (List.cons '[') ((newLine_append _ _).trans (congrArg (newLine (level + 1))
      ((write_pretty (level + 1) v _).trans
        (congrArg (writePretty (level + 1) v) (writeItems_pretty level vs k)))))
  | level, .object ((name, v) :: fs), k =>
    congrArg (List.cons '\x7b') ((newLine_append _ _).trans
      (congrArg (fun k => newLine (level + 1) (writeString name (':' :: ' ' :: k)))
        ((write_pretty (level + 1) v _).trans
          (congrArg (writePretty (level + 1) v) (writeFields_pretty level fs k)))))
theorem writeItems_pretty : ∀ (level : Nat) (vs : List Json) (k : List Char),
    pretty.writeItems level vs k = writePrettyItems level vs k
  | _, [], _ => newLine_append _ _
  | level, v :: vs, k =>
    congrArg (List.cons ',') ((newLine_append _ _).trans (congrArg (newLine (level + 1))
      ((write_pretty (level + 1) v _).trans
        (congrArg (writePretty (level + 1) v) (writeItems_pretty level vs k)))))
theorem writeFields_pretty : ∀ (level : Nat) (fs : List (String × Json)) (k : List Char),
    pretty.writeFields level fs k = writePrettyFields level fs k
  | _, [], _ => newLine_append _ _
  | level, (name, v) :: fs, k =>
    congrArg (List.cons ',') ((newLine_append _ _).trans
      (congrArg (fun k => newLine (level + 1) (writeString name (':' :: ' ' :: k)))
        ((write_pretty (level + 1) v _).trans
          (congrArg (writePretty (level + 1) v) (writeFields_pretty level fs k)))))
end

variable (s : Spacing)

theorem write_word {v : Json} {w : List Char} (h : v.word? = some w) (level : Nat)
    (k : List Char) : s.write level v k = w ++ k := by
  cases v with
  | bool b => cases b <;> cases h <;> rfl
  | _ => cases h <;> rfl

/-- The character that a value begins with if it is not a word. -/
def opener : Json → Option Char
  | .string _ => some '\x22'
  | .array _ => some '['
  | .object _ => some '\x7b'
  | .null | .bool _ | .int _ | .double _ => none

theorem head_write (level : Nat) (v : Json) (k : List Char) :
    ∃ c, (s.write level v k).head? = some c ∧ opener v = if isInWord c then none else some c := by
  have hword {w : List Char} (hw : v.word? = some w) (hnone : opener v = none) :
      ∃ c, (s.write level v k).head? = some c ∧
        opener v = if isInWord c then none else some c := by
    obtain ⟨hne, hchars⟩ := word_chars hw
    obtain ⟨c, cs, rfl⟩ := List.exists_cons_of_ne_nil hne
    refine ⟨c, by rw [s.write_word hw]; rfl, ?_⟩
    rw [hnone, if_pos (hchars c List.mem_cons_self)]
  cases v with
  | string t => exact ⟨'\x22', rfl, rfl⟩
  | array vs => cases vs <;> exact ⟨'[', rfl, rfl⟩
  | object fs => cases fs <;> exact ⟨'\x7b', rfl, rfl⟩
  | _ => exact hword rfl rfl

theorem opener_eq {level : Nat} {v u : Json} {k l : List Char}
    (h : s.write level v k = s.write level u l) : opener v = opener u := by
  obtain ⟨c, hc, hv⟩ := s.head_write level v k
  obtain ⟨d, hd, hu⟩ := s.head_write level u l
  rw [h, hd] at hc
  obtain rfl := Option.some.inj hc
  rw [hv, hu]

theorem head_indent {level : Nat} {xs : List Char} {c : Char}
    (h : (s.indent level ++ xs).head? = some c) :
    Document.isSpace c = true ∨ xs.head? = some c := by
  have hblank := s.blank level
  rcases hs : s.indent level with _ | ⟨d, ds⟩
  · exact .inr (by rwa [hs] at h)
  · rw [hs] at h hblank
    obtain rfl := Option.some.inj h
    exact .inl (hblank d List.mem_cons_self)

theorem isInWord_of_isSpace {c : Char} (h : Document.isSpace c = true) : isInWord c = false := by
  simp only [Document.isSpace, Bool.or_eq_true, beq_iff_eq] at h
  rcases h with ((rfl | rfl) | rfl) | rfl <;> decide

theorem ends_indent {level : Nat} {xs : List Char} (h : Ends xs) : Ends (s.indent level ++ xs) :=
  fun c hc => (s.head_indent hc).elim isInWord_of_isSpace (h c)

theorem ends_writeItems (level : Nat) (vs : List Json) (k : List Char) :
    Ends (s.writeItems level vs k) := by
  cases vs with
  | nil => exact s.ends_indent (ends_cons (by decide) k)
  | cons v vs => exact ends_cons (by decide) _

theorem ends_writeFields (level : Nat) (fs : List (String × Json)) (k : List Char) :
    Ends (s.writeFields level fs k) := by
  cases fs with
  | nil => exact s.ends_indent (ends_cons (by decide) k)
  | cons f fs => exact ends_cons (by decide) _

/-- What closes an array or an object is not a blank, and nothing in it begins so. -/
theorem closing_ne_indent {level : Nat} {c : Char} {k xs : List Char}
    (hc : Document.isSpace c = false) (hx : xs.head? ≠ some c) :
    c :: k ≠ s.indent level ++ xs := by
  intro h
  rcases s.head_indent (congrArg List.head? h).symm with h | h
  · exact absurd h (by simp [hc])
  · exact hx h

theorem head_write_ne_bracket (level : Nat) (v : Json) (k : List Char) :
    (s.write level v k).head? ≠ some ']' := by
  intro h
  obtain ⟨c, hc, hv⟩ := s.head_write level v k
  obtain rfl := Option.some.inj (hc.symm.trans h)
  rw [show isInWord ']' = false by decide] at hv
  cases v <;> cases hv

theorem write_word_inj {level : Nat} {v u : Json} {k l : List Char} (hv : opener v = none)
    (hk : Ends k) (hl : Ends l) (h : s.write level v k = s.write level u l) : v = u ∧ k = l := by
  have hword {a : Json} (ha : opener a = none) : ∃ w, a.word? = some w := by
    cases a <;> first | exact ⟨_, rfl⟩ | cases ha
  obtain ⟨xs, hx⟩ := hword hv
  obtain ⟨ys, hy⟩ := hword (s.opener_eq h ▸ hv)
  rw [s.write_word hx, s.write_word hy] at h
  obtain ⟨rfl, hrest⟩ := word_append_inj (word_chars hx).2 (word_chars hy).2 hk hl h
  exact ⟨word_injective hx hy, hrest⟩

mutual
theorem write_inj (level : Nat) : ∀ (v u : Json) {k l : List Char}, Ends k → Ends l →
    s.write level v k = s.write level u l → v = u ∧ k = l
  | .null, _, _, _, hk, hl, h | .bool _, _, _, _, hk, hl, h | .int _, _, _, _, hk, hl, h
  | .double _, _, _, _, hk, hl, h => s.write_word_inj rfl hk hl h
  | .string t, u, k, l, _, _, h => by
    cases u <;> cases s.opener_eq h
    obtain ⟨rfl, hk⟩ := writeString_inj h
    exact ⟨rfl, hk⟩
  | .array vs, u, k, l, _, _, h => by
    cases u <;> cases s.opener_eq h
    rename_i us
    rcases vs with _ | ⟨v, vs⟩ <;> rcases us with _ | ⟨u, us⟩
    · exact ⟨rfl, (List.cons.inj (List.cons.inj h).2).2⟩
    · exact absurd (List.cons.inj h).2
        (s.closing_ne_indent (by decide) (s.head_write_ne_bracket _ _ _))
    · exact absurd (List.cons.inj h).2.symm
        (s.closing_ne_indent (by decide) (s.head_write_ne_bracket _ _ _))
    · obtain ⟨hitems, hk⟩ := writeItems_inj level (v :: vs) (u :: us)
        (congrArg (List.cons ',') (List.cons.inj h).2)
      exact ⟨congrArg array hitems, hk⟩
  | .object fs, u, k, l, _, _, h => by
    cases u <;> cases s.opener_eq h
    rename_i gs
    rcases fs with _ | ⟨⟨m, v⟩, fs⟩ <;> rcases gs with _ | ⟨⟨n, u⟩, gs⟩
    · exact ⟨rfl, (List.cons.inj (List.cons.inj h).2).2⟩
    · exact absurd (List.cons.inj h).2 (s.closing_ne_indent (by decide) (by simp [writeString]))
    · exact absurd (List.cons.inj h).2.symm
        (s.closing_ne_indent (by decide) (by simp [writeString]))
    · obtain ⟨hfields, hk⟩ := writeFields_inj level ((m, v) :: fs) ((n, u) :: gs)
        (congrArg (List.cons ',') (List.cons.inj h).2)
      exact ⟨congrArg object hfields, hk⟩
theorem writeItems_inj (level : Nat) : ∀ (vs us : List Json) {k l : List Char},
    s.writeItems level vs k = s.writeItems level us l → vs = us ∧ k = l
  | [], [], _, _, h => ⟨rfl, (List.cons.inj (List.append_cancel_left h)).2⟩
  | [], _ :: _, _, _, h => absurd h.symm (s.closing_ne_indent (by decide) (by simp))
  | _ :: _, [], _, _, h => absurd h (s.closing_ne_indent (by decide) (by simp))
  | v :: vs, u :: us, k, l, h => by
    obtain ⟨rfl, hrest⟩ := write_inj (level + 1) v u (s.ends_writeItems _ _ _)
      (s.ends_writeItems _ _ _) (List.append_cancel_left (List.cons.inj h).2)
    obtain ⟨rfl, hk⟩ := writeItems_inj level vs us hrest
    exact ⟨rfl, hk⟩
theorem writeFields_inj (level : Nat) : ∀ (fs gs : List (String × Json)) {k l : List Char},
    s.writeFields level fs k = s.writeFields level gs l → fs = gs ∧ k = l
  | [], [], _, _, h => ⟨rfl, (List.cons.inj (List.append_cancel_left h)).2⟩
  | [], _ :: _, _, _, h => absurd h.symm (s.closing_ne_indent (by decide) (by simp))
  | _ :: _, [], _, _, h => absurd h (s.closing_ne_indent (by decide) (by simp))
  | (m, v) :: fs, (n, u) :: gs, k, l, h => by
    obtain ⟨rfl, hvalue⟩ := writeString_inj (List.append_cancel_left (List.cons.inj h).2)
    obtain ⟨rfl, hrest⟩ := write_inj (level + 1) v u (s.ends_writeFields _ _ _)
      (s.ends_writeFields _ _ _) (List.append_cancel_left hvalue)
    obtain ⟨rfl, hk⟩ := writeFields_inj level fs gs hrest
    exact ⟨rfl, hk⟩
end

end Spacing

/-- Different values have different texts. -/
theorem compact_injective {v u : Json} (h : v.compact = u.compact) : v = u := by
  rw [Json.compact, Json.compact, String.ofList_inj, ← Spacing.write_compact 0,
    ← Spacing.write_compact 0] at h
  exact (Spacing.compact.write_inj 0 v u ends_nil ends_nil h).1

theorem pretty_injective {v u : Json} (h : v.pretty = u.pretty) : v = u := by
  rw [Json.pretty, Json.pretty, String.ofList_inj, ← Spacing.write_pretty,
    ← Spacing.write_pretty] at h
  exact (Spacing.pretty.write_inj 0 v u ends_nil ends_nil h).1

end Json
end ScriptTree
