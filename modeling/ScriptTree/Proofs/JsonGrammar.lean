import ScriptTree.Proofs.JsonText
import ScriptTree.Proofs.StringLiterals

/-! # Every JSON text is read as what it says

A JSON text is given by a tree that keeps how each part of it is spelled: the blanks, the escapes in
a string and the parts of a numeral. The reader gives what the tree says for its text, however it is
spelled and however deep it is nested: blanks are passed over, and what may stand behind a value never
goes on with it. -/
namespace ScriptTree.Written

/-! ## The grammar -/

/-- Blanks between two parts, or none. -/
structure Gap where
  text : List Char
  blank : ∀ c ∈ text, c ∈ [' ', '\t', '\n', '\r']

/-- The letters that stand for a character after a backslash. -/
def escapes : List (Char × Char) :=
  [('\x22', '\x22'), ('\\', '\\'), ('/', '/'), ('b', '\x08'), ('f', '\x0c'), ('n', '\n'),
    ('r', '\r'), ('t', '\t')]

/-- A character of a string: raw, after a backslash, or by its code units in UTF-16. -/
inductive Letter where
  | raw (c : Char) (plain : 0x20 ≤ c.toNat ∧ c ≠ '\x22' ∧ c ≠ '\\')
  | short (letter c : Char) (mem : (letter, c) ∈ escapes)
  | unit (e : Quoted.Escape)
    (single : Quoted.isHighSurrogate e.unit = false ∧ Quoted.isLowSurrogate e.unit = false)
  | pair (high low : Quoted.Escape)
    (paired : Quoted.isHighSurrogate high.unit = true ∧ Quoted.isLowSurrogate low.unit = true)

namespace Letter

def text : Letter → List Char
  | .raw c _ => [c]
  | .short letter _ _ => ['\\', letter]
  | .unit e _ => '\\' :: 'u' :: e.digits
  | .pair high low _ => '\\' :: 'u' :: (high.digits ++ '\\' :: 'u' :: low.digits)

/-- The character that is meant. -/
def char : Letter → Char
  | .raw c _ => c
  | .short _ c _ => c
  | .unit e _ => Char.ofNat e.unit
  | .pair high low _ => Quoted.ofPair high.unit low.unit

end Letter

/-- A string in its quotes. -/
structure Quotation where
  letters : List Letter

namespace Quotation

def text (q : Quotation) : List Char := '\x22' :: (q.letters.flatMap Letter.text ++ ['\x22'])

def value (q : Quotation) : String := String.ofList (q.letters.map Letter.char)

end Quotation

/-- A digit or more. -/
structure Digits where
  text : List Char
  ne_nil : text ≠ []
  digits : ∀ c ∈ text, Text.isDigit c = true

structure Exponent where
  letter : Char
  sign : List Char
  digits : Digits
  letter_mem : letter ∈ ['e', 'E']
  sign_mem : sign ∈ [[], ['+'], ['-']]

def Exponent.text (e : Exponent) : List Char := e.letter :: (e.sign ++ e.digits.text)

structure Numeral where
  negative : Bool
  whole : Digits
  /-- No other digit stands behind a zero at the front. -/
  lone_zero : whole.text.head? = some '0' → whole.text = ['0']
  fraction : Option Digits
  exponent : Option Exponent

namespace Numeral

def fractionText (n : Numeral) : List Char :=
  match n.fraction with
  | none => []
  | some ds => '.' :: ds.text

def exponentText (n : Numeral) : List Char :=
  match n.exponent with
  | none => []
  | some e => e.text

def text (n : Numeral) : List Char :=
  (if n.negative then ['-'] else []) ++ (n.whole.text ++ (n.fractionText ++ n.exponentText))

/-- The value of plain digits. -/
def natural? (n : Numeral) : Option Nat :=
  match n.negative, n.fraction, n.exponent with
  | false, none, none => some (Text.ofDigits 10 n.whole.text)
  | _, _, _ => none

end Numeral

mutual
inductive Value where
  | null
  | bool (b : Bool)
  | number (n : Numeral)
  | string (q : Quotation)
  | emptyArray (gap : Gap)
  | array (items : Items)
  | emptyObject (gap : Gap)
  | object (fields : Fields)
/-- One item or more, each with the blanks around it. -/
inductive Items where
  | last (before : Gap) (v : Value) (after : Gap)
  | more (before : Gap) (v : Value) (after : Gap) (rest : Items)
/-- One field or more, each with the blanks around its name and around its value. -/
inductive Fields where
  | last (outer : Gap) (name : Quotation) (inner before : Gap) (v : Value) (after : Gap)
  | more (outer : Gap) (name : Quotation) (inner before : Gap) (v : Value) (after : Gap)
    (rest : Fields)
end

mutual
def Value.text : Value → List Char
  | .null => "null".toList
  | .bool true => "true".toList
  | .bool false => "false".toList
  | .number n => n.text
  | .string q => q.text
  | .emptyArray gap => '[' :: (gap.text ++ [']'])
  | .array items => '[' :: items.text
  | .emptyObject gap => '\x7b' :: (gap.text ++ ['\x7d'])
  | .object fields => '\x7b' :: fields.text
/-- Through the closing bracket. -/
def Items.text : Items → List Char
  | .last before v after => before.text ++ (v.text ++ (after.text ++ [']']))
  | .more before v after rest => before.text ++ (v.text ++ (after.text ++ ',' :: rest.text))
/-- Through the closing brace. -/
def Fields.text : Fields → List Char
  | .last outer name inner before v after =>
    outer.text ++ (name.text ++ (inner.text ++ ':' :: (before.text ++ (v.text ++ (after.text ++
      ['\x7d'])))))
  | .more outer name inner before v after rest =>
    outer.text ++ (name.text ++ (inner.text ++ ':' :: (before.text ++ (v.text ++ (after.text ++
      ',' :: rest.text)))))
end

def Items.values : Items → List Value
  | .last _ v _ => [v]
  | .more _ v _ rest => v :: rest.values

/-- The fields by their names, in the order of the text. -/
def Fields.members : Fields → List (String × Value)
  | .last _ name _ _ v _ => [(name.value, v)]
  | .more _ name _ _ v _ rest => (name.value, v) :: rest.members

mutual
/-- What a value says. -/
def Value.document : Value → Document
  | .null => .null
  | .bool b => .bool b
  | .number n => .number n.natural?
  | .string q => .string (some q.value)
  | .emptyArray _ => .array []
  | .array items => .array items.documents
  | .emptyObject _ => .object []
  | .object fields => .object fields.documents
def Items.documents : Items → List Document
  | .last _ v _ => [v.document]
  | .more _ v _ rest => v.document :: rest.documents
def Fields.documents : Fields → List (Option String × Document)
  | .last _ name _ _ v _ => [(some name.value, v.document)]
  | .more _ name _ _ v _ rest => (some name.value, v.document) :: rest.documents
end

/-- A whole text: a value between blanks. -/
structure File where
  before : Gap
  value : Value
  after : Gap

def File.text (f : File) : String :=
  String.ofList (f.before.text ++ (f.value.text ++ f.after.text))

theorem Items.documents_eq : ∀ items : Items, items.documents = items.values.map Value.document
  | .last _ _ _ => rfl
  | .more _ v _ rest => congrArg (v.document :: ·) rest.documents_eq

theorem Fields.documents_eq : ∀ fields : Fields,
    fields.documents = fields.members.map fun (name, v) => (some name, v.document)
  | .last .. => rfl
  | .more _ name _ _ v _ rest => congrArg ((some name.value, v.document) :: ·) rest.documents_eq

/-! ## Blanks -/

open Document (isSpace skipSpace readElements decode? readString readDigits skipFraction
  skipExponent readWhole readNumber readValue readItems readFields)
open ScriptTree.Numeral (ne_of_isDigit)

theorem Gap.isSpace (gap : Gap) : ∀ c ∈ gap.text, isSpace c = true := by
  have hall : [' ', '\t', '\n', '\r'].all Document.isSpace = true := by decide
  exact fun c hc => List.all_eq_true.1 hall c (gap.blank c hc)

@[simp] theorem skipSpace_gap (gap : Gap) (cs : List Char) :
    skipSpace (gap.text ++ cs) = skipSpace cs :=
  List.dropWhile_append_of_pos gap.isSpace

theorem skipSpace_cons {c : Char} (h : isSpace c = false) (cs : List Char) :
    skipSpace (c :: cs) = c :: cs :=
  List.dropWhile_cons_of_neg (by simp [h])

@[simp] theorem skipSpace_skipSpace (cs : List Char) : skipSpace (skipSpace cs) = skipSpace cs := by
  induction cs with
  | nil => rfl
  | cons c cs ih =>
    cases hc : isSpace c with
    | true =>
      have hskip : skipSpace (c :: cs) = skipSpace cs := List.dropWhile_cons_of_pos hc
      rw [hskip, ih]
    | false => rw [skipSpace_cons hc, skipSpace_cons hc]

/-- What may stand behind a value: nothing, a blank, a comma or a closing bracket. -/
def Follows (rest : List Char) : Prop :=
  ∀ c, rest.head? = some c → c ∈ [' ', '\t', '\n', '\r', ',', ']', '\x7d']

theorem follows_nil : Follows [] := nofun

theorem follows_cons {c : Char} (h : c ∈ [',', ']', '\x7d']) (cs : List Char) :
    Follows (c :: cs) := by
  intro d hd
  obtain rfl : c = d := Option.some.inj hd
  exact List.mem_append_right [' ', '\t', '\n', '\r'] h

theorem Gap.follows (gap : Gap) {rest : List Char} (h : Follows rest) :
    Follows (gap.text ++ rest) := by
  obtain ⟨text, hblank⟩ := gap
  cases text with
  | nil => exact h
  | cons c cs =>
    intro d hd
    obtain rfl : c = d := Option.some.inj hd
    exact List.mem_append_left [',', ']', '\x7d'] (hblank c List.mem_cons_self)

/-- Nothing behind a value goes on with a numeral. -/
theorem Follows.ends {rest : List Char} (h : Follows rest) {c : Char} (hc : rest.head? = some c) :
    Text.isDigit c = false ∧ c ≠ '.' ∧ c ≠ 'e' ∧ c ≠ 'E' := by
  have hmem := h c hc
  simp only [List.mem_cons, List.not_mem_nil, or_false] at hmem
  rcases hmem with rfl | rfl | rfl | rfl | rfl | rfl | rfl <;> decide

/-! ## Strings -/

/-- An escape with four digits is one code unit. -/
theorem readElements_unit (e : Quoted.Escape) (k : List Char) :
    readElements ('\\' :: 'u' :: (e.digits ++ k)) =
      (readElements k).map fun (es, rest) => (.unit e.unit :: es, rest) := by
  obtain ⟨digits, hlen, hhex⟩ := e
  match digits, hlen with
  | [a, b, c, d], _ => exact if_pos hhex

/-- A letter is read as its character, whatever stands behind it. -/
theorem Letter.read (l : Letter) : ∃ us,
    (∀ k, readElements (l.text ++ k) = (readElements k).map fun (es, rest) => (us ++ es, rest)) ∧
    ∀ es, decode? (us ++ es) = (decode? es).map (l.char :: ·) := by
  cases l with
  | raw c plain =>
    obtain ⟨hge, hquote, hback⟩ := plain
    exact ⟨[.char c], Document.readElements_raw hge hquote hback, fun _ => rfl⟩
  | short letter c mem =>
    simp only [escapes, List.mem_cons, List.not_mem_nil, or_false, Prod.mk.injEq] at mem
    rcases mem with ⟨rfl, rfl⟩ | ⟨rfl, rfl⟩ | ⟨rfl, rfl⟩ | ⟨rfl, rfl⟩ | ⟨rfl, rfl⟩ | ⟨rfl, rfl⟩ |
      ⟨rfl, rfl⟩ | ⟨rfl, rfl⟩ <;>
      exact ⟨[.char _], fun _ => rfl, fun _ => rfl⟩
  | unit e single =>
    exact ⟨[.unit e.unit], readElements_unit e, Document.decode?_unit single.1 single.2⟩
  | pair high low paired =>
    refine ⟨[.unit high.unit, .unit low.unit], fun k => ?_, fun es => ?_⟩
    · have htext : (Letter.pair high low paired).text ++ k =
          '\\' :: 'u' :: (high.digits ++ '\\' :: 'u' :: (low.digits ++ k)) := by
        simp [Letter.text]
      rw [htext, readElements_unit, readElements_unit, Option.map_map]
      rfl
    · simp [decode?, paired.1, paired.2, Letter.char]

theorem Quotation.readString_text (q : Quotation) (rest : List Char) :
    readString (q.letters.flatMap Letter.text ++ '\x22' :: rest) = some (some q.value, rest) := by
  have hread (ls : List Letter) : ∃ es, decode? es = some (ls.map Letter.char) ∧
      readElements (ls.flatMap Letter.text ++ '\x22' :: rest) = some (es, rest) := by
    induction ls with
    | nil => exact ⟨[], rfl, rfl⟩
    | cons l ls ih =>
      obtain ⟨es, hes, hls⟩ := ih
      obtain ⟨us, hus, hl⟩ := l.read
      refine ⟨us ++ es, ?_, ?_⟩
      · rw [hl, hes]
        rfl
      · rw [List.flatMap_cons, List.append_assoc, hus, hls]
        rfl
  obtain ⟨es, hes, hread⟩ := hread q.letters
  rw [readString, hread]
  exact congrArg (fun cs => some (cs.map String.ofList, rest)) hes

theorem Quotation.text_append (q : Quotation) (rest : List Char) :
    q.text ++ rest = '\x22' :: (q.letters.flatMap Letter.text ++ '\x22' :: rest) := by
  simp [Quotation.text]

theorem Quotation.skipSpace_text (q : Quotation) (rest : List Char) :
    skipSpace (q.text ++ rest) = '\x22' :: (q.letters.flatMap Letter.text ++ '\x22' :: rest) := by
  rw [q.text_append, skipSpace_cons rfl]

/-! ## Numerals -/

theorem Digits.readDigits_text (ds : Digits) {rest : List Char}
    (h : ∀ c, rest.head? = some c → Text.isDigit c = false) :
    readDigits (ds.text ++ rest) = some (ds.text, rest) := by
  have htake : (ds.text ++ rest).takeWhile Text.isDigit = ds.text := by
    rw [List.takeWhile_append_of_pos ds.digits]
    cases rest with
    | nil => simp
    | cons c rest => rw [List.takeWhile_cons_of_neg (by simp [h c rfl]), List.append_nil]
  rw [readDigits, htake]
  simp [ds.ne_nil]

theorem Digits.exists_cons (ds : Digits) : ∃ c cs, ds.text = c :: cs ∧ Text.isDigit c = true := by
  obtain ⟨c, cs, h⟩ := List.exists_cons_of_ne_nil ds.ne_nil
  exact ⟨c, cs, h, ds.digits c (h ▸ List.mem_cons_self)⟩

theorem isSpace_of_isDigit {c : Char} (h : Text.isDigit c = true) : isSpace c = false := by
  simp only [isSpace, Bool.or_eq_false_iff, beq_eq_false_iff_ne]
  refine ⟨⟨⟨?_, ?_⟩, ?_⟩, ?_⟩ <;> exact ne_of_isDigit h (by decide)

theorem Numeral.readWhole_text (n : Numeral) {rest : List Char}
    (h : ∀ c, rest.head? = some c → Text.isDigit c = false) :
    readWhole (n.whole.text ++ rest) = some (n.whole.text, rest) := by
  by_cases hzero : n.whole.text.head? = some '0'
  · rw [n.lone_zero hzero]
    rfl
  · rw [← n.whole.readDigits_text h]
    unfold readWhole
    split
    · obtain ⟨c, cs, hcs, -⟩ := n.whole.exists_cons
      rename_i heq
      rw [hcs] at heq hzero
      exact absurd (congrArg some (List.cons.inj heq).1) hzero
    · rfl

theorem Numeral.skipFraction_text (n : Numeral) {rest : List Char}
    (h : ∀ c, rest.head? = some c → Text.isDigit c = false ∧ c ≠ '.') :
    skipFraction (n.fractionText ++ rest) = some rest := by
  unfold fractionText
  cases n.fraction with
  | none =>
    rw [List.nil_append]
    unfold skipFraction
    split
    · exact absurd rfl (h '.' rfl).2
    · rfl
  | some ds =>
    have hread := ds.readDigits_text fun c hc => (h c hc).1
    show (readDigits (ds.text ++ rest)).map (·.2) = some rest
    rw [hread]
    rfl

/-- The digits of an exponent, behind its letter and its sign. -/
theorem Exponent.skipExponent_text (e : Exponent) {rest : List Char}
    (h : ∀ c, rest.head? = some c → Text.isDigit c = false) :
    skipExponent (e.text ++ rest) = some rest := by
  have hread : (readDigits (e.digits.text ++ rest)).map (·.2) = some rest := by
    rw [e.digits.readDigits_text h]
    rfl
  obtain ⟨letter, sign, digits, hletter, hsign⟩ := e
  obtain ⟨c, cs, hcs, hc⟩ := digits.exists_cons
  have hplus : c ≠ '+' := ne_of_isDigit hc (by decide)
  have hminus : c ≠ '-' := ne_of_isDigit hc (by decide)
  simp only [List.mem_cons, List.not_mem_nil, or_false] at hletter hsign
  rcases hletter with rfl | rfl <;> rcases hsign with rfl | rfl | rfl <;>
    simpa [skipExponent, Exponent.text, hcs, hplus, hminus] using hread

theorem Numeral.skipExponent_text (n : Numeral) {rest : List Char} (h : Follows rest) :
    skipExponent (n.exponentText ++ rest) = some rest := by
  unfold exponentText
  cases n.exponent with
  | none =>
    rw [List.nil_append]
    unfold skipExponent
    split
    · exact absurd rfl (h.ends rfl).2.2.1
    · exact absurd rfl (h.ends rfl).2.2.2
    · rfl
  | some e => exact e.skipExponent_text fun c hc => (h.ends hc).1

/-- A fraction ends in front of an exponent. -/
theorem Numeral.exponentText_ends (n : Numeral) {rest : List Char} (h : Follows rest) {c : Char}
    (hc : (n.exponentText ++ rest).head? = some c) : Text.isDigit c = false ∧ c ≠ '.' := by
  unfold exponentText at hc
  split at hc
  · exact ⟨(h.ends hc).1, (h.ends hc).2.1⟩
  · rename_i e _
    obtain rfl : e.letter = c := Option.some.inj hc
    have hletter := e.letter_mem
    simp only [List.mem_cons, List.not_mem_nil, or_false] at hletter
    rcases hletter with hl | hl <;> rw [hl] <;> decide

theorem Numeral.fractionText_ends (n : Numeral) {rest : List Char} (h : Follows rest) {c : Char}
    (hc : (n.fractionText ++ (n.exponentText ++ rest)).head? = some c) :
    Text.isDigit c = false := by
  unfold fractionText at hc
  split at hc
  · exact (n.exponentText_ends h hc).1
  · obtain rfl : '.' = c := Option.some.inj hc
    decide

theorem Numeral.length_fractionText (n : Numeral) :
    n.fractionText.length = 0 ↔ n.fraction.isSome = false := by
  unfold fractionText
  cases n.fraction <;> simp

theorem Numeral.length_exponentText (n : Numeral) :
    n.exponentText.length = 0 ↔ n.exponent.isSome = false := by
  unfold exponentText
  cases n.exponent <;> simp [Exponent.text]

/-- A numeral is read with its value if it is a natural number in plain digits. -/
theorem Numeral.readNumber_text (n : Numeral) {rest : List Char} (h : Follows rest) :
    readNumber (n.text ++ rest) = some (.number n.natural?, rest) := by
  have hwhole := n.readWhole_text fun c hc => n.fractionText_ends h hc
  have hskip : (skipFraction (n.fractionText ++ (n.exponentText ++ rest))).bind skipExponent =
      some rest := by
    rw [n.skipFraction_text fun c hc => n.exponentText_ends h hc]
    exact n.skipExponent_text h
  have hplain : (rest.length == (n.fractionText ++ (n.exponentText ++ rest)).length) =
      (!n.fraction.isSome && !n.exponent.isSome) := by
    rw [Bool.eq_iff_iff, Bool.and_eq_true, Bool.not_eq_true', Bool.not_eq_true',
      ← n.length_fractionText, ← n.length_exponentText, beq_iff_eq, List.length_append,
      List.length_append]
    omega
  have htext : n.text ++ rest = (if n.negative then ['-'] else []) ++
      (n.whole.text ++ (n.fractionText ++ (n.exponentText ++ rest))) := by
    simp [Numeral.text]
  rw [htext, readNumber]
  cases hneg : n.negative with
  | true =>
    simp only [if_true, List.singleton_append, List.head?_cons, beq_self_eq_true,
      List.drop_succ_cons, List.drop_zero, hwhole, hskip, Option.bind_eq_bind, Option.bind_some]
    simp [natural?, hneg]
  | false =>
    obtain ⟨c, cs, hcs, hc⟩ := n.whole.exists_cons
    have hminus : c ≠ '-' := ne_of_isDigit hc (by decide)
    have hunsigned :
        (n.whole.text ++ (n.fractionText ++ (n.exponentText ++ rest))).head? ≠ some '-' := by
      simp [hcs, hminus]
    simp only [Bool.false_eq_true, if_false, List.nil_append, beq_eq_false_iff_ne.2 hunsigned,
      hwhole, hskip, Option.bind_eq_bind, Option.bind_some, bne, Bool.not_false, Bool.true_and, hplain]
    cases hfraction : n.fraction <;> cases hexponent : n.exponent <;>
      simp [natural?, hneg, hfraction, hexponent]

/-! ## Values -/

theorem readValue_skipSpace (fuel : Nat) (cs : List Char) :
    readValue fuel (skipSpace cs) = readValue fuel cs := by
  cases fuel with
  | zero => rfl
  | succ fuel => simp only [readValue, skipSpace_skipSpace]

theorem readItems_skipSpace (fuel : Nat) (cs : List Char) :
    readItems fuel (skipSpace cs) = readItems fuel cs := by
  cases fuel with
  | zero => rfl
  | succ fuel => rw [readItems, readItems, readValue_skipSpace]

theorem readFields_skipSpace (fuel : Nat) (cs : List Char) :
    readFields fuel (skipSpace cs) = readFields fuel cs := by
  cases fuel with
  | zero => rfl
  | succ fuel => simp only [readFields, skipSpace_skipSpace]

/-- Blanks in front of a value are passed over. -/
theorem readValue_gap (fuel : Nat) (gap : Gap) (cs : List Char) :
    readValue fuel (gap.text ++ cs) = readValue fuel cs := by
  rw [← readValue_skipSpace, skipSpace_gap, readValue_skipSpace]

/-- A value begins with a character that is no blank and closes no array. -/
theorem Value.head_text (v : Value) :
    ∃ c cs, v.text = c :: cs ∧ isSpace c = false ∧ c ≠ ']' := by
  cases v with
  | number n =>
    obtain ⟨c, cs, hcs, hc⟩ := n.whole.exists_cons
    cases hneg : n.negative with
    | true => exact ⟨'-', _, by simp [Value.text, Numeral.text, hneg]; rfl, by decide, by decide⟩
    | false =>
      exact ⟨c, _, by simp [Value.text, Numeral.text, hneg, hcs]; rfl, isSpace_of_isDigit hc,
        ne_of_isDigit hc (by decide)⟩
  | bool b => cases b <;> exact ⟨_, _, rfl, by decide, by decide⟩
  | _ => exact ⟨_, _, rfl, by decide, by decide⟩

theorem Items.skipSpace_text (items : Items) (rest : List Char) :
    ∀ k, skipSpace (items.text ++ rest) ≠ ']' :: k := by
  have hopen (before : Gap) (v : Value) (after k : List Char) :
      skipSpace (before.text ++ (v.text ++ after)) ≠ ']' :: k := by
    obtain ⟨c, cs, hcs, hblank, hne⟩ := v.head_text
    rw [skipSpace_gap, hcs, List.cons_append, skipSpace_cons hblank]
    exact fun h => hne (List.cons.inj h).1
  intro k
  cases items with
  | last before v after =>
    rw [Items.text, List.append_assoc, List.append_assoc]
    exact hopen before v _ k
  | more before v after items =>
    rw [Items.text, List.append_assoc, List.append_assoc]
    exact hopen before v _ k

theorem Fields.skipSpace_text (fields : Fields) (rest : List Char) :
    ∀ k, skipSpace (fields.text ++ rest) ≠ '\x7d' :: k := by
  have hopen (outer : Gap) (name : Quotation) (after k : List Char) :
      skipSpace (outer.text ++ (name.text ++ after)) ≠ '\x7d' :: k := by
    rw [skipSpace_gap, name.skipSpace_text]
    exact fun h => absurd (List.cons.inj h).1 (by decide)
  intro k
  cases fields with
  | last outer name inner before v after =>
    rw [Fields.text, List.append_assoc, List.append_assoc]
    exact hopen outer name _ k
  | more outer name inner before v after fields =>
    rw [Fields.text, List.append_assoc, List.append_assoc]
    exact hopen outer name _ k

theorem Value.length_text_pos (v : Value) : 0 < v.text.length := by
  obtain ⟨c, cs, hcs, -⟩ := v.head_text
  rw [hcs]
  exact Nat.succ_pos _

theorem readValue_numeral {n : Numeral} {rest : List Char} (h : Follows rest) (fuel : Nat) :
    readValue (fuel + 1) (n.text ++ rest) = some (.number n.natural?, rest) := by
  obtain ⟨c, cs, hcs, hc⟩ :
      ∃ c cs, n.text ++ rest = c :: cs ∧ (Text.isDigit c = true ∨ c = '-') := by
    obtain ⟨c, cs, hcs, hc⟩ := n.whole.exists_cons
    cases hneg : n.negative with
    | true => exact ⟨'-', _, by simp [Numeral.text, hneg]; rfl, .inr rfl⟩
    | false => exact ⟨c, _, by simp [Numeral.text, hneg, hcs]; rfl, .inl hc⟩
  have hblank : isSpace c = false := by
    rcases hc with hc | rfl
    · exact isSpace_of_isDigit hc
    · rfl
  rw [← n.readNumber_text h, hcs, readValue, skipSpace_cons hblank]
  -- No other kind of value begins like a numeral.
  split
  case h_7 => rfl
  all_goals
    rename_i heq
    obtain ⟨rfl, -⟩ := List.cons.inj heq
    exact absurd hc (by decide)

theorem readValue_bracket (fuel : Nat) (cs : List Char) : readValue (fuel + 1) ('[' :: cs) =
    match skipSpace cs with
    | ']' :: cs => some (.array [], cs)
    | cs => (readItems fuel cs).map fun (ds, rest) => (.array ds, rest) :=
  rfl

theorem readValue_brace (fuel : Nat) (cs : List Char) : readValue (fuel + 1) ('\x7b' :: cs) =
    match skipSpace cs with
    | '\x7d' :: cs => some (.object [], cs)
    | cs => (readFields fuel cs).map fun (fs, rest) => (.object fs, rest) :=
  rfl

theorem readValue_array {cs rest : List Char} {ds : List Document} {fuel : Nat}
    (hopen : ∀ k, skipSpace cs ≠ ']' :: k) (h : readItems fuel cs = some (ds, rest)) :
    readValue (fuel + 1) ('[' :: cs) = some (.array ds, rest) := by
  rw [readValue_bracket]
  split
  · exact absurd ‹_› (hopen _)
  · rw [readItems_skipSpace, h]
    rfl

theorem readValue_object {cs rest : List Char} {fs : List (Option String × Document)} {fuel : Nat}
    (hopen : ∀ k, skipSpace cs ≠ '\x7d' :: k) (h : readFields fuel cs = some (fs, rest)) :
    readValue (fuel + 1) ('\x7b' :: cs) = some (.object fs, rest) := by
  rw [readValue_brace]
  split
  · exact absurd ‹_› (hopen _)
  · rw [readFields_skipSpace, h]
    rfl

section

variable {fuel : Nat} {cs k rest : List Char} {d : Document}

theorem readItems_last (h : readValue fuel cs = some (d, k)) (hk : skipSpace k = ']' :: rest) :
    readItems (fuel + 1) cs = some ([d], rest) := by
  rw [readItems, h]
  simp only [Option.bind_eq_bind, Option.bind_some, hk]

theorem readItems_more {more : List Char} {ds : List Document}
    (h : readValue fuel cs = some (d, k)) (hk : skipSpace k = ',' :: more)
    (hmore : readItems fuel more = some (ds, rest)) :
    readItems (fuel + 1) cs = some (d :: ds, rest) := by
  rw [readItems, h]
  simp only [Option.bind_eq_bind, Option.bind_some, hk, hmore, Option.map_some]

theorem readFields_last {name : Option String} {inner after : List Char}
    (hcs : skipSpace cs = '\x22' :: inner) (hname : readString inner = some (name, after))
    {before : List Char} (hcolon : skipSpace after = ':' :: before)
    (h : readValue fuel before = some (d, k)) (hk : skipSpace k = '\x7d' :: rest) :
    readFields (fuel + 1) cs = some ([(name, d)], rest) := by
  rw [readFields, hcs]
  simp only [Option.bind_eq_bind, hname, Option.bind_some, hcolon, h, hk]

theorem readFields_more {name : Option String} {inner after : List Char}
    (hcs : skipSpace cs = '\x22' :: inner) (hname : readString inner = some (name, after))
    {before : List Char} (hcolon : skipSpace after = ':' :: before)
    (h : readValue fuel before = some (d, k)) {more : List Char}
    (hk : skipSpace k = ',' :: more) {fs : List (Option String × Document)}
    (hmore : readFields fuel more = some (fs, rest)) :
    readFields (fuel + 1) cs = some ((name, d) :: fs, rest) := by
  rw [readFields, hcs]
  simp only [Option.bind_eq_bind, hname, Option.bind_some, hcolon, h, hk, hmore, Option.map_some]

end

mutual
/-- A value is read from its text. Two levels of fuel for each character are enough. -/
theorem Value.readValue_text : ∀ (v : Value) (fuel : Nat) (rest : List Char),
    2 * v.text.length ≤ fuel → Follows rest →
      readValue fuel (v.text ++ rest) = some (v.document, rest)
  | v, 0, rest, hfuel, _ => by
    have := v.length_text_pos
    omega
  | .null, fuel + 1, rest, _, _ | .bool true, fuel + 1, rest, _, _
  | .bool false, fuel + 1, rest, _, _ => rfl
  | .number n, fuel + 1, rest, _, hrest => readValue_numeral hrest fuel
  | .string q, fuel + 1, rest, _, _ => by
    rw [Value.text, q.text_append]
    exact congrArg (Option.map fun (s, rest) => (Document.string s, rest)) (q.readString_text rest)
  | .emptyArray gap, fuel + 1, rest, _, _ => by
    rw [Value.text, List.cons_append, readValue_bracket, List.append_assoc, skipSpace_gap]
    rfl
  | .emptyObject gap, fuel + 1, rest, _, _ => by
    rw [Value.text, List.cons_append, readValue_brace, List.append_assoc, skipSpace_gap]
    rfl
  | .array items, fuel + 1, rest, hfuel, _ => by
    rw [Value.text, List.length_cons] at hfuel
    exact readValue_array (items.skipSpace_text rest) (items.readItems_text fuel rest (by omega))
  | .object fields, fuel + 1, rest, hfuel, _ => by
    rw [Value.text, List.length_cons] at hfuel
    exact readValue_object (fields.skipSpace_text rest) (fields.readFields_text fuel rest (by omega))
theorem Items.readItems_text : ∀ (items : Items) (fuel : Nat) (rest : List Char),
    2 * items.text.length + 1 ≤ fuel →
      readItems fuel (items.text ++ rest) = some (items.documents, rest)
  | .last before v after, fuel + 1, rest, hfuel => by
    simp only [Items.text, List.length_append, List.length_singleton] at hfuel
    simp only [Items.text, List.append_assoc, List.singleton_append]
    have hv := v.readValue_text fuel (after.text ++ ']' :: rest) (by omega)
      (after.follows (follows_cons (by decide) rest))
    rw [← readValue_gap fuel before] at hv
    exact readItems_last hv (skipSpace_gap after _)
  | .more before v after items, fuel + 1, rest, hfuel => by
    simp only [Items.text, List.length_append, List.length_cons] at hfuel
    simp only [Items.text, List.append_assoc, List.cons_append]
    have hv := v.readValue_text fuel (after.text ++ ',' :: (items.text ++ rest)) (by omega)
      (after.follows (follows_cons (by decide) _))
    rw [← readValue_gap fuel before] at hv
    exact readItems_more hv (skipSpace_gap after _) (items.readItems_text fuel rest (by omega))
theorem Fields.readFields_text : ∀ (fields : Fields) (fuel : Nat) (rest : List Char),
    2 * fields.text.length + 1 ≤ fuel →
      readFields fuel (fields.text ++ rest) = some (fields.documents, rest)
  | .last outer name inner before v after, fuel + 1, rest, hfuel => by
    simp only [Fields.text, List.length_append, List.length_cons] at hfuel
    simp only [Fields.text, List.append_assoc, List.cons_append]
    have hv := v.readValue_text fuel (after.text ++ '\x7d' :: rest) (by omega)
      (after.follows (follows_cons (by decide) rest))
    rw [← readValue_gap fuel before] at hv
    exact readFields_last ((skipSpace_gap outer _).trans (name.skipSpace_text _))
      (name.readString_text _) (skipSpace_gap inner _) hv (skipSpace_gap after _)
  | .more outer name inner before v after fields, fuel + 1, rest, hfuel => by
    simp only [Fields.text, List.length_append, List.length_cons] at hfuel
    simp only [Fields.text, List.append_assoc, List.cons_append]
    have hv := v.readValue_text fuel (after.text ++ ',' :: (fields.text ++ rest)) (by omega)
      (after.follows (follows_cons (by decide) _))
    rw [← readValue_gap fuel before] at hv
    exact readFields_more ((skipSpace_gap outer _).trans (name.skipSpace_text _))
      (name.readString_text _) (skipSpace_gap inner _) hv (skipSpace_gap after _)
      (fields.readFields_text fuel rest (by omega))
end

/-- Every JSON text is read as the document that it spells. -/
theorem File.read?_text (f : File) : Document.read? f.text = some f.value.document := by
  have hread (fuel : Nat) (hfuel : 2 * f.value.text.length ≤ fuel) :
      readValue fuel (f.before.text ++ (f.value.text ++ f.after.text)) =
        some (f.value.document, f.after.text) := by
    rw [readValue_gap]
    refine f.value.readValue_text fuel _ hfuel ?_
    simpa using f.after.follows follows_nil
  have hafter : skipSpace f.after.text = [] := by
    rw [← List.append_nil f.after.text, skipSpace_gap]
    rfl
  rw [Document.read?, File.text, String.toList_ofList,
    hread _ (by simp only [List.length_append]; omega)]
  simp [hafter]

end ScriptTree.Written
