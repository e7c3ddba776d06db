import Mathlib.Data.List.SplitBy
import ScriptTree.Proofs.Safety
import ScriptTree.Proofs.SingleLine

/-! # String literals are read as they are meant

The literal that is written for a string is read as that string. In a literal that mixes raw
characters with escapes of code units, the escapes that stand together are decoded as UTF-16: the
halves of a pair make one character, and a surrogate without its other half is replaced. The scanner
decides after one unit of look ahead, which is enough since no unit is a half of both kinds. -/
namespace ScriptTree

open Quoted (isHighSurrogate isLowSurrogate)

/-! ## Code units -/

namespace Utf16

/-- The code units of a character: its code, or a pair of surrogates. -/
def encode (c : Char) : List Nat :=
  if c.toNat < 0x10000 then [c.toNat]
  else [0xd800 + (c.toNat - 0x10000) / 0x400, 0xdc00 + (c.toNat - 0x10000) % 0x400]

/-- The character that a unit stands for between its neighbours. A pair of surrogates is one
character, for which its first half stands; a surrogate without its other half is replaced. -/
def charAt (before : Option Nat) (u : Nat) (after : Option Nat) : Option Char :=
  if isHighSurrogate u then
    match after with
    | some low =>
      if isLowSurrogate low then
        some (Char.ofNat (0x10000 + (u - 0xd800) * 0x400 + (low - 0xdc00)))
      else some '\ufffd'
    | none => some '\ufffd'
  else if isLowSurrogate u then
    if before.any isHighSurrogate then none else some '\ufffd'
  else some (Char.ofNat u)

/-- The characters of a text of code units that goes on after some unit. -/
def decodeFrom (before : Option Nat) : List Nat → List Char
  | [] => []
  | u :: us => (charAt before u us.head?).toList ++ decodeFrom (some u) us

/-- The characters of a text of code units, each unit in the light of the units beside it. -/
def decode (us : List Nat) : List Char := decodeFrom none us

theorem isHighSurrogate_iff {u : Nat} : isHighSurrogate u = true ↔ 0xd800 ≤ u ∧ u ≤ 0xdbff := by
  simp only [isHighSurrogate, Bool.and_eq_true, decide_eq_true_eq]

theorem isLowSurrogate_iff {u : Nat} : isLowSurrogate u = true ↔ 0xdc00 ≤ u ∧ u ≤ 0xdfff := by
  simp only [isLowSurrogate, Bool.and_eq_true, decide_eq_true_eq]

theorem isHighSurrogate_of_isLowSurrogate {u : Nat} (h : isLowSurrogate u = true) :
    isHighSurrogate u = false := by
  rw [isLowSurrogate_iff] at h
  rw [Bool.eq_false_iff, Ne, isHighSurrogate_iff]
  omega

theorem charAt_pair {u v : Nat} (hu : isHighSurrogate u = true) (hv : isLowSurrogate v = true)
    (before : Option Nat) : charAt before u (some v) = some (Quoted.ofPair u v) := by
  simp [charAt, hu, hv, Quoted.ofPair]

theorem charAt_second {u v : Nat} (hu : isHighSurrogate u = true) (hv : isLowSurrogate v = true)
    (after : Option Nat) : charAt (some u) v after = none := by
  simp [charAt, hu, hv, isHighSurrogate_of_isLowSurrogate hv]

/-- A unit that is no half of a pair stands for itself. -/
theorem charAt_single {before after : Option Nat} {u : Nat}
    (hb : (before.any isHighSurrogate && isLowSurrogate u) = false)
    (ha : (isHighSurrogate u && after.any isLowSurrogate) = false) :
    charAt before u after = some (Quoted.ofUnit u) := by
  unfold charAt Quoted.ofUnit
  cases hu : isHighSurrogate u with
  | true =>
    rw [hu, Bool.true_and] at ha
    cases after with
    | none => rfl
    | some v =>
      rw [Option.any_some] at ha
      simp [ha]
  | false =>
    cases hl : isLowSurrogate u with
    | true =>
      rw [hl, Bool.and_true] at hb
      simp [hb]
    | false => simp

/-- A character is a unit that is no surrogate, or it is put together from its two surrogates. -/
theorem encode_cases (c : Char) :
    (encode c = [c.toNat] ∧ isHighSurrogate c.toNat = false ∧ isLowSurrogate c.toNat = false ∧
      Quoted.ofUnit c.toNat = c) ∨
    ∃ high low, encode c = [high, low] ∧ isHighSurrogate high = true ∧ isLowSurrogate low = true ∧
      Quoted.ofPair high low = c := by
  have hvalid : c.toNat < 0xd800 ∨ 0xdfff < c.toNat ∧ c.toNat < 0x110000 := c.valid
  by_cases hlt : c.toNat < 0x10000
  · have hhigh : isHighSurrogate c.toNat = false := by
      rw [Bool.eq_false_iff, Ne, isHighSurrogate_iff]
      omega
    have hlow : isLowSurrogate c.toNat = false := by
      rw [Bool.eq_false_iff, Ne, isLowSurrogate_iff]
      omega
    exact .inl ⟨if_pos hlt, hhigh, hlow, by simp [Quoted.ofUnit, hhigh, hlow]⟩
  · have hhigh : isHighSurrogate (0xd800 + (c.toNat - 0x10000) / 0x400) = true := by
      rw [isHighSurrogate_iff]
      omega
    have hlow : isLowSurrogate (0xdc00 + (c.toNat - 0x10000) % 0x400) = true := by
      rw [isLowSurrogate_iff]
      omega
    refine .inr ⟨_, _, if_neg hlt, hhigh, hlow, ?_⟩
    rw [← Char.toNat_inj]
    have hsum := Quoted.toNat_ofPair hhigh hlow
    omega

/-- The units of a text decode to the text. -/
theorem decode_encode (cs : List Char) : decode (cs.flatMap encode) = cs := by
  have go (before : Option Nat) (hb : before.any isHighSurrogate = false) :
      decodeFrom before (cs.flatMap encode) = cs := by
    induction cs generalizing before with
    | nil => rfl
    | cons c cs ih =>
      rw [List.flatMap_cons]
      rcases encode_cases c with ⟨he, hhigh, hlow, hc⟩ | ⟨high, low, he, hhigh, hlow, hc⟩
      · have hsingle : charAt before c.toNat (cs.flatMap encode).head? =
            some (Quoted.ofUnit c.toNat) := charAt_single (by simp [hlow]) (by simp [hhigh])
        rw [he, List.singleton_append, decodeFrom, hsingle, hc, ih (some c.toNat) hhigh]
        rfl
      · rw [he, List.cons_append, List.singleton_append, decodeFrom, List.head?_cons,
          charAt_pair hhigh hlow, hc, decodeFrom, charAt_second hhigh hlow,
          ih (some low) (isHighSurrogate_of_isLowSurrogate hlow)]
        rfl
  exact go none rfl

/-! ## The look ahead of the scanner -/

/-- The scanner decodes units that stand together as UTF-16, if it has not yet read the first half
of a pair that they go on with. -/
theorem decode_units {es : List Quoted.Element} (hes : ∀ u, es.head? ≠ some (.unit u)) :
    ∀ (us : List Nat) (before : Option Nat),
      (before.any isHighSurrogate && us.head?.any isLowSurrogate) = false →
      Quoted.decode (us.map .unit ++ es) = decodeFrom before us ++ Quoted.decode es
  | [], _, _ => rfl
  | [u], before, hb => by
    have hsingle : charAt before u none = some (Quoted.ofUnit u) :=
      charAt_single hb (Bool.and_false _)
    have hstep : Quoted.decode (.unit u :: es) = Quoted.ofUnit u :: Quoted.decode es := by
      cases es with
      | nil => rfl
      | cons e es =>
        cases e with
        | char c => rfl
        | unit v => exact absurd rfl (hes v)
    rw [decodeFrom, List.head?_nil, hsingle]
    exact hstep
  | u :: v :: us, before, hb => by
    rw [List.map_cons, List.map_cons, List.cons_append, List.cons_append, Quoted.decode, decodeFrom,
      List.head?_cons]
    by_cases hpair : (isHighSurrogate u && isLowSurrogate v) = true
    · obtain ⟨hu, hv⟩ := Bool.and_eq_true_iff.1 hpair
      have hno : isHighSurrogate v = false := isHighSurrogate_of_isLowSurrogate hv
      have hrest := decode_units hes us (some v) (by simp [hno])
      rw [if_pos hpair, hrest, charAt_pair hu hv, decodeFrom, charAt_second hu hv]
      rfl
    · have hpair : (isHighSurrogate u && isLowSurrogate v) = false := Bool.eq_false_iff.2 hpair
      have hrest := decode_units hes (v :: us) (some u) hpair
      have hsingle : charAt before u (some v) = some (Quoted.ofUnit u) := charAt_single hb hpair
      rw [List.map_cons, List.cons_append] at hrest
      rw [hpair, if_neg Bool.false_ne_true, hrest, hsingle]
      rfl

end Utf16

/-! ## Bodies of literals -/

namespace Quoted

/-- Four hexadecimal digits, of either case. -/
structure Escape where
  digits : List Char
  length_eq : digits.length = 4
  hex : digits.all Text.isHexDigit = true

/-- The code unit that is escaped. -/
def Escape.unit (e : Escape) : Nat := Text.ofDigits 16 e.digits

/-- A raw character or an escaped code unit. -/
inductive Piece where
  | raw (c : Char)
  | escape (e : Escape)

namespace Piece

def text : Piece → List Char
  | .raw c => [c]
  | .escape e => '\\' :: 'u' :: e.digits

def isEscape : Piece → Bool
  | .raw _ => false
  | .escape _ => true

def char? : Piece → Option Char
  | .raw c => some c
  | .escape _ => none

def unit? : Piece → Option Nat
  | .raw _ => none
  | .escape e => some e.unit

/-- What the scanner makes of a piece. -/
def element : Piece → Element
  | .raw c => .char c
  | .escape e => .unit e.unit

def alike (p q : Piece) : Bool := p.isEscape == q.isEscape

/-- What pieces of one kind stand for. -/
def valueOfRun (run : List Piece) : List Char :=
  if run.all isEscape then Utf16.decode (run.filterMap unit?) else run.filterMap char?

/-- What a body stands for: each longest run of escapes is decoded as a whole. -/
def value (ps : List Piece) : List Char := (ps.splitBy alike).flatMap valueOfRun

/-- Pieces of one kind are all raw or all escaped. -/
theorem all_alike {p : Piece} {run : List Piece} (h : (p :: run).IsChain (alike · ·)) :
    ∀ q ∈ p :: run, q.isEscape = p.isEscape := by
  induction run generalizing p with
  | nil => simp
  | cons q run ih =>
    obtain ⟨hpq, hrun⟩ := List.isChain_cons_cons.1 h
    have hkind : p.isEscape = q.isEscape := by simpa [alike] using hpq
    refine List.forall_mem_cons.2 ⟨rfl, fun r hr => ?_⟩
    rw [hkind]
    exact ih hrun r hr

/-- Escapes alone are one run. -/
theorem value_escapes {ps : List Piece} (h : ∀ p ∈ ps, p.isEscape = true) :
    value ps = Utf16.decode (ps.filterMap unit?) := by
  cases ps with
  | nil => rfl
  | cons p ps =>
    have hchain : (p :: ps).IsChain (alike · ·) := by
      refine List.isChain_iff_getElem.2 fun i hi => ?_
      rw [alike, h _ (List.getElem_mem _), h _ (List.getElem_mem _)]
      rfl
    have hall : (p :: ps).all isEscape = true := List.all_eq_true.2 h
    rw [value, List.splitBy_of_isChain (List.cons_ne_nil p ps) hchain, List.flatMap_singleton,
      valueOfRun, if_pos hall]

/-- The code units of a text, each of them escaped, stand for the text. -/
theorem value_escaped {ps : List Piece} {cs : List Char}
    (h : ps.map unit? = (cs.flatMap Utf16.encode).map some) : value ps = cs := by
  have hescapes : ∀ p ∈ ps, p.isEscape = true := by
    intro p hp
    have hunit : p.unit? ∈ (cs.flatMap Utf16.encode).map some := h ▸ List.mem_map_of_mem hp
    obtain ⟨u, -, hu⟩ := List.mem_map.1 hunit
    cases p with
    | raw c => cases hu
    | escape e => rfl
  have hunits : ps.filterMap unit? = cs.flatMap Utf16.encode := by
    have hfilter := congrArg (List.filterMap id) h
    rw [List.filterMap_map, List.filterMap_map] at hfilter
    exact hfilter.trans List.filterMap_some
  rw [value_escapes hescapes, hunits, Utf16.decode_encode]

end Piece

/-- The body of a literal that is written in pieces ends at its closing quote. -/
theorem body_pieces {quote : Char} (hquote : quote ≠ '\\') {ps : List Piece}
    (hraw : ∀ c, .raw c ∈ ps → c ≠ quote ∧ c ≠ '\\') (k : List Char) :
    body quote (ps.flatMap Piece.text ++ quote :: k) =
      ⟨(ps.flatMap Piece.text).length + 1, .ok (ps.map Piece.element)⟩ := by
  induction ps with
  | nil => exact body_close k
  | cons p ps ih =>
    have hrest := ih fun c hc => hraw c (List.mem_cons_of_mem _ hc)
    rw [List.flatMap_cons, List.append_assoc, List.length_append, List.map_cons]
    cases p with
    | raw c =>
      obtain ⟨hc, hslash⟩ := hraw c List.mem_cons_self
      rw [Piece.text, List.singleton_append, body.eq_def]
      simp only [hc, hslash, if_false, hrest, Body.after, Except.map, Piece.element,
        List.length_singleton, Body.mk.injEq, and_true]
      omega
    | escape e =>
      obtain ⟨digits, hlength, hhex⟩ := e
      obtain ⟨a, b, c, d, rfl⟩ := List.length_eq_four.1 hlength
      simp only [Piece.text, List.cons_append, List.nil_append]
      rw [body.eq_def]
      simp only [hquote.symm, hhex, if_false, if_true, hrest, Body.after, Except.map,
        Piece.element, Escape.unit, List.length_cons, List.length_nil, Body.mk.injEq, and_true]
      omega

theorem decode_chars (cs : List Char) (es : List Element) :
    decode (cs.map .char ++ es) = cs ++ decode es := by
  induction cs with
  | nil => rfl
  | cons c cs ih => exact congrArg (c :: ·) ih

theorem map_element_escapes {run : List Piece} (h : ∀ p ∈ run, p.isEscape = true) :
    run.map Piece.element = (run.filterMap Piece.unit?).map .unit := by
  induction run with
  | nil => rfl
  | cons p run ih =>
    obtain ⟨hp, hrun⟩ := List.forall_mem_cons.1 h
    cases p with
    | raw c => cases hp
    | escape e => exact congrArg (_ :: ·) (ih hrun)

theorem map_element_raws {run : List Piece} (h : ∀ p ∈ run, p.isEscape = false) :
    run.map Piece.element = (run.filterMap Piece.char?).map .char := by
  induction run with
  | nil => rfl
  | cons p run ih =>
    obtain ⟨hp, hrun⟩ := List.forall_mem_cons.1 h
    cases p with
    | raw c => exact congrArg (_ :: ·) (ih hrun)
    | escape e => cases hp

/-- A run decodes by itself if no escape follows a run of escapes. -/
theorem decode_run {run : List Piece} {b : Bool} (hrun : ∀ p ∈ run, p.isEscape = b)
    (hne : run ≠ []) {es : List Element} (hes : b = true → ∀ u, es.head? ≠ some (.unit u)) :
    decode (run.map Piece.element ++ es) = Piece.valueOfRun run ++ decode es := by
  cases b with
  | true =>
    have hall : run.all Piece.isEscape = true := List.all_eq_true.2 hrun
    rw [Piece.valueOfRun, if_pos hall, map_element_escapes hrun]
    exact Utf16.decode_units (hes rfl) _ none rfl
  | false =>
    obtain ⟨p, hp⟩ := List.exists_mem_of_ne_nil run hne
    have hall : run.all Piece.isEscape = false :=
      List.all_eq_false.2 ⟨p, hp, by rw [hrun p hp]; decide⟩
    rw [Piece.valueOfRun, hall, if_neg Bool.false_ne_true, map_element_raws hrun]
    exact decode_chars _ _

/-- A body decodes run by run, since the runs beside a run are of the other kind. -/
theorem decode_runs {runs : List (List Piece)} (hne : [] ∉ runs)
    (hsame : ∀ run ∈ runs, run.IsChain (Piece.alike · ·))
    (hother : runs.IsChain fun a b => ∃ ha hb, Piece.alike (a.getLast ha) (b.head hb) = false) :
    decode (runs.flatten.map Piece.element) = runs.flatMap Piece.valueOfRun := by
  induction runs with
  | nil => rfl
  | cons run runs ih =>
    have hrun : run ≠ [] := fun e => hne (e ▸ List.mem_cons_self)
    obtain ⟨p, more, rfl⟩ := List.exists_cons_of_ne_nil hrun
    have hkind := Piece.all_alike (hsame _ List.mem_cons_self)
    have hrest := ih (fun hmem => hne (List.mem_cons_of_mem _ hmem))
      (fun run hmem => hsame run (List.mem_cons_of_mem _ hmem)) hother.tail
    have hstop : p.isEscape = true →
        ∀ u, (runs.flatten.map Piece.element).head? ≠ some (.unit u) := by
      intro hp u
      cases runs with
      | nil => simp
      | cons next runs =>
        obtain ⟨ha, hb, hdiffer⟩ := (List.isChain_cons_cons.1 hother).1
        obtain ⟨q, next, rfl⟩ := List.exists_cons_of_ne_nil hb
        have hlast := hkind _ (List.getLast_mem ha)
        cases q with
        | raw c => simp [Piece.element]
        | escape e =>
          rw [Piece.alike, hlast, hp] at hdiffer
          cases hdiffer
    rw [List.flatten_cons, List.map_append, List.flatMap_cons, decode_run hkind hrun hstop, hrest]

theorem decode_pieces (ps : List Piece) :
    decode (ps.map Piece.element) = Piece.value ps := by
  have hruns := decode_runs (List.nil_notMem_splitBy Piece.alike ps)
    (fun _ => List.isChain_of_mem_splitBy) (List.isChain_getLast_head_splitBy Piece.alike ps)
  rw [List.flatten_splitBy] at hruns
  exact hruns

end Quoted

/-! ## Tokens -/

/-- A spelling that reads as a token is the token that a call finds in front of no trivia. -/
theorem Reads.next {text rest : List Char} {k : TokenKind} (h : Reads text rest k) {flag : Bool}
    (hflag : k.suits flag = true) (offset : Nat) :
    Lexer.next flag ⟨offset, text ++ rest⟩ =
      (.ok ⟨k, offset, offset + Text.bytes text⟩, ⟨offset + Text.bytes text, rest⟩) := by
  obtain ⟨hvalid, hfront⟩ := @Lexer.front_of_bare ⟨offset, text ++ rest⟩ h.bare
  have hscan := @Lexer.next_of_scan ⟨offset, text ++ rest⟩ flag text rest k hvalid (by rw [hfront])
    (by rw [hfront]; exact h.scan hflag)
  rwa [hfront] at hscan

/-- A literal in pieces, between quotes of either kind. -/
theorem reads_pieces {quote : Char} (hquote : quote = '\x22' ∨ quote = '\x27')
    {ps : List Quoted.Piece} (hraw : ∀ c, .raw c ∈ ps → c ≠ quote ∧ c ≠ '\\') (rest : List Char) :
    Reads (quote :: (ps.flatMap Quoted.Piece.text ++ [quote])) rest
      (.string (String.ofList (Quoted.Piece.value ps))) := by
  have hslash : quote ≠ '\\' := by rcases hquote with rfl | rfl <;> decide
  have hbody := Quoted.body_pieces hslash hraw rest
  have htext : quote :: (ps.flatMap Quoted.Piece.text ++ [quote]) ++ rest =
      quote :: (ps.flatMap Quoted.Piece.text ++ quote :: rest) := by simp
  constructor
  · rw [htext]
    rcases hquote with rfl | rfl
    · exact Trivia.bare_cons (by decide) (by simp)
    · exact Trivia.bare_cons (by decide) (by simp)
  · intro flag _
    have hscan : Lexer.scan flag (quote :: (ps.flatMap Quoted.Piece.text ++ quote :: rest)) =
        Quoted.scan quote (ps.flatMap Quoted.Piece.text ++ quote :: rest) := by
      rcases hquote with rfl | rfl <;> rfl
    rw [htext, hscan, Quoted.scan, hbody, ← Quoted.decode_pieces]
    simp [Except.map]
    omega

/-- Whatever raw characters and escapes of code units a literal is made of, it is read as its body
with every longest run of escapes decoded as UTF-16; so a text that is escaped unit by unit is read
as that text. -/
theorem next_escapes {quote : Char} (hquote : quote = '\x22' ∨ quote = '\x27')
    {ps : List Quoted.Piece} (hraw : ∀ c, .raw c ∈ ps → c ≠ quote ∧ c ≠ '\\')
    (rest : List Char) (flag : Bool) (offset : Nat) :
    let literal := quote :: (ps.flatMap Quoted.Piece.text ++ [quote])
    Lexer.next flag ⟨offset, literal ++ rest⟩ =
      (.ok ⟨.string (String.ofList (Quoted.Piece.value ps)), offset, offset + Text.bytes literal⟩,
        ⟨offset + Text.bytes literal, rest⟩) ∧
    ∀ cs, ps.map Quoted.Piece.unit? = (cs.flatMap Utf16.encode).map some →
      Quoted.Piece.value ps = cs :=
  ⟨(reads_pieces hquote hraw rest).next rfl offset, fun _ => Quoted.Piece.value_escaped⟩

/-- A first half that another first half follows, a pair, a raw character that cuts the run, and a
second half alone. -/
theorem next_escapes_unpaired : ∃ ps : List Quoted.Piece,
    ps.flatMap Quoted.Piece.text = "\\uD83d\\ud83d\\uDE00x\\uDc00".toList ∧
    (∀ c, .raw c ∈ ps → c ≠ '\x22' ∧ c ≠ '\\') ∧
    Lexer.next true ⟨0, '\x22' :: (ps.flatMap Quoted.Piece.text ++ ['\x22']) ++ ['/']⟩ =
      (.ok ⟨.string "\ufffd😀x\ufffd", 0, 27⟩, ⟨27, ['/']⟩) := by
  have hraw (a b c d : Quoted.Escape) : ∀ x, .raw x ∈
      [Quoted.Piece.escape a, .escape b, .escape c, .raw 'x', .escape d] → x ≠ '\x22' ∧ x ≠ '\\' := by
    intro x hx
    obtain rfl : x = 'x' := by simpa using hx
    decide
  refine ⟨[.escape ⟨"D83d".toList, rfl, rfl⟩, .escape ⟨"d83d".toList, rfl, rfl⟩,
    .escape ⟨"DE00".toList, rfl, rfl⟩, .raw 'x', .escape ⟨"Dc00".toList, rfl, rfl⟩], rfl,
    hraw _ _ _ _, ?_⟩
  exact (next_escapes (.inl rfl) (hraw _ _ _ _) ['/'] true 0).1

/-! ## Strings as they are written -/

theorem isControl_of_isHexDigit {c : Char} (h : Text.isHexDigit c = true) :
    Text.isControl c = false := by
  simp only [Text.isHexDigit, Text.isDigit, Bool.or_eq_true, Bool.and_eq_true, decide_eq_true_eq,
    Text.char_le_iff, Char.reduceToNat] at h
  rw [Bool.eq_false_iff, Ne, Text.isControl]
  simp only [Bool.or_eq_true, Bool.and_eq_true, decide_eq_true_eq]
  omega

theorem isControl_of_mem_quoteChar {c d : Char} (h : d ∈ quoteChar c) : Text.isControl d = false := by
  unfold quoteChar at h
  split at h
  case h_8 =>
    split at h
    · rename_i hc
      have hlt := lt_of_escaped hc
      have hhex := (hex4_spec (n := c.toNat) (by omega)).1
      rcases List.mem_cons.1 h with rfl | h
      · rfl
      rcases List.mem_cons.1 h with rfl | h
      · rfl
      · exact isControl_of_isHexDigit (List.all_eq_true.1 hhex d h)
    · rename_i hc
      obtain rfl := List.mem_singleton.1 h
      rw [Bool.not_eq_true, Bool.or_eq_false_iff] at hc
      exact hc.1
  all_goals
    rcases List.mem_cons.1 h with rfl | h
    · rfl
    · obtain rfl := List.mem_singleton.1 h
      rfl

theorem isControl_of_mem_quote {s : String} {c : Char} (h : c ∈ quote s) :
    Text.isControl c = false := by
  rcases List.mem_cons.1 h with rfl | h
  · rfl
  rcases List.mem_append.1 h with h | h
  · obtain ⟨d, -, hd⟩ := List.mem_flatMap.1 h
    exact isControl_of_mem_quoteChar hd
  · obtain rfl := List.mem_singleton.1 h
    rfl

/-- The literal that is written for a string is read as that string, whatever follows it; it holds
no control character and no line break. -/
theorem next_quote (s : String) (rest : List Char) (flag : Bool) (offset : Nat) :
    Lexer.next flag ⟨offset, quote s ++ rest⟩ =
      (.ok ⟨.string s, offset, offset + Text.bytes (quote s)⟩,
        ⟨offset + Text.bytes (quote s), rest⟩) ∧
    ∀ c ∈ quote s, Text.isControl c = false ∧ Text.isLineBreak c = false :=
  ⟨(reads_string s rest).next rfl offset,
    fun c hc => ⟨isControl_of_mem_quote hc, inline_quote s c hc⟩⟩

end ScriptTree
