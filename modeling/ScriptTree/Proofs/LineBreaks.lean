import ScriptTree.Proofs.Locations
import ScriptTree.Proofs.Positions

/-! # Lines as a reader counts them

A line break ends behind a character that ends a line, but not between a carriage return and a line
feed. The table of lines is built in one pass over the text and looked up by a search; what it says is
what counting the breaks says. So a place further on has a position further on, and the place is found
again from its position. -/
namespace ScriptTree

namespace Text

/-- Whether a line break ends between two parts of a text. -/
def breakBetween (before after : List Char) : Bool :=
  before.getLast?.any fun c => isLineBreak c && !(c == '\r' && after.head? == some '\n')

/-- The offsets at which the line breaks of a text end. -/
def breakEnds (cs : List Char) : List Nat :=
  ((List.range (cs.length + 1)).filter fun i => breakBetween (cs.take i) (cs.drop i)).map
    fun i => bytes (cs.take i)

/-- Where the line of a place begins: at the last break that ends no later, or else at the front. -/
def lineStart (cs : List Char) (offset : Nat) : Nat :=
  ((breakEnds cs).filter (· ≤ offset)).foldl max 0

/-- No break ends at the front of a text. -/
theorem breakEnds_eq (cs : List Char) : breakEnds cs =
    ((List.range cs.length).filter fun i => breakBetween (cs.take (i + 1)) (cs.drop (i + 1))).map
      fun i => bytes (cs.take (i + 1)) := by
  rw [breakEnds, List.range_succ_eq_map, List.filter_cons_of_neg Bool.false_ne_true,
    List.filter_map, List.map_map]
  rfl

/-- A break that ends further on does not depend on the first character. -/
theorem breakBetween_cons (c : Char) (cs : List Char) {i : Nat} (hi : i < cs.length) :
    breakBetween ((c :: cs).take (i + 2)) ((c :: cs).drop (i + 2)) =
      breakBetween (cs.take (i + 1)) (cs.drop (i + 1)) := by
  have hne : cs.take (i + 1) ≠ [] := by
    rw [Ne, List.take_eq_nil_iff]
    rintro (h | rfl)
    · cases h
    · cases hi
  rw [List.take_succ_cons, List.drop_succ_cons, breakBetween, breakBetween,
    List.getLast?_cons_of_ne_nil hne]

theorem breakEnds_cons (c : Char) (cs : List Char) : breakEnds (c :: cs) =
    (if breakBetween [c] cs then [c.utf8Size] else []) ++ (breakEnds cs).map (c.utf8Size + ·) := by
  have hlater : ((List.range cs.length).filter fun i =>
        breakBetween ((c :: cs).take (i + 2)) ((c :: cs).drop (i + 2))) =
      (List.range cs.length).filter fun i => breakBetween (cs.take (i + 1)) (cs.drop (i + 1)) :=
    List.filter_congr fun i hi => breakBetween_cons c cs (List.mem_range.1 hi)
  rw [breakEnds_eq, breakEnds_eq, List.length_cons, List.range_succ_eq_map, List.filter_cons,
    List.filter_map, List.map_map, ← hlater]
  show _ = (if breakBetween [c] cs then _ else _) ++ _
  by_cases hb : breakBetween [c] cs = true
  · simp [hb, Function.comp_def, bytes]
  · simp [hb, Function.comp_def, bytes]

/-- A character that does not begin a break of two is a break or none. -/
theorem breakBetween_singleton {c : Char} {cs : List Char} (h : c = '\r' → cs.head? ≠ some '\n') :
    breakBetween [c] cs = isLineBreak c := by
  by_cases hc : c = '\r'
  · simp [breakBetween, hc, h hc]
  · simp [breakBetween, hc]

theorem breakEnds_pair (cs : List Char) :
    breakEnds ('\r' :: '\n' :: cs) = 2 :: (breakEnds cs).map (2 + ·) := by
  have hreturn : breakBetween ['\r'] ('\n' :: cs) = false := rfl
  have hfeed : breakBetween ['\n'] cs = true := breakBetween_singleton nofun
  have hboth (n : Nat) : '\r'.utf8Size + ('\n'.utf8Size + n) = 2 + n := by
    show 1 + (1 + n) = 2 + n
    omega
  rw [breakEnds_cons, breakEnds_cons, hreturn, hfeed]
  show (1 + 1) :: ((breakEnds cs).map ('\n'.utf8Size + ·)).map ('\r'.utf8Size + ·) = _
  simp only [List.map_map, Function.comp_def, hboth]

theorem takeBytes_eq_some_iff {n : Nat} {cs text : List Char} :
    takeBytes n cs = some text ↔ ∃ rest, cs = text ++ rest ∧ bytes text = n := by
  constructor
  · intro h
    fun_induction takeBytes n cs generalizing text with
    | case1 cs => exact ⟨cs, by cases h; exact ⟨rfl, rfl⟩⟩
    | case2 => cases h
    | case3 n c cs hle ih =>
      obtain ⟨more, hmore, rfl⟩ := Option.map_eq_some_iff.1 h
      obtain ⟨rest, rfl, hb⟩ := ih hmore
      refine ⟨rest, rfl, ?_⟩
      rw [bytes]
      omega
    | case4 => cases h
  · rintro ⟨rest, rfl, rfl⟩
    exact takeBytes_append text rest

end Text

namespace LineTable

open Text

/-! ## The table holds the breaks -/

theorem starts_linesAfter (offset : Nat) (cs : List Char) :
    (linesAfter offset cs).map (·.start) = (breakEnds cs).map (offset + ·) := by
  have next_of_pair {c : Char} {cs : List Char} (h : ∀ cs', c = '\r' → cs = '\n' :: cs' → False)
      (hc : c = '\r') : cs.head? ≠ some '\n' := by
    intro hd
    obtain ⟨cs', rfl⟩ := List.head?_eq_some_iff.1 hd
    exact h cs' hc rfl
  fun_induction linesAfter offset cs with
  | case1 => rfl
  | case2 offset cs ih =>
    rw [List.map_cons, ih, breakEnds_pair]
    simp [Nat.add_assoc]
  | case3 offset c cs hpair next hbreak ih =>
    rw [List.map_cons, ih, breakEnds_cons, breakBetween_singleton (next_of_pair hpair), if_pos hbreak]
    simp [Nat.add_assoc, next]
  | case4 offset c cs hpair next hbreak ih =>
    rw [ih, breakEnds_cons, breakBetween_singleton (next_of_pair hpair), if_neg hbreak]
    simp [Nat.add_assoc, next]

/-- Lines begin at the front of the text and at the ends of its breaks. -/
theorem starts_ofText (cs : List Char) : (ofText cs).starts = 0 :: breakEnds cs := by
  have hlater := starts_linesAfter 0 cs
  simp only [Nat.zero_add, List.map_id'] at hlater
  exact congrArg (0 :: ·) hlater

example : (ofText "a\r\nb\rc\n\rd".toList).starts = [0, 3, 5, 7, 8] := by decide

theorem text_of_linesAfter {offset : Nat} {cs : List Char} {l : Line}
    (h : l ∈ linesAfter offset cs) :
    ∃ before, cs = before ++ l.text ∧ l.start = offset + bytes before := by
  fun_induction linesAfter offset cs with
  | case1 => cases h
  | case2 offset cs ih =>
    rcases List.mem_cons.1 h with rfl | h
    · exact ⟨['\r', '\n'], rfl, rfl⟩
    · obtain ⟨before, rfl, hstart⟩ := ih h
      exact ⟨['\r', '\n'] ++ before, rfl, by rw [hstart, bytes_append, ← Nat.add_assoc]; rfl⟩
  | case3 offset c cs _ next _ ih =>
    rcases List.mem_cons.1 h with rfl | h
    · exact ⟨[c], rfl, rfl⟩
    · obtain ⟨before, rfl, hstart⟩ := ih h
      exact ⟨c :: before, rfl, by rw [hstart, bytes, ← Nat.add_assoc]⟩
  | case4 offset c cs _ next _ ih =>
    obtain ⟨before, rfl, hstart⟩ := ih h
    exact ⟨c :: before, rfl, by rw [hstart, bytes, ← Nat.add_assoc]⟩

/-- A line holds the text from its start on. -/
theorem text_of_lines {cs : List Char} {l : Line} (h : l ∈ (ofText cs).lines) :
    ∃ before, cs = before ++ l.text ∧ l.start = bytes before := by
  rcases List.mem_cons.1 h with rfl | h
  · exact ⟨[], rfl, rfl⟩
  · obtain ⟨before, hcs, hstart⟩ := text_of_linesAfter h
    exact ⟨before, hcs, by rw [hstart, Nat.zero_add]⟩

/-! ## Looking up a place -/

/-- The line that is found has the number that counting gives, and begins at the last start that is
not behind the place. -/
theorem exists_lineAt (offset number : Nat) {line : Line} {later : List Line}
    (h : (line :: later).Pairwise (·.start < ·.start)) (hle : line.start ≤ offset) :
    ∃ found ∈ line :: later, found.start ≤ offset ∧
      found.start = ((later.map (·.start)).filter (· ≤ offset)).foldl max line.start ∧
      lineAt offset number line later =
        (number + (later.map (·.start)).countP (· ≤ offset), found) := by
  induction later generalizing number line with
  | nil => exact ⟨line, List.mem_cons_self, hle, rfl, rfl⟩
  | cons next later ih =>
    obtain ⟨hfirst, hlater⟩ := List.pairwise_cons.1 h
    by_cases hnext : next.start ≤ offset
    · obtain ⟨found, hmem, hstart, hmax, hfound⟩ := ih (number + 1) hlater hnext
      refine ⟨found, List.mem_cons_of_mem _ hmem, hstart, ?_, ?_⟩
      · have hlt := hfirst next List.mem_cons_self
        simp [hmax, hnext, Nat.max_eq_right (Nat.le_of_lt hlt)]
      · rw [lineAt, if_pos hnext, hfound]
        simp [hnext, Nat.add_assoc, Nat.add_comm 1]
    · have hall : ∀ n ∈ (next :: later).map (·.start), ¬ n ≤ offset := by
        rw [List.forall_mem_map, List.forall_mem_cons]
        have hbehind := (List.pairwise_cons.1 hlater).1
        exact ⟨hnext, fun l hl hle => hnext (Nat.le_trans (Nat.le_of_lt (hbehind l hl)) hle)⟩
      refine ⟨line, List.mem_cons_self, hle, ?_, ?_⟩
      · rw [List.filter_eq_nil_iff.2 (by simpa using hall), List.foldl_nil]
      · rw [lineAt, if_neg hnext, List.countP_eq_zero.2 (by simpa using hall), Nat.add_zero]

/-- A place in a line, either between two characters or not. -/
theorem column_cases (number : Nat) {cs : List Char} {offset : Nat} {line : Line}
    (hline : line ∈ (ofText cs).lines) (hle : line.start ≤ offset) :
    (∃ before text after, cs = before ++ (text ++ after) ∧ bytes before = line.start ∧
      bytes before + bytes text = offset ∧ (placeIn offset (number, line)).column = units text) ∨
    (¬ Boundary cs offset ∧ (placeIn offset (number, line)).column = offset - line.start) := by
  obtain ⟨before, hcs, hstart⟩ := text_of_lines hline
  have hcolumn : (placeIn offset (number, line)).column =
      ((takeBytes (offset - line.start) line.text).map units).getD (offset - line.start) := by
    rw [placeIn, unitsBefore_eq]
    simp
  cases htext : takeBytes (offset - line.start) line.text with
  | some text =>
    obtain ⟨after, hafter, hbytes⟩ := takeBytes_eq_some_iff.1 htext
    refine .inl ⟨before, text, after, by rw [hcs, hafter], hstart.symm, by omega, ?_⟩
    rw [hcolumn, htext]
    rfl
  | none =>
    refine .inr ⟨fun hb => ?_, by rw [hcolumn, htext]; rfl⟩
    have hfront : Boundary cs line.start := ⟨before, line.text, hcs, hstart.symm⟩
    obtain ⟨before', text, after, hcut, hstart', hoffset⟩ := hfront.cut hb hle
    obtain ⟨-, hrest⟩ := append_inj_of_bytes_eq (hcs.symm.trans hcut) (hstart.symm.trans hstart')
    have hsome := takeBytes_eq_some_iff.2 ⟨after, hrest, (by omega : bytes text = offset - line.start)⟩
    rw [htext] at hsome
    cases hsome

/-- What counting its line breaks says about a place in a text. The column counts the code units from
the start of the line, or the bytes where the place is inside a character or behind the text. -/
structure Counted (cs : List Char) (offset : Nat) (p : Position) : Prop where
  line : p.line = 1 + (breakEnds cs).countP (· ≤ offset)
  column : (∃ before text after, cs = before ++ (text ++ after) ∧ bytes before = lineStart cs offset ∧
      bytes before + bytes text = offset ∧ p.column = units text) ∨
    (¬ Boundary cs offset ∧ p.column = offset - lineStart cs offset)

theorem position_counted (cs : List Char) (offset : Nat) :
    Counted cs offset ((ofText cs).position offset) := by
  have hstarts : (ofText cs).later.map (·.start) = breakEnds cs :=
    (List.cons.inj (starts_ofText cs)).2
  obtain ⟨line, hmem, hle, hstart, hfound⟩ :=
    exists_lineAt offset 1 (lines_pairwise cs) (Nat.zero_le offset)
  rw [hstarts] at hstart hfound
  have hplace : (ofText cs).position offset =
      placeIn offset (1 + (breakEnds cs).countP (· ≤ offset), line) := congrArg (placeIn offset) hfound
  rw [hplace]
  refine ⟨rfl, ?_⟩
  have hcolumn := column_cases (1 + (breakEnds cs).countP (· ≤ offset)) hmem hle
  rwa [hstart] at hcolumn

/-- The table of lines agrees with counting: it holds the ends of the breaks and one line more than
there are breaks, and every place, also one inside a character or behind the text, has the position
that the breaks before it give, whatever a search among the starts of lines answers. -/
theorem table_agrees_with_breaks (source : String) (offset : Nat) :
    Counted source.toList offset ((ofText source.toList).position offset) ∧
      (∀ answer, Answers (0 :: breakEnds source.toList) offset answer →
        ((ofText source.toList).position offset).line = indexOf answer + 1) ∧
      (ofText source.toList).count = 1 + (breakEnds source.toList).length := by
  have hstarts := starts_ofText source.toList
  refine ⟨position_counted _ _, fun answer ha => ?_, ?_⟩
  · obtain ⟨-, line, -, -, hfound⟩ := lineAt_of_answers (hstarts ▸ ha)
    exact congrArg Prod.fst hfound
  · have hlength := congrArg List.length hstarts
    rw [starts, List.length_map, lines, List.length_cons, List.length_cons] at hlength
    rw [count, hlength, Nat.add_comm]

end LineTable

/-! ## Places from positions -/

/-- The order in which a reader comes to positions. -/
def Position.Before (p q : Position) : Prop :=
  p.line < q.line ∨ p.line = q.line ∧ p.column < q.column

namespace Text

theorem unitSize_pos (c : Char) : 0 < unitSize c := by
  unfold unitSize
  split <;> decide

theorem units_pos {cs : List Char} (h : cs ≠ []) : 0 < units cs := by
  cases cs with
  | nil => exact absurd rfl h
  | cons c cs => exact Nat.lt_of_lt_of_le (unitSize_pos c) (Nat.le_add_right _ _)

/-- The bytes that are walked over in a number of code units; none if a character stands across their
end, or the text is shorter. -/
def bytesOfUnits : (n : Nat) → List Char → Option Nat
  | 0, _ => some 0
  | _ + 1, [] => none
  | n + 1, c :: cs =>
    if unitSize c ≤ n + 1 then (bytesOfUnits (n + 1 - unitSize c) cs).map (c.utf8Size + ·) else none

theorem bytesOfUnits_append (text rest : List Char) :
    bytesOfUnits (units text) (text ++ rest) = some (bytes text) := by
  induction text with
  | nil => simp [units, bytesOfUnits, bytes]
  | cons c text ih =>
    have hpos := unitSize_pos c
    obtain ⟨n, hn⟩ : ∃ n, unitSize c + units text = n + 1 :=
      ⟨unitSize c + units text - 1, by omega⟩
    have hleft : n + 1 - unitSize c = units text := by omega
    have hle : unitSize c ≤ n + 1 := by omega
    rw [units, hn, List.cons_append, bytesOfUnits, if_pos hle, hleft, ih]
    rfl

/-- The place of a position: so many code units behind the start of the line. -/
def offsetOf (cs : List Char) (p : Position) : Option Nat := do
  let start ← (0 :: breakEnds cs)[p.line - 1]?
  let text ← dropBytes start cs
  let width ← bytesOfUnits p.column text
  return start + width

end Text

namespace LineTable

open Text

/-- A place between two characters stands some whole characters behind the start of its line. -/
theorem exists_position {cs : List Char} {a : Nat} (h : Boundary cs a) :
    ∃ i start text after, (0 :: breakEnds cs)[i]? = some start ∧
      dropBytes start cs = some (text ++ after) ∧ start + bytes text = a ∧
      (ofText cs).position a = ⟨i + 1, units text⟩ := by
  obtain ⟨answer, ha⟩ := exists_answers (starts_pairwise cs) a
  obtain ⟨-, line, hline, hle, hfound⟩ := lineAt_of_answers ha
  have hstart : (0 :: breakEnds cs)[indexOf answer]? = some line.start := by
    rw [← starts_ofText, starts, List.getElem?_map, hline]
    rfl
  rcases column_cases (indexOf answer + 1) (List.mem_of_getElem? hline) hle with hplace | hplace
  · obtain ⟨before, text, after, rfl, hbefore, htext, hcolumn⟩ := hplace
    refine ⟨indexOf answer, line.start, text, after, hstart, ?_, by rw [← hbefore, htext], ?_⟩
    · rw [← hbefore, dropBytes_append]
    · rw [← hcolumn]
      exact congrArg (placeIn a) hfound
  · exact absurd h hplace.1

theorem line_mono (cs : List Char) {a b : Nat} (h : a ≤ b) :
    ((ofText cs).position a).line ≤ ((ofText cs).position b).line := by
  rw [(position_counted cs a).line, (position_counted cs b).line]
  refine Nat.add_le_add_left (List.countP_mono_left fun n _ hn => ?_) 1
  exact decide_eq_true (Nat.le_trans (of_decide_eq_true hn) h)

theorem position_before {cs : List Char} {a b : Nat} (ha : Boundary cs a) (hb : Boundary cs b)
    (h : a < b) : ((ofText cs).position a).Before ((ofText cs).position b) := by
  have hline := line_mono cs (Nat.le_of_lt h)
  obtain ⟨i, start, text, after, hi, hdrop, hbytes, hpos⟩ := exists_position ha
  obtain ⟨j, start', text', after', hj, hdrop', hbytes', hpos'⟩ := exists_position hb
  rw [hpos, hpos'] at hline ⊢
  rcases Nat.lt_or_eq_of_le hline with hlt | heq
  · exact .inl hlt
  -- in one line, the text before the first place is the front of that before the other one
  · obtain rfl : i = j := Nat.succ.inj heq
    obtain rfl : start = start' := Option.some.inj (hi.symm.trans hj)
    have hcut := Option.some.inj (hdrop.symm.trans hdrop')
    have hne : bytes text < bytes text' := by omega
    rcases List.append_eq_append_iff.1 hcut with ⟨more, rfl, -⟩ | ⟨more, rfl, -⟩
    · refine .inr ⟨rfl, ?_⟩
      have hmore : more ≠ [] := by
        rintro rfl
        rw [List.append_nil] at hne
        exact Nat.lt_irrefl _ hne
      show units text < units (text ++ more)
      rw [units_append]
      exact Nat.lt_add_of_pos_right (units_pos hmore)
    · rw [bytes_append] at hne
      omega

theorem offsetOf_position {cs : List Char} {a : Nat} (h : Boundary cs a) :
    offsetOf cs ((ofText cs).position a) = some a := by
  obtain ⟨i, start, text, after, hi, hdrop, hbytes, hpos⟩ := exists_position h
  rw [hpos, offsetOf]
  simp [hi, hdrop, bytesOfUnits_append, hbytes]

/-- Positions stand for places: they come in the order of the places, two places do not share one, and
the code units of the column lead from the start of the line to the place. -/
theorem position_identifies {source : String} {a b : Nat} (ha : Boundary source.toList a)
    (hb : Boundary source.toList b) :
    (((ofText source.toList).position a).Before ((ofText source.toList).position b) ↔ a < b) ∧
      ((ofText source.toList).position a = (ofText source.toList).position b ↔ a = b) ∧
      offsetOf source.toList ((ofText source.toList).position a) = some a := by
  have hinj (h : (ofText source.toList).position a = (ofText source.toList).position b) : a = b := by
    have hplace := offsetOf_position ha
    rw [h, offsetOf_position hb] at hplace
    exact (Option.some.inj hplace).symm
  refine ⟨⟨fun h => ?_, position_before ha hb⟩, ⟨hinj, fun h => h ▸ rfl⟩, offsetOf_position ha⟩
  rcases Nat.lt_trichotomy a b with hlt | rfl | hgt
  · exact hlt
  · rcases h with h | ⟨-, h⟩ <;> exact absurd h (Nat.lt_irrefl _)
  · have hback := position_before hb ha hgt
    unfold Position.Before at h hback
    omega

/-- Inside a line break, and behind a character of two code units. -/
theorem position_identifies_pair : Boundary "x\r\n😀y".toList 2 ∧ Boundary "x\r\n😀y".toList 7 ∧
    (ofText "x\r\n😀y".toList).position 2 = ⟨1, 2⟩ ∧ (ofText "x\r\n😀y".toList).position 7 = ⟨2, 2⟩ ∧
    ((ofText "x\r\n😀y".toList).position 2).Before ((ofText "x\r\n😀y".toList).position 7) ∧
    offsetOf "x\r\n😀y".toList ((ofText "x\r\n😀y".toList).position 7) = some 7 := by
  have ha : Boundary "x\r\n😀y".toList 2 := ⟨['x', '\r'], ['\n', '😀', 'y'], by decide, by decide⟩
  have hb : Boundary "x\r\n😀y".toList 7 := ⟨['x', '\r', '\n', '😀'], ['y'], by decide, by decide⟩
  exact ⟨ha, hb, by decide, by decide, (position_identifies ha hb).1.2 (by decide),
    (position_identifies hb ha).2.2⟩

end LineTable
end ScriptTree
