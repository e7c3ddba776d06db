import ScriptTree.Position

/-! # Positions are counted from the text before a place

The table of lines is built from the whole text, but the position of a place depends only on the
text before it, unless the place is inside a line break of two characters. Lines begin one behind the
other, so the line of a place can also be looked up by a search among their starts. -/
namespace ScriptTree

/-- The position after some more text. -/
def Position.after (p : Position) : List Char → Position
  | [] => p
  | '\r' :: '\n' :: cs => Position.after ⟨p.line + 1, 0⟩ cs
  | c :: cs =>
    if Text.isLineBreak c then Position.after ⟨p.line + 1, 0⟩ cs
    else Position.after ⟨p.line, p.column + Text.unitSize c⟩ cs

namespace LineTable

/-- Every line after a line break begins behind it. -/
theorem start_of_linesAfter {offset : Nat} {cs : List Char} {l : Line}
    (h : l ∈ linesAfter offset cs) : offset < l.start := by
  fun_induction linesAfter offset cs with
  | case1 => cases h
  | case2 offset cs ih =>
    rcases List.mem_cons.1 h with rfl | h
    · exact Nat.lt_add_of_pos_right Nat.two_pos
    · have := ih h
      omega
  | case3 offset c cs _ next _ ih =>
    have hpos := c.utf8Size_pos
    rcases List.mem_cons.1 h with rfl | h
    · exact Nat.lt_add_of_pos_right hpos
    · have := ih h
      omega
  | case4 offset c cs _ next _ ih =>
    have := ih h
    omega

/-- With no line between, the place is in the line so far. -/
theorem lineAt_of_lt {offset number : Nat} {line : Line} {later : List Line}
    (h : ∀ l ∈ later, offset < l.start) : lineAt offset number line later = (number, line) := by
  cases later with
  | nil => rfl
  | cons next later => exact if_neg (Nat.not_le.2 (h next List.mem_cons_self))

/-- One character, unless it begins a line break of two. -/
theorem linesAfter_cons {offset : Nat} {c : Char} {cs : List Char}
    (h : c = '\r' → cs.head? ≠ some '\n') : linesAfter offset (c :: cs) =
      if Text.isLineBreak c then
        ⟨offset + c.utf8Size, cs⟩ :: linesAfter (offset + c.utf8Size) cs
      else linesAfter (offset + c.utf8Size) cs := by
  rw [linesAfter.eq_def]
  split
  · rename_i he
    cases he
  · rename_i he
    obtain ⟨rfl, rfl⟩ := List.cons.inj he
    exact absurd rfl (h rfl)
  · rename_i he
    obtain ⟨rfl, rfl⟩ := List.cons.inj he
    rfl

/-- A place in a numbered line. -/
def placeIn (offset : Nat) (x : Nat × Line) : Position :=
  ⟨x.1, (Text.unitsBefore 0 (offset - x.2.start) x.2.text).getD (offset - x.2.start)⟩

/-- A place behind the start of a line is in that line or in a later one. -/
theorem lineAt_cons {offset number start : Nat} {line : Line} {text : List Char} {later : List Line}
    (h : start ≤ offset) : lineAt offset number line (⟨start, text⟩ :: later) =
      lineAt offset (number + 1) ⟨start, text⟩ later :=
  if_pos h

/-- The position of a place, in a line of which some text has been passed. -/
theorem placeIn_lineAt {before done rest : List Char} {p : Position} {line : Line} {offset : Nat}
    (hline : line.text = done ++ (before ++ rest)) (hoffset : line.start + Text.bytes done = offset)
    (hp : p.column = Text.units done) (hrest : rest.head? ≠ some '\n') :
    placeIn (offset + Text.bytes before) (lineAt (offset + Text.bytes before) p.line line
      (linesAfter offset (before ++ rest))) = p.after before := by
  have next_of_pair {c : Char} {cs : List Char}
      (hpair : ∀ cs', c = '\r' → cs = '\n' :: cs' → False) (hc : c = '\r') :
      (cs ++ rest).head? ≠ some '\n' := by
    cases cs with
    | nil => exact hrest
    | cons d cs =>
      intro hd
      exact hpair cs hc (by rw [Option.some.inj hd])
  fun_induction Position.after p before generalizing done line offset with
  | case1 p =>
    have hlater : ∀ l ∈ linesAfter offset ([] ++ rest), offset + Text.bytes [] < l.start :=
      fun l hl => start_of_linesAfter hl
    have hdone : offset + Text.bytes [] - line.start = Text.bytes done := by
      show offset - line.start = _
      omega
    rw [lineAt_of_lt hlater, placeIn, hdone, hline, Text.unitsBefore_eq, Text.takeBytes_append]
    simp [← hp]
  | case2 p cs ih =>
    have hbytes : offset + Text.bytes ('\r' :: '\n' :: cs) = offset + 2 + Text.bytes cs := by
      rw [Text.bytes, Text.bytes, Nat.add_assoc offset 2]
      congr 1
      exact (Nat.add_assoc 1 1 _).symm
    rw [hbytes]
    show placeIn _ (lineAt _ _ _
      (⟨offset + 2, cs ++ rest⟩ :: linesAfter (offset + 2) (cs ++ rest))) = _
    rw [lineAt_cons (Nat.le_add_right _ _)]
    exact @ih [] _ _ rfl rfl rfl
  | case3 p c cs hpair hbreak ih =>
    have hcons : c = '\r' → (cs ++ rest).head? ≠ some '\n' := next_of_pair hpair
    rw [Text.bytes, ← Nat.add_assoc, List.cons_append, linesAfter_cons hcons, if_pos hbreak,
      lineAt_cons (Nat.le_add_right _ _)]
    exact @ih [] _ _ rfl rfl rfl
  | case4 p c cs hpair hbreak ih =>
    have hcons : c = '\r' → (cs ++ rest).head? ≠ some '\n' := next_of_pair hpair
    rw [Text.bytes, ← Nat.add_assoc, List.cons_append, linesAfter_cons hcons, if_neg hbreak]
    refine @ih (done ++ [c]) _ _ ?_ ?_ ?_
    · rw [hline, List.append_assoc, List.singleton_append, List.cons_append]
    · rw [Text.bytes_append, ← hoffset, ← Nat.add_assoc]
      rfl
    · rw [Text.units_append, hp]
      rfl

/-- The position of a place is counted from the text before it. -/
theorem position_append {before rest : List Char} (hrest : rest.head? ≠ some '\n') :
    (ofText (before ++ rest)).position (Text.bytes before) = Position.after ⟨1, 0⟩ before := by
  have h := @placeIn_lineAt before [] rest ⟨1, 0⟩ ⟨0, before ++ rest⟩ 0 rfl rfl rfl hrest
  rwa [Nat.zero_add] at h

/-! ## Looking up a line -/

/-- All lines, in order. -/
def lines (t : LineTable) : List Line := t.first :: t.later

def starts (t : LineTable) : List Nat := t.lines.map (·.start)

/-- What a search among increasing numbers may answer: an index where the number stands, or, if it
does not occur, the index where it would have to be inserted. -/
inductive Answers (ns : List Nat) (n : Nat) : Except Nat Nat → Prop
  | found {i} : ns[i]? = some n → Answers ns n (.ok i)
  | missing {i} : i ≤ ns.length → (∀ m ∈ ns.take i, m < n) → (∀ m ∈ ns.drop i, n < m) →
      Answers ns n (.error i)

/-- The index of the line that an answer leads to: one that begins at the place, or the last one
before it. -/
def indexOf : Except Nat Nat → Nat
  | .ok i => i
  | .error i => i - 1

theorem Answers.cons {ns : List Nat} {m n : Nat} {answer : Except Nat Nat} (hm : m < n)
    (h : Answers ns n answer) : ∃ answer', Answers (m :: ns) n answer' := by
  cases h with
  | @found i hi => exact ⟨.ok (i + 1), .found (by simpa using hi)⟩
  | @missing i hle hbefore hafter =>
    refine ⟨.error (i + 1), .missing (Nat.succ_le_succ hle) ?_ hafter⟩
    rw [List.take_succ_cons]
    exact List.forall_mem_cons.2 ⟨hm, hbefore⟩

theorem exists_answers {ns : List Nat} (h : ns.Pairwise (· < ·)) (n : Nat) :
    ∃ answer, Answers ns n answer := by
  induction ns with
  | nil => exact ⟨.error 0, .missing (Nat.le_refl _) (by simp) (by simp)⟩
  | cons m ns ih =>
    obtain ⟨hm, hns⟩ := List.pairwise_cons.1 h
    rcases Nat.lt_trichotomy m n with hlt | rfl | hgt
    · obtain ⟨answer, ha⟩ := ih hns
      exact ha.cons hlt
    · exact ⟨.ok 0, .found rfl⟩
    · refine ⟨.error 0, .missing (Nat.zero_le _) (by simp) (List.forall_mem_cons.2 ⟨hgt, ?_⟩)⟩
      exact fun k hk => Nat.lt_trans hgt (hm k hk)

theorem linesAfter_pairwise (offset : Nat) (cs : List Char) :
    (linesAfter offset cs).Pairwise (·.start < ·.start) := by
  fun_induction linesAfter offset cs with
  | case1 => exact .nil
  | case2 _ _ ih => exact .cons (fun _ hl => start_of_linesAfter hl) ih
  | case3 _ _ _ _ _ _ ih => exact .cons (fun _ hl => start_of_linesAfter hl) ih
  | case4 _ _ _ _ _ _ ih => exact ih

/-- Every line begins behind the one before it. -/
theorem lines_pairwise (cs : List Char) : (ofText cs).lines.Pairwise (·.start < ·.start) :=
  .cons (fun _ hl => start_of_linesAfter hl) (linesAfter_pairwise 0 cs)

theorem starts_pairwise (cs : List Char) : (ofText cs).starts.Pairwise (· < ·) :=
  List.pairwise_map.2 (lines_pairwise cs)

/-- The line of a place is the last one that does not begin behind it. -/
theorem lineAt_eq {offset number : Nat} {line found : Line} {later before after : List Line}
    (h : line :: later = before ++ found :: after)
    (hbefore : ∀ l ∈ before ++ [found], l.start ≤ offset) (hafter : ∀ l ∈ after, offset < l.start) :
    lineAt offset number line later = (number + before.length, found) := by
  induction before generalizing number line later with
  | nil =>
    obtain ⟨rfl, rfl⟩ := List.cons.inj h
    exact lineAt_of_lt hafter
  | cons l before ih =>
    obtain ⟨rfl, hlater⟩ := List.cons.inj h
    have hrest := (List.forall_mem_cons.1 hbefore).2
    cases later with
    | nil => simp at hlater
    | cons next later =>
      have hnext : next ∈ before ++ [found] := by
        cases before with
        | nil => exact List.mem_singleton.2 (List.cons.inj hlater).1
        | cons b before => exact (List.cons.inj hlater).1 ▸ List.mem_cons_self
      rw [lineAt, if_pos (hrest next hnext), ih hlater hrest, List.length_cons]
      congr 1
      omega

/-- Where two lines stand one behind the other, the first begins first. -/
theorem start_lt_start {cs : List Char} {before after : List Line} {l : Line}
    (h : (ofText cs).lines = before ++ l :: after) :
    (∀ x ∈ before, x.start < l.start) ∧ ∀ x ∈ after, l.start < x.start := by
  have hp := lines_pairwise cs
  rw [h, List.pairwise_append, List.pairwise_cons] at hp
  obtain ⟨-, ⟨hafter, -⟩, hbefore⟩ := hp
  exact ⟨fun x hx => hbefore x hx l List.mem_cons_self, hafter⟩

/-- A list is parted at an index. -/
theorem eq_take_append {xs : List α} {i : Nat} {x : α} (h : xs[i]? = some x) :
    xs = xs.take i ++ x :: xs.drop (i + 1) ∧ (xs.take i).length = i := by
  obtain ⟨hlt, rfl⟩ := List.getElem?_eq_some_iff.1 h
  exact ⟨by rw [← List.drop_eq_getElem_cons hlt, List.take_append_drop],
    List.length_take_of_le (Nat.le_of_lt hlt)⟩

/-- The line at an index is the line of a place, if the place is not before it and the lines behind it
are. -/
theorem lineAt_of_getElem? {cs : List Char} {offset i : Nat} {line : Line}
    (hi : (ofText cs).lines[i]? = some line) (hle : line.start ≤ offset)
    (hafter : ∀ l ∈ (ofText cs).lines.drop (i + 1), offset < l.start) :
    lineAt offset 1 (ofText cs).first (ofText cs).later = (i + 1, line) := by
  obtain ⟨hcut, hlength⟩ := eq_take_append hi
  have hbefore : ∀ l ∈ (ofText cs).lines.take i ++ [line], l.start ≤ offset := by
    intro l hl
    rcases List.mem_append.1 hl with hl | hl
    · exact Nat.le_trans (Nat.le_of_lt ((start_lt_start hcut).1 l hl)) hle
    · exact List.mem_singleton.1 hl ▸ hle
  rw [lineAt_eq hcut hbefore hafter, hlength, Nat.add_comm]

/-- Whatever a search answers, its index is in range, and it is that of the line of the place, which
does not begin behind it. No place comes before the first line. -/
theorem lineAt_of_answers {cs : List Char} {offset : Nat} {answer : Except Nat Nat}
    (h : Answers (ofText cs).starts offset answer) : answer ≠ .error 0 ∧
      ∃ line, (ofText cs).lines[indexOf answer]? = some line ∧ line.start ≤ offset ∧
        lineAt offset 1 (ofText cs).first (ofText cs).later = (indexOf answer + 1, line) := by
  cases h with
  | @found i hi =>
    rw [starts, List.getElem?_map, Option.map_eq_some_iff] at hi
    obtain ⟨line, hline, rfl⟩ := hi
    exact ⟨nofun, line, hline, Nat.le_refl _, lineAt_of_getElem? hline (Nat.le_refl _)
      (start_lt_start (eq_take_append hline).1).2⟩
  | @missing i hle hbefore hafter =>
    rw [starts, ← List.map_drop, List.forall_mem_map] at hafter
    rw [starts, ← List.map_take, List.forall_mem_map] at hbefore
    cases i with
    | zero => exact absurd (hafter (ofText cs).first List.mem_cons_self) (Nat.not_lt_zero _)
    | succ i =>
      have hlt : i < (ofText cs).lines.length := Nat.lt_of_succ_le (by simpa [starts] using hle)
      have hline : (ofText cs).lines[i]? = some (ofText cs).lines[i] := List.getElem?_eq_getElem hlt
      have hmem : (ofText cs).lines[i] ∈ (ofText cs).lines.take (i + 1) := by
        rw [List.take_succ_eq_append_getElem hlt]
        exact List.mem_append_right _ List.mem_cons_self
      have hstart := Nat.le_of_lt (hbefore _ hmem)
      exact ⟨nofun, _, hline, hstart, lineAt_of_getElem? hline hstart hafter⟩

end LineTable
end ScriptTree
