/-! Lengths of text. Offsets count bytes of UTF-8 and columns count code units of UTF-16; both are
sums over the characters, so they add up over `++`. A cut at a byte count fails inside a
character. -/
namespace ScriptTree.Text

/-- Length in bytes of UTF-8. -/
def bytes : List Char → Nat
  | [] => 0
  | c :: cs => c.utf8Size + bytes cs

/-- Code units of UTF-16 that a character takes. -/
def unitSize (c : Char) : Nat := if c.toNat < 0x10000 then 1 else 2

/-- Length in code units of UTF-16. -/
def units : List Char → Nat
  | [] => 0
  | c :: cs => unitSize c + units cs

/-- The text after its first `n` bytes; none if `n` lies inside a character or past the end. -/
def dropBytes : Nat → List Char → Option (List Char)
  | 0, cs => some cs
  | _ + 1, [] => none
  | n + 1, c :: cs => if c.utf8Size ≤ n + 1 then dropBytes (n + 1 - c.utf8Size) cs else none

/-- The first `n` bytes; none if `n` lies inside a character or past the end. -/
def takeBytes : Nat → List Char → Option (List Char)
  | 0, _ => some []
  | _ + 1, [] => none
  | n + 1, c :: cs =>
    if c.utf8Size ≤ n + 1 then (takeBytes (n + 1 - c.utf8Size) cs).map (c :: ·) else none

/-- The code units in the first `n` bytes, counted on from `count`; none if `n` lies inside a
character or past the end. -/
def unitsBefore (count : Nat) : (n : Nat) → List Char → Option Nat
  | 0, _ => some count
  | _ + 1, [] => none
  | n + 1, c :: cs =>
    if c.utf8Size ≤ n + 1 then unitsBefore (count + unitSize c) (n + 1 - c.utf8Size) cs else none

/-- The first `n` bytes after `text`; none if `n` lies inside a character or past the end. -/
def textBefore (text : String) : (n : Nat) → List Char → Option String
  | 0, _ => some text
  | _ + 1, [] => none
  | n + 1, c :: cs =>
    if c.utf8Size ≤ n + 1 then textBefore (text.push c) (n + 1 - c.utf8Size) cs else none

/-- The text from byte `start` up to byte `stop`. -/
def slice (cs : List Char) (start stop : Nat) : Option String :=
  if start ≤ stop then (dropBytes start cs).bind (textBefore "" (stop - start)) else none

@[simp] theorem bytes_append (as bs : List Char) : bytes (as ++ bs) = bytes as + bytes bs := by
  induction as with
  | nil => simp [bytes]
  | cons a as ih => simp [bytes, ih, Nat.add_assoc]

@[simp] theorem units_append (as bs : List Char) : units (as ++ bs) = units as + units bs := by
  induction as with
  | nil => simp [units]
  | cons a as ih => simp [units, ih, Nat.add_assoc]

/-- A count that goes past one character, in the form in which the cuts below take it. -/
theorem exists_utf8Size_add (c : Char) (n : Nat) :
    ∃ k, c.utf8Size + n = k + 1 ∧ c.utf8Size ≤ k + 1 ∧ k + 1 - c.utf8Size = n := by
  have h := c.utf8Size_pos
  exact ⟨c.utf8Size + n - 1, by omega, by omega, by omega⟩

/-- Cutting after a whole part gives that part's remainder. -/
@[simp] theorem dropBytes_append (as bs : List Char) :
    dropBytes (bytes as) (as ++ bs) = some bs := by
  induction as with
  | nil => simp [bytes, dropBytes]
  | cons a as ih =>
    obtain ⟨k, hk, hl, hd⟩ := exists_utf8Size_add a (bytes as)
    simp [bytes, hk, dropBytes, hd, hl, ih]

@[simp] theorem takeBytes_append (as bs : List Char) :
    takeBytes (bytes as) (as ++ bs) = some as := by
  induction as with
  | nil => simp [bytes, takeBytes]
  | cons a as ih =>
    obtain ⟨k, hk, hl, hd⟩ := exists_utf8Size_add a (bytes as)
    simp [bytes, hk, takeBytes, hd, hl, ih]

/-- Counting on the way is the same as cutting first. -/
theorem unitsBefore_eq (count n : Nat) (cs : List Char) :
    unitsBefore count n cs = (takeBytes n cs).map (count + units ·) := by
  fun_induction unitsBefore count n cs with
  | case1 => simp [takeBytes, units]
  | case2 => simp [takeBytes]
  | case3 count n c cs h ih =>
    simp [takeBytes, h, ih, Function.comp_def, units, Nat.add_assoc]
  | case4 count n c cs h => simp [takeBytes, h]

theorem textBefore_eq (text : String) (n : Nat) (cs : List Char) :
    textBefore text n cs = (takeBytes n cs).map (text ++ String.ofList ·) := by
  fun_induction textBefore text n cs with
  | case1 => simp [takeBytes]
  | case2 => simp [takeBytes]
  | case3 text n c cs h ih =>
    have push (as : List Char) :
        text.push c ++ String.ofList as = text ++ String.ofList (c :: as) := by
      apply String.toList_injective
      simp
    simp [takeBytes, h, ih, Function.comp_def, push]
  | case4 text n c cs h => simp [takeBytes, h]

/-- What is cut off and what is left add up. -/
theorem bytes_dropBytes {n : Nat} {cs rest : List Char} (h : dropBytes n cs = some rest) :
    n + bytes rest = bytes cs := by
  fun_induction dropBytes n cs with
  | case1 => simp_all
  | case2 => simp at h
  | case3 n c cs hc ih =>
    have := ih h
    simp only [bytes]
    omega
  | case4 => simp at h

theorem eq_nil_of_bytes_eq_zero {cs : List Char} (h : bytes cs = 0) : cs = [] := by
  cases cs with
  | nil => rfl
  | cons c cs =>
    have hpos := c.utf8Size_pos
    rw [bytes] at h
    omega

/-- A text is cut in one way at a number of bytes. -/
theorem append_inj_of_bytes_eq {as bs cs ds : List Char} (h : as ++ bs = cs ++ ds)
    (hb : bytes as = bytes cs) : as = cs ∧ bs = ds := by
  rcases List.append_eq_append_iff.1 h with ⟨xs, rfl, rfl⟩ | ⟨xs, rfl, rfl⟩
  · obtain rfl : xs = [] := eq_nil_of_bytes_eq_zero (by rw [bytes_append] at hb; omega)
    simp
  · obtain rfl : xs = [] := eq_nil_of_bytes_eq_zero (by rw [bytes_append] at hb; omega)
    simp

theorem slice_append (as bs cs : List Char) :
    slice (as ++ (bs ++ cs)) (bytes as) (bytes as + bytes bs) = some (String.ofList bs) := by
  simp [slice, textBefore_eq]

end ScriptTree.Text
