import ScriptTree.Proofs.Calls
import ScriptTree.Proofs.SingleLine

/-! # Regular expression literals as a walk with two states

The scanner of regular expressions keeps the brackets that are open. A class can only be the
innermost of them, since nothing opens inside a class; so all that the brackets tell is whether a
class is open, and the scanner ends where a walk with two states ends. -/
namespace ScriptTree.Pattern

/-! ## The walk -/

inductive Region where
  | outside
  | inClass
deriving DecidableEq, Repr

/-- A class goes from a bracket outside of classes to the next closing one. -/
def Region.step : Region → Char → Region
  | .outside, '[' => .inClass
  | .inClass, ']' => .outside
  | region, _ => region

/-- A region, and whether the next character is escaped. -/
structure Place where
  region : Region
  escaped : Bool
deriving DecidableEq, Repr

namespace Place

/-- An escaped character has no effect, whatever it is. -/
def step (p : Place) (c : Char) : Place :=
  if p.escaped then ⟨p.region, false⟩
  else if c = '\\' then ⟨p.region, true⟩
  else ⟨p.region.step c, false⟩

theorem step_plain {c : Char} (hc : c ≠ '\\') (region : Region) :
    step ⟨region, false⟩ c = ⟨region.step c, false⟩ := if_neg hc

def after (p : Place) (cs : List Char) : Place := cs.foldl step p

/-- Where a pattern begins, and where a slash ends it. -/
def free : Place := ⟨.outside, false⟩

/-- The first slash that ends a pattern stands right behind `body`, on the same line. -/
structure Ends (p : Place) (body : List Char) : Prop where
  isFree : p.after body = free
  first : ∀ before more, body = before ++ '/' :: more → p.after before ≠ free
  inline : Text.Inline body

/-- No slash ends the pattern before a line or the text ends. -/
def Open (p : Place) (cs : List Char) : Prop :=
  ∀ body tail, cs = body ++ '/' :: tail → p.after body = free →
    ∃ c ∈ body, Text.isLineBreak c = true

/-- The extent of a body as a walk from some place finds it. -/
inductive Finds (p : Place) : List Char → Extent → Prop
  | ending {body tail} : p.Ends body → Finds p (body ++ '/' :: tail) ⟨body.length + 1, true⟩
  | missing {cs n} : p.Open cs → Finds p cs ⟨n, false⟩

variable {p : Place} {c : Char} {cs : List Char}

theorem Finds.nil : p.Finds [] ⟨0, false⟩ := by
  refine .missing fun body tail he => ?_
  simp at he

theorem Finds.lineBreak (hc : Text.isLineBreak c = true) : p.Finds (c :: cs) ⟨0, false⟩ := by
  refine .missing fun body tail he _ => ?_
  cases body with
  | nil =>
    obtain ⟨rfl, -⟩ := List.cons.inj he
    cases hc
  | cons d body =>
    obtain ⟨rfl, -⟩ := List.cons.inj he
    exact ⟨c, List.mem_cons_self, hc⟩

theorem Finds.slash : free.Finds ('/' :: cs) ⟨1, true⟩ :=
  @Finds.ending free [] cs ⟨rfl, by simp, Text.inline_nil⟩

/-- A character that ends neither the line nor the pattern goes in front. -/
theorem Finds.cons {e : Extent} (hc : Text.isLineBreak c = false) (hno : c = '/' → p ≠ free)
    (h : (p.step c).Finds cs e) : p.Finds (c :: cs) (e.after 1) := by
  cases h with
  | @ending body tail hends =>
    have hlength : (⟨body.length + 1, true⟩ : Extent).after 1 = ⟨(c :: body).length + 1, true⟩ := by
      rw [Extent.after, Nat.add_comm 1]
      rfl
    rw [hlength]
    refine @Finds.ending p (c :: body) tail ⟨hends.isFree, ?_, Text.inline_cons hc hends.inline⟩
    intro before more he
    cases before with
    | nil => exact hno (List.cons.inj he).1
    | cons d before =>
      obtain ⟨rfl, hbody⟩ := List.cons.inj he
      exact hends.first before more hbody
  | missing hopen =>
    refine .missing fun body tail he hfree => ?_
    cases body with
    | nil => exact absurd hfree (hno (List.cons.inj he).1)
    | cons d body =>
      obtain ⟨rfl, hcs⟩ := List.cons.inj he
      obtain ⟨b, hb, hbreak⟩ := hopen body tail hcs hfree
      exact ⟨b, List.mem_cons_of_mem _ hb, hbreak⟩

end Place

/-! ## The brackets -/

/-- The region that open brackets tell of. -/
def regionOf (opened : List Char) : Region :=
  if opened.head? = some '[' then .inClass else .outside

/-- Nothing is opened inside a class. -/
def Innermost (opened : List Char) : Prop := '[' ∉ opened.tail

theorem regionOf_of_not_mem {opened : List Char} (h : '[' ∉ opened) : regionOf opened = .outside :=
  if_neg fun he => h (List.mem_of_mem_head? he)

theorem innermost_of_not_mem {opened : List Char} (h : '[' ∉ opened) : Innermost opened :=
  fun he => h (List.mem_of_mem_tail he)

theorem contains_iff {opened : List Char} (h : Innermost opened) :
    opened.contains '[' = true ↔ regionOf opened = .inClass := by
  cases opened with
  | nil => simp [regionOf]
  | cons b outer =>
    have hb : '[' ∉ outer := h
    by_cases hopen : b = '['
    · simp [regionOf, hopen]
    · simp [regionOf, hopen, hb, Ne.symm hopen]

theorem brackets_inClass (c : Char) (outer : List Char) :
    brackets c ('[' :: outer) = if c = ']' then outer else '[' :: outer := by
  unfold brackets
  split <;> simp_all

theorem brackets_opening {opened : List Char} (h : '[' ∉ opened) :
    brackets '[' opened = '[' :: opened := by
  unfold brackets
  split <;> simp_all

theorem brackets_outside {c : Char} {opened : List Char} (hc : c ≠ '[') (h : '[' ∉ opened) :
    '[' ∉ brackets c opened := by
  unfold brackets
  split <;> simp_all

theorem Region.step_outside {c : Char} (hc : c ≠ '[') : Region.step .outside c = .outside := by
  unfold Region.step
  split <;> simp_all

theorem Region.step_inClass {c : Char} (hc : c ≠ ']') : Region.step .inClass c = .inClass := by
  unfold Region.step
  split <;> simp_all

/-- Open brackets change as the region does: what is opened outside of classes is forgotten, since
it can never be in the way of a class. -/
theorem brackets_spec {opened : List Char} (h : Innermost opened) (c : Char) :
    Innermost (brackets c opened) ∧ regionOf (brackets c opened) = (regionOf opened).step c := by
  by_cases hclass : regionOf opened = .inClass
  · obtain ⟨outer, rfl⟩ : ∃ outer, opened = '[' :: outer := by
      unfold regionOf at hclass
      split at hclass
      · rename_i hhead
        exact List.head?_eq_some_iff.1 hhead
      · cases hclass
    have houter : '[' ∉ outer := h
    rw [hclass, brackets_inClass]
    by_cases hc : c = ']'
    · rw [if_pos hc, hc]
      exact ⟨innermost_of_not_mem houter, regionOf_of_not_mem houter⟩
    · rw [if_neg hc, Region.step_inClass hc]
      exact ⟨h, hclass⟩
  · have hnone : '[' ∉ opened := by
      rwa [← contains_iff h, List.contains_iff_mem] at hclass
    rw [regionOf_of_not_mem hnone]
    by_cases hc : c = '['
    · rw [hc, brackets_opening hnone]
      exact ⟨hnone, rfl⟩
    · have houtside := brackets_outside hc hnone
      rw [Region.step_outside hc]
      exact ⟨innermost_of_not_mem houtside, regionOf_of_not_mem houtside⟩

/-- The scanner of bodies ends where the walk does. -/
theorem bodyExtent_finds {opened : List Char} (h : Innermost opened) (isEscaped : Bool)
    (cs : List Char) :
    Place.Finds ⟨regionOf opened, isEscaped⟩ cs (bodyExtent isEscaped opened cs) := by
  -- The scanner's own cases; `Innermost` is what makes a class the only thing that matters.
  fun_induction bodyExtent isEscaped opened cs with
  | case1 => exact .nil
  | case2 _ _ _ _ hbreak => exact .lineBreak hbreak
  | case3 opened c cs hbreak ih =>
    refine .cons (Bool.eq_false_iff.2 hbreak) (fun _ => ?_) (ih h)
    simp [Place.free]
  | case4 isEscaped opened cs hescaped hbreak ih =>
    rw [Bool.eq_false_iff.2 hescaped]
    refine .cons (Bool.eq_false_iff.2 hbreak) (fun hc => ?_) (ih h)
    cases hc
  | case5 isEscaped opened c cs hbreak hescaped hc hclose =>
    obtain ⟨rfl, houtside⟩ := hclose
    rw [Bool.eq_false_iff.2 hescaped, regionOf_of_not_mem (by simpa using houtside)]
    exact .slash
  | case6 isEscaped opened c cs hbreak hescaped hc hopen ih =>
    obtain ⟨hinner, hregion⟩ := brackets_spec h c
    have hfinds := ih hinner
    rw [hregion, ← Place.step_plain hc] at hfinds
    rw [Bool.eq_false_iff.2 hescaped]
    refine .cons (Bool.eq_false_iff.2 hbreak) (fun hslash hfree => hopen ⟨hslash, ?_⟩) hfinds
    have hclass : regionOf opened ≠ .inClass := by
      rw [(Place.mk.inj hfree).1]
      exact Region.noConfusion
    rw [Bool.not_eq_true', Bool.eq_false_iff]
    exact fun hmem => hclass ((contains_iff h).1 hmem)

/-! ## Flags -/

/-- Flags that may stand together, in any order. -/
structure Flags (cs : List Char) : Prop where
  distinct : cs.Nodup
  letters : ∀ c ∈ cs, c = 'g' ∨ c = 'i' ∨ c = 'm'

/-- Flags at the front of a text, as many as there are. -/
structure LongestFlags (cs flags : List Char) : Prop where
  front : flags <+: cs
  allowed : Flags flags
  longest (other : List Char) : other <+: cs → Flags other → other.length ≤ flags.length

theorem isFlag_iff (c : Char) : isFlag c = true ↔ c = 'g' ∨ c = 'i' ∨ c = 'm' := by
  simp [isFlag, or_assoc]

theorem flags_nil : Flags [] := ⟨List.nodup_nil, fun _ hc => absurd hc List.not_mem_nil⟩

theorem flags_cons {c : Char} {cs : List Char} :
    Flags (c :: cs) ↔ (isFlag c && !cs.contains c) = true ∧ Flags cs := by
  constructor
  · intro h
    obtain ⟨hnot, hdistinct⟩ := List.nodup_cons.1 h.distinct
    have hc := (isFlag_iff c).2 (h.letters c List.mem_cons_self)
    refine ⟨?_, hdistinct, fun d hd => h.letters d (List.mem_cons_of_mem _ hd)⟩
    simpa [hc] using hnot
  · rintro ⟨hc, hdistinct, hletters⟩
    obtain ⟨hflag, hnot⟩ := Bool.and_eq_true_iff.1 hc
    refine ⟨List.nodup_cons.2 ⟨by simpa using hnot, hdistinct⟩, fun d hd => ?_⟩
    rcases List.mem_cons.1 hd with rfl | hd
    · exact (isFlag_iff d).1 hflag
    · exact hletters d hd

theorem Flags.perm {cs ds : List Char} (h : Flags cs) (hp : cs.Perm ds) : Flags ds :=
  ⟨hp.nodup_iff.1 h.distinct, fun c hc => h.letters c (hp.mem_iff.2 hc)⟩

theorem Flags.right {cs ds : List Char} (h : Flags (cs ++ ds)) : Flags ds :=
  ⟨(List.nodup_append.1 h.distinct).2.1, fun c hc => h.letters c (List.mem_append_right cs hc)⟩

/-- It makes no difference whether a flag counts as seen or as the next one. -/
theorem flags_middle {c : Char} {cs seen : List Char} :
    Flags (cs ++ c :: seen) ↔ Flags (c :: cs ++ seen) :=
  ⟨fun h => h.perm List.perm_middle, fun h => h.perm List.perm_middle.symm⟩

/-- The scanner of flags takes as many as may stand together with those seen. -/
theorem flagExtent_spec {seen : List Char} (h : Flags seen) (cs : List Char) :
    ∃ flags rest, cs = flags ++ rest ∧ Flags (flags ++ seen) ∧
      (∀ other, other <+: cs → Flags (other ++ seen) → other.length ≤ flags.length) ∧
      flagExtent seen cs = ⟨flags.length, !rest.head?.any Text.isWordStart⟩ := by
  fun_induction flagExtent seen cs with
  | case1 => exact ⟨[], [], rfl, h, fun other ho _ => ho.length_le, rfl⟩
  | case2 seen c cs hc ih =>
    obtain ⟨flags, rest, rfl, hflags, hlongest, hextent⟩ := ih (flags_cons.2 ⟨hc, h⟩)
    refine ⟨c :: flags, rest, rfl, flags_middle.1 hflags, fun other ho hother => ?_, ?_⟩
    · cases other with
      | nil => exact Nat.zero_le _
      | cons d other =>
        obtain ⟨rfl, htail⟩ := List.cons_prefix_cons.1 ho
        exact Nat.succ_le_succ (hlongest other htail (flags_middle.2 hother))
    · rw [hextent, Extent.after, Nat.add_comm]
      rfl
  | case3 seen c cs hc =>
    refine ⟨[], c :: cs, rfl, h, fun other ho hother => ?_, rfl⟩
    cases other with
    | nil => exact Nat.le_refl _
    | cons d other =>
      obtain ⟨rfl, -⟩ := List.cons_prefix_cons.1 ho
      have hseen : Flags (d :: seen) := (flags_middle.2 hother).right
      exact absurd (flags_cons.1 hseen).1 hc

/-! ## Literals -/

/-- Either no slash ends the pattern, or one does and the flags come behind it. -/
inductive Scanned (cs : List Char) : Scan → Prop
  | unterminated {n} : Place.free.Open cs → Scanned cs ⟨n, .error .unterminatedRegex⟩
  | ended {body flags rest} : cs = body ++ '/' :: (flags ++ rest) → Place.free.Ends body →
      LongestFlags (flags ++ rest) flags →
      Scanned cs ⟨('/' :: (body ++ '/' :: flags)).length,
        if rest.head?.any Text.isWordStart then .error .invalidRegexFlags
        else .ok (.regex (String.ofList ('/' :: (body ++ ['/']))) (String.ofList flags))⟩

theorem scan_scanned (cs : List Char) : Scanned cs (scan cs) := by
  have hfinds : Place.free.Finds cs (bodyExtent false [] cs) :=
    bodyExtent_finds (innermost_of_not_mem List.not_mem_nil) false cs
  unfold scan
  generalize bodyExtent false [] cs = e at hfinds ⊢
  cases hfinds with
  | missing hopen => exact .unterminated hopen
  | @ending body tail hends =>
    obtain ⟨flags, rest, rfl, hflags, hlongest, hextent⟩ := flagExtent_spec flags_nil tail
    simp only [List.append_nil] at hflags hlongest
    have hbody : (body ++ '/' :: (flags ++ rest)).take (body.length + 1) = body ++ ['/'] := by
      rw [List.take_length_add_append]
      rfl
    have htail : (body ++ '/' :: (flags ++ rest)).drop (body.length + 1) = flags ++ rest := by
      rw [List.drop_length_add_append]
      rfl
    have hlength : 1 + (body.length + 1) + flags.length =
        ('/' :: (body ++ '/' :: flags)).length := by
      simp
      omega
    have hscanned := Scanned.ended rfl hends ⟨List.prefix_append flags rest, hflags, hlongest⟩
    dsimp only
    rw [if_pos rfl, hbody, htail, hextent, hlength, List.take_left]
    cases hname : rest.head?.any Text.isWordStart with
    | true | false =>
      rw [hname] at hscanned
      exact hscanned

theorem Scanned.open_iff {cs : List Char} {s : Scan} (h : Scanned cs s) :
    s.found = .error .unterminatedRegex ↔ Place.free.Open cs := by
  cases h with
  | unterminated hopen => exact ⟨fun _ => hopen, fun _ => rfl⟩
  | @ended body flags rest hcs hends =>
    constructor
    · intro he
      dsimp only at he
      split at he <;> cases he
    · intro hopen
      obtain ⟨c, hc, hbreak⟩ := hopen body (flags ++ rest) hcs hends.isFree
      rw [hends.inline c hc] at hbreak
      cases hbreak

end ScriptTree.Pattern

namespace ScriptTree.Lexer

/-- Where an operand may begin, a slash opens a pattern. It ends at the first slash that is neither
escaped nor in a class; without one before the line ends it is unterminated. The longest flags
behind it are taken, and no name may go on with them. -/
theorem next_regex {c : Cursor} {cs : List Char} (hclosed : (Trivia.skip c.rest).valid = true)
    (hslash : (front c).rest = '/' :: cs) :
    ((next false c).1 = .error ⟨.unterminatedRegex, (front c).offset⟩ ↔
      Pattern.Place.free.Open cs) ∧
    (¬ Pattern.Place.free.Open cs → ∃ body flags rest, cs = body ++ '/' :: (flags ++ rest) ∧
      Pattern.Place.free.Ends body ∧ Pattern.LongestFlags (flags ++ rest) flags ∧
      (next false c).1 =
        if rest.head?.any Text.isWordStart then .error ⟨.invalidRegexFlags, (front c).offset⟩
        else .ok ⟨.regex (String.ofList ('/' :: (body ++ ['/']))) (String.ofList flags),
          (front c).offset, (front c).offset + Text.bytes ('/' :: (body ++ '/' :: flags))⟩) := by
  have hscanned := Pattern.scan_scanned cs
  have hscan : scan false (front c).rest = Pattern.scan cs := by
    rw [hslash]
    rfl
  refine ⟨?_, fun hend => ?_⟩
  · rw [← hscanned.open_iff, ← hscan, next_of_closed false hclosed]
    cases (scan false (front c).rest).found <;> simp [Except.map, Except.mapError]
  · rw [← hscan] at hscanned
    generalize hs : scan false (front c).rest = s at hscanned
    cases hscanned with
    | unterminated hopen => exact absurd hopen hend
    | @ended body flags rest hcs hends hflags =>
      refine ⟨body, flags, rest, hcs, hends, hflags, ?_⟩
      split at hs
      · rename_i hname
        rw [if_pos hname, next_of_closed false hclosed, hs]
        rfl
      · rename_i hname
        have htext : (front c).rest = '/' :: (body ++ '/' :: flags) ++ rest := by
          rw [hslash, hcs]
          simp
        rw [if_neg hname, next_of_scan hclosed htext hs]

/-- A slash in a class and one behind a backslash do not end the pattern, nor do groups matter. -/
theorem next_regex_class :
    let c := Cursor.ofText " /(a[/\\]]\\/)/gm;".toList
    let cs := "(a[/\\]]\\/)/gm;".toList
    (Trivia.skip c.rest).valid = true ∧ (front c).rest = '/' :: cs ∧
    (next false c).1 = .ok ⟨.regex "/(a[/\\]]\\/)/" "gm", 1, 15⟩ ∧
    Pattern.Place.free.Ends "(a[/\\]]\\/)".toList ∧
    Pattern.LongestFlags "gm;".toList "gm".toList := by
  intro c cs
  have hclosed : (Trivia.skip c.rest).valid = true := by decide
  have hslash : (front c).rest = '/' :: cs := by decide
  have hnext : (next false c).1 = .ok ⟨.regex "/(a[/\\]]\\/)/" "gm", 1, 15⟩ := by rfl
  obtain ⟨hopen, hend⟩ := next_regex hclosed hslash
  rw [hnext] at hopen hend
  obtain ⟨body, flags, rest, hcs, hends, hflags, htoken⟩ := hend (mt hopen.2 nofun)
  split at htoken
  · cases htoken
  · have hkind := (Token.mk.inj (Except.ok.inj htoken)).1
    obtain ⟨hbody, hletters⟩ := TokenKind.regex.inj hkind
    obtain rfl : body = "(a[/\\]]\\/)".toList := by
      have hpattern : '/' :: ("(a[/\\]]\\/)".toList ++ ['/']) = '/' :: (body ++ ['/']) :=
        String.ofList_injective hbody
      exact (List.append_cancel_right (List.cons.inj hpattern).2).symm
    obtain rfl : flags = "gm".toList := String.ofList_injective hletters.symm
    obtain rfl : rest = ";".toList := by
      have htext : "(a[/\\]]\\/)/gm".toList ++ ";".toList = "(a[/\\]]\\/)/gm".toList ++ rest := hcs
      exact (List.append_cancel_left htext).symm
    exact ⟨hclosed, hslash, hnext, hends, hflags⟩

end ScriptTree.Lexer
