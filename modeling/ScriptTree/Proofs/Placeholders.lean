import ScriptTree.Template

/-! # A template is filled in one step

A template is cut into single characters and placeholders in exactly one way, and which way that is
depends on how many arguments there are, not on what they say. Filling the template replaces every
placeholder by its argument and keeps the characters. To look at one opening brace after the other
is enough, since a placeholder has no other opening brace and so none begins inside another. -/
namespace ScriptTree.Template

/-- A text without braces that numbers one of `count` arguments. It stands between two braces. -/
structure Placeholder (count : Nat) where
  word : List Char
  index : Fin count
  plain : ∀ c ∈ word, c ≠ '\x7b' ∧ c ≠ '\x7d'
  reads : Text.readWord? word = some index.val

def Placeholder.text {count : Nat} (p : Placeholder count) : List Char :=
  '\x7b' :: (p.word ++ ['\x7d'])

/-- A part of a template: a character that is kept, or a placeholder. -/
inductive Part (count : Nat) where
  | char (c : Char)
  | hole (p : Placeholder count)

namespace Part

variable {count : Nat}

def text : Part count → List Char
  | .char c => [c]
  | .hole p => p.text

/-- What a part becomes. -/
def filled (args : List String) : Part args.length → List Char
  | .char c => [c]
  | .hole p => (args.get p.index).toList

theorem text_ne_nil (part : Part count) : part.text ≠ [] := by
  cases part <;> exact List.cons_ne_nil _ _

theorem eq_nil_of_text {parts : List (Part count)} (h : parts.flatMap text = []) : parts = [] := by
  cases parts with
  | nil => rfl
  | cons part parts => exact absurd (List.append_eq_nil_iff.1 h).1 part.text_ne_nil

end Part

/-- The parts make up a template, and a placeholder that occurs anywhere in it is one of them. -/
structure Cut {count : Nat} (template : List Char) (parts : List (Part count)) : Prop where
  text_eq : parts.flatMap Part.text = template
  whole : ∀ before (p : Placeholder count) after, template = before ++ (p.text ++ after) →
    ∃ front back, parts = front ++ .hole p :: back ∧ front.flatMap Part.text = before

variable {count : Nat}

/-! ## Placeholders in a text -/

theorem Placeholder.text_append (p : Placeholder count) (rest : List Char) :
    p.text ++ rest = '\x7b' :: (p.word ++ '\x7d' :: rest) := by
  simp [text]

/-- The word of a placeholder ends at the first brace. -/
theorem Placeholder.takeWhile_word (p : Placeholder count) (rest : List Char) :
    (p.word ++ '\x7d' :: rest).takeWhile (fun c => c != '\x7b' && c != '\x7d') = p.word := by
  rw [List.takeWhile_append_of_pos (by simpa using p.plain),
    List.takeWhile_cons_of_neg (by decide), List.append_nil]

theorem Placeholder.ext_word {p q : Placeholder count} (h : p.word = q.word) : p = q := by
  obtain ⟨word, index, _, hp⟩ := p
  obtain ⟨_, _, _, hq⟩ := q
  obtain rfl := h
  obtain rfl := Fin.ext (Option.some.inj (hp.symm.trans hq))
  rfl

/-- One placeholder at most begins at a place. -/
theorem Placeholder.text_append_inj {p q : Placeholder count} {as bs : List Char}
    (h : p.text ++ as = q.text ++ bs) : p = q ∧ as = bs := by
  rw [text_append, text_append] at h
  have hword : p.word ++ '\x7d' :: as = q.word ++ '\x7d' :: bs := (List.cons.inj h).2
  have hsame : p.word = q.word := by rw [← p.takeWhile_word as, hword, q.takeWhile_word bs]
  rw [hsame] at hword
  exact ⟨ext_word hsame, (List.cons.inj (List.append_cancel_left hword)).2⟩

/-- No placeholder begins inside another. -/
theorem Placeholder.after_of_append_eq {p q : Placeholder count} {rest before after : List Char}
    (h : p.text ++ rest = before ++ (q.text ++ after)) (hne : before ≠ []) :
    ∃ between, before = p.text ++ between ∧ rest = between ++ (q.text ++ after) := by
  rcases List.append_eq_append_iff.1 h with ⟨between, hbefore, hrest⟩ | ⟨inner, hp, hq⟩
  · exact ⟨between, hbefore, hrest⟩
  · cases inner with
    | nil => exact ⟨[], by simpa using hp.symm, hq.symm⟩
    | cons c inner =>
      -- Else the opening brace of `q` would be in `p`, and not at its front.
      obtain ⟨d, before, rfl⟩ := List.exists_cons_of_ne_nil hne
      obtain rfl : '\x7b' = c := (List.cons.inj hq).1
      have htail : p.word ++ ['\x7d'] = before ++ '\x7b' :: inner := (List.cons.inj hp).2
      have hmem : '\x7b' ∈ p.word ++ ['\x7d'] := by simp [htail]
      rcases List.mem_append.1 hmem with hword | hclose
      · exact absurd rfl (p.plain _ hword).1
      · exact absurd (List.mem_singleton.1 hclose) (by decide)

/-! ## Cuts -/

theorem Cut.nil : Cut [] ([] : List (Part count)) where
  text_eq := rfl
  whole before p after h := by simp [Placeholder.text] at h

/-- A character is kept if no placeholder begins with it. -/
theorem Cut.char {c : Char} {template : List Char} {parts : List (Part count)}
    (h : Cut template parts)
    (hc : ∀ (p : Placeholder count) after, c :: template ≠ p.text ++ after) :
    Cut (c :: template) (.char c :: parts) where
  text_eq := congrArg (List.cons c) h.text_eq
  whole before p after heq := by
    cases before with
    | nil => exact absurd heq (hc p after)
    | cons d before =>
      obtain ⟨rfl, htemplate⟩ := List.cons.inj heq
      obtain ⟨front, back, rfl, rfl⟩ := h.whole before p after htemplate
      exact ⟨.char c :: front, back, rfl, rfl⟩

theorem Cut.hole {template : List Char} {parts : List (Part count)} (h : Cut template parts)
    (p : Placeholder count) : Cut (p.text ++ template) (.hole p :: parts) where
  text_eq := congrArg (p.text ++ ·) h.text_eq
  whole before q after heq := by
    by_cases hbefore : before = []
    · subst hbefore
      obtain ⟨rfl, -⟩ := Placeholder.text_append_inj heq
      exact ⟨[], parts, rfl, rfl⟩
    · obtain ⟨between, rfl, htemplate⟩ := Placeholder.after_of_append_eq heq hbefore
      obtain ⟨front, back, rfl, rfl⟩ := h.whole between q after htemplate
      exact ⟨.hole p :: front, back, rfl, rfl⟩

/-- A placeholder at the front of a template is its first part. -/
theorem Cut.front {p : Placeholder count} {part : Part count} {parts : List (Part count)}
    {template after : List Char} (h : Cut template (part :: parts))
    (hp : template = p.text ++ after) : part = .hole p := by
  obtain ⟨front, back, hparts, hfront⟩ := h.whole [] p after hp
  cases front with
  | nil => exact (List.cons.inj hparts).1
  | cons first front => exact absurd (List.append_eq_nil_iff.1 hfront).1 first.text_ne_nil

theorem Cut.tail {part : Part count} {parts : List (Part count)} {template : List Char}
    (h : Cut template (part :: parts)) : Cut (parts.flatMap Part.text) parts where
  text_eq := rfl
  whole before p after heq := by
    have htemplate : template = (part.text ++ before) ++ (p.text ++ after) := by
      rw [← h.text_eq, List.flatMap_cons, heq, List.append_assoc]
    obtain ⟨front, back, hparts, hfront⟩ := h.whole _ p after htemplate
    cases front with
    | nil => exact absurd (List.append_eq_nil_iff.1 hfront.symm).1 part.text_ne_nil
    | cons first front =>
      obtain ⟨rfl, rfl⟩ := List.cons.inj hparts
      exact ⟨front, back, rfl, List.append_cancel_left hfront⟩

/-- There is one way to cut a template. -/
theorem Cut.unique {template : List Char} {parts others : List (Part count)}
    (h : Cut template parts) (ho : Cut template others) : parts = others := by
  induction parts generalizing template others with
  | nil => exact (Part.eq_nil_of_text (ho.text_eq.trans h.text_eq.symm)).symm
  | cons part parts ih =>
    cases others with
    | nil => exact Part.eq_nil_of_text (h.text_eq.trans ho.text_eq.symm)
    | cons other others =>
      have htext : part.text ++ parts.flatMap Part.text = other.text ++ others.flatMap Part.text :=
        h.text_eq.trans ho.text_eq.symm
      have hpart : part = other := by
        cases part with
        | hole p => exact (ho.front h.text_eq.symm).symm
        | char c =>
          cases other with
          | hole q => exact h.front ho.text_eq.symm
          | char d => rw [(List.cons.inj htext).1]
      subst hpart
      have hrest := List.append_cancel_left htext
      rw [ih h.tail (hrest ▸ ho.tail)]

/-! ## Filling -/

variable {args : List String}

/-- Behind an opening brace just the placeholders are found. -/
theorem placeholder?_text (p : Placeholder args.length) (rest : List Char) :
    placeholder? (args.map String.toList) (p.word ++ '\x7d' :: rest) =
      some ((args.get p.index).toList, p.word.length + 1) := by
  rw [placeholder?, p.takeWhile_word]
  simp [p.reads]

theorem exists_of_placeholder? {cs arg : List Char} {width : Nat}
    (h : placeholder? (args.map String.toList) cs = some (arg, width)) :
    ∃ (p : Placeholder args.length) (rest : List Char), cs = p.word ++ '\x7d' :: rest ∧
      arg = (args.get p.index).toList ∧ width = p.word.length + 1 := by
  unfold placeholder? at h
  dsimp only at h
  split at h
  · rename_i hclosed
    obtain ⟨i, hi, harg⟩ := Option.bind_eq_some_iff.1 h
    obtain ⟨a, ha, he⟩ := Option.map_eq_some_iff.1 harg
    obtain ⟨rfl, rfl⟩ := Prod.mk.inj he
    rw [List.getElem?_map, Option.map_eq_some_iff] at ha
    obtain ⟨s, hs, rfl⟩ := ha
    obtain ⟨hlt, rfl⟩ := List.getElem?_eq_some_iff.1 hs
    obtain ⟨rest, hrest⟩ := List.head?_eq_some_iff.1 hclosed
    refine ⟨⟨_, ⟨i, hlt⟩, fun c hc => ?_, hi⟩, rest, ?_, rfl, rfl⟩
    · simpa using List.all_eq_true.1 List.all_takeWhile c hc
    · rw [← hrest]
      exact (List.prefix_iff_eq_append.1 (List.takeWhile_prefix _)).symm
  · cases h

theorem fillAfter_length (args : List (List Char)) (as cs : List Char) :
    fillAfter args as.length (as ++ cs) = fillAfter args 0 cs := by
  induction as with
  | nil => rfl
  | cons a as ih => exact ih

theorem fillAfter_hole (p : Placeholder args.length) (rest : List Char) :
    fillAfter (args.map String.toList) 0 (p.text ++ rest) =
      (args.get p.index).toList ++ fillAfter (args.map String.toList) 0 rest := by
  have hskip := fillAfter_length (args.map String.toList) (p.word ++ ['\x7d']) rest
  rw [List.length_append, List.append_assoc] at hskip
  rw [p.text_append, fillAfter, if_pos rfl, placeholder?_text]
  exact congrArg _ hskip

theorem fillAfter_char {c : Char} {cs : List Char}
    (h : ∀ (p : Placeholder args.length) after, c :: cs ≠ p.text ++ after) :
    fillAfter (args.map String.toList) 0 (c :: cs) =
      c :: fillAfter (args.map String.toList) 0 cs := by
  have hnone : (if c = '\x7b' then placeholder? (args.map String.toList) cs else none) = none := by
    split
    · rename_i hc
      refine Option.eq_none_iff_forall_ne_some.2 fun found hfound => ?_
      obtain ⟨p, rest, rfl, -⟩ := exists_of_placeholder? hfound
      exact h p rest (by rw [hc, p.text_append])
    · rfl
  rw [fillAfter, hnone]

/-- A cut is found from the front of a template, part by part. -/
theorem exists_cut (args : List String) (cs : List Char) :
    ∃ parts : List (Part args.length), Cut cs parts ∧
      fillAfter (args.map String.toList) 0 cs = parts.flatMap (Part.filled args) := by
  induction hn : cs.length using Nat.strongRecOn generalizing cs with
  | ind n ih =>
    subst hn
    by_cases hfront : ∃ (p : Placeholder args.length) (after : List Char), cs = p.text ++ after
    · obtain ⟨p, after, rfl⟩ := hfront
      obtain ⟨parts, hcut, hfill⟩ := ih after.length (by simp [Placeholder.text]; omega) after rfl
      exact ⟨.hole p :: parts, hcut.hole p, (fillAfter_hole p after).trans (congrArg _ hfill)⟩
    · have hkept p after (heq : cs = p.text ++ after) : False := hfront ⟨p, after, heq⟩
      cases cs with
      | nil => exact ⟨[], .nil, rfl⟩
      | cons c cs =>
        obtain ⟨parts, hcut, hfill⟩ := ih cs.length (Nat.lt_succ_self _) cs rfl
        exact ⟨.char c :: parts, hcut.char hkept, (fillAfter_char hkept).trans (congrArg _ hfill)⟩

/-- Filling a template is one simultaneous substitution: the template is cut into characters and
placeholders, every placeholder that occurs in it among them and in the only way there is, and each
placeholder is replaced by its argument while the characters stay as they are. The cut is one of the
template alone, so what the arguments bring in is not looked at again. -/
theorem fill_eq_substitution (template : String) (args : List String) :
    ∃ parts : List (Part args.length), Cut template.toList parts ∧
      (∀ others, Cut template.toList others → others = parts) ∧
      fill template args = String.ofList (parts.flatMap (Part.filled args)) := by
  obtain ⟨parts, hcut, hfill⟩ := exists_cut args template.toList
  exact ⟨parts, hcut, fun _ ho => ho.unique hcut, congrArg String.ofList hfill⟩

/-- A brace that has no match, a number out of range, an argument that reads like a placeholder. -/
example : fill "\x7b\x7b0\x7d \x7b2\x7d" ["\x7b+1\x7d", "b"] = "\x7b\x7b+1\x7d \x7b2\x7d" := by
  decide +kernel

end ScriptTree.Template
