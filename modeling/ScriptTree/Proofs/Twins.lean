import ScriptTree.Proofs.TokenEnds

/-! # Runs that part at one operator

Two scripts differ in one operator, which multiplies in the first one and divides in the second one,
with a blank before it and behind it. Until a run comes to the operator it does not see which one it
is, and from there on it goes over the same text again. Only when it is told that no operator is
expected it would take the slash for a regular expression. -/
namespace ScriptTree.Parser

open Text (bytes)

/-- A product, from the blank in front of its operator. -/
def starred (back : List Char) : List Char := ' ' :: '*' :: ' ' :: back

/-- A quotient, from the blank in front of its operator. -/
def slashed (back : List Char) : List Char := ' ' :: '/' :: ' ' :: back

/-- The operator behind a text and a blank has been obtained, and the token before it ends at `stop`. -/
def State.Multiplies (front : List Char) (stop : Nat) (last : State) : Prop :=
  ∃ as before star bs, last.tokens = as ++ before :: star :: bs ∧
    star.span.start = bytes front + 1 ∧ before.span.stop = stop

/-- How far two runs have come: not to the operator, to the operator, or behind it. -/
inductive Phase (front back : List Char) (s : State) : State → Prop
  | before {text} : s.cursor.rest = text ++ starred back →
      (∀ token ∈ s.tokens, token.span.start < bytes front + 1) →
      Phase front back s { s with cursor := ⟨s.cursor.offset, text ++ slashed back⟩ }
  | on : s.current = ⟨.operator .times, bytes front + 1, bytes front + 2⟩ →
      Phase front back s
        { s with current := ⟨.operator .divide, bytes front + 1, bytes front + 2⟩ }
  | after {s'} : bytes front + 1 < s.lastEnd → s'.current = s.current → s'.gap = s.gap →
      s'.cursor = s.cursor → s'.lastEnd = s.lastEnd → Phase front back s s'

/-- Whether a token tells the two runs apart. -/
def tellsApart : TokenKind → Bool
  | .operator .times | .operator .divide => true
  | _ => false

/-- States of the two runs that have come equally far. -/
structure Twin (front back : List Char) (s s' : State) : Prop where
  placed : s.Placed (front ++ starred back)
  phase : Phase front back s s'

section
variable {front back : List Char} {s s' t t' : State}

/-! ## What is the same -/

namespace Twin
variable (h : Twin front back s s')
include h

theorem kind_cases : s'.current.kind = s.current.kind ∨
    s.current.kind = .operator .times ∧ s'.current.kind = .operator .divide := by
  cases h.phase with
  | before _ _ => exact .inl rfl
  | on hc => exact .inr ⟨by rw [hc], rfl⟩
  | after _ hc _ _ _ => exact .inl (congrArg Token.kind hc)

/-- What does not tell the two operators apart tells nothing apart. -/
theorem same {f : TokenKind → α} (hf : f (.operator .times) = f (.operator .divide)) :
    f s'.current.kind = f s.current.kind := by
  rcases h.kind_cases with hk | ⟨hk, hk'⟩
  · rw [hk]
  · rw [hk, hk', hf]

theorem kind_eq {k : TokenKind} (hk : s.current.kind = k) (hsame : tellsApart k = false) :
    s'.current.kind = k := by
  rcases h.kind_cases with h | ⟨h, -⟩
  · exact h.trans hk
  · rw [← hk, h] at hsame
    cases hsame

theorem kind_ne {k : TokenKind} (hk : s.current.kind ≠ k) (hsame : tellsApart k = false) :
    s'.current.kind ≠ k := by
  rcases h.kind_cases with h | ⟨-, h⟩
  · rwa [h]
  · rintro rfl
    rw [h] at hsame
    cases hsame

theorem gap_eq : s'.gap = s.gap := by
  cases h.phase with
  | before _ _ | on _ => rfl
  | after _ _ hg _ _ => exact hg

theorem start_eq : s'.current.span.start = s.current.span.start := by
  cases h.phase with
  | before _ _ => rfl
  | on hc => rw [hc]
  | after _ hc _ _ _ => rw [hc]

theorem lastEnd_eq : s'.lastEnd = s.lastEnd := by
  cases h.phase with
  | before _ _ | on _ => rfl
  | after _ _ _ _ he => exact he

theorem since_eq (start : Nat) : s'.since start = s.since start := by
  rw [State.since, State.since, h.lastEnd_eq]

end Twin

/-! ## Coming to the operator -/

/-- Tokens that are obtained later start behind the cursor. -/
theorem Reaches.later {source : List Char} (hs : s.Placed source) (h : Reaches s t) :
    t.Placed source ∧ s.cursor.offset ≤ t.cursor.offset ∧ ∃ later, t.tokens = s.tokens ++ later ∧
      ∀ token ∈ later, s.cursor.offset ≤ token.span.start := by
  induction h with
  | refl => exact ⟨hs, Nat.le_refl _, [], (List.append_nil _).symm, List.forall_mem_nil _⟩
  | @step flag t u _ hm ih =>
    obtain ⟨ht, hle, later, htokens, hlater⟩ := ih
    have hu := ht.moves hm
    have hstart : t.cursor.offset ≤ u.current.span.start := by
      rw [← ht.stop, ← hm.lastEnd]
      exact hu.last_le
    refine ⟨hu, ?_, later ++ [u.current], ?_, ?_⟩
    · rw [← hu.stop]
      exact Nat.le_trans hle (Nat.le_trans hstart hu.start_le)
    · rw [hm.tokens, htokens, List.append_assoc]
    · exact List.forall_mem_append.2 ⟨hlater, List.forall_mem_singleton.2 (Nat.le_trans hle hstart)⟩

/-- A text in front of a place that is left is as long as the source before that place. -/
theorem State.Placed.offset_add_bytes {text rest : List Char} (hs : s.Placed (front ++ rest))
    (hrest : s.cursor.rest = text ++ rest) : s.cursor.offset + bytes text = bytes front := by
  obtain ⟨before, hsource, hbytes⟩ := hs.cursor
  rw [hrest, ← List.append_assoc] at hsource
  rw [List.append_cancel_right hsource, Text.bytes_append, hbytes]

theorem State.Placed.start_lt {text : List Char} (hs : s.Placed (front ++ starred back))
    (hrest : s.cursor.rest = text ++ starred back) : s.current.span.start < bytes front + 1 := by
  have hle := hs.offset_add_bytes hrest
  have hstop := hs.stop
  have hstart := hs.start_le
  omega

/-- In front of the blank it does not show which operator stands behind it. -/
theorem looser_slashed : Text.Looser (starred back) (slashed back) := .apart fun c hc => by
  rw [slashed, List.head?_cons, Option.some.injEq] at hc
  exact hc ▸ rfl

/-- The item whose key is `n` is where the items before it and behind it leave a place for it. -/
theorem eq_of_append_eq {xs xs' ys ys' : List α} {x x' : α} (f : α → Nat) {n : Nat}
    (h : xs ++ x :: ys = xs' ++ x' :: ys') (hx : f x' = n) (hxs : ∀ a ∈ xs, f a < n)
    (hys : ∀ a ∈ ys, n < f a) : xs = xs' ∧ x = x' := by
  rcases List.append_eq_append_iff.1 h with ⟨zs, rfl, hrest⟩ | ⟨zs, rfl, hrest⟩
  · cases zs with
    | nil => exact ⟨(List.append_nil _).symm, (List.cons.inj hrest).1⟩
    | cons z zs =>
      have hlt := hys x' ((List.cons.inj hrest).2 ▸ List.mem_append_right _ List.mem_cons_self)
      omega
  · cases zs with
    | nil => exact ⟨List.append_nil _, (List.cons.inj hrest).1.symm⟩
    | cons z zs =>
      have hlt := hxs x' ((List.cons.inj hrest).1 ▸ List.mem_append_right _ List.mem_cons_self)
      omega

/-- In front of a blank every symbol is read. -/
theorem reads_symbol {op : Operator} (hop : (TokenKind.operator op).Spellable) (back : List Char) :
    Reads (TokenKind.operator op).spelling (' ' :: back) (.operator op) := by
  refine reads hop fun c hc => ?_
  rw [List.head?_cons, Option.some.injEq] at hc
  exact TokenKind.allows_blank (by rintro ⟨⟩) (hc ▸ rfl)

/-- A call from before the operator that goes over the blank obtains the operator, if that is among the
tokens that are obtained. -/
theorem finds_star {flag : Bool} {c d : Cursor} {token before star : Token} {text w : List Char}
    {earlier later as bs : List Token} (hf : Lexer.Finds flag c token w d)
    (hrest : c.rest = text ++ starred back) (htext : c.offset + bytes text = bytes front)
    (htokens : earlier ++ token :: later = as ++ before :: star :: bs)
    (hstar : star.span.start = bytes front + 1)
    (hearlier : ∀ token ∈ earlier, token.span.start < bytes front + 1)
    (hlater : ∀ token ∈ later, d.offset ≤ token.span.start) (hover : ¬ starred back <:+ d.rest) :
    earlier = as ++ [before] ∧ token = ⟨.operator .times, bytes front + 1, bytes front + 2⟩ ∧
      Lexer.gap c = text ++ [' '] ∧ Trivia.Closed (text ++ [' ']) ∧ d.rest = ' ' :: back := by
  have hcut := hf.rest
  rw [hrest, ← List.append_assoc] at hcut
  -- what is taken ends behind the blank
  obtain ⟨taken, htaken, hleft⟩ : ∃ taken, Lexer.gap c ++ w = text ++ [' '] ++ taken ∧
      '*' :: ' ' :: back = taken ++ d.rest := by
    rcases List.append_eq_append_iff.1 hcut with ⟨x, hx, hback⟩ | ⟨x, hx, hback⟩
    · cases x with
      | nil => exact absurd ⟨[], hback⟩ hover
      | cons a x =>
        obtain ⟨ha, hback⟩ := List.cons.inj hback
        exact ⟨x, by rw [hx, ← ha, List.append_assoc, List.singleton_append], hback⟩
    · exact absurd ⟨x, hback.symm⟩ hover
  have hstart := hf.start
  have hstop := hf.stop
  have hoffset := hf.offset
  have hbytes := congrArg bytes htaken
  have hblank : bytes [' '] = 1 := rfl
  rw [Text.bytes_append, Text.bytes_append, Text.bytes_append, hblank] at hbytes
  -- the operator does not come later, because no token ends in the blank
  have hbehind : bytes front + 1 < d.offset := by
    refine Nat.lt_of_not_le fun hle => ?_
    obtain rfl : taken = [] := Text.eq_nil_of_bytes_eq_zero (by omega)
    rw [List.append_nil] at htaken
    rw [List.nil_append] at hleft
    have hk : token.kind ≠ .endOfInput := fun hk => by
      rw [(hf.at_end hk).2] at hleft
      cases hleft
    obtain ⟨a, as, rfl⟩ := List.exists_cons_of_ne_nil (hf.text_ne_nil hk)
    have hlast := congrArg List.getLast? htaken
    rw [List.getLast?_append_cons, List.getLast?_concat] at hlast
    cases hf.getLast?_text ' ' hlast
  obtain ⟨hsplit, rfl⟩ : earlier = as ++ [before] ∧ token = star := by
    have hcut : earlier ++ token :: later = (as ++ [before]) ++ star :: bs := by
      rw [htokens, List.append_assoc, List.singleton_append]
    exact eq_of_append_eq (fun token => token.span.start) hcut hstar hearlier
      fun token hmem => Nat.lt_of_lt_of_le hbehind (hlater token hmem)
  obtain ⟨hgap, rfl⟩ := Text.append_inj_of_bytes_eq htaken (by
    rw [Text.bytes_append, hblank]
    omega)
  have hscan := hf.scan
  rw [← hleft, show '*' :: ' ' :: back = (TokenKind.operator .times).spelling ++ ' ' :: back from rfl,
    (@reads_symbol .times trivial back).scan rfl] at hscan
  obtain ⟨hlength, hkind⟩ := Scan.mk.inj hscan
  obtain ⟨a, rfl⟩ := List.length_eq_one_iff.1 hlength.symm
  obtain ⟨ha, hback⟩ := List.cons.inj hleft
  subst ha
  have hend : token.span.stop = bytes front + 2 := by
    rw [hstop, hstar]
    rfl
  refine ⟨hsplit, Token.eq_of_parts (Except.ok.inj hkind).symm hstar hend, hgap, ?_, hback.symm⟩
  rw [← hgap]
  exact hf.closed fun hk => by rw [hk] at hkind; cases hkind

/-- A move that goes over the blank comes to the operator. -/
theorem Moves.obtains {stop : Nat} {last : State} {flag : Bool} {text : List Char}
    (hlast : last.Multiplies front stop) (hs : s.Placed (front ++ starred back))
    (hrest : s.cursor.rest = text ++ starred back)
    (htokens : ∀ token ∈ s.tokens, token.span.start < bytes front + 1) (hm : Moves flag s t)
    (ht : Reaches t last) (hover : ¬ starred back <:+ t.cursor.rest) :
    t.current = ⟨.operator .times, bytes front + 1, bytes front + 2⟩ ∧ t.lastEnd = stop ∧
      t.gap = text ++ [' '] ∧ Trivia.Closed (text ++ [' ']) ∧ t.cursor.rest = ' ' :: back := by
  obtain ⟨w, hf⟩ := hm.finds
  obtain ⟨as, before, star, bs, hsplit, hstar, rfl⟩ := hlast
  obtain ⟨-, -, later, hlater, hstarts⟩ := ht.later (hs.moves hm)
  rw [hlater, hm.tokens, List.append_assoc, List.singleton_append] at hsplit
  obtain ⟨hearlier, hcurrent, hgap, hclosed, hback⟩ :=
    finds_star hf hrest (hs.offset_add_bytes hrest) hsplit hstar htokens hstarts hover
  refine ⟨hcurrent, ?_, hm.gap.trans hgap, hclosed, hback⟩
  have hend := congrArg List.getLast? hearlier
  rw [State.tokens, List.reverse_cons, List.getLast?_concat, List.getLast?_concat] at hend
  rw [hm.lastEnd, Option.some.inj hend]

/-- Behind the same trivia a call that expects an operator obtains the slash. -/
theorem next_slashed {text : List Char} (h : Trivia.Closed (text ++ [' '])) (offset : Nat) :
    Lexer.gap ⟨offset, text ++ slashed back⟩ = text ++ [' '] ∧
      Lexer.next true ⟨offset, text ++ slashed back⟩ =
        (.ok ⟨.operator .divide, offset + bytes text + 1, offset + bytes text + 2⟩,
          ⟨offset + bytes text + 2, ' ' :: back⟩) := by
  have hread : Reads ['/'] (' ' :: back) (.operator .divide) :=
    @reads_symbol .divide trivial back
  have hcut : text ++ slashed back = text ++ [' '] ++ '/' :: ' ' :: back := by
    rw [List.append_assoc]
    rfl
  have hskip : Trivia.skip (text ++ slashed back) = ⟨(text ++ [' ']).length, true⟩ := by
    rw [hcut]
    exact (h.skipFrom hread.bare 0).trans (by rw [Nat.zero_add])
  have hfront : Lexer.front ⟨offset, text ++ slashed back⟩ =
      ⟨offset + bytes text + 1, '/' :: ' ' :: back⟩ := by
    rw [Lexer.front, hskip, Cursor.advance, hcut, List.take_left, List.drop_left, Text.bytes_append]
    rfl
  refine ⟨by rw [Lexer.gap, hskip, hcut, List.take_left], ?_⟩
  have hfound := @Lexer.next_of_scan ⟨offset, text ++ slashed back⟩ true ['/'] (' ' :: back)
    (.operator .divide) (by rw [hskip]) (by rw [hfront]; rfl) (by rw [hfront]; exact hread.scan rfl)
  rw [hfound, hfront]
  rfl

/-! ## Going on -/

/-- A state at which a call that expects no operator does not come to the slash. -/
def State.Passable (stop : Nat) (t : State) : Prop :=
  t.current.kind = .operator .times → t.lastEnd ≠ stop

/-- The second run goes where the first one goes, as long as it is told to expect an operator when it
comes to it. -/
theorem Twin.moves {stop : Nat} {last : State} {flag : Bool} (hlast : last.Multiplies front stop)
    (h : Twin front back s s') (hm : Moves flag s t) (ht : Reaches t last)
    (hflag : flag = true ∨ t.Passable stop) : ∃ t', Moves flag s' t' ∧ Twin front back t t' := by
  have hplaced := h.placed.moves hm
  -- with the same cursor the same is found
  have again (hc : s'.cursor = s.cursor) (hstop : s'.current.span.stop = s.current.span.stop)
      (hlt : bytes front + 1 < t.lastEnd) : ∃ t', Moves flag s' t' ∧ Twin front back t t' := by
    refine ⟨⟨t.current, t.gap, s'.current :: s'.earlier, t.cursor⟩, ⟨rfl, ?_, ?_⟩, hplaced,
      .after hlt rfl rfl rfl ?_⟩
    · rw [hc]
      exact hm.gap
    · rw [hc]
      exact hm.next
    · rw [hm.lastEnd]
      exact hstop
  cases h.phase with
  | @before text hrest htokens =>
    by_cases hover : starred back <:+ t.cursor.rest
    · obtain ⟨t', hm', more, hmore, rfl⟩ :=
        Swapped.moves looser_slashed (List.cons_ne_nil _ _) ⟨text, hrest, rfl⟩ hm hover
      refine ⟨_, hm', hplaced, .before hmore ?_⟩
      rw [hm.tokens]
      exact List.forall_mem_append.2
        ⟨htokens, List.forall_mem_singleton.2 (hplaced.start_lt hmore)⟩
    · obtain ⟨hcurrent, hend, hgap, hclosed, hleft⟩ :=
        hm.obtains hlast h.placed hrest htokens ht hover
      obtain rfl : flag = true := hflag.resolve_right fun hp => hp (by rw [hcurrent]) hend
      obtain ⟨hg, hn⟩ := @next_slashed back _ hclosed s.cursor.offset
      rw [h.placed.offset_add_bytes hrest] at hn
      have hcursor : t.cursor = ⟨bytes front + 2, ' ' :: back⟩ := by
        rw [← hleft, ← show t.cursor.offset = bytes front + 2 by rw [← hplaced.stop, hcurrent]]
      refine ⟨{ t with current := ⟨.operator .divide, bytes front + 1, bytes front + 2⟩ },
        ⟨hm.earlier, hgap.trans hg.symm, ?_⟩, hplaced, .on hcurrent⟩
      rw [hcursor]
      exact hn
  | on hc =>
    refine again rfl (by rw [hc]) ?_
    rw [hm.lastEnd, hc]
    exact Nat.lt_succ_self _
  | after hlt hc hg hcursor he =>
    refine again hcursor (by rw [hc]) ?_
    have hle := h.placed.last_le
    have hstart := h.placed.start_le
    rw [hm.lastEnd]
    omega

/-- The second script begins as the first one does, with a token in front of the operator. -/
theorem State.Begins.exists_twin {stop : Nat} {last : State} (hlast : last.Multiplies front stop)
    (hb : s.Begins (front ++ starred back)) (hs : Reaches s last) :
    ∃ s', s'.Begins (front ++ slashed back) ∧ Twin front back s s' := by
  obtain ⟨w, hf⟩ := hb.finds
  obtain ⟨as, before, star, bs, hsplit, hstar, -⟩ := hlast
  obtain ⟨-, -, later, hlater, hstarts⟩ := hs.later hb.placed
  have hfirst : s.tokens = [s.current] := by rw [State.tokens, hb.1]; rfl
  rw [hlater, hfirst] at hsplit
  have hsuffix : starred back <:+ s.cursor.rest := by
    by_contra hover
    have hwhole : [] ++ s.current :: later = as ++ before :: star :: bs := hsplit
    obtain ⟨hnil, -⟩ := finds_star hf rfl (Nat.zero_add _) hwhole hstar (List.forall_mem_nil _) hstarts
      hover
    cases as <;> cases hnil
  have hr : Text.Looser (starred back) (slashed back) := looser_slashed
  obtain ⟨s', hb', more, hmore, rfl⟩ := hb.swapped hr (List.cons_ne_nil _ _) hsuffix
  refine ⟨_, hb', hb.placed, .before hmore ?_⟩
  rw [hfirst]
  exact List.forall_mem_singleton.2 (hb.placed.start_lt hmore)

end
end ScriptTree.Parser
