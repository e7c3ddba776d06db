import ScriptTree.Proofs.Budget
import ScriptTree.Proofs.Encoding
import ScriptTree.Proofs.Faults
import ScriptTree.Proofs.Positions

/-! # Faults depend only on what was read

The lexer sees at most four bytes of what stands after a token. So if the text further on is replaced,
a reader does the same as long as it does not come there; it stops with the same fault, and the
position of the fault is counted from the text before it. -/
namespace ScriptTree

theorem Token.eq_of_parts {t t' : Token} (hkind : t.kind = t'.kind)
    (hstart : t.span.start = t'.span.start) (hstop : t.span.stop = t'.span.stop) : t = t' := by
  obtain ⟨kind, start, stop⟩ := t
  obtain ⟨kind', start', stop'⟩ := t'
  simp only at hkind hstart hstop
  rw [hkind, hstart, hstop]

/-- A source that agrees with another on some text and four bytes more goes on with a text that is
looser. -/
theorem Text.looser_of_extract_eq {source source' : String} {before rest : List Char}
    (hsource : source.toList = before ++ rest)
    (h : source.toUTF8.extract 0 (bytes before + 4) = source'.toUTF8.extract 0 (bytes before + 4)) :
    ∃ rest', source'.toList = before ++ rest' ∧ Looser rest rest' := by
  obtain ⟨rest', hsource'⟩ : before <+: source'.toList :=
    prefix_of_extract_eq h (Nat.le_add_right _ 4) ⟨rest, hsource.symm⟩
  refine ⟨rest', hsource'.symm, fun look hlook hlen _ => ?_⟩
  have hpre : before ++ look <+: source.toList := by
    refine prefix_of_extract_eq h.symm ?_ ?_
    · rw [bytes_append]
      omega
    · rw [← hsource']
      exact (List.prefix_append_right_inj before).2 hlook
  rw [hsource] at hpre
  exact (List.prefix_append_right_inj before).1 hpre

/-- The gap in front of anything is closed. -/
theorem Lexer.Finds.closed {flag : Bool} {c d : Cursor} {token : Token} {text : List Char}
    (h : Finds flag c token text d) (hk : token.kind ≠ .endOfInput) : Trivia.Closed (gap c) := by
  have hlt : (Trivia.skip c.rest).length < 0 + c.rest.length := by
    have hpos := List.length_pos_iff.2 (h.text_ne_nil hk)
    have hlen := congrArg List.length h.rest
    rw [gap, List.length_append, List.length_append, List.length_take] at hlen
    omega
  exact Trivia.skipFrom_closes (n := 0) h.valid hlt

/-- What is found in front of some text is found as well if the text is replaced. -/
theorem Lexer.Finds.swapped {flag : Bool} {c d : Cursor} {token : Token}
    {text rest rest' ahead more : List Char} (h : Finds flag c token text d)
    (hr : Text.Looser rest rest') (hne : rest ≠ []) (hc : c.rest = ahead ++ rest)
    (hd : d.rest = more ++ rest) :
    next flag ⟨c.offset, ahead ++ rest'⟩ = (.ok token, ⟨d.offset, more ++ rest'⟩) ∧
      gap ⟨c.offset, ahead ++ rest'⟩ = gap c := by
  have hk : token.kind ≠ .endOfInput := by
    intro hk
    rw [(h.at_end hk).2, eq_comm, List.append_eq_nil_iff] at hd
    exact hne hd.2
  obtain rfl : ahead = gap c ++ (text ++ more) := by
    refine (List.append_left_inj rest).1 ?_
    rw [← hc, h.rest, hd, List.append_assoc, List.append_assoc]
  have hrest : (⟨c.offset, gap c ++ (text ++ more) ++ rest'⟩ : Cursor).rest =
      gap c ++ (text ++ (more ++ rest')) := by
    simp only [List.append_assoc]
  obtain ⟨token', d', hn, hkind, hd', hgap⟩ :=
    h.respaced hk hrest (h.closed hk) (hd ▸ hr.append_left more)
  obtain ⟨text', h'⟩ := finds_of_next hn
  obtain rfl : text' = text := by
    have htext := h'.rest
    rw [hrest, hgap, hd'] at htext
    exact (List.append_cancel_right (List.append_cancel_left htext)).symm
  have hstart : token'.span.start = token.span.start := by rw [h'.start, h.start, hgap]
  have hstop : token'.span.stop = token.span.stop := by rw [h'.stop, h.stop, hstart]
  have hcursor : d' = ⟨d.offset, more ++ rest'⟩ := by
    have hoffset : d'.offset = d.offset := by rw [h'.offset, h.offset, hstop]
    rw [← hd', ← hoffset]
  exact ⟨by rw [hn, Token.eq_of_parts hkind hstart hstop, hcursor], hgap⟩

namespace Parser

/-! ## Replacing the text further on -/

/-- The same state, with the text from some place on replaced. -/
def Swapped (rest rest' : List Char) (s s' : State) : Prop :=
  ∃ text, s.cursor.rest = text ++ rest ∧ s' = { s with cursor := ⟨s.cursor.offset, text ++ rest'⟩ }

section
variable {rest rest' : List Char} {s s' t : State}

theorem Moves.suffix {flag} (h : Moves flag s t) : t.cursor.rest <:+ s.cursor.rest := by
  obtain ⟨text, hf⟩ := h.finds
  exact ⟨Lexer.gap s.cursor ++ text, by rw [hf.rest, List.append_assoc]⟩

theorem Reaches.suffix (h : Reaches s t) : t.cursor.rest <:+ s.cursor.rest := by
  induction h with
  | refl => exact List.suffix_refl _
  | step _ hm ih => exact hm.suffix.trans ih

/-- A move that does not come to the replaced text finds the same token. -/
theorem Swapped.moves (hr : Text.Looser rest rest') (hne : rest ≠ []) (h : Swapped rest rest' s s')
    {flag} (hm : Moves flag s t) (ht : rest <:+ t.cursor.rest) :
    ∃ t', Moves flag s' t' ∧ Swapped rest rest' t t' := by
  obtain ⟨ahead, hs, rfl⟩ := h
  obtain ⟨text, hf⟩ := hm.finds
  obtain ⟨more, hmore⟩ := ht
  obtain ⟨hn, hgap⟩ := hf.swapped hr hne hs hmore.symm
  exact ⟨{ t with cursor := ⟨t.cursor.offset, more ++ rest'⟩ },
    ⟨hm.earlier, hm.gap.trans hgap.symm, hn⟩, more, hmore.symm, rfl⟩

/-- A script begins with the same token. -/
theorem State.Begins.swapped {before : List Char} (hr : Text.Looser rest rest') (hne : rest ≠ [])
    (hb : s.Begins (before ++ rest)) (ht : rest <:+ s.cursor.rest) :
    ∃ s', s'.Begins (before ++ rest') ∧ Swapped rest rest' s s' := by
  obtain ⟨text, hf⟩ := hb.finds
  obtain ⟨more, hmore⟩ := ht
  obtain ⟨hn, hgap⟩ := hf.swapped hr hne rfl hmore.symm
  exact ⟨{ s with cursor := ⟨s.cursor.offset, more ++ rest'⟩ },
    ⟨hb.1, hb.2.1.trans hgap.symm, hn⟩, more, hmore.symm, rfl⟩

end

/-! ## Doing the same until there -/

/-- What the first reader does without coming to the replaced text, the second one does after the
replacement, in the same context: it returns the same, or stops with the same fault. -/
structure Foresees (rest rest' : List Char) {α κ : Type} (k : α → κ) (p p' : Parse α) : Prop where
  onward {c s a t} : Returns p c s a t → t.cursor.rest <:+ s.cursor.rest
  stopped {c s f u} : Stops p c s f u → u.cursor.rest <:+ s.cursor.rest
  returns {c s a t s'} : Returns p c s a t → rest <:+ t.cursor.rest → Swapped rest rest' s s' →
    ∃ a' t', k a = k a' ∧ Returns p' c s' a' t' ∧ Swapped rest rest' t t'
  stops {c s f u s'} : Stops p c s f u → rest <:+ u.cursor.rest → f.cause.kind ≠ .lexical →
    Swapped rest rest' s s' → Fails p' c s' f

section
variable {rest rest' : List Char} {α κ : Type} {k : α → κ} {p p' : Parse α}

theorem Looks.foresees {g g' : State → α} (h : Looks p g) (h' : Looks p' g')
    (hk : ∀ s s', Swapped rest rest' s s' → k (g s) = k (g' s')) :
    Foresees rest rest' k p p' where
  onward hr := by
    obtain ⟨-, rfl⟩ := h.returns.1 hr
    exact List.suffix_refl _
  stopped hf := absurd hf h.not_stops
  returns {c s a t s'} hr _ hs := by
    obtain ⟨rfl, rfl⟩ := h.returns.1 hr
    exact ⟨g' s', s', hk s s' hs, h'.returns.2 ⟨rfl, rfl⟩, hs⟩
  stops hf := absurd hf h.not_stops

theorem Foresees.bind {β μ : Type} {j : β → μ} {q q' : α → Parse β} (hp : Foresees rest rest' k p p')
    (hq : ∀ a a', k a = k a' → Foresees rest rest' j (q a) (q' a')) :
    Foresees rest rest' j (p >>= q) (p' >>= q') where
  onward h := by
    obtain ⟨a, t, ha, hb⟩ := returns_bind.1 h
    exact ((hq a a rfl).onward hb).trans (hp.onward ha)
  stopped h := by
    rcases stops_bind.1 h with hf | ⟨a, t, ha, hf⟩
    · exact hp.stopped hf
    · exact ((hq a a rfl).stopped hf).trans (hp.onward ha)
  returns h hu hs := by
    obtain ⟨a, t, ha, hb⟩ := returns_bind.1 h
    obtain ⟨a', t', hkey, ha', ht⟩ := hp.returns ha (hu.trans ((hq a a rfl).onward hb)) hs
    obtain ⟨b', u', hkey', hb', hu'⟩ := (hq a a' hkey).returns hb hu ht
    exact ⟨b', u', hkey', returns_bind.2 ⟨a', t', ha', hb'⟩, hu'⟩
  stops h hu hc hs := by
    rcases stops_bind.1 h with hf | ⟨a, t, ha, hf⟩
    · exact fails_bind.2 (.inl (hp.stops hf hu hc hs))
    · obtain ⟨a', t', hkey, ha', ht⟩ := hp.returns ha (hu.trans ((hq a a rfl).stopped hf)) hs
      exact fails_bind.2 (.inr ⟨a', t', ha', (hq a a' hkey).stops hf hu hc ht⟩)

/-- Readers that stop at once with the same fault. -/
theorem foresees_of_stops (g : Context → State → Fault) (hg : ∀ c s s', Swapped rest rest' s s' →
      g c s = g c s') (hp : ∀ c s, p c s = .error (g c s) s)
    (hp' : ∀ c s, p' c s = .error (g c s) s) : Foresees rest rest' k p p' where
  onward {c s _ _} hr := by cases (hp c s).symm.trans hr
  stopped {c s _ _} hf := by
    obtain ⟨-, rfl⟩ := EStateM.Result.error.inj ((hp c s).symm.trans hf)
    exact List.suffix_refl _
  returns {c s _ _ _} hr := by cases (hp c s).symm.trans hr
  stops {c s f u s'} hf _ _ hs := by
    obtain ⟨rfl, -⟩ := EStateM.Result.error.inj ((hp c s).symm.trans hf)
    exact ⟨s', by rw [hp' c s', hg c s s' hs]⟩

theorem foresees_fault {cause offset} :
    Foresees rest rest' k (fault cause offset) (fault cause offset) :=
  foresees_of_stops (fun _ _ => ⟨cause, offset⟩) (fun _ _ _ _ => rfl) (fun _ _ => rfl) fun _ _ => rfl

theorem foresees_tooDeep : Foresees rest rest' k tooDeep tooDeep := by
  refine foresees_of_stops (fun c s => ⟨.nestingTooDeep c.limit, s.current.span.start⟩) ?_
    (fun _ _ => rfl) fun _ _ => rfl
  rintro c s s' ⟨_, _, rfl⟩
  rfl

theorem foresees_advance (hr : Text.Looser rest rest') (hne : rest ≠ []) {flag} :
    Foresees rest rest' id (advance flag) (advance flag) where
  onward hm := (returns_advance.1 hm).suffix
  stopped hf := by
    obtain ⟨-, rfl⟩ := stops_advance.1 hf
    exact List.suffix_refl _
  returns hm ht hs := by
    obtain ⟨t', hm', ht'⟩ := hs.moves hr hne (returns_advance.1 hm) ht
    exact ⟨(), t', rfl, returns_advance.2 hm', ht'⟩
  stops hf _ hc := by
    obtain ⟨⟨d, hn⟩, -⟩ := stops_advance.1 hf
    exact absurd (Lexer.lexical_of_next hn) hc

/-- Readers that do in every context what some such readers do in some context. -/
theorem Foresees.of_pointwise {q q' : Parse α}
    (h : ∀ c, ∃ (p p' : Parse α) (d : Context), Foresees rest rest' k p p' ∧
      (∀ s, q c s = p d s) ∧ ∀ s, q' c s = p' d s) : Foresees rest rest' k q q' where
  onward {c s a t} hr := by
    obtain ⟨p, p', d, hp, hq, -⟩ := h c
    exact hp.onward ((hq s).symm.trans hr)
  stopped {c s f u} hf := by
    obtain ⟨p, p', d, hp, hq, -⟩ := h c
    exact hp.stopped ((hq s).symm.trans hf)
  returns {c s a t s'} hr ht hs := by
    obtain ⟨p, p', d, hp, hq, hq'⟩ := h c
    obtain ⟨a', t', hkey, ha', ht'⟩ := hp.returns ((hq s).symm.trans hr) ht hs
    exact ⟨a', t', hkey, (hq' s').trans ha', ht'⟩
  stops {c s f u s'} hf hu hc hs := by
    obtain ⟨p, p', d, hp, hq, hq'⟩ := h c
    obtain ⟨v, hv⟩ := hp.stops ((hq s).symm.trans hf) hu hc hs
    exact ⟨v, (hq' s').trans hv⟩

end

section
variable {rest rest' : List Char} (hr : Text.Looser rest rest') (hne : rest ≠ [])
include hr hne

theorem foresees_steps :
    Steps id fun w _ _ k p p' => w.Same → Foresees rest rest' k p p' where
  pure h _ := (looks_pure _).foresees (looks_pure _) fun _ _ _ => h
  bind hp hq hw := (hp hw).bind fun a a' h => hq a a' h hw
  forget h := h
  kind _ := looks_kind.foresees looks_kind fun _ _ ⟨_, _, hs⟩ => by rw [hs]
  here := by
    intro α κ w b b' k f f' h hw
    have hhere : Foresees rest rest' id here here :=
      looks_here.foresees looks_here fun _ _ ⟨_, _, hs⟩ => by rw [hs]
    exact hhere.bind fun n n' hn => @h Eq n n' hw hn fun _ _ h => h
  afterLineBreak _ :=
    looks_afterLineBreak.foresees looks_afterLineBreak fun _ _ ⟨_, _, hs⟩ => by rw [hs]
  finish h hw := by
    obtain rfl := hw _ _ h
    exact (looks_finish _).foresees (looks_finish _) fun _ _ ⟨_, _, hs⟩ => by rw [hs]; rfl
  advance _ := foresees_advance hr hne
  fault _ h hw := by
    obtain rfl := hw _ _ h
    exact foresees_fault
  inScope := by
    intro α κ w b b' g k p p' _ h hw
    exact .of_pointwise fun c =>
      ⟨p, p', { c with scope := g c.scope }, h hw, fun _ => rfl, fun _ => rfl⟩
  stacked := by
    intro α κ w b b' k q q' h hw
    exact .of_pointwise fun c => ⟨_, _, c, h c.scope.stacked hw, fun _ => rfl, fun _ => rfl⟩
  check := by
    intro α κ w b b' offset offset' k g g' cause p p' _ ho hg h hw
    obtain rfl := hw _ _ ho
    subst hg
    refine .of_pointwise fun c => ?_
    simp only [check_apply]
    split
    · exact ⟨_, _, c, foresees_fault, fun _ => rfl, fun _ => rfl⟩
    · exact ⟨p, p', c, h hw, fun _ => rfl, fun _ => rfl⟩

theorem foresees_coupling :
    Coupling id fun w _ _ k p p' => w.Same → Foresees rest rest' k p p' :=
  (foresees_steps hr hne).coupling fun h hw =>
    .of_pointwise fun c => ⟨_, _, c, h c.budget hw, fun _ => rfl, fun _ => rfl⟩

theorem readers_foresee (n : Nat) :
    Coupled id (fun w _ _ k p p' => w.Same → Foresees rest rest' k p p') true (readers n)
      (readers n) := by
  induction n with
  | zero => exact ⟨readers_taking 0, fun _ => foresees_tooDeep, fun _ => foresees_tooDeep⟩
  | succ n ih => exact (foresees_coupling hr hne).readers (readers_taking (n + 1)) ih ih

theorem program_foresees (n : Nat) :
    Foresees rest rest' (Program.map id) (program (readers n)) (program (readers n)) :=
  (foresees_coupling hr hne).program (w := Eq) (readers_foresee hr hne n) fun _ _ h => h

end

/-! ## Scripts -/

/-- The current token was found at some place of the source. -/
theorem Reaches.finds {source : List Char} {s t : State} (hb : s.Begins source)
    (h : Reaches s t) : ∃ flag c text, c.Stands source ∧
      Lexer.Finds flag c t.current text t.cursor := by
  cases h with
  | refl =>
    obtain ⟨text, hf⟩ := hb.finds
    exact ⟨_, _, text, Cursor.stands_ofText source, hf⟩
  | step hr hm =>
    obtain ⟨text, hf⟩ := hm.finds
    exact ⟨_, _, text, (hr.placed hb).cursor, hf⟩

/-- In front of some text that is left, every token that was obtained begins with a character that is
not blank. -/
theorem Reaches.met_before {source : List Char} {s u : State} (hb : s.Begins source)
    (h : Reaches s u) (hne : u.cursor.rest ≠ []) {n : Nat} (hn : u.Met n) :
    ∃ before c more, source = before ++ c :: (more ++ u.cursor.rest) ∧ Text.bytes before = n ∧
      Text.isBlank c = false := by
  obtain ⟨token, hmem, rfl⟩ := hn
  obtain ⟨r, hr, hru, rfl⟩ := h.obtained hb hmem
  obtain ⟨flag, c, text, ⟨before, hsource, hbytes⟩, hf⟩ := hr.finds hb
  obtain ⟨passed, hpassed⟩ := hru.suffix
  have hk : r.current.kind ≠ .endOfInput := by
    intro hk
    rw [(hf.at_end hk).2, List.append_eq_nil_iff] at hpassed
    exact hne hpassed.2
  obtain ⟨a, more, rfl⟩ := List.exists_cons_of_ne_nil (hf.text_ne_nil hk)
  refine ⟨before ++ Lexer.gap c, a, more ++ passed, ?_, ?_, hf.bare.isBlank_eq_false⟩
  · rw [hsource, hf.rest, ← hpassed, List.append_assoc, List.append_assoc]
    rfl
  · rw [Text.bytes_append, hf.start, hbytes]

/-- The position of a token is that of the same token in front of other text. -/
theorem Reaches.position_eq {source rest' : List Char} {before : List Char} {s u : State}
    (hb : s.Begins source) (h : Reaches s u) (hne : u.cursor.rest ≠ [])
    (hsource : source = before ++ u.cursor.rest) {n : Nat} (hn : u.Met n) :
    (LineTable.ofText (before ++ rest')).position n = (LineTable.ofText source).position n := by
  obtain ⟨front, c, more, hfront, rfl, hblank⟩ := h.met_before hb hne hn
  obtain rfl : before = front ++ c :: more := by
    refine (List.append_left_inj u.cursor.rest).1 ?_
    rw [← hsource, hfront, List.append_assoc]
    rfl
  have hline (rest : List Char) : (c :: more ++ rest).head? ≠ some '\n' := by
    rintro hc
    obtain rfl := Option.some.inj hc
    cases hblank
  rw [hsource, List.append_assoc, List.append_assoc, LineTable.position_append (hline rest'),
    LineTable.position_append (hline u.cursor.rest)]

/-- A script that is given up, but not by the lexer, is given up with the same fault if the text
further on is replaced. -/
theorem stops_swapped {before rest' : List Char} {s u : State} {f : Fault} {limit : Nat}
    (hb : s.Begins (before ++ u.cursor.rest)) (hr : Text.Looser u.cursor.rest rest')
    (hne : u.cursor.rest ≠ []) (hk : f.cause.kind ≠ .lexical)
    (h : Stops (program (readers limit))
      (Context.ofText (before ++ u.cursor.rest) limit) s f u) :
    ∃ s', s'.Begins (before ++ rest') ∧
      Fails (program (readers limit)) (Context.ofText (before ++ rest') limit) s' f := by
  obtain ⟨s', hb', hswap⟩ := hb.swapped hr hne ((program_locates limit).stops h).suffix
  -- Both runs are compared with a budget that is enough for both.
  obtain ⟨budget, hleft, hright⟩ : ∃ budget, (before ++ u.cursor.rest).length < budget ∧
      (before ++ rest').length < budget :=
    ⟨(before ++ u.cursor.rest).length + (before ++ rest').length + 1, by omega, by omega⟩
  have hbudget := stops_budget budget hb (Nat.lt_add_of_pos_right Nat.two_pos) hleft h
  obtain ⟨v, hv⟩ := (program_foresees hr hne limit).stops hbudget (List.suffix_refl _) hk hswap
  exact ⟨s', hb', v, stops_budget ((before ++ rest').length + 2) hb' hright
    (Nat.lt_add_of_pos_right Nat.two_pos) hv⟩

end Parser

/-- Failures depend only on what was read: where a script is given up, but not by the lexer, any other
source that agrees with it up to four bytes behind the last token is given up with the same failure,
in the same place. -/
theorem parse_error_foreseen {source : String} {maxDepth : Nat} {f : Failure}
    (h : parse source maxDepth = .error f) (hk : f.cause.kind ≠ .lexical) :
    ∃ last, (Parser.run (Parser.Context.ofText source.toList maxDepth)
        source.toList).tokens.getLast? = some last ∧
      ∀ source' : String, last.span.stop + 4 ≤ source.utf8ByteSize →
        last.span.stop + 4 ≤ source'.utf8ByteSize →
        source.toUTF8.extract 0 (last.span.stop + 4) =
          source'.toUTF8.extract 0 (last.span.stop + 4) →
        parse source' maxDepth = .error f := by
  obtain ⟨g, hg, rfl⟩ := parse_eq_error.1 h
  rcases Parser.run_eq_error.1 hg with ⟨d, hn⟩ | ⟨s, hb, u, hu⟩
  · exact absurd (Lexer.lexical_of_next hn) hk
  have hlocates := Parser.program_locates maxDepth
  have hreach := hlocates.stops hu
  obtain ⟨before, hsource, hbytes⟩ := (hreach.placed hb).cursor
  refine ⟨u.current, ?_, fun source' hsize _ hagree => ?_⟩
  · rw [Parser.run_tokens_of_stops hb hu, Parser.State.tokens, List.getLast?_reverse, List.head?_cons]
  rw [(hreach.placed hb).stop, ← hbytes] at hsize hagree
  have hne : u.cursor.rest ≠ [] := by
    intro hnil
    rw [Text.utf8ByteSize_eq, hsource, hnil, List.append_nil] at hsize
    omega
  obtain ⟨rest', hsource', hloose⟩ := Text.looser_of_extract_eq hsource hagree
  obtain ⟨s', hb', hstop⟩ := Parser.stops_swapped (hsource ▸ hb) hloose hne hk (hsource ▸ hu)
  rw [← hsource'] at hb' hstop
  refine parse_eq_error.2 ⟨g, Parser.run_eq_error.2 (.inr ⟨s', hb', hstop⟩), ?_⟩
  have hmet : u.Met g.offset := by
    rcases hlocates.owns hu (fun _ _ hw => hw.elim) with ⟨flag, d, hn⟩ | hmet
    · exact absurd (Lexer.lexical_of_next hn) hk
    · exact hmet
  rw [Fault.resolve, Fault.resolve, hsource', hreach.position_eq hb hne hsource hmet]

/-- An operand is missing, whatever stands further on. -/
theorem parse_error_foreseen_assignment : ∃ f, f.cause = .unexpectedOperand .semicolon ∧
    parse "a = ;\na é" 9 = .error f ∧ parse "a = ;\na è*/" 9 = .error f := by
  have herror : (match parse "a = ;\na é" 9 with
      | .error f => f.cause == .unexpectedOperand .semicolon
      | .ok _ => false) = true := by decide +kernel
  cases h : parse "a = ;\na é" 9 with
  | ok p =>
    rw [h] at herror
    cases herror
  | error f =>
    rw [h] at herror
    have hcause := beq_iff_eq.1 herror
    obtain ⟨last, hlast, hsame⟩ := parse_error_foreseen h (by rw [hcause]; decide)
    have hstop : last.span.stop = 5 := by
      have hfive : ((Parser.run (Parser.Context.ofText "a = ;\na é".toList 9)
          "a = ;\na é".toList).tokens.getLast?.map (·.span.stop)) = some 5 := by decide +kernel
      rw [hlast] at hfive
      exact Option.some.inj hfive
    refine ⟨f, hcause, h ▸ rfl, hsame _ ?_ ?_ ?_⟩
    · rw [hstop]; decide +kernel
    · rw [hstop]; decide +kernel
    · rw [hstop]; decide +kernel

end ScriptTree
