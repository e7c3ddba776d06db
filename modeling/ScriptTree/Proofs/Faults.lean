import ScriptTree.Diagnostic
import ScriptTree.Proofs.Calls
import ScriptTree.Proofs.Depth
import ScriptTree.Proofs.Respacing

/-! # Faults stand inside the source

A reader raises a fault where the current token starts, or at a place that it has looked up before,
and every place that it looks up is the start of a token that it has obtained. The other faults are
the lexer's own. So every fault stands at a boundary of the source, and the one character there can be
marked. -/
namespace ScriptTree

namespace Parser

/-! ## Where a reader stops -/

/-- The reader stops with a fault, in a state. -/
def Stops (p : Parse α) (c : Context) (s : State) (f : Fault) (u : State) : Prop := p c s = .error f u

section
variable {c : Context} {s u : State} {f : Fault}

theorem stops_bind {p : Parse α} {q : α → Parse β} : Stops (p >>= q) c s f u ↔
    Stops p c s f u ∨ ∃ a t, Returns p c s a t ∧ Stops (q a) c t f u := by
  simp only [Stops, Returns, bind_apply]
  cases p c s with
  | ok a t => simp
  | error g v => simp

theorem stops_fault {cause offset} :
    Stops (fault cause offset : Parse α) c s f u ↔ (⟨cause, offset⟩ : Fault) = f ∧ s = u := by
  show EStateM.Result.error _ _ = EStateM.Result.error _ _ ↔ _
  simp

theorem stops_advance {flag} : Stops (advance flag) c s f u ↔
    (∃ d, Lexer.next flag s.cursor = (.error f, d)) ∧ s = u := by
  simp only [Stops, advance_apply]
  rcases Lexer.next flag s.cursor with ⟨g | token, d⟩
  · simp
  · simp

theorem stops_tooDeep : Stops (tooDeep : Parse α) c s f u ↔
    (⟨.nestingTooDeep c.limit, s.current.span.start⟩ : Fault) = f ∧ s = u := by
  show EStateM.Result.error _ _ = EStateM.Result.error _ _ ↔ _
  simp

theorem Looks.not_stops {p : Parse α} {g : State → α} (h : Looks p g) : ¬ Stops p c s f u := by
  intro hu
  cases (h c s).symm.trans hu

end

/-! ## Places that were looked up -/

/-- A place where a token starts that has been obtained. -/
def State.Met (s : State) (n : Nat) : Prop := ∃ token ∈ s.tokens, token.span.start = n

theorem State.met_current (s : State) : s.Met s.current.span.start :=
  ⟨s.current, by simp [State.tokens], rfl⟩

theorem Reaches.met {s t : State} {n : Nat} (h : Reaches s t) (hn : s.Met n) : t.Met n := by
  obtain ⟨token, hmem, hstart⟩ := hn
  obtain ⟨after, htokens⟩ := h.tokens
  exact ⟨token, by rw [htokens]; exact List.mem_append_left _ hmem, hstart⟩

/-- A fault of the lexer, or one at the start of a token that has been obtained. -/
def State.Owns (u : State) (f : Fault) : Prop :=
  (∃ flag d, Lexer.next flag u.cursor = (.error f, d)) ∨ u.Met f.offset

/-- A reader that goes forward, and that raises its own faults only at places of tokens it has
obtained; of the places `w` this is given. -/
structure Locates (w : Places) (p : Parse α) : Prop where
  returns {c s a t} : Returns p c s a t → Reaches s t
  stops {c s f u} : Stops p c s f u → Reaches s u
  owns {c s f u} : Stops p c s f u → (∀ n n', w n n' → s.Met n) → u.Owns f

section
variable {w : Places} {p : Parse α}

theorem Looks.locates {g : State → α} (h : Looks p g) : Locates w p where
  returns hr := by
    obtain ⟨-, rfl⟩ := h.returns.1 hr
    exact .refl
  stops hf := absurd hf h.not_stops
  owns hf := absurd hf h.not_stops

theorem Locates.bind {q : α → Parse β} (hp : Locates w p) (hq : ∀ a, Locates w (q a)) :
    Locates w (p >>= q) where
  returns h := by
    obtain ⟨a, t, ha, hb⟩ := returns_bind.1 h
    exact (hp.returns ha).trans ((hq a).returns hb)
  stops h := by
    rcases stops_bind.1 h with hf | ⟨a, t, ha, hf⟩
    · exact hp.stops hf
    · exact (hp.returns ha).trans ((hq a).stops hf)
  owns h hw := by
    rcases stops_bind.1 h with hf | ⟨a, t, ha, hf⟩
    · exact hp.owns hf hw
    · exact (hq a).owns hf fun n n' hn => (hp.returns ha).met (hw n n' hn)

/-- What follows may be told where the current token starts. -/
theorem Locates.here {f : Nat → Parse α}
    (h : ∀ n, Locates (fun m m' => w m m' ∨ m = n) (f n)) : Locates w (here >>= f) where
  returns {c s a t} hr := (h s.current.span.start).returns hr
  stops {c s g u} hf := (h s.current.span.start).stops hf
  owns {c s g u} hf hw := by
    refine (h s.current.span.start).owns hf fun m m' hm => ?_
    rcases hm with hm | rfl
    · exact hw m m' hm
    · exact s.met_current

theorem locates_fault {cause offset offset'} (ho : w offset offset') :
    Locates w (fault cause offset : Parse α) where
  returns hr := absurd hr returns_fault
  stops hf := by
    obtain ⟨-, rfl⟩ := stops_fault.1 hf
    exact .refl
  owns hf hw := by
    obtain ⟨rfl, rfl⟩ := stops_fault.1 hf
    exact .inr (hw offset offset' ho)

theorem locates_tooDeep : Locates w (tooDeep : Parse α) where
  returns hr := absurd hr returns_tooDeep
  stops hf := by
    obtain ⟨-, rfl⟩ := stops_tooDeep.1 hf
    exact .refl
  owns {c s f u} hf _ := by
    obtain ⟨rfl, rfl⟩ := stops_tooDeep.1 hf
    exact .inr s.met_current

theorem locates_advance {flag} : Locates w (advance flag) where
  returns hr := (returns_advance.1 hr).reaches
  stops hf := by
    obtain ⟨-, rfl⟩ := stops_advance.1 hf
    exact .refl
  owns hf _ := by
    obtain ⟨⟨d, hn⟩, rfl⟩ := stops_advance.1 hf
    exact .inl ⟨flag, d, hn⟩

/-- A reader that does in every state what some such reader does there, whatever the context. -/
theorem Locates.of_pointwise {q : Parse α}
    (h : ∀ c s, ∃ (p : Parse α) (d : Context), Locates w p ∧ q c s = p d s) : Locates w q where
  returns {c s a t} hr := by
    obtain ⟨p, d, hp, hq⟩ := h c s
    exact hp.returns (hq.symm.trans hr)
  stops {c s f u} hf := by
    obtain ⟨p, d, hp, hq⟩ := h c s
    exact hp.stops (hq.symm.trans hf)
  owns {c s f u} hf := by
    obtain ⟨p, d, hp, hq⟩ := h c s
    exact hp.owns (hq.symm.trans hf)

end

theorem locates_steps : Steps (fun _ => ()) fun w _ _ _ p _ => Locates w p where
  pure _ := (looks_pure _).locates
  bind hp hf := hp.bind fun a => hf a a rfl
  forget h := h
  kind := looks_kind.locates
  here h := Locates.here fun n => h n n (fun _ _ hm => .inl hm) (.inr rfl)
  afterLineBreak := looks_afterLineBreak.locates
  finish _ := (looks_finish _).locates
  advance := locates_advance
  fault _ ho := locates_fault ho
  inScope {_ _ _ _ _ g _ p _} _ h :=
    .of_pointwise fun c _ => ⟨p, { c with scope := g c.scope }, h, rfl⟩
  stacked h := .of_pointwise fun c _ => ⟨_, c, h c.scope.stacked, rfl⟩
  check {_ _ _ _ _ _ _ _ g _ _ rest _} _ ho _ h := by
    refine .of_pointwise fun c s => ?_
    rw [check_apply]
    split
    · exact ⟨_, c, locates_fault ho, rfl⟩
    · exact ⟨rest, c, h, rfl⟩

theorem locates_coupling : Coupling (fun _ => ()) fun w _ _ _ p _ => Locates w p :=
  locates_steps.coupling fun h => .of_pointwise fun c _ => ⟨_, c, h c.budget, rfl⟩

theorem readers_locate (n : Nat) :
    Coupled (fun _ => ()) (fun w _ _ _ p _ => Locates w p) true (readers n) (readers n) := by
  induction n with
  | zero => exact ⟨readers_taking 0, locates_tooDeep, locates_tooDeep⟩
  | succ n ih => exact locates_coupling.readers (readers_taking (n + 1)) ih ih

/-- Reading a script knows no places to begin with. -/
theorem program_locates (n : Nat) : Locates (fun _ _ => False) (program (readers n)) :=
  locates_coupling.program (readers_locate n)

/-! ## Boundaries -/

section
variable {source : List Char} {s t : State}

theorem Reaches.placed (hb : s.Begins source) (h : Reaches s t) : t.Placed source := by
  induction h with
  | refl => exact hb.placed
  | step _ hm ih => exact ih.moves hm

/-- Every token that was obtained has been the current one. -/
theorem Reaches.obtained (hb : s.Begins source) (h : Reaches s t) {token : Token}
    (ht : token ∈ t.tokens) : ∃ r, Reaches s r ∧ Reaches r t ∧ r.current = token := by
  induction h with
  | refl =>
    rw [State.tokens, hb.1, List.reverse_singleton, List.mem_singleton] at ht
    exact ⟨s, .refl, .refl, ht.symm⟩
  | step hr hm ih =>
    rw [hm.tokens] at ht
    rcases List.mem_append.1 ht with ht | ht
    · obtain ⟨r, hsr, hrt, hcurrent⟩ := ih ht
      exact ⟨r, hsr, hrt.step hm, hcurrent⟩
    · exact ⟨_, hr.step hm, .refl, (List.mem_singleton.1 ht).symm⟩

theorem Reaches.boundary (hb : s.Begins source) (h : Reaches s t) {n : Nat} (hn : t.Met n) :
    Text.Boundary source n := by
  obtain ⟨token, hmem, rfl⟩ := hn
  obtain ⟨r, hr, -, rfl⟩ := h.obtained hb hmem
  exact (hr.placed hb).start

end

/-- The tokens obtained when a script is given up. -/
theorem run_tokens_of_stops {c : Context} {source : List Char} {s u : State} {f : Fault}
    (hb : s.Begins source) (h : Stops (program (readers c.limit)) c s f u) :
    (run c source).tokens = u.tokens := by
  obtain ⟨current, gap, earlier, cursor⟩ := s
  obtain ⟨he, hg, hn⟩ := hb
  subst he hg
  simp only [run, hn]
  rw [show program (readers c.limit) c ⟨current, Lexer.gap (Cursor.ofText source), [], cursor⟩ = _
    from h]

end Parser

/-- The lexer's faults stand where a token or a comment begins. -/
theorem Lexer.boundary_of_next {source : List Char} {flag : Bool} {c d : Cursor} {f : Fault}
    (hc : c.Stands source) (h : next flag c = (.error f, d)) : Text.Boundary source f.offset := by
  have hcall := next_called flag c
  have hfront : Text.Boundary source (front c).offset := (hc.advance _).boundary
  rw [h] at hcall
  cases hcall with
  | fault _ _ _ => exact hfront
  | stray _ _ _ => exact hfront

/-- A fault of a run stands at a boundary; one that is not the lexer's own stands at a token that was
obtained. -/
theorem Parser.run_fault {c : Context} {source : List Char} {f : Fault}
    (h : (run c source).result = .error f) : Text.Boundary source f.offset ∧
      (f.cause.kind ≠ .lexical → ∃ token ∈ (run c source).tokens, token.span.start = f.offset) := by
  rcases run_eq_error.1 h with ⟨d, hn⟩ | ⟨s, hb, u, hu⟩
  · exact ⟨Lexer.boundary_of_next (Cursor.stands_ofText source) hn,
      fun hk => absurd (Lexer.lexical_of_next hn) hk⟩
  · have hreach := (program_locates c.limit).stops hu
    rw [run_tokens_of_stops hb hu]
    rcases (program_locates c.limit).owns hu (fun _ _ hw => hw.elim) with ⟨flag, d, hn⟩ | hmet
    · exact ⟨Lexer.boundary_of_next (hreach.placed hb).cursor hn,
        fun hk => absurd (Lexer.lexical_of_next hn) hk⟩
    · exact ⟨hreach.boundary hb hmet, fun _ => hmet⟩

/-! ## Failures and their marks -/

/-- A failure that stands inside its source: at a boundary, with the position of that place; the mark
begins there, is as long as the character that stands there, and is empty only at the end. -/
structure Failure.Inside (source : List Char) (f : Failure) : Prop where
  place : ∃ before after, source = before ++ after ∧ Text.bytes before = f.offset ∧
    (f.diagnostic source).length = (after.head?.map Char.utf8Size).getD 0
  position : f.position = (LineTable.ofText source).position f.offset
  offset : (f.diagnostic source).offset = f.offset
  length_eq_zero : (f.diagnostic source).length = 0 ↔ f.offset = Text.bytes source
  length_le : f.offset + (f.diagnostic source).length ≤ Text.bytes source

theorem Fault.resolve_inside {source : List Char} {f : Fault}
    (h : Text.Boundary source f.offset) : (f.resolve (LineTable.ofText source)).Inside source := by
  obtain ⟨before, after, rfl, hb⟩ := h
  have hle : f.offset ≤ Text.bytes (before ++ after) := by
    rw [Text.bytes_append]
    omega
  have hoffset : ((f.resolve (LineTable.ofText (before ++ after))).diagnostic
      (before ++ after)).offset = f.offset := Nat.min_eq_left hle
  have hlength : ((f.resolve (LineTable.ofText (before ++ after))).diagnostic
      (before ++ after)).length = (after.head?.map Char.utf8Size).getD 0 := by
    simp only [Failure.diagnostic, Fault.resolve]
    rw [Nat.min_eq_left hle, ← hb, Text.dropBytes_append]
    cases after <;> rfl
  refine ⟨⟨before, after, rfl, hb, hlength⟩, rfl, hoffset, ?_, ?_⟩
  · rw [hlength]
    show _ ↔ f.offset = _
    rw [← hb, Text.bytes_append]
    cases after with
    | nil => simp [Text.bytes]
    | cons a cs =>
      have hpos := a.utf8Size_pos
      simp only [List.head?_cons, Option.map_some, Option.getD_some, Text.bytes]
      omega
  · have hinside := Failure.diagnostic_inside (before ++ after)
      (f.resolve (LineTable.ofText (before ++ after)))
    rw [hoffset] at hinside
    exact hinside

theorem Lexer.boundary_of_run {source : List Char} {flags : List Bool} {c : Cursor} {f : Fault}
    (hc : c.Stands source) (h : .error f ∈ run flags c) : Text.Boundary source f.offset := by
  induction flags generalizing c with
  | nil => cases h
  | cons flag flags ih =>
    rcases List.mem_cons.1 h with hfirst | hrest
    · exact boundary_of_next hc (Prod.ext hfirst.symm rfl)
    · exact ih ((next_called flag c).stands hc) hrest

theorem Lexer.boundary_of_collect {source : List Char} {fuel : Nat} {flag : Bool} {c : Cursor}
    {f : Fault} (hc : c.Stands source) (h : collect fuel flag c = .error f) :
    Text.Boundary source f.offset := by
  induction fuel generalizing flag c with
  | zero => cases h
  | succ fuel ih =>
    rcases collect_eq_error.1 h with ⟨d, hn⟩ | ⟨token, d, hn, -, hlater⟩
    · exact boundary_of_next hc hn
    · have hstands := (next_called flag c).stands hc
      rw [hn] at hstands
      exact ih hstands hlater

/-- Every failure stands inside the source, whether a script is read, its tokens are listed or the
lexer is called with any flags; and one of reading that is not the lexer's own stands at the start of
a token that was obtained. -/
theorem failures_inside (source : String) :
    (∀ maxDepth f, parse source maxDepth = .error f → f.Inside source.toList ∧
      (f.cause.kind ≠ .lexical → ∃ token ∈ (Parser.run (Parser.Context.ofText source.toList maxDepth)
        source.toList).tokens, token.span.start = f.offset)) ∧
    (∀ f, Lexer.tokenize source = .error f → f.Inside source.toList) ∧
    ∀ flags f, .error f ∈ Lexer.run flags (Cursor.ofText source.toList) →
      (f.resolve (LineTable.ofText source.toList)).Inside source.toList := by
  refine ⟨fun maxDepth f h => ?_, fun f h => ?_, fun flags f h => ?_⟩
  · obtain ⟨g, hg, rfl⟩ := parse_eq_error.1 h
    obtain ⟨hboundary, htoken⟩ := Parser.run_fault hg
    exact ⟨Fault.resolve_inside hboundary, htoken⟩
  · rw [Lexer.tokenize] at h
    cases hg : Lexer.tokensOf source.toList with
    | ok tokens =>
      rw [hg] at h
      cases h
    | error g =>
      rw [hg] at h
      cases h
      exact Fault.resolve_inside (Lexer.boundary_of_collect (Cursor.stands_ofText _) hg)
  · exact Fault.resolve_inside (Lexer.boundary_of_run (Cursor.stands_ofText _) h)

end ScriptTree
