import Mathlib.Data.Nat.Find
import ScriptTree.Proofs.Inheritance

/-! # The bound on nesting is a threshold

Reading with more levels does the same as reading with fewer, until the fewer run out. A run that has
run out of levels stops where the other one goes on, and tokens come in order, so the other one runs
out later if it does. And every nested part is read behind a token of its own or behind one that is
taken next, so twice the length of the text is more than enough. -/
namespace ScriptTree
namespace Parser

/-! ## Tokens come in order -/

/-- The current token is behind the cursor. -/
def State.Ordered (s : State) : Prop := s.current.span.start ≤ s.cursor.offset

theorem Moves.ordered {flag} {s t : State} (h : Moves flag s t) :
    t.Ordered ∧ s.cursor.offset ≤ t.current.span.start := by
  obtain ⟨text, hf⟩ := h.finds
  have hstart := hf.start
  have hstop := hf.stop
  have hoffset := hf.offset
  unfold State.Ordered
  omega

/-- At a place or after it, with the current token behind the cursor. -/
def State.From (place : Nat) (s : State) : Prop := s.Ordered ∧ place ≤ s.current.span.start

/-- A fault of running out of levels names the limit, and stands at a place or after it. -/
def Fault.From (place limit : Nat) (f : Fault) : Prop :=
  f.cause.concernsDepth = true → f.cause = .nestingTooDeep limit ∧ place ≤ f.offset

theorem from_invariant (place : Nat) : Invariant (fun _ => State.From place) (Fault.From place) where
  moves h hm := by
    obtain ⟨ht, hle⟩ := hm.ordered
    exact ⟨ht, Nat.le_trans h.2 (Nat.le_trans h.1 hle)⟩
  weaken h := h
  faults h hd := absurd (h.symm.trans hd) (by decide)

/-- A reader that goes on to later tokens, and names its limit and a later place if it runs out of
levels. -/
def Later (p : Parse α) : Prop :=
  ∀ place, Keeps (fun _ => State.From place) (Fault.From place) true true p

namespace Later
variable {c : Context} {s t : State} {p : Parse α}

theorem returns {a} (h : Later p) (hr : Returns p c s a t) (hs : s.Ordered) :
    t.Ordered ∧ s.current.span.start ≤ t.current.span.start :=
  (h _).returns hr ⟨hs, Nat.le_refl _⟩

theorem fails {f} (h : Later p) (hf : Fails p c s f) (hs : s.Ordered)
    (hd : f.cause.concernsDepth = true) :
    f.cause = .nestingTooDeep c.limit ∧ s.current.span.start ≤ f.offset :=
  (h _).fails hf ⟨hs, Nat.le_refl _⟩ hd

end Later

theorem Looks.later {p : Parse α} {g : State → α} (h : Looks p g) : Later p := fun _ => h.keeps

theorem readers_later (n place : Nat) :
    Coupled (fun _ => ())
      (fun _ b b' _ p _ => Keeps (fun _ => State.From place) (Fault.From place) b b' p)
      true (readers n) (readers n) :=
  (from_invariant place).readers (fun hs _ => ⟨rfl, hs.2⟩) n

/-! ## More levels -/

/-- What a reader does within its limit, another one does within a greater limit; and where the
first one runs out of levels, the other one goes on or runs out as well. -/
structure Within (limit : Nat) {α κ : Type} (_ _ : Bool) (k : α → κ) (p p' : Parse α) : Prop where
  later : Later p'
  returns (c s a t) : Returns p c s a t → s.Ordered →
    ∃ a', k a = k a' ∧ Returns p' { c with limit } s a' t
  fails (c s f) : Fails p c s f → s.Ordered → f.cause.concernsDepth = false →
    Fails p' { c with limit } s f
  exceeds (c s f) : Fails p c s f → s.Ordered → f.cause.concernsDepth = true →
    (∀ a t, Returns p' { c with limit } s a t → f.offset ≤ t.current.span.start) ∧
    ∀ g, Fails p' { c with limit } s g → g.cause.concernsDepth = true → f.offset ≤ g.offset

variable {limit : Nat}

theorem Looks.within {α κ : Type} {b b' : Bool} {k : α → κ} {p p' : Parse α} {g g' : State → α}
    (h : Looks p g) (h' : Looks p' g') (hk : ∀ s, k (g s) = k (g' s)) : Within limit b b' k p p' where
  later := h'.later
  returns _ s a t hr _ := by
    obtain ⟨rfl, rfl⟩ := h.returns.1 hr
    exact ⟨g' s, hk s, h'.returns.2 ⟨rfl, rfl⟩⟩
  fails _ _ _ hf := absurd hf h.not_fails
  exceeds _ _ _ hf := absurd hf h.not_fails

/-- A reader that does not run out of levels, and does not see the limit. -/
theorem within_of_same {α κ : Type} {b b' : Bool} {k : α → κ} {p : Parse α} (hl : Later p)
    (hd : ∀ c s f, Fails p c s f → f.cause.concernsDepth = false)
    (hp : ∀ c s, p c s = p { c with limit } s) : Within limit b b' k p p where
  later := hl
  returns c s a t hr _ := ⟨a, rfl, by rwa [Returns, ← hp c s]⟩
  fails c s f hf _ _ := by rwa [Fails, ← hp c s]
  exceeds c s f hf _ h := absurd ((hd c s f hf).symm.trans h) (by decide)

theorem within_fault {α κ : Type} {b b' : Bool} {k : α → κ} {cause offset}
    (hc : cause.concernsDepth = false) :
    Within limit b b' k (fault cause offset) (fault cause offset) :=
  within_of_same (fun place => (from_invariant place).fault hc)
    (fun c s f hf => by obtain rfl := fails_fault.1 hf; exact hc) fun _ _ => rfl

/-- Two readers that do in every state what some such readers do there, whatever the scope. -/
theorem Within.of_pointwise {α κ : Type} {b b' : Bool} {k : α → κ} {q q' : Parse α} (hl : Later q')
    (h : ∀ c s, ∃ (p p' : Parse α) (d : Context), Within limit b b' k p p' ∧ q c s = p d s ∧
      q' { c with limit } s = p' { d with limit } s) : Within limit b b' k q q' where
  later := hl
  returns c s a t hr hs := by
    obtain ⟨p, p', d, hp, hq, hq'⟩ := h c s
    obtain ⟨a', hkey, ha'⟩ := hp.returns d s a t (hq.symm.trans hr) hs
    exact ⟨a', hkey, hq'.trans ha'⟩
  fails c s f hf hs hd := by
    obtain ⟨p, p', d, hp, hq, hq'⟩ := h c s
    obtain ⟨u, hu⟩ := hf
    obtain ⟨v, hv⟩ := hp.fails d s f ⟨u, hq.symm.trans hu⟩ hs hd
    exact ⟨v, hq'.trans hv⟩
  exceeds c s f hf hs hd := by
    obtain ⟨p, p', d, hp, hq, hq'⟩ := h c s
    obtain ⟨u, hu⟩ := hf
    obtain ⟨hgo, hstop⟩ := hp.exceeds d s f ⟨u, hq.symm.trans hu⟩ hs hd
    exact ⟨fun a t hr => hgo a t (hq'.symm.trans hr),
      fun g hg hgd => hstop g ⟨_, hq'.symm.trans hg.choose_spec⟩ hgd⟩

/-- Running out of levels at once. -/
theorem within_tooDeep {α κ : Type} {b b' : Bool} {k : α → κ} {p : Parse α} (hp : Later p) :
    Within limit b b' k tooDeep p where
  later := hp
  returns _ _ _ _ hr := absurd hr returns_tooDeep
  fails _ _ _ hf _ hd := by
    obtain rfl := fails_tooDeep.1 hf
    cases hd
  exceeds c s f hf hs _ := by
    obtain rfl := fails_tooDeep.1 hf
    exact ⟨fun a t hr => (hp.returns hr hs).2, fun g hg hd => (hp.fails hg hs hd).2⟩

theorem Within.bind {α β κ μ : Type} {b₁ b₂ b₃ : Bool} {j : α → κ} {k : β → μ} {p p' : Parse α}
    {q q' : α → Parse β} (hp : Within limit b₁ b₂ j p p')
    (hq : ∀ a a', j a = j a' → Within limit b₂ b₃ k (q a) (q' a')) :
    Within limit b₁ b₃ k (p >>= q) (p' >>= q') where
  later := fun place => (hp.later place).bind fun a => (hq a a rfl).later place
  returns c s b u h hs := by
    obtain ⟨a, t, ha, hb⟩ := returns_bind.1 h
    obtain ⟨a', hkey, ha'⟩ := hp.returns c s a t ha hs
    have ht := (hp.later.returns ha' hs).1
    obtain ⟨b', hkey', hb'⟩ := (hq a a' hkey).returns c t b u hb ht
    exact ⟨b', hkey', returns_bind.2 ⟨a', t, ha', hb'⟩⟩
  fails c s f h hs hd := by
    rcases fails_bind.1 h with hf | ⟨a, t, ha, hf⟩
    · exact fails_bind.2 (.inl (hp.fails c s f hf hs hd))
    · obtain ⟨a', hkey, ha'⟩ := hp.returns c s a t ha hs
      have ht := (hp.later.returns ha' hs).1
      exact fails_bind.2 (.inr ⟨a', t, ha', (hq a a' hkey).fails c t f hf ht hd⟩)
  exceeds c s f h hs hd := by
    rcases fails_bind.1 h with hf | ⟨a, t, ha, hf⟩
    · -- The first part runs out: whatever the other run still does comes later.
      obtain ⟨hgo, hstop⟩ := hp.exceeds c s f hf hs hd
      constructor
      · intro b u hb
        obtain ⟨a, t, ha, hb⟩ := returns_bind.1 hb
        have ht := (hp.later.returns ha hs).1
        exact Nat.le_trans (hgo a t ha) ((hq a a rfl).later.returns hb ht).2
      · intro g hg hgd
        rcases fails_bind.1 hg with hg | ⟨a, t, ha, hg⟩
        · exact hstop g hg hgd
        · have ht := (hp.later.returns ha hs).1
          exact Nat.le_trans (hgo a t ha) ((hq a a rfl).later.fails hg ht hgd).2
    · -- The second part runs out, and the other run comes to the same place.
      obtain ⟨a', hkey, ha'⟩ := hp.returns c s a t ha hs
      have ht := (hp.later.returns ha' hs).1
      obtain ⟨hgo, hstop⟩ := (hq a a' hkey).exceeds c t f hf ht hd
      constructor
      · intro b u hb
        obtain ⟨_, _, ha₂, hb⟩ := returns_bind.1 hb
        obtain ⟨rfl, rfl⟩ := ha'.det ha₂
        exact hgo b u hb
      · intro g hg hgd
        rcases fails_bind.1 hg with hg | ⟨_, _, ha₂, hg⟩
        · exact absurd ha' hg.not_returns
        · obtain ⟨rfl, rfl⟩ := ha'.det ha₂
          exact hstop g hg hgd

/-- Places correspond only where they are equal. -/
def Places.Same (w : Places) : Prop := ∀ n n', w n n' → n = n'

theorem within_steps {ν : Type} (note : Span → ν) (limit : Nat) :
    Steps note fun w b b' k p p' => w.Same → Within limit b b' k p p' where
  pure h _ := (looks_pure _).within (looks_pure _) fun _ => h
  bind hp hq hw := (hp hw).bind fun a a' h => hq a a' h hw
  forget h hw := ⟨(h hw).later, (h hw).returns, (h hw).fails, (h hw).exceeds⟩
  kind _ := looks_kind.within looks_kind fun _ => rfl
  here := by
    intro α κ w b b' k f f' h hw
    have hhere : Within limit b b id here here := looks_here.within looks_here fun _ => rfl
    refine hhere.bind fun n n' hn => ?_
    exact @h Eq n n' hw hn fun _ _ h => h
  afterLineBreak _ := looks_afterLineBreak.within looks_afterLineBreak fun _ => rfl
  finish h hw := by
    obtain rfl := hw _ _ h
    exact (looks_finish _).within (looks_finish _) fun _ => rfl
  advance _ := within_of_same (fun place => (from_invariant place).advance)
    (fun c s f hf => by
      obtain ⟨d, hn⟩ := fails_advance.1 hf
      exact concernsDepth_of_lexical (Lexer.lexical_of_next hn))
    fun c s => by rw [advance_apply, advance_apply]
  fault hc h hw := by
    obtain rfl := hw _ _ h
    exact within_fault hc
  inScope := by
    intro α κ w b b' f k p p' _ h hw
    exact Within.of_pointwise (fun place => ((h hw).later place).inScope) fun c _ =>
      ⟨p, p', { c with scope := f c.scope }, h hw, rfl, rfl⟩
  stacked := by
    intro α κ w b b' k q q' h hw
    exact Within.of_pointwise
      (fun place => Keeps.reading (·.scope.stacked) fun n => (h n hw).later place) fun c _ =>
      ⟨_, _, c, h c.scope.stacked hw, rfl, rfl⟩
  check := by
    intro α κ w b b' offset offset' k g g' cause rest rest' hc ho hg h hw
    obtain rfl := hw _ _ ho
    subst hg
    refine Within.of_pointwise (fun place => (from_invariant place).check hc ((h hw).later place))
      fun c s => ?_
    rw [check_apply, check_apply]
    dsimp only
    split
    · exact ⟨_, _, c, within_fault (concernsDepth_of_labels hc), rfl, rfl⟩
    · exact ⟨rest, rest', c, h hw, rfl, rfl⟩

theorem within_coupling {ν : Type} (note : Span → ν) (limit : Nat) :
    Coupling note fun w b b' k p p' => w.Same → Within limit b b' k p p' :=
  (within_steps note limit).coupling fun h hw =>
    Within.of_pointwise (fun place => Keeps.reading (·.budget) fun n => (h n hw).later place) fun c _ =>
      ⟨_, _, c, h c.budget hw, rfl, rfl⟩

/-- Readers of more levels do what readers of fewer levels do. -/
theorem readers_within {ν : Type} (note : Span → ν) (limit : Nat) {n m : Nat} (h : n ≤ m) (b : Bool) :
    Coupled note (fun w b b' k p p' => w.Same → Within limit b b' k p p') b (readers n)
      (readers m) := by
  induction n generalizing m b with
  | zero =>
    have hl := readers_later m
    exact ⟨readers_taking 0, fun _ => within_tooDeep fun place => (hl place).statement (w := .all),
      fun _ => within_tooDeep fun place => (hl place).expression (w := .all)⟩
  | succ n ih =>
    obtain ⟨m, rfl⟩ : ∃ m', m = m' + 1 := ⟨m - 1, by omega⟩
    have inner := ih (m := m) (by omega)
    exact (within_coupling note limit).readers (readers_taking (n + 1)) (inner true) (inner b)

/-! ## Enough levels -/

/-- How much can still be taken: the characters left, and the current token. -/
def State.ahead (s : State) : Nat :=
  s.cursor.rest.length + if s.current.kind = .endOfInput then 0 else 1

/-- Not more than `m` is ahead, or one more if no token has been taken yet. -/
structure State.Room (m : Nat) (taken : Bool) (s : State) : Prop where
  settled : s.current.kind = .endOfInput → s.cursor.rest = []
  bound : s.ahead ≤ if taken then m else m + 1

/-- Where the current token was just found. -/
theorem State.Room.of_finds {flag : Bool} {c : Cursor} {text : List Char} {t : State} {m : Nat}
    (h : Lexer.Finds flag c t.current text t.cursor) (hm : c.rest.length ≤ m) : t.Room m true := by
  by_cases hk : t.current.kind = .endOfInput
  · obtain ⟨-, hrest⟩ := h.at_end hk
    exact ⟨fun _ => hrest, by simp [State.ahead, hk, hrest]⟩
  · have hpos := List.length_pos_iff.2 (h.text_ne_nil hk)
    have hlen := congrArg List.length h.rest
    simp only [List.length_append] at hlen
    refine ⟨fun he => absurd he hk, ?_⟩
    rw [State.ahead, if_neg hk, if_pos rfl]
    omega

theorem room_invariant (m : Nat) :
    Invariant (State.Room m) fun _ f => f.cause.concernsDepth = false where
  moves {b flag s t} h hm := by
    obtain ⟨text, hf⟩ := hm.finds
    refine State.Room.of_finds hf ?_
    have hbound := h.bound
    by_cases hk : s.current.kind = .endOfInput
    · simp [h.settled hk]
    · rw [State.ahead, if_neg hk] at hbound
      split at hbound <;> omega
  weaken {b s} h := ⟨h.settled, by have hbound := h.bound; split <;> simp at hbound <;> omega⟩
  faults h := h

/-- A reader that stops at once. -/
theorem bind_of_error {p : Parse α} {q : α → Parse β} {c s f u} (h : p c s = .error f u) :
    (p >>= q) c s = .error f u := by
  rw [bind_apply, h]

section
variable {R : Readers} {c : Context} {s : State} (hk : s.current.kind = .endOfInput)
include hk

/-- No level is needed to see that nothing is left. -/
theorem expression_at_end {floor forHead} : expression R floor forHead c s =
    .error ⟨.unexpectedOperand .endOfInput, s.current.span.start⟩ s := by
  have hkind : kind c s = .ok .endOfInput s := (looks_kind c s).trans (congrArg (EStateM.Result.ok · s) hk)
  have ho : operand R c s = .error ⟨.unexpectedOperand .endOfInput, s.current.span.start⟩ s := by
    rw [operand, bind_apply, hkind]
    rfl
  rw [expression, bind_apply, looks_here c s]
  exact bind_of_error ho

theorem statement_at_end : statement (readers (n + 1)) c s =
    .error ⟨.unexpectedOperand .endOfInput, s.current.span.start⟩ s := by
  have hkind {c} : kind c s = .ok .endOfInput s := (looks_kind c s).trans (congrArg (EStateM.Result.ok · s) hk)
  have he {stacked start c} : expressionStatement (readers (n + 1)) stacked start c s =
      .error ⟨.unexpectedOperand .endOfInput, s.current.span.start⟩ s := by
    refine bind_of_error ?_
    rw [commaExpression, bind_apply, looks_here c s]
    exact bind_of_error (expression_at_end hk)
  rw [statement, read_bind_apply, inScope, bind_apply, looks_here _ s]
  dsimp only
  rw [bind_apply, hkind]
  exact he

end

/-- A reader that does not run out of levels where not too much is ahead. -/
abbrev Safe (m : Nat) (b b' : Bool) (p : Parse α) : Prop :=
  Keeps (State.Room m) (fun _ f => f.cause.concernsDepth = false) b b' p

/-- With nothing ahead, a reader that stops there is safe. -/
theorem safe_of_at_end {p : Parse α} (hp : ∀ c s, s.current.kind = .endOfInput →
      p c s = .error ⟨.unexpectedOperand .endOfInput, s.current.span.start⟩ s) :
    Safe 0 true true p := by
  have atEnd {s : State} (hs : s.Room 0 true) : s.current.kind = .endOfInput := by
    have hbound := hs.bound
    by_contra hk
    simp [State.ahead, hk] at hbound
  constructor
  · intro c s a t hr hs
    cases (hp c s (atEnd hs)).symm.trans hr
  · rintro c s f ⟨u, hu⟩ hs
    cases (hp c s (atEnd hs)).symm.trans hu
    rfl

/-- Before a token is taken, one more may be ahead. -/
theorem Safe.succ {m : Nat} {p : Parse α} (hp : Safe m false true p) : Safe (m + 1) true true p where
  returns hr hs := by
    have ht := hp.returns hr ⟨hs.settled, hs.bound⟩
    exact ⟨ht.settled, Nat.le_succ_of_le ht.bound⟩
  fails hf hs := hp.fails hf ⟨hs.settled, hs.bound⟩

/-- Twice as many levels as there are tokens ahead are enough: an expression or a statement is read
inside another one only behind a token, except for the expression that a statement begins with. -/
theorem readers_safe (m n : Nat) (h : 2 * m + 2 ≤ n) :
    Coupled (fun _ => ()) (fun _ b b' _ p _ => Safe m b b' p) true (readers n) (readers n) := by
  induction m generalizing n with
  | zero =>
    obtain ⟨n, rfl⟩ : ∃ k, n = k + 2 := ⟨n - 2, by omega⟩
    exact ⟨readers_taking _, safe_of_at_end fun _ _ hk => statement_at_end hk,
      safe_of_at_end fun _ _ hk => expression_at_end hk⟩
  | succ m ih =>
    obtain ⟨n, rfl⟩ : ∃ k, n = k + 2 := ⟨n - 2, by omega⟩
    have hQ := (room_invariant m).coupling
    have inner := ih (n + 1) (by omega)
    exact ⟨readers_taking _, Safe.succ (hQ.statement (w := .all) inner
        fun {w} => hQ.expression (w := w) (ih n (by omega))),
      Safe.succ (hQ.expression (w := .all) inner)⟩

/-! ## Scripts -/

/-- A run fails at the first token, or in reading the script. -/
theorem run_eq_error {c : Context} {source : List Char} {f : Fault} :
    (run c source).result = .error f ↔
      (∃ d, Lexer.next false (Cursor.ofText source) = (.error f, d)) ∨
      ∃ s, s.Begins source ∧ Fails (program (readers c.limit)) c s f := by
  simp only [run, State.Begins, Fails]
  rcases hn : Lexer.next false (Cursor.ofText source) with ⟨g | token, cursor⟩
  · simp
  · simp only [Prod.mk.injEq, reduceCtorEq, false_and, exists_false, false_or, Except.ok.injEq]
    constructor
    · intro h
      refine ⟨⟨token, Lexer.gap (Cursor.ofText source), [], cursor⟩, ⟨rfl, rfl, rfl, rfl⟩, ?_⟩
      revert h
      cases program (readers c.limit) c ⟨token, Lexer.gap (Cursor.ofText source), [], cursor⟩ with
      | ok p t => intro h; cases h
      | error g u =>
        intro h
        cases h
        exact ⟨u, rfl⟩
    · rintro ⟨⟨current, gap, earlier, cursor'⟩, ⟨rfl, rfl, rfl, rfl⟩, u, hp⟩
      rw [hp]

theorem State.Begins.det {source : List Char} {s t : State} (hs : s.Begins source)
    (ht : t.Begins source) : s = t := by
  obtain ⟨current, gap, earlier, cursor⟩ := s
  obtain ⟨current', gap', earlier', cursor'⟩ := t
  obtain ⟨rfl, rfl, hn⟩ := hs
  obtain ⟨rfl, rfl, hn'⟩ := ht
  cases hn.symm.trans hn'
  rfl

theorem State.Begins.ordered {source : List Char} {s : State} (h : s.Begins source) : s.Ordered := by
  obtain ⟨text, hf⟩ := h.finds
  have hstop := hf.stop
  have hoffset := hf.offset
  unfold State.Ordered
  omega

end Parser

theorem parse_eq_error {source : String} {maxDepth : Nat} {f : Failure} :
    parse source maxDepth = .error f ↔
      ∃ g, (Parser.run (Parser.Context.ofText source.toList maxDepth) source.toList).result =
          .error g ∧ g.resolve (LineTable.ofText source.toList) = f := by
  simp only [parse, parseSpans]
  cases (Parser.run (Parser.Context.ofText source.toList maxDepth) source.toList).result with
  | ok q =>
    show Except.ok _ = .error f ↔ _
    simp
  | error g =>
    show Except.error (g.resolve (LineTable.ofText source.toList)) = .error f ↔ _
    simp

/-- Whether a script was given up because it is nested too deep. -/
def exceeds (source : String) (limit : Nat) : Bool :=
  match parse source limit with
  | .ok _ => false
  | .error f => f.cause.concernsDepth

namespace Parser

/-- Reading a script within two limits. -/
theorem program_within (source : List Char) {limit limit' : Nat} (h : limit ≤ limit') :
    Within limit' false false (Program.map (·.locate source (LineTable.ofText source)))
      (program (readers limit)) (program (readers limit')) :=
  (within_coupling _ limit').program (w := Eq) (readers_within _ limit' h false) fun _ _ h => h

variable {source : String} {limit limit' : Nat} {f f' : Failure}

theorem parse_eq_of_le (h : limit ≤ limit') (hd : exceeds source limit = false) :
    parse source limit' = parse source limit := by
  unfold exceeds at hd
  cases hp : parse source limit with
  | ok p =>
    obtain ⟨q, hq, rfl⟩ := parse_eq_ok.1 hp
    obtain ⟨s, t, hs, hr⟩ := run_eq_ok.1 hq
    obtain ⟨q', hkey, hr'⟩ := (program_within source.toList h).returns _ s q t hr hs.ordered
    exact parse_eq_ok.2 ⟨q', run_eq_ok.2 ⟨s, t, hs, hr'⟩, hkey⟩
  | error f =>
    rw [hp] at hd
    obtain ⟨g, hg, rfl⟩ := parse_eq_error.1 hp
    refine parse_eq_error.2 ⟨g, run_eq_error.2 ?_, rfl⟩
    rcases run_eq_error.1 hg with hn | ⟨s, hs, hr⟩
    · exact .inl hn
    · exact .inr ⟨s, hs, (program_within source.toList h).fails _ s g hr hs.ordered hd⟩

/-- A script that is nested too deep is given up in the middle of it. -/
theorem fails_of_exceeds (h : exceeds source limit = true) : ∃ s g, s.Begins source.toList ∧
    Fails (program (readers limit)) (Context.ofText source.toList limit) s g ∧
    g.cause.concernsDepth = true ∧
    parse source limit = .error (g.resolve (LineTable.ofText source.toList)) := by
  unfold exceeds at h
  cases hp : parse source limit with
  | ok p =>
    rw [hp] at h
    cases h
  | error f =>
    rw [hp] at h
    obtain ⟨g, hg, rfl⟩ := parse_eq_error.1 hp
    rcases run_eq_error.1 hg with ⟨d, hn⟩ | ⟨s, hs, hr⟩
    · have hno : g.cause.concernsDepth = false :=
        concernsDepth_of_lexical (Lexer.lexical_of_next hn)
      exact absurd (hno.symm.trans h) (by decide)
    · exact ⟨s, g, hs, hr, h, rfl⟩

/-- The fault names the limit. -/
theorem cause_of_exceeds (h : exceeds source limit = true) :
    ∃ f, parse source limit = .error f ∧ f.cause = .nestingTooDeep limit := by
  obtain ⟨s, g, hs, hr, hd, hp⟩ := fails_of_exceeds h
  have hfrom := ((from_invariant 0).program (fun hs _ => ⟨rfl, hs.2⟩) limit).fails hr
  exact ⟨_, hp, (hfrom ⟨hs.ordered, Nat.zero_le _⟩ hd).1⟩

theorem offset_le_of_exceeds (h : limit ≤ limit') (hd : exceeds source limit = true)
    (hd' : exceeds source limit' = true) (hf : parse source limit = .error f)
    (hf' : parse source limit' = .error f') : f.offset ≤ f'.offset := by
  obtain ⟨s, g, hs, hr, hg, hp⟩ := fails_of_exceeds hd
  obtain ⟨s', g', hs', hr', hg', hp'⟩ := fails_of_exceeds hd'
  obtain rfl := Except.error.inj (hf.symm.trans hp)
  obtain rfl := Except.error.inj (hf'.symm.trans hp')
  obtain rfl := hs.det hs'
  exact ((program_within source.toList h).exceeds _ s g hr hs.ordered hg).2 g' hr' hg'

/-- Twice as many levels as the script has characters are more than enough. -/
theorem exceeds_eq_false_of_le (h : 2 * source.toList.length + 2 ≤ limit) :
    exceeds source limit = false := by
  rw [Bool.eq_false_iff]
  intro hd
  obtain ⟨s, g, hs, hr, hd, -⟩ := fails_of_exceeds hd
  obtain ⟨text, hfind⟩ := hs.finds
  have hroom : s.Room source.toList.length true := State.Room.of_finds hfind (Nat.le_refl _)
  have hsafe := (room_invariant _).coupling.program (w := .all) (readers_safe source.toList.length limit h)
  have hno : g.cause.concernsDepth = false := hsafe.fails hr hroom
  exact absurd (hno.symm.trans hd) (by decide)

end Parser

/-- The bound on nesting is a pure threshold: from some depth on it has no influence on the result,
which is not that of a script nested too deep; below, it stops the script and is named, no earlier in
the text the greater it is. -/
theorem parse_threshold (source : String) : ∃ depth result,
    (∀ limit, depth ≤ limit → parse source limit = result) ∧
    (∀ f, result = .error f → ∀ limit, f.cause ≠ .nestingTooDeep limit) ∧
    (∀ limit, limit < depth → ∃ f, parse source limit = .error f ∧
      f.cause = .nestingTooDeep limit ∧ f.cause.kind = .grammar) ∧
    ∀ limit limit' f f', limit ≤ limit' → limit' < depth → parse source limit = .error f →
      parse source limit' = .error f' → f.offset ≤ f'.offset := by
  have enough : ∃ limit, exceeds source limit = false :=
    ⟨_, Parser.exceeds_eq_false_of_le (Nat.le_refl _)⟩
  have below {limit} (h : limit < Nat.find enough) : exceeds source limit = true := by
    simpa using Nat.find_min enough h
  refine ⟨Nat.find enough, parse source (Nat.find enough), ?_, ?_, ?_, ?_⟩
  · intro limit h
    exact Parser.parse_eq_of_le h (Nat.find_spec enough)
  · intro f hf limit hc
    have hspec := Nat.find_spec enough
    rw [exceeds, hf] at hspec
    dsimp only at hspec
    rw [hc] at hspec
    cases hspec
  · intro limit h
    obtain ⟨f, hf, hc⟩ := Parser.cause_of_exceeds (below h)
    exact ⟨f, hf, hc, by rw [hc]; rfl⟩
  · intro limit limit' f f' hle h hf hf'
    exact Parser.offset_le_of_exceeds hle (below (Nat.lt_of_le_of_lt hle h)) (below h) hf hf'

-- Three levels for a name in parentheses: a statement, the group, and the name.
example : exceeds "(a)" 2 = true ∧ exceeds "(a)" 3 = false := by decide +kernel

end ScriptTree
