import ScriptTree.Proofs.Composition
import ScriptTree.Proofs.Tokens

/-! # What every reader inherits from its steps

The first uses of a relation between readers look at one run only. What every move through the tokens
keeps is kept by every reader, whether it returns or fails; so every statement and every expression
takes a token. And a property of readers that the steps have and that sequencing keeps is a property
of all readers, at every level of nesting; `Inherited` lists what has to be shown. -/
namespace ScriptTree.Parser

/-! ## Faults -/

/-- The reader stops with a fault. -/
def Fails (p : Parse α) (c : Context) (s : State) (f : Fault) : Prop := ∃ u, p c s = .error f u

section
variable {c : Context} {s t : State} {f : Fault}

theorem Fails.not_returns {p : Parse α} {a} (h : Fails p c s f) : ¬ Returns p c s a t := by
  obtain ⟨u, hu⟩ := h
  intro hr
  cases hu.symm.trans hr

theorem fails_bind {p : Parse α} {q : α → Parse β} :
    Fails (p >>= q) c s f ↔ Fails p c s f ∨ ∃ a t, Returns p c s a t ∧ Fails (q a) c t f := by
  simp only [Fails, Returns, bind_apply]
  cases hp : p c s with
  | ok a t =>
    constructor
    · intro h
      exact .inr ⟨a, t, rfl, h⟩
    · rintro (⟨u, h⟩ | ⟨a', t', h, hf⟩)
      · cases h
      · cases h
        exact hf
  | error g u => simp

theorem fails_fault {cause offset} :
    Fails (fault cause offset : Parse α) c s f ↔ f = ⟨cause, offset⟩ := by
  constructor
  · rintro ⟨u, h⟩
    injection h with h
    exact h.symm
  · rintro rfl
    exact ⟨s, rfl⟩

theorem fails_advance {flag} :
    Fails (advance flag) c s f ↔ ∃ d, Lexer.next flag s.cursor = (.error f, d) := by
  simp only [Fails, advance_apply]
  rcases Lexer.next flag s.cursor with ⟨g | token, d⟩
  · simp
  · simp

theorem fails_tooDeep : Fails (tooDeep : Parse α) c s f ↔
    f = ⟨.nestingTooDeep c.limit, s.current.span.start⟩ := by
  constructor
  · rintro ⟨u, h⟩
    injection h with h
    exact h.symm
  · rintro rfl
    exact ⟨s, rfl⟩

/-- A check of labels stops the reader, or is not there. -/
theorem check_apply {g : Scope → Bool} {cause offset} {rest : Parse α} :
    (read >>= fun c => if (c.checkLabels && g c.scope) = true
      then fault cause offset >>= fun (_ : PUnit) => rest else rest : Parse α) c s =
      if (c.checkLabels && g c.scope) = true then .error ⟨cause, offset⟩ s else rest c s := by
  rw [read_bind_apply]
  split <;> rfl

/-- A reader that only looks. -/
def Looks (p : Parse α) (g : State → α) : Prop := ∀ c s, p c s = .ok (g s) s

theorem Looks.returns {p : Parse α} {g : State → α} (h : Looks p g) {a} :
    Returns p c s a t ↔ g s = a ∧ s = t := by
  rw [Returns, h c s]
  simp

theorem Looks.not_fails {p : Parse α} {g : State → α} (h : Looks p g) : ¬ Fails p c s f := by
  rintro ⟨u, hu⟩
  cases (h c s).symm.trans hu

end

theorem looks_pure (a : α) : Looks (pure a) fun _ => a := fun _ _ => rfl

theorem looks_kind : Looks kind fun s => s.current.kind := fun _ _ => rfl

theorem looks_here : Looks here fun s => s.current.span.start := fun _ _ => rfl

theorem looks_afterLineBreak : Looks afterLineBreak fun s => s.gap.any Text.isLineBreak :=
  fun _ _ => rfl

theorem looks_finish (start : Nat) : Looks (finish start) fun s => s.since start := fun _ _ => rfl

theorem concernsDepth_of_lexical {cause : Cause} (h : cause.kind = .lexical) :
    cause.concernsDepth = false := by
  cases cause <;> first | rfl | cases h

theorem concernsDepth_of_labels {cause : Cause} (h : cause.concernsLabels = true) :
    cause.concernsDepth = false := by
  cases cause <;> first | rfl | cases h

/-! ## Invariants -/

/-- What a reader keeps: `I` holds of the states it goes through, before or after it has taken a
token, and `J` holds of the fault it stops with, given the limit on nesting. -/
structure Keeps (I : Bool → State → Prop) (J : Nat → Fault → Prop) (b b' : Bool) (p : Parse α) :
    Prop where
  returns {c s a t} : Returns p c s a t → I b s → I b' t
  fails {c s f} : Fails p c s f → I b s → J c.limit f

/-- What every move keeps and every fault has, running out of levels apart. -/
structure Invariant (I : Bool → State → Prop) (J : Nat → Fault → Prop) : Prop where
  moves {b flag s t} : I b s → Moves flag s t → I true t
  weaken {b s} : I true s → I b s
  faults {limit f} : f.cause.concernsDepth = false → J limit f

section
variable {I : Bool → State → Prop} {J : Nat → Fault → Prop} {b b' : Bool} {p : Parse α}

theorem Looks.keeps {g : State → α} (h : Looks p g) : Keeps I J b b p where
  returns hr hs := by
    obtain ⟨-, rfl⟩ := h.returns.1 hr
    exact hs
  fails hf := absurd hf h.not_fails

/-- A reader that does in every state what some such reader does there, whatever the scope. -/
theorem Keeps.of_pointwise {q : Parse α}
    (h : ∀ c s, ∃ (p : Parse α) (d : Context), Keeps I J b b' p ∧ d.limit = c.limit ∧ q c s = p d s) :
    Keeps I J b b' q where
  returns {c s a t} hr := by
    obtain ⟨p, d, hp, -, hq⟩ := h c s
    exact hp.returns (hq.symm.trans hr)
  fails {c s f} hf := by
    obtain ⟨p, d, hp, hd, hq⟩ := h c s
    obtain ⟨u, hu⟩ := hf
    rw [← hd]
    exact hp.fails ⟨u, hq.symm.trans hu⟩

theorem Keeps.bind {b₂ b₃ : Bool} {q : α → Parse β} (hp : Keeps I J b b₂ p)
    (hq : ∀ a, Keeps I J b₂ b₃ (q a)) : Keeps I J b b₃ (p >>= q) where
  returns h hs := by
    obtain ⟨a, t, ha, hb⟩ := returns_bind.1 h
    exact (hq a).returns hb (hp.returns ha hs)
  fails h hs := by
    rcases fails_bind.1 h with hf | ⟨a, t, ha, hf⟩
    · exact hp.fails hf hs
    · exact (hq a).fails hf (hp.returns ha hs)

theorem Keeps.inScope {g} (h : Keeps I J b b' p) : Keeps I J b b' (inScope g p) :=
  Keeps.of_pointwise fun c _ => ⟨p, { c with scope := g c.scope }, h, rfl, rfl⟩

theorem Keeps.reading (g : Context → β) {q : β → Parse α} (h : ∀ x, Keeps I J b b' (q x)) :
    Keeps I J b b' (read >>= fun c => q (g c)) :=
  Keeps.of_pointwise fun c _ => ⟨q (g c), c, h _, rfl, rfl⟩

namespace Invariant
variable (hI : Invariant I J)
include hI

theorem fault {cause offset} (hc : cause.concernsDepth = false) :
    Keeps I J b b' (fault cause offset : Parse α) where
  returns hr := absurd hr returns_fault
  fails hf _ := by
    obtain rfl := fails_fault.1 hf
    exact hI.faults hc

theorem advance {flag} : Keeps I J b true (advance flag) where
  returns hr hs := hI.moves hs (returns_advance.1 hr)
  fails hf _ := by
    obtain ⟨d, hn⟩ := fails_advance.1 hf
    exact hI.faults (concernsDepth_of_lexical (Lexer.lexical_of_next hn))

theorem check {g : Scope → Bool} {cause offset} (hc : cause.concernsLabels = true)
    (h : Keeps I J b b' p) :
    Keeps I J b b' (read >>= fun c => if (c.checkLabels && g c.scope) = true
      then Parser.fault cause offset >>= fun (_ : PUnit) => p else p) := by
  refine Keeps.of_pointwise fun c s => ?_
  rw [check_apply]
  split
  · exact ⟨_, c, hI.fault (concernsDepth_of_labels hc), rfl, rfl⟩
  · exact ⟨p, c, h, rfl, rfl⟩

theorem steps : Steps (fun _ => ()) fun _ b b' _ p _ => Keeps I J b b' p where
  pure _ := (looks_pure _).keeps
  bind hp hf := hp.bind fun a => hf a a rfl
  forget h := ⟨fun hr hs => hI.weaken (h.returns hr hs), h.fails⟩
  kind := looks_kind.keeps
  here h := looks_here.keeps.bind fun n => @h .all n n (fun _ _ _ => trivial) trivial
  afterLineBreak := looks_afterLineBreak.keeps
  finish _ := (looks_finish _).keeps
  advance := hI.advance
  fault hc _ := hI.fault hc
  inScope _ h := h.inScope
  stacked h := Keeps.reading (·.scope.stacked) h
  check hc _ _ h := hI.check hc h

theorem coupling : Coupling (fun _ => ()) fun _ b b' _ p _ => Keeps I J b b' p :=
  hI.steps.coupling fun h => Keeps.reading (·.budget) h

end Invariant
end

/-! ## Progress -/

/-- Going on from a state: as soon as a token has been taken, one that is not the end of input has
been, unless that was the first. -/
structure State.Leads (s : State) (taken : Bool) (t : State) : Prop where
  rank_le : s.rank ≤ t.rank
  rank_lt : s.current.kind ≠ .endOfInput → taken = false ∧ s = t ∨ s.rank < t.rank

theorem leads_invariant (s : State) : Invariant s.Leads fun _ _ => True where
  moves {b flag t u} h hm := by
    refine ⟨Nat.le_trans h.rank_le hm.rank_le, fun hk => .inr ?_⟩
    rcases h.rank_lt hk with ⟨-, rfl⟩ | hlt
    · exact hm.rank_lt hk
    · exact Nat.lt_of_lt_of_le hlt hm.rank_le
  weaken h := by
    refine ⟨h.rank_le, fun hk => .inr ?_⟩
    rcases h.rank_lt hk with ⟨hb, -⟩ | hlt
    · cases hb
    · exact hlt
  faults _ := trivial

/-- Productions take a token, if their parts do. -/
theorem Taking.coupled {R : Readers} (hR : Taking R) (s : State) {b : Bool} :
    Coupled (fun _ => ()) (fun _ b b' _ p _ => Keeps s.Leads (fun _ _ => True) b b' p) b R R := by
  have leads {b t u} (h : s.Leads b t) (hlt : t.rank < u.rank) : s.Leads true u :=
    ⟨Nat.le_trans h.rank_le (Nat.le_of_lt hlt), fun _ => .inr (Nat.lt_of_le_of_lt h.rank_le hlt)⟩
  exact ⟨hR, ⟨fun h hs => leads hs (hR.statement h), fun _ _ => trivial⟩,
    ⟨fun h hs => leads hs (hR.expression h), fun _ _ => trivial⟩⟩

/-- A reader that starts before a token is taken and stops after one takes a token. -/
theorem Keeps.takes {p : Parse α} {c : Context} {s : State} {a : α} {t : State}
    (h : Keeps s.Leads (fun _ _ => True) false true p) (hp : Returns p c s a t)
    (hk : s.current.kind ≠ .endOfInput) : s.rank < t.rank := by
  rcases (h.returns hp ⟨Nat.le_refl _, fun _ => .inl ⟨rfl, rfl⟩⟩).rank_lt hk with ⟨hb, -⟩ | hlt
  · cases hb
  · exact hlt

/-- Every statement and every expression takes a token. -/
theorem readers_taking (n : Nat) : Taking (readers n) := by
  induction n with
  | zero =>
    constructor
    · intro c s x t h
      exact absurd h returns_tooDeep
    · intro floor forHead c s e t h
      exact absurd h returns_tooDeep
  | succ n ih =>
    constructor
    · intro c s x t h
      have hp := ih.coupled s (b := false)
      exact ((leads_invariant s).coupling.statement (w := .all) (ih.coupled s)
        fun {w} => hp.expression (w := w)).takes h
        ((readers_starting (n + 1)).statement h)
    · intro floor forHead c s e t h
      exact ((leads_invariant s).coupling.expression (w := .all) (ih.coupled s)).takes h
        ((readers_starting (n + 1)).expression h)

/-- Going on with an expression takes a token. -/
theorem Taking.extend {R : Readers} (hR : Taking R) {start floor forHead left q c s e t}
    (hq : continuation? floor forHead s.current.kind = some q)
    (h : Returns (extend R start forHead left q) c s e t) : s.rank < t.rank :=
  (@Coupling.extend _ _ _ .all (leads_invariant s).coupling R R (hR.coupled s) false start
    start _ _ _ _ trivial rfl).takes h (continuation_starts hq)

theorem Taking.switchCase {R : Readers} (hR : Taking R) {c s x t}
    (h : Returns (switchCase R) c s x t) : s.rank < t.rank :=
  ((leads_invariant s).coupling.switchCase (w := .all) (hR.coupled s)).takes h (switchCase_starts h)

section
variable {I : Bool → State → Prop} {J : Nat → Fault → Prop} (hI : Invariant I J)
  (hJ : ∀ {limit s}, I true s → J limit ⟨.nestingTooDeep limit, s.current.span.start⟩)
include hI hJ

/-- An invariant is kept by the readers of every level, if running out of levels keeps it. -/
theorem Invariant.readers (n : Nat) :
    Coupled (fun _ => ()) (fun _ b b' _ p _ => Keeps I J b b' p) true (readers n) (readers n) := by
  induction n with
  | zero =>
    have exceeds {α : Type} : Keeps I J true true (tooDeep : Parse α) := by
      refine ⟨fun hr => absurd hr returns_tooDeep, fun hf hs => ?_⟩
      obtain rfl := fails_tooDeep.1 hf
      exact hJ hs
    exact ⟨readers_taking 0, exceeds, exceeds⟩
  | succ n ih => exact hI.coupling.readers (readers_taking (n + 1)) ih ih

theorem Invariant.program (n : Nat) : Keeps I J true true (program (Parser.readers n)) :=
  hI.coupling.program (w := .all) (hI.readers hJ n)

end

theorem reaches_invariant (s : State) : Invariant (fun _ => Reaches s) fun _ _ => True where
  moves h hm := h.step hm
  weaken h := h
  faults _ := trivial

theorem program_reaches {n c s p t} (h : Returns (program (readers n)) c s p t) : Reaches s t :=
  ((reaches_invariant s).program (fun _ => trivial) n).returns h .refl

/-! ## Properties -/

/-- The same context, with jumps and labels taken as they come. -/
def Context.unchecked (c : Context) : Context := { c with checkLabels := false }

/-- A property of readers that is kept by sequencing. Of the context a reader may use what does not
depend on whether labels are checked, except in a check of labels itself. -/
structure Inherited (Q : (α : Type) → Parse α → Prop) : Prop where
  pure {α} {a : α} : Q α (pure a)
  bind {α β} {p : Parse α} {f : α → Parse β} : Q α p → (∀ a, Q β (f a)) → Q β (p >>= f)
  get : Q State get
  advance {flag} : Q Unit (advance flag)
  fault {α cause offset} : Q α (fault cause offset)
  inScope {α f} {p : Parse α} : Q α p → Q α (inScope f p)
  reading {α β : Type} (g : Context → β) {f : β → Parse α} : (∀ c, g c.unchecked = g c) →
    (∀ b, Q α (f b)) → Q α (read >>= fun c => f (g c))
  check {α} (g : Scope → Bool) (cause : Cause) (offset : Nat) {rest : Parse α} :
    cause.concernsLabels = true →
    Q α rest →
    Q α (read >>= fun c =>
      if (c.checkLabels && g c.scope) = true then Parser.fault cause offset >>= fun (_ : PUnit) => rest
      else rest)

/-- Both readers of a level have the property. -/
structure Covers (Q : (α : Type) → Parse α → Prop) (R : Readers) : Prop where
  takes : Taking R
  statement : Q _ R.statement
  expression {floor forHead} : Q _ (R.expression floor forHead)

theorem Covers.coupled {Q : (α : Type) → Parse α → Prop} {R : Readers} (hR : Covers Q R) {b : Bool} :
    Coupled (fun _ => ()) (fun {α _} _ _ _ _ p _ => Q α p) b R R :=
  ⟨hR.takes, hR.statement, hR.expression⟩

namespace Inherited
variable {Q : (α : Type) → Parse α → Prop} (hQ : Inherited Q)
include hQ

/-- A property is a relation that does not look at the second run. -/
theorem steps : Steps (fun _ => ()) fun {α _} _ _ _ _ p _ => Q α p where
  pure _ := hQ.pure
  bind hp hf := hQ.bind hp fun a => hf a a rfl
  forget h := h
  kind := hQ.bind hQ.get fun _ => hQ.pure
  here h := hQ.bind (hQ.bind hQ.get fun _ => hQ.pure) fun n =>
    @h .all n n (fun _ _ _ => trivial) trivial
  afterLineBreak := hQ.bind hQ.get fun _ => hQ.pure
  finish _ := hQ.bind hQ.get fun _ => hQ.pure
  advance := hQ.advance
  fault _ _ := hQ.fault
  inScope _ h := hQ.inScope h
  stacked hf := hQ.reading (·.scope.stacked) (fun _ => rfl) hf
  check hc _ _ h := hQ.check _ _ _ hc h

theorem coupling : Coupling (fun _ => ()) fun {α _} _ _ _ _ p _ => Q α p :=
  hQ.steps.coupling fun hf => hQ.reading (·.budget) (fun _ => rfl) hf

theorem tooDeep : Q α tooDeep :=
  hQ.reading (·.limit) (fun _ => rfl) fun n =>
    show Q α (faultHere (.nestingTooDeep n)) from
      hQ.bind (hQ.bind hQ.get fun _ => hQ.pure) fun _ => hQ.fault

theorem program {R : Readers} (hR : Covers Q R) : Q _ (program R) :=
  hQ.coupling.program (w := .all) (hR.coupled (b := true))

/-- Readers of every level inherit the property. -/
theorem readers (n : Nat) : Covers Q (readers n) := by
  induction n with
  | zero => exact ⟨readers_taking 0, hQ.tooDeep, hQ.tooDeep⟩
  | succ n ih =>
    have inner := ih.coupled (b := true)
    have outer := hQ.coupling.readers (readers_taking (n + 1)) inner inner
    exact ⟨outer.takes, outer.statement (w := .all), outer.expression (w := .all)⟩

end Inherited
end ScriptTree.Parser
