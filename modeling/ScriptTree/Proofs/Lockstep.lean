import ScriptTree.Proofs.Inheritance

/-! # Two runs in lockstep

A reader sees of a state the kind of its token and whether a line ends before it, and goes on with a
flag for the lexer. So if the states of two runs look alike, and go on to look alike wherever the first
run goes, then the second run does what the first one does, and builds the same tree with other notes.
The places of the tokens and the fuel of the loops may differ. -/
namespace ScriptTree.Parser

/-- States that look the same to a reader, places aside. -/
structure Alike (s s' : State) : Prop where
  kind : s.current.kind = s'.current.kind
  lines : s.gap.any Text.isLineBreak = s'.gap.any Text.isLineBreak

/-- States that look alike, and from which a second run can follow a first one on its way to `last`. -/
structure Lockstep (last : State) (S : State → State → Prop) : Prop where
  alike {s s'} : S s s' → Alike s s'
  follow {flag s s' t} : S s s' → Moves flag s t → Reaches t last → ∃ t', Moves flag s' t' ∧ S t t'

/-- What the first reader does on the way to `last`, the second one does in a state that is in step,
with a budget of its own. -/
structure Echoes (last : State) (S : State → State → Prop) (budget : Nat) {α κ : Type} (_ _ : Bool)
    (k : α → κ) (p p' : Parse α) : Prop where
  reaches {c s a t} : Returns p c s a t → Reaches s t
  echo {c s a t s'} : Returns p c s a t → Reaches t last → S s s' →
    ∃ a' t', k a = k a' ∧ Returns p' { c with budget } s' a' t' ∧ S t t'

section
variable {last : State} {S : State → State → Prop} {budget : Nat} {α κ : Type} {b b' : Bool}
  {k : α → κ} {p p' : Parse α}

/-- Readers that only look, and see the same. -/
theorem Looks.echoes {g g' : State → α} (h : Looks p g) (h' : Looks p' g')
    (hk : ∀ s s', S s s' → k (g s) = k (g' s')) : Echoes last S budget b b' k p p' where
  reaches hp := by
    obtain ⟨-, rfl⟩ := h.returns.1 hp
    exact .refl
  echo {c s a t s'} hp _ hs := by
    obtain ⟨rfl, rfl⟩ := h.returns.1 hp
    exact ⟨g' s', s', hk s s' hs, h'.returns.2 ⟨rfl, rfl⟩, hs⟩

theorem Echoes.bind {β μ : Type} {j : β → μ} {q q' : α → Parse β} {b₁ b₂ b₃ : Bool}
    (hp : Echoes last S budget b₁ b₂ k p p')
    (hq : ∀ a a', k a = k a' → Echoes last S budget b₂ b₃ j (q a) (q' a')) :
    Echoes last S budget b₁ b₃ j (p >>= q) (p' >>= q') where
  reaches h := by
    obtain ⟨a, t, ha, hb⟩ := returns_bind.1 h
    exact (hp.reaches ha).trans ((hq a a rfl).reaches hb)
  echo h hu hs := by
    obtain ⟨a, t, ha, hb⟩ := returns_bind.1 h
    obtain ⟨a', t', hkey, ha', ht⟩ := hp.echo ha (((hq a a rfl).reaches hb).trans hu) hs
    obtain ⟨b', u', hkey', hb', hu'⟩ := (hq a a' hkey).echo hb hu ht
    exact ⟨b', u', hkey', returns_bind.2 ⟨a', t', ha', hb'⟩, hu'⟩

theorem echoes_fault {cause offset offset'} :
    Echoes last S budget b b' k (fault cause offset) (fault cause offset') :=
  ⟨fun h => absurd h returns_fault, fun h => absurd h returns_fault⟩

/-- Two readers that do in every context what some such readers do in a context of the same budget. -/
theorem Echoes.of_pointwise {q q' : Parse α}
    (h : ∀ c, ∃ (p p' : Parse α) (d : Context), Echoes last S budget b b' k p p' ∧
      (∀ {s a t}, Returns q c s a t → Returns p d s a t) ∧
      ∀ {s a t}, Returns p' { d with budget } s a t → Returns q' { c with budget } s a t) :
    Echoes last S budget b b' k q q' where
  reaches {c s a t} hr := by
    obtain ⟨p, p', d, hp, hq, -⟩ := h c
    exact hp.reaches (hq hr)
  echo {c s a t s'} hr ht hs := by
    obtain ⟨p, p', d, hp, hq, hq'⟩ := h c
    obtain ⟨a', t', hkey, ha', ht'⟩ := hp.echo (hq hr) ht hs
    exact ⟨a', t', hkey, hq' ha', ht'⟩

end

section
variable {last : State} {S : State → State → Prop} (hS : Lockstep last S) (budget : Nat)
include hS

theorem Lockstep.steps : Steps (fun _ => ()) fun _ => Echoes last S budget where
  pure h := (looks_pure _).echoes (looks_pure _) fun _ _ _ => h
  bind hp hf := hp.bind hf
  forget h := ⟨h.reaches, h.echo⟩
  kind := looks_kind.echoes looks_kind fun _ _ hs => (hS.alike hs).kind
  here := by
    intro α κ w b b' k f f' h
    have hhere : Echoes last S budget b b (fun _ => ()) here here :=
      looks_here.echoes looks_here fun _ _ _ => rfl
    exact hhere.bind fun n n' _ => @h .all n n' (fun _ _ _ => trivial) trivial
  afterLineBreak := looks_afterLineBreak.echoes looks_afterLineBreak fun _ _ hs => (hS.alike hs).lines
  finish _ := (looks_finish _).echoes (looks_finish _) fun _ _ _ => rfl
  advance :=
    { reaches := fun h => (returns_advance.1 h).reaches
      echo := fun h ht hs => by
        obtain ⟨t', hm, ht'⟩ := hS.follow hs (returns_advance.1 h) ht
        exact ⟨(), t', rfl, returns_advance.2 hm, ht'⟩ }
  fault _ _ := echoes_fault
  inScope := by
    intro α κ w b b' g k p p' _ h
    exact Echoes.of_pointwise fun c => ⟨p, p', { c with scope := g c.scope }, h, id, id⟩
  stacked := by
    intro α κ w b b' k f f' h
    exact Echoes.of_pointwise fun c => ⟨_, _, c, h c.scope.stacked, id, id⟩
  check := by
    intro α κ w b b' offset offset' k g g' cause rest rest' _ _ hg h
    subst hg
    refine Echoes.of_pointwise fun c => ?_
    simp only [Returns, check_apply]
    by_cases hc : (c.checkLabels && g c.scope) = true
    · simp only [if_pos hc]
      exact ⟨_, _, c, echoes_fault, id, id⟩
    · simp only [if_neg hc]
      exact ⟨rest, rest', c, h, id, id⟩

end

/-! ## Loops

A loop takes a token in every round, and all tokens are among those taken at the end; so the second
run needs no more rounds than there are tokens. -/

/-- What the first run does from `s` to `t` in `n` rounds of a loop, the second run does as well. -/
structure Rounds (last : State) (S : State → State → Prop) (n : Nat) (k : α → κ) (s : State) (a : α)
    (t : State) (run : State → α → State → Prop) : Prop where
  reaches : Reaches s t
  rank_le : s.rank + n ≤ t.rank
  echo {s'} : Reaches t last → S s s' → ∃ a' t', k a = k a' ∧ run s' a' t' ∧ S t t'

section
variable {last : State} {S : State → State → Prop} (hS : Lockstep last S) {budget : Nat}
  {α κ : Type} {k : α → κ} {item item' : Parse α} {c : Context} {s t : State}
include hS

theorem Items.rounds {isLast xs b b'} (hi : Echoes last S budget b b' k item item')
    (hlt : ∀ {s x t}, Returns item c s x t → s.rank < t.rank)
    (h : Items isLast (Returns item c) s xs t) :
    Rounds last S xs.length (List.map k) s xs t (Items isLast (Returns item' { c with budget })) := by
  induction h with
  | done hl =>
    refine ⟨.refl, Nat.le_refl _, fun {s'} _ hs => ⟨[], s', rfl, .done ?_, hs⟩⟩
    rwa [← (hS.alike hs).kind]
  | more hl hx _ ih =>
    have hr := hlt hx
    have hrest := ih.rank_le
    refine ⟨(hi.reaches hx).trans ih.reaches, by rw [List.length_cons]; omega, fun ht hs => ?_⟩
    obtain ⟨x', u', hkey, hx', hu'⟩ := hi.echo hx (ih.reaches.trans ht) hs
    obtain ⟨xs', t', hkeys, hxs', ht'⟩ := ih.echo ht hu'
    refine ⟨x' :: xs', t', by simp [hkey, hkeys], .more ?_ hx' hxs', ht'⟩
    rwa [← (hS.alike hs).kind]

theorem AfterCommas.rounds {xs b b'} (hi : Echoes last S budget b b' k item item')
    (h : AfterCommas (Returns item c) s xs t) :
    Rounds last S xs.length (List.map k) s xs t (AfterCommas (Returns item' { c with budget })) := by
  induction h with
  | done hk =>
    refine ⟨.refl, Nat.le_refl _, fun {s'} _ hs => ⟨[], s', rfl, .done ?_, hs⟩⟩
    rwa [← (hS.alike hs).kind]
  | more hk hm hx _ ih =>
    have hr := hm.rank_lt (by rw [hk]; nofun)
    have hle := (hi.reaches hx).rank_le
    have hrest := ih.rank_le
    refine ⟨(hm.reaches.trans (hi.reaches hx)).trans ih.reaches, by rw [List.length_cons]; omega,
      fun ht hs => ?_⟩
    obtain ⟨v', hm', hv'⟩ := hS.follow hs hm ((hi.reaches hx).trans (ih.reaches.trans ht))
    obtain ⟨x', u', hkey, hx', hu'⟩ := hi.echo hx (ih.reaches.trans ht) hv'
    obtain ⟨xs', t', hkeys, hxs', ht'⟩ := ih.echo ht hu'
    exact ⟨x' :: xs', t', by simp [hkey, hkeys],
      .more ((hS.alike hs).kind.symm.trans hk) hm' hx' hxs', ht'⟩

variable {R R' : Readers}

theorem Extended.rounds {start start' floor forHead n left left' e} (hR : Taking R)
    (he : ∀ left left' q, Expr.map (fun _ => ()) left = Expr.map (fun _ => ()) left' →
      Echoes last S budget true true (Expr.map fun _ => ()) (extend R start forHead left q)
        (extend R' start' forHead left' q))
    (hl : Expr.map (fun _ => ()) left = Expr.map (fun _ => ()) left')
    (h : Extended R c start floor forHead n left s e t) :
    Rounds last S n (Expr.map fun _ => ()) s e t
      (Extended R' { c with budget } start' floor forHead n left') := by
  induction h generalizing left' with
  | stop hc =>
    refine ⟨.refl, Nat.le_refl _, fun {s'} _ hs => ⟨left', s', hl, .stop ?_, hs⟩⟩
    rwa [← (hS.alike hs).kind]
  | @more _ left q _ _ _ _ _ hc hx _ ih =>
    have hx := returns_extend.2 hx
    have hr := hR.extend hc hx
    have hfirst := he left left' q hl
    have hreach := (ih rfl).reaches
    have hrest := (ih rfl).rank_le
    refine ⟨(hfirst.reaches hx).trans hreach, by omega, fun ht hs => ?_⟩
    obtain ⟨x', u', hkey, hx', hu'⟩ := hfirst.echo hx (hreach.trans ht) hs
    obtain ⟨e', t', hkey', hrest', ht'⟩ := (ih hkey).echo ht hu'
    refine ⟨e', t', hkey', .more ?_ (returns_extend.1 hx') hrest', ht'⟩
    rwa [← (hS.alike hs).kind]

theorem Cases.rounds {hasDefault xs} (hR : Taking R)
    (hc : Echoes last S budget true true (SwitchCase.map fun _ => ()) (switchCase R) (switchCase R'))
    (h : Cases R c hasDefault s xs t) :
    Rounds last S xs.length (List.map (SwitchCase.map fun _ => ())) s xs t
      (Cases R' { c with budget } hasDefault) := by
  induction h with
  | done hk =>
    refine ⟨.refl, Nat.le_refl _, fun {s'} _ hs => ⟨[], s', rfl, .done ?_, hs⟩⟩
    rwa [← (hS.alike hs).kind]
  | more hk hx hd _ ih =>
    have hr := hR.switchCase hx
    have hrest := ih.rank_le
    refine ⟨(hc.reaches hx).trans ih.reaches, by rw [List.length_cons]; omega, fun ht hs => ?_⟩
    obtain ⟨x', u', hkey, hx', hu'⟩ := hc.echo hx (ih.reaches.trans ht) hs
    obtain ⟨xs', t', hkeys, hxs', ht'⟩ := ih.echo ht hu'
    have hdefault := isDefault_eq_of_map hkey
    refine ⟨x' :: xs', t', by simp [hkey, hkeys], .more ?_ hx' ?_ ?_, ht'⟩
    · rwa [← (hS.alike hs).kind]
    · rwa [← hdefault]
    · rwa [← hdefault]

end

section
variable {last : State} {S : State → State → Prop} {budget : Nat} (hb : last.rank < budget)
  {α κ : Type} {b b' : Bool}
include hb

/-- A loop does not need more rounds than there are tokens. -/
theorem echoes_of_rounds {k : α → κ} {p p' : Parse α}
    (run : Nat → Context → State → α → State → Prop)
    (hp : ∀ {c s a t}, Returns p c s a t → ∃ n, Rounds last S n k s a t (run n { c with budget }))
    (hp' : ∀ {n c s a t}, run n c s a t → n < c.budget → Returns p' c s a t) :
    Echoes last S budget b b' k p p' where
  reaches h := by
    obtain ⟨n, hr⟩ := hp h
    exact hr.reaches
  echo h ht hs := by
    obtain ⟨n, hr⟩ := hp h
    obtain ⟨a', t', hkey, ha', ht'⟩ := hr.echo ht hs
    have hlast := ht.rank_le
    have hn := hr.rank_le
    exact ⟨a', t', hkey, hp' ha' (show n < budget by omega), ht'⟩

theorem echoes_of_items {k : α → κ} {p p' : Parse (List α)}
    (run : Context → State → List α → State → Prop)
    (hp : ∀ {c s xs t}, Returns p c s xs t →
      Rounds last S xs.length (List.map k) s xs t (run { c with budget }))
    (hp' : ∀ {c s xs t}, run c s xs t → xs.length < c.budget → Returns p' c s xs t) :
    Echoes last S budget b b' (List.map k) p p' := by
  refine echoes_of_rounds hb (fun n c s xs t => run c s xs t ∧ xs.length = n) ?_ ?_
  · intro c s xs t h
    refine ⟨xs.length, (hp h).reaches, (hp h).rank_le, fun ht hs => ?_⟩
    obtain ⟨xs', t', hkeys, hrun, ht'⟩ := (hp h).echo ht hs
    exact ⟨xs', t', hkeys, ⟨hrun, by simpa using (congrArg List.length hkeys).symm⟩, ht'⟩
  · rintro n c s xs t ⟨hrun, rfl⟩ hn
    exact hp' hrun hn

variable (hS : Lockstep last S)
include hS

theorem Lockstep.coupling : Coupling (fun _ => ()) fun _ => Echoes last S budget where
  toSteps := hS.steps budget
  upTo {R R' _ b isLast} hR hi :=
    echoes_of_items hb (fun c => Items isLast (Returns R'.statement c))
      (fun h => Items.rounds hS hi (fun hx => hR.statement hx) (returns_upTo.1 h).1)
      fun h hn => returns_upTo.2 ⟨h, hn⟩
  moreItems {_ _ _ _ item item'} hi :=
    echoes_of_items hb (fun c => AfterCommas (Returns item' c))
      (fun h => AfterCommas.rounds hS hi (returns_moreItems.1 h).1)
      fun h hn => returns_moreItems.2 ⟨h, hn⟩
  extendAll {R R' _ start start' floor forHead left left'} hR he hl :=
    echoes_of_rounds hb (fun n c s e t => Extended R' c start' floor forHead n left' s e t)
      (fun h => by
        obtain ⟨n, -, hx⟩ := returns_extendAll.1 h
        exact ⟨n, Extended.rounds hS hR he hl hx⟩)
      fun h hn => returns_extendAll.2 ⟨_, hn, h⟩
  switchCases {R R' _} hR hc :=
    echoes_of_items hb (fun c => Cases R' c false)
      (fun h => Cases.rounds hS hR (hc (w := .all)) (returns_switchCases.1 h).1)
      fun h hn => returns_switchCases.2 ⟨h, hn⟩

theorem Lockstep.coupled (n : Nat) :
    Coupled (fun _ => ()) (fun _ => Echoes last S budget) b (readers n) (readers n) := by
  have hQ := hS.coupling hb
  induction n generalizing b with
  | zero =>
    refine ⟨readers_taking 0, ?_, ?_⟩
    · exact ⟨fun h => absurd h returns_tooDeep, fun h => absurd h returns_tooDeep⟩
    · exact ⟨fun h => absurd h returns_tooDeep, fun h => absurd h returns_tooDeep⟩
  | succ n ih => exact hQ.readers (readers_taking (n + 1)) ih ih

/-- A script is read alike by a run that can follow. -/
theorem Lockstep.program {n : Nat} {c : Context} {s s' : State} {p : Program Span}
    (h : Returns (Parser.program (readers n)) c s p last) (hs : S s s') :
    ∃ p' t', p.map (fun _ => ()) = p'.map (fun _ => ()) ∧
      Returns (Parser.program (readers n)) { c with budget } s' p' t' := by
  have hecho := (hS.coupling hb).program (w := .all) (hS.coupled hb n (b := true))
  obtain ⟨p', t', hkey, hp', -⟩ := hecho.echo h .refl hs
  exact ⟨p', t', hkey, hp'⟩

end

end ScriptTree.Parser
