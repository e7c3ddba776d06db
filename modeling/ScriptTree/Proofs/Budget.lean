import ScriptTree.Proofs.Depth

/-! # The budget of the loops does not matter

Every round of a loop takes a token, and every token but the end of input takes a character. So with
more rounds allowed than there are characters, a reader does the same whatever is allowed: it returns
the same, or stops with the same fault in the same state. -/
namespace ScriptTree.Parser

/-- Outcomes of two runs from a state that agree: results of the same key some tokens further, or the
same fault, in the same state. -/
inductive Agree {α κ : Type} (k : α → κ) (s : State) :
    EStateM.Result Fault State α → EStateM.Result Fault State α → Prop
  | ok {a a' t} : Reaches s t → k a = k a' → Agree k s (.ok a t) (.ok a' t)
  | error {f u} : Agree k s (.error f u) (.error f u)

section
variable {α β κ μ : Type} {j : α → κ} {k : β → μ} {p p' : Parse α} {q q' : α → Parse β}
  {c c' : Context} {s : State}

theorem Agree.bind (hp : Agree j s (p c s) (p' c' s))
    (hq : ∀ a a' t, Returns p c s a t → Reaches s t → j a = j a' →
      Agree k t (q a c t) (q' a' c' t)) :
    Agree k s ((p >>= q) c s) ((p' >>= q') c' s) := by
  have onward {t : State} {r r'} (hr : Reaches s t) (h : Agree k t r r') : Agree k s r r' := by
    cases h with
    | ok ht hkey => exact .ok (hr.trans ht) hkey
    | error => exact .error
  rw [bind_apply, bind_apply]
  generalize hr : p c s = r at hp
  generalize p' c' s = r' at hp
  cases hp with
  | ok ht hkey => exact onward ht (hq _ _ _ hr ht hkey)
  | error => exact .error

theorem Agree.pure {a a' : α} (h : j a = j a') :
    Agree j s ((Pure.pure a : Parse α) c s) ((Pure.pure a' : Parse α) c' s) :=
  .ok .refl h

/-- After a look both runs have seen the same. -/
theorem Agree.looking {g : State → α} (hp : Looks p g)
    (hq : Agree k s (q (g s) c s) (q' (g s) c' s)) :
    Agree k s ((p >>= q) c s) ((p >>= q') c' s) := by
  rw [bind_apply, bind_apply, hp c s, hp c' s]
  exact hq

end

/-- With all that is ahead, no more than `m` tokens. -/
structure State.Fits (m : Nat) (s : State) : Prop where
  settled : s.current.kind = .endOfInput → s.cursor.rest = []
  bound : s.rank + s.ahead ≤ m

theorem State.Fits.moves {m : Nat} {flag : Bool} {s t : State} (hs : s.Fits m) (h : Moves flag s t) :
    t.Fits m := by
  obtain ⟨text, hf⟩ := h.finds
  have hroom := State.Room.of_finds hf (Nat.le_refl _)
  have hahead : t.ahead ≤ s.cursor.rest.length := hroom.bound
  have hbound := hs.bound
  refine ⟨hroom.settled, ?_⟩
  rw [State.ahead] at hbound
  rw [State.rank, h.earlier, List.filter_cons]
  by_cases hk : s.current.kind = .endOfInput
  · rw [if_neg (by simpa using hk)]
    rw [if_pos hk, State.rank] at hbound
    omega
  · rw [if_pos (by simpa using hk), List.length_cons]
    rw [if_neg hk, State.rank] at hbound
    omega

theorem State.Fits.reaches {m : Nat} {s t : State} (hs : s.Fits m) (h : Reaches s t) : t.Fits m := by
  induction h with
  | refl => exact hs
  | step _ hm ih => exact ih.moves hm

theorem State.Begins.fits {source : List Char} {s : State} (h : s.Begins source) :
    s.Fits source.length := by
  obtain ⟨text, hf⟩ := h.finds
  have hroom := State.Room.of_finds hf (Nat.le_refl _)
  refine ⟨hroom.settled, ?_⟩
  rw [State.rank, h.1]
  exact Nat.le_trans (Nat.le_of_eq (Nat.zero_add _)) hroom.bound

/-- Where no more than `m` tokens are to come both readers do the same, each with a budget above
`m`. -/
def Enough (m budget : Nat) {α κ : Type} (k : α → κ) (p p' : Parse α) : Prop :=
  ∀ c s, m < c.budget → s.Fits m → Agree k s (p c s) (p' { c with budget } s)

section
variable {m budget : Nat} {α κ : Type} {k : α → κ} {p p' : Parse α}

theorem Looks.enough {g g' : State → α} (h : Looks p g) (h' : Looks p' g')
    (hk : ∀ s, k (g s) = k (g' s)) : Enough m budget k p p' := by
  intro c s _ _
  rw [h c s, h' _ s]
  exact .ok .refl (hk s)

theorem Enough.bind {β μ : Type} {j : β → μ} {q q' : α → Parse β} (hp : Enough m budget k p p')
    (hq : ∀ a a', k a = k a' → Enough m budget j (q a) (q' a')) :
    Enough m budget j (p >>= q) (p' >>= q') := by
  intro c s hb hs
  exact (hp c s hb hs).bind fun a a' t _ hr hkey => hq a a' hkey c t hb (hs.reaches hr)

theorem enough_advance {flag} : Enough m budget id (advance flag) (advance flag) := by
  intro c s _ _
  rw [advance_apply, advance_apply]
  rcases hn : Lexer.next flag s.cursor with ⟨f | token, d⟩
  · exact .error
  · exact .ok (Moves.reaches ⟨rfl, rfl, hn⟩) rfl

/-- Readers that do in every state what some such readers do there, in a context of the same
budget. -/
theorem Enough.of_pointwise {q q' : Parse α}
    (h : ∀ c s, ∃ (p p' : Parse α) (d : Context), Enough m budget k p p' ∧ d.budget = c.budget ∧
      q c s = p d s ∧ q' { c with budget } s = p' { d with budget } s) : Enough m budget k q q' := by
  intro c s hb hs
  obtain ⟨p, p', d, hp, hd, hq, hq'⟩ := h c s
  rw [hq, hq']
  exact hp d s (hd ▸ hb) hs

end

theorem enough_steps (m budget : Nat) :
    Steps id fun w _ _ k p p' => w.Same → Enough m budget k p p' where
  pure h _ := (looks_pure _).enough (looks_pure _) fun _ => h
  bind hp hq hw := (hp hw).bind fun a a' h => hq a a' h hw
  forget h := h
  kind _ := looks_kind.enough looks_kind fun _ => rfl
  here := by
    intro α κ w b b' k f f' h hw
    have hhere : Enough m budget id here here := looks_here.enough looks_here fun _ => rfl
    exact hhere.bind fun n n' hn => @h Eq n n' hw hn fun _ _ h => h
  afterLineBreak _ := looks_afterLineBreak.enough looks_afterLineBreak fun _ => rfl
  finish h hw := by
    obtain rfl := hw _ _ h
    exact (looks_finish _).enough (looks_finish _) fun _ => rfl
  advance _ := enough_advance
  fault _ h hw := by
    obtain rfl := hw _ _ h
    exact fun _ _ _ _ => .error
  inScope := by
    intro α κ w b b' g k p p' _ h hw
    exact Enough.of_pointwise fun c _ => ⟨p, p', { c with scope := g c.scope }, h hw, rfl, rfl, rfl⟩
  stacked := by
    intro α κ w b b' k q q' h hw
    exact Enough.of_pointwise fun c _ => ⟨_, _, c, h c.scope.stacked hw, rfl, rfl, rfl⟩
  check := by
    intro α κ w b b' offset offset' k g g' cause rest rest' _ ho hg h hw
    obtain rfl := hw _ _ ho
    subst hg
    intro c s hb hs
    rw [check_apply, check_apply]
    split
    · exact .error
    · exact h hw c s hb hs

/-! ## Loops

A loop that has some fuel left needs no more of it than there are tokens to come. -/

section
variable {m budget : Nat} {α κ : Type} {k : α → κ} {item item' : Parse α} {c : Context}
  (hb : m < c.budget)
include hb

theorem agree_itemsUntil {isLast} (hi : Enough m budget k item item')
    (hlt : ∀ {s x t}, Returns item c s x t → s.rank < t.rank) {fuel fuel' : Nat} {s : State}
    (hs : s.Fits m) (hf : m < fuel + s.rank) (hf' : m < fuel' + s.rank) :
    Agree (List.map k) s (itemsUntil isLast item fuel c s)
      (itemsUntil isLast item' fuel' { c with budget } s) := by
  have hbound := hs.bound
  induction fuel generalizing fuel' s with
  | zero => omega
  | succ fuel ih =>
    obtain ⟨fuel', rfl⟩ : ∃ n, fuel' = n + 1 := ⟨fuel' - 1, by omega⟩
    refine .looking looks_kind ?_
    split
    · exact .pure rfl
    · refine (hi c s hb hs).bind fun x x' t hx hreach hkey => ?_
      have hr := hlt hx
      have ht := hs.reaches hreach
      exact (ih ht (by omega) (by omega) ht.bound).bind fun xs xs' u _ _ hkeys =>
        .pure (by simp [hkey, hkeys])

theorem agree_itemsAfterCommas (hi : Enough m budget k item item') {fuel fuel' : Nat} {s : State}
    (hs : s.Fits m) (hf : m < fuel + s.rank) (hf' : m < fuel' + s.rank) :
    Agree (List.map k) s (itemsAfterCommas item fuel c s)
      (itemsAfterCommas item' fuel' { c with budget } s) := by
  have hbound := hs.bound
  induction fuel generalizing fuel' s with
  | zero => omega
  | succ fuel ih =>
    obtain ⟨fuel', rfl⟩ : ∃ n, fuel' = n + 1 := ⟨fuel' - 1, by omega⟩
    refine .looking looks_kind ?_
    by_cases hk : s.current.kind = .comma
    · rw [if_neg (not_not_intro hk), if_neg (not_not_intro hk)]
      refine (enough_advance c s hb hs).bind fun _ _ u hu _ _ => ?_
      have hm := returns_advance.1 hu
      have hr := hm.rank_lt (by rw [hk]; nofun)
      have hfits := hs.moves hm
      refine (hi c u hb hfits).bind fun x x' t _ hreach hkey => ?_
      have hle := hreach.rank_le
      have ht := hfits.reaches hreach
      exact (ih ht (by omega) (by omega) ht.bound).bind fun xs xs' v _ _ hkeys =>
        .pure (by simp [hkey, hkeys])
    · rw [if_pos hk, if_pos hk]
      exact .pure rfl

theorem agree_extendAll {R R' : Readers} {start start' floor forHead} (hR : Taking R)
    (he : ∀ left left' q, Expr.map id left = Expr.map id left' → Enough m budget (Expr.map id)
      (extend R start forHead left q) (extend R' start' forHead left' q))
    {fuel fuel' : Nat} {s : State} {left left' : Expr Span}
    (hl : Expr.map id left = Expr.map id left') (hs : s.Fits m) (hf : m < fuel + s.rank)
    (hf' : m < fuel' + s.rank) :
    Agree (Expr.map id) s (extendAll R start floor forHead fuel left c s)
      (extendAll R' start' floor forHead fuel' left' { c with budget } s) := by
  have hbound := hs.bound
  induction fuel generalizing fuel' s left left' with
  | zero => omega
  | succ fuel ih =>
    obtain ⟨fuel', rfl⟩ : ∃ n, fuel' = n + 1 := ⟨fuel' - 1, by omega⟩
    refine .looking looks_kind ?_
    cases hq : continuation? floor forHead s.current.kind with
    | none => exact .pure hl
    | some q =>
      refine (he left left' q hl c s hb hs).bind fun x x' t hx hreach hkey => ?_
      have hr := hR.extend hq hx
      have ht := hs.reaches hreach
      exact ih hkey ht (by omega) (by omega) ht.bound

theorem agree_switchCases {R R' : Readers} (hR : Taking R)
    (hc : Enough m budget (SwitchCase.map id) (switchCase R) (switchCase R')) {fuel fuel' : Nat}
    {s : State} {hasDefault : Bool} (hs : s.Fits m) (hf : m < fuel + s.rank)
    (hf' : m < fuel' + s.rank) :
    Agree (List.map (SwitchCase.map id)) s (switchCases R fuel hasDefault c s)
      (switchCases R' fuel' hasDefault { c with budget } s) := by
  have hbound := hs.bound
  induction fuel generalizing fuel' s hasDefault with
  | zero => omega
  | succ fuel ih =>
    obtain ⟨fuel', rfl⟩ : ∃ n, fuel' = n + 1 := ⟨fuel' - 1, by omega⟩
    refine .looking looks_kind ?_
    split
    · exact .pure rfl
    · refine .looking looks_here ((hc c s hb hs).bind fun x x' t hx hreach hkey => ?_)
      have hr := hR.switchCase hx
      have ht := hs.reaches hreach
      obtain ⟨n, test, body⟩ := x
      obtain ⟨n', test', body'⟩ := x'
      have hdefault : test.isNone = test'.isNone := isDefault_eq_of_map hkey
      simp only [hdefault]
      split
      · exact .error
      · exact (ih ht (by omega) (by omega) ht.bound).bind fun xs xs' v _ _ hkeys =>
          .pure (by simp [hkey, hkeys])

end

theorem enough_coupling {m budget : Nat} (hb : m < budget) :
    Coupling id fun w _ _ k p p' => w.Same → Enough m budget k p p' where
  toSteps := enough_steps m budget
  upTo hR hi hw _ _ hc hs := agree_itemsUntil hc (hi hw) (fun hx => hR.statement hx) hs
    (Nat.lt_add_right _ hc) (Nat.lt_add_right _ hb)
  moreItems hi hw _ _ hc hs := agree_itemsAfterCommas hc (hi hw) hs (Nat.lt_add_right _ hc)
    (Nat.lt_add_right _ hb)
  extendAll hR he hl hw _ _ hc hs := agree_extendAll hc hR (fun _ _ _ h => he _ _ _ h hw) hl hs
    (Nat.lt_add_right _ hc) (Nat.lt_add_right _ hb)
  switchCases hR h hw _ _ hc hs := agree_switchCases hc hR (h hw) hs (Nat.lt_add_right _ hc)
    (Nat.lt_add_right _ hb)

theorem readers_enough {m budget : Nat} (hb : m < budget) (n : Nat) :
    Coupled id (fun w _ _ k p p' => w.Same → Enough m budget k p p') true (readers n)
      (readers n) := by
  induction n with
  | zero => exact ⟨readers_taking 0, fun _ _ _ _ _ => .error, fun _ _ _ _ _ => .error⟩
  | succ n ih => exact (enough_coupling hb).readers (readers_taking (n + 1)) ih ih

/-- A script that is given up is given up alike with any budget above its length. -/
theorem stops_budget {c : Context} {source : List Char} {s u : State} {f : Fault} (budget : Nat)
    (hs : s.Begins source) (hc : source.length < c.budget) (hb : source.length < budget)
    (h : program (readers c.limit) c s = .error f u) :
    program (readers c.limit) { c with budget } s = .error f u := by
  have hprogram := (enough_coupling hb).program (w := Eq) (readers_enough hb c.limit)
  have hagree := hprogram (fun _ _ h => h) c s hc hs.fits
  rw [h] at hagree
  generalize program (readers c.limit) { c with budget } s = r at hagree
  cases hagree
  rfl

end ScriptTree.Parser
