import ScriptTree.Parser

/-! # What a reader that returns has done

`Returns p c s a t` says that `p`, read in the context `c` from the state `s`, gives `a` and stops at
`t`. The laws below take the small steps and the lists apart, in both directions, so a proof about a
production never unfolds the monad. Fuel is gone after this file: what is left of it is a bound on
the length of a list. -/
namespace ScriptTree.Parser

def Returns (p : Parse α) (c : Context) (s : State) (a : α) (t : State) : Prop := p c s = .ok a t

theorem bind_apply {p : Parse α} {f : α → Parse β} {c s} : (p >>= f) c s =
    match p c s with
    | .ok a t => f a c t
    | .error g u => .error g u := by
  simp only [bind, ReaderT.bind, EStateM.bind]
  cases p c s <;> rfl

theorem read_bind_apply {f : Context → Parse α} {c s} : (read >>= f) c s = f c c s := rfl

theorem advance_apply {flag c s} : advance flag c s =
    match Lexer.next flag s.cursor with
    | (.ok token, cursor) => .ok () ⟨token, Lexer.gap s.cursor, s.current :: s.earlier, cursor⟩
    | (.error f, _) => .error f s := by
  rw [advance, bind_apply, show (get : Parse State) c s = .ok s s from rfl]
  dsimp only
  rcases Lexer.next flag s.cursor with ⟨_ | _, cursor⟩ <;> rfl

/-- A reader gives one result. -/
theorem Returns.det {p : Parse α} {c s a b t u} (h : Returns p c s a t) (h' : Returns p c s b u) :
    a = b ∧ t = u := by
  have e := h.symm.trans h'
  injection e with ha hs
  exact ⟨ha, hs⟩

/-! ## Plumbing -/

theorem returns_bind {p : Parse α} {f : α → Parse β} {c s b u} :
    Returns (p >>= f) c s b u ↔ ∃ a t, Returns p c s a t ∧ Returns (f a) c t b u := by
  simp only [Returns, bind, ReaderT.bind, EStateM.bind]
  cases h : p c s with
  | ok a t =>
    constructor
    · intro hf
      exact ⟨a, t, rfl, hf⟩
    · rintro ⟨a', t', e, hf⟩
      injection e with ha ht
      subst ha ht
      exact hf
  | error f t => simp

@[simp] theorem returns_pure {a b : α} {c s t} :
    Returns (pure a) c s b t ↔ a = b ∧ s = t := by
  simp [Returns, pure, ReaderT.pure, EStateM.pure]

theorem returns_map {p : Parse α} {f : α → β} {c s b u} :
    Returns (f <$> p) c s b u ↔ ∃ a, Returns p c s a u ∧ f a = b := by
  have e : (f <$> p) c s = (p >>= fun a => pure (f a)) c s := by
    simp only [Functor.map, EStateM.map, bind, ReaderT.bind, EStateM.bind, pure, ReaderT.pure,
      EStateM.pure]
  rw [Returns, e]
  refine returns_bind.trans ?_
  simp only [returns_pure]
  constructor
  · rintro ⟨a, t, h, rfl, rfl⟩
    exact ⟨a, h, rfl⟩
  · rintro ⟨a, h, rfl⟩
    exact ⟨a, u, h, rfl, rfl⟩

@[simp] theorem returns_read {c c' s t} :
    Returns (read : Parse Context) c s c' t ↔ c = c' ∧ s = t := by
  show EStateM.Result.ok c s = .ok c' t ↔ _
  simp

@[simp] theorem returns_get {c s s' t} :
    Returns (get : Parse State) c s s' t ↔ s = s' ∧ s = t := by
  show EStateM.Result.ok s s = .ok s' t ↔ _
  simp

@[simp] theorem returns_fault {cause offset c s t} {a : α} :
    ¬ Returns (fault cause offset) c s a t := by
  show ¬ EStateM.Result.error _ _ = .ok a t
  simp

theorem returns_inScope {f} {p : Parse α} {c s a t} :
    Returns (inScope f p) c s a t ↔ Returns p { c with scope := f c.scope } s a t := Iff.rfl

/-- A choice that does not depend on the state. -/
theorem returns_ite {b : Prop} [Decidable b] {p q : Parse α} {c s a t} :
    Returns (if b then p else q) c s a t ↔ (b ∧ Returns p c s a t) ∨ (¬ b ∧ Returns q c s a t) := by
  by_cases h : b <;> simp [h]

/-! ## Small steps -/

/-- One token further: the current one is kept, and the lexer is asked for the next. -/
structure Moves (expectOperator : Bool) (s t : State) : Prop where
  earlier : t.earlier = s.current :: s.earlier
  gap : t.gap = Lexer.gap s.cursor
  next : Lexer.next expectOperator s.cursor = (.ok t.current, t.cursor)

/-- The span from `start` to the end of the last token before the current one. -/
def State.since (t : State) (start : Nat) : Span := ⟨start, max t.lastEnd start⟩

@[simp] theorem returns_kind {c s k t} :
    Returns kind c s k t ↔ s.current.kind = k ∧ s = t := by
  simp only [kind, returns_bind, returns_get, returns_pure]
  constructor
  · rintro ⟨s', t', ⟨rfl, rfl⟩, hk, rfl⟩
    exact ⟨hk, rfl⟩
  · rintro ⟨hk, rfl⟩
    exact ⟨s, s, ⟨rfl, rfl⟩, hk, rfl⟩

@[simp] theorem returns_here {c s n t} :
    Returns here c s n t ↔ s.current.span.start = n ∧ s = t := by
  simp only [here, returns_bind, returns_get, returns_pure]
  constructor
  · rintro ⟨s', t', ⟨rfl, rfl⟩, hk, rfl⟩
    exact ⟨hk, rfl⟩
  · rintro ⟨hk, rfl⟩
    exact ⟨s, s, ⟨rfl, rfl⟩, hk, rfl⟩

@[simp] theorem returns_faultHere {cause c s t} {a : α} : ¬ Returns (faultHere cause) c s a t := by
  simp [faultHere, returns_bind]

@[simp] theorem returns_unexpected {c s t} {a : α} : ¬ Returns unexpected c s a t := by
  simp [unexpected, returns_bind]

@[simp] theorem returns_advance {flag c s u t} : Returns (advance flag) c s u t ↔ Moves flag s t := by
  rw [Returns, advance_apply]
  constructor
  · intro h
    cases hn : Lexer.next flag s.cursor with
    | mk result cursor =>
      rw [hn] at h
      cases result with
      | ok token =>
        injection h with _ ht
        subst ht
        exact ⟨rfl, rfl, hn⟩
      | error f => cases h
  · intro h
    rw [h.next]
    obtain ⟨current, gap, earlier, cursor⟩ := t
    obtain ⟨rfl, rfl, -⟩ := h
    rfl

@[simp] theorem returns_expect {k c s u t} :
    Returns (expect k) c s u t ↔ s.current.kind = k ∧ s = t := by
  simp only [expect, returns_bind, returns_kind, returns_ite]
  constructor
  · rintro ⟨k', t', ⟨rfl, rfl⟩, ⟨_, h⟩ | ⟨hk, h⟩⟩
    · exact absurd h returns_unexpected
    · exact ⟨by simpa using hk, (returns_pure.1 h).2⟩
  · rintro ⟨hk, rfl⟩
    exact ⟨k, s, ⟨hk, rfl⟩, .inr ⟨by simp, returns_pure.2 ⟨rfl, rfl⟩⟩⟩

theorem returns_expect_advance {k flag c s u t} :
    Returns (do expect k; advance flag) c s u t ↔ s.current.kind = k ∧ Moves flag s t := by
  simp only [returns_bind, returns_expect, returns_advance]
  constructor
  · rintro ⟨_, t', ⟨hk, rfl⟩, hm⟩
    exact ⟨hk, hm⟩
  · rintro ⟨hk, hm⟩
    exact ⟨(), s, ⟨hk, rfl⟩, hm⟩

@[simp] theorem returns_eat {k c s u t} :
    Returns (eat k) c s u t ↔ s.current.kind = k ∧ Moves false s t :=
  returns_expect_advance

@[simp] theorem returns_close {k c s u t} :
    Returns (close k) c s u t ↔ s.current.kind = k ∧ Moves true s t :=
  returns_expect_advance

@[simp] theorem returns_finish {start c s n t} :
    Returns (finish start) c s n t ↔ s.since start = n ∧ s = t := by
  simp only [finish, returns_bind, returns_get, returns_pure]
  constructor
  · rintro ⟨s', t', ⟨rfl, rfl⟩, hk, rfl⟩
    exact ⟨hk, rfl⟩
  · rintro ⟨hk, rfl⟩
    exact ⟨s, s, ⟨rfl, rfl⟩, hk, rfl⟩

@[simp] theorem returns_afterLineBreak {c s b t} :
    Returns afterLineBreak c s b t ↔ s.gap.any Text.isLineBreak = b ∧ s = t := by
  simp only [afterLineBreak, returns_bind, returns_get, returns_pure]
  constructor
  · rintro ⟨s', t', ⟨rfl, rfl⟩, hk, rfl⟩
    exact ⟨hk, rfl⟩
  · rintro ⟨hk, rfl⟩
    exact ⟨s, s, ⟨rfl, rfl⟩, hk, rfl⟩

/-- The kinds at which a statement ends whatever stands before them. -/
def endsStatement : TokenKind → Bool
  | .endOfInput | .rightBrace | .semicolon => true
  | _ => false

/-- The end of a statement: before the end of input or a brace, through a semicolon, or at a line
break. -/
inductive Ends (s : State) : State → Prop
  | before : s.current.kind = .endOfInput ∨ s.current.kind = .rightBrace → Ends s s
  | semicolon {t} : s.current.kind = .semicolon → Moves false s t → Ends s t
  | line : endsStatement s.current.kind = false → s.gap.any Text.isLineBreak = true → Ends s s

theorem returns_atEnd_true {c s t} : Returns atEnd c s true t ↔ Ends s t := by
  simp only [atEnd, returns_bind, returns_kind]
  constructor
  · rintro ⟨k, t', ⟨rfl, rfl⟩, h⟩
    split at h
    · rename_i hk
      obtain ⟨-, rfl⟩ := returns_pure.1 h
      exact .before (.inl hk)
    · rename_i hk
      obtain ⟨-, rfl⟩ := returns_pure.1 h
      exact .before (.inr hk)
    · rename_i hk
      obtain ⟨_, u, hm, hr⟩ := returns_bind.1 h
      obtain ⟨-, rfl⟩ := returns_pure.1 hr
      exact .semicolon hk (returns_advance.1 hm)
    · rename_i h1 h2 h3
      obtain ⟨hb, rfl⟩ := returns_afterLineBreak.1 h
      refine .line ?_ hb
      unfold endsStatement
      split <;> simp_all
  · intro h
    refine ⟨_, s, ⟨rfl, rfl⟩, ?_⟩
    cases h with
    | before hk => rcases hk with hk | hk <;> simp [hk]
    | semicolon hk hm =>
      rw [hk]
      exact returns_bind.2 ⟨(), t, returns_advance.2 hm, by simp⟩
    | line hk hb =>
      split <;> simp_all [endsStatement]

theorem returns_atEnd_false {c s t} :
    Returns atEnd c s false t ↔
      endsStatement s.current.kind = false ∧ s.gap.any Text.isLineBreak = false ∧ s = t := by
  simp only [atEnd, returns_bind, returns_kind]
  constructor
  · rintro ⟨k, t', ⟨rfl, rfl⟩, h⟩
    split at h
    · simp at h
    · simp at h
    · obtain ⟨_, u, hm, hr⟩ := returns_bind.1 h
      simp at hr
    · rename_i h1 h2 h3
      obtain ⟨hb, rfl⟩ := returns_afterLineBreak.1 h
      refine ⟨?_, hb, rfl⟩
      unfold endsStatement
      split <;> simp_all
  · rintro ⟨hk, hb, rfl⟩
    refine ⟨_, s, ⟨rfl, rfl⟩, ?_⟩
    split <;> simp_all [endsStatement]

theorem returns_endStatement {c s u t} : Returns endStatement c s u t ↔ Ends s t := by
  simp only [endStatement, returns_bind, returns_ite]
  constructor
  · rintro ⟨b, t', ha, ⟨_, h⟩ | ⟨hb, h⟩⟩
    · exact absurd h returns_unexpected
    · obtain ⟨-, rfl⟩ := returns_pure.1 h
      simp only [Bool.not_eq_true', Bool.not_eq_false] at hb
      subst hb
      exact returns_atEnd_true.1 ha
  · intro h
    exact ⟨true, t, returns_atEnd_true.2 h, .inr ⟨by simp, returns_pure.2 ⟨rfl, rfl⟩⟩⟩

/-! ## Lists -/

/-- Items up to a token that ends them. -/
inductive Items (isLast : TokenKind → Bool) (item : State → α → State → Prop) :
    State → List α → State → Prop
  | done {s} : isLast s.current.kind = true → Items isLast item s [] s
  | more {s x t xs u} : isLast s.current.kind = false → item s x t → Items isLast item t xs u →
      Items isLast item s (x :: xs) u

/-- Further items, each after a comma. -/
inductive AfterCommas (item : State → α → State → Prop) : State → List α → State → Prop
  | done {s} : s.current.kind ≠ .comma → AfterCommas item s [] s
  | more {s t x u xs v} : s.current.kind = .comma → Moves false s t → item t x u →
      AfterCommas item u xs v → AfterCommas item s (x :: xs) v

/-- Items separated by commas, possibly none, through the token that closes them. -/
inductive ClosedList (last : TokenKind) (item : State → α → State → Prop) (s : State) :
    List α → State → Prop
  | empty {t} : s.current.kind = last → Moves true s t → ClosedList last item s [] t
  | filled {x t xs u v} : s.current.kind ≠ last → item s x t → AfterCommas item t xs u →
      u.current.kind = last → Moves true u v → ClosedList last item s (x :: xs) v

theorem Items.last {isLast} {item : State → α → State → Prop} {s xs t}
    (h : Items isLast item s xs t) : isLast t.current.kind = true := by
  induction h with
  | done h => exact h
  | more _ _ _ ih => exact ih

theorem returns_itemsUntil {isLast} {p : Parse α} {n c s xs t} :
    Returns (itemsUntil isLast p n) c s xs t ↔
      Items isLast (Returns p c) s xs t ∧ xs.length < n := by
  induction n generalizing s xs t with
  | zero => simp [itemsUntil]
  | succ n ih =>
    simp only [itemsUntil, returns_bind, returns_kind, returns_ite, ih, returns_pure]
    constructor
    · rintro ⟨k, s', ⟨rfl, rfl⟩, ⟨hl, rfl, rfl⟩ | ⟨hl, x, t', hx, xs', u, ⟨hi, hn⟩, rfl, rfl⟩⟩
      · exact ⟨.done hl, by simp⟩
      · exact ⟨.more (by simpa using hl) hx hi, by simpa using hn⟩
    · rintro ⟨hi, hn⟩
      refine ⟨_, s, ⟨rfl, rfl⟩, ?_⟩
      cases hi with
      | done hl => exact .inl ⟨hl, rfl, rfl⟩
      | @more _ x t' xs _ hl hx hi =>
        exact .inr ⟨by simp [hl], x, t', hx, xs, t, ⟨hi, by simpa using hn⟩, rfl, rfl⟩

theorem returns_upTo {isLast} {p : Parse α} {c s xs t} :
    Returns (upTo isLast p) c s xs t ↔
      Items isLast (Returns p c) s xs t ∧ xs.length < c.budget := by
  simp only [upTo, returns_bind, returns_read]
  constructor
  · rintro ⟨c', s', ⟨rfl, rfl⟩, h⟩
    exact returns_itemsUntil.1 h
  · intro h
    exact ⟨c, s, ⟨rfl, rfl⟩, returns_itemsUntil.2 h⟩

theorem returns_itemsAfterCommas {p : Parse α} {n c s xs t} :
    Returns (itemsAfterCommas p n) c s xs t ↔
      AfterCommas (Returns p c) s xs t ∧ xs.length < n := by
  induction n generalizing s xs t with
  | zero => simp [itemsAfterCommas]
  | succ n ih =>
    simp only [itemsAfterCommas, returns_bind, returns_kind, returns_ite, ih, returns_pure,
      returns_advance]
    constructor
    · rintro ⟨k, s', ⟨rfl, rfl⟩, ⟨hl, rfl, rfl⟩ |
        ⟨hl, _, s₁, hm, x, s₂, hx, xs', u, ⟨hi, hn⟩, rfl, rfl⟩⟩
      · exact ⟨.done hl, by simp⟩
      · exact ⟨.more (by simpa using hl) hm hx hi, by simpa using hn⟩
    · rintro ⟨hi, hn⟩
      refine ⟨_, s, ⟨rfl, rfl⟩, ?_⟩
      cases hi with
      | done hl => exact .inl ⟨hl, rfl, rfl⟩
      | @more _ s₁ x s₂ xs _ hl hm hx hi =>
        exact .inr ⟨by simp [hl], (), s₁, hm, x, s₂, hx, xs, t, ⟨hi, by simpa using hn⟩, rfl, rfl⟩

theorem returns_moreItems {p : Parse α} {c s xs t} :
    Returns (moreItems p) c s xs t ↔ AfterCommas (Returns p c) s xs t ∧ xs.length < c.budget := by
  simp only [moreItems, returns_bind, returns_read]
  constructor
  · rintro ⟨c', s', ⟨rfl, rfl⟩, h⟩
    exact returns_itemsAfterCommas.1 h
  · intro h
    exact ⟨c, s, ⟨rfl, rfl⟩, returns_itemsAfterCommas.2 h⟩

theorem returns_separated {p : Parse α} {c s xs t} :
    Returns (separated p) c s xs t ↔
      ∃ x u ys, xs = x :: ys ∧ Returns p c s x u ∧ AfterCommas (Returns p c) u ys t ∧
        ys.length < c.budget := by
  simp only [separated, returns_bind, returns_moreItems, returns_pure]
  constructor
  · rintro ⟨x, u, hx, ys, v, ⟨hi, hn⟩, rfl, rfl⟩
    exact ⟨x, u, ys, rfl, hx, hi, hn⟩
  · rintro ⟨x, u, ys, rfl, hx, hi, hn⟩
    exact ⟨x, u, hx, ys, t, ⟨hi, hn⟩, rfl, rfl⟩

theorem returns_closedList {last} {p : Parse α} {c s xs t} :
    Returns (closedList last p) c s xs t ↔
      ClosedList last (Returns p c) s xs t ∧ xs.length ≤ c.budget := by
  simp only [closedList, returns_bind, returns_kind, returns_ite, returns_close, returns_pure,
    returns_separated]
  constructor
  · rintro ⟨k, s', ⟨rfl, rfl⟩, ⟨hk, items, u, ⟨rfl, rfl⟩, _, v, ⟨hl, hm⟩, rfl, rfl⟩ |
      ⟨hk, items, u, ⟨x, w, ys, rfl, hx, hi, hn⟩, _, v, ⟨hl, hm⟩, rfl, rfl⟩⟩
    · exact ⟨.empty hk hm, Nat.zero_le _⟩
    · exact ⟨.filled hk hx hi hl hm, hn⟩
  · rintro ⟨h, hn⟩
    refine ⟨_, s, ⟨rfl, rfl⟩, ?_⟩
    cases h with
    | empty hk hm => exact .inl ⟨hk, [], s, ⟨rfl, rfl⟩, (), t, ⟨hk, hm⟩, rfl, rfl⟩
    | @filled x w ys u _ hk hx hi hl hm =>
      exact .inr ⟨hk, x :: ys, u, ⟨x, w, ys, rfl, hx, hi, hn⟩, (), t, ⟨hl, hm⟩, rfl, rfl⟩

end ScriptTree.Parser
