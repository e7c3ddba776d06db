import ScriptTree.Proofs.Cuts
import ScriptTree.Proofs.Faults
import ScriptTree.Proofs.Indentation
import ScriptTree.Proofs.Positions

/-! # Nothing is cut, looked up or taken off that is not there

A run of the readers is watched step by step. Where a step cuts the source, the parts that it cuts
have to be there; and books are kept of what is open, as if depth and labels were counted up and down
and nothing else were known of them. `Runs` lists what a run may do. Every run of every reader is such
a run, whether it returns or stops, and when it returns, the books are what they were before.

The readers themselves do not count: what levels are left and which labels are around is handed down
to them, in `readers` and in the context, and is gone when they are done. `Runs` is the reader that
keeps the same two things in its state, as a relation. Its state is the books with the state of the
tokens; both are changed on the way in and have to be changed back on the way out, and each change
back may fail. `Runs.result` forgets the books, `Books.Shows` ties them to what is handed down at
every step, `Watched` says that no run is stuck, and `Runs.books` that all is changed back. -/
namespace ScriptTree
namespace Parser

/-! ## Books -/

/-- What is open while a script is read: how many statements and expressions, and the names of the
labels around, innermost first. -/
structure Books where
  depth : Nat
  names : List (Option String)

namespace Books

def empty : Books := ⟨0, []⟩

/-- One statement or expression more. -/
def enter (b : Books) : Books := ⟨b.depth + 1, b.names⟩

/-- One less, if one is open. -/
def leave? (b : Books) : Option Books :=
  match b.depth with
  | 0 => none
  | depth + 1 => some ⟨depth, b.names⟩

def push (opened : List (Option String)) (b : Books) : Books := ⟨b.depth, opened ++ b.names⟩

/-- Some labels less, if as many are open. -/
def pop? (n : Nat) (b : Books) : Option Books :=
  if n ≤ b.names.length then some ⟨b.depth, b.names.drop n⟩ else none

/-- The books are right: the levels that are left make up the limit, and the names are those of the
scope. -/
structure Shows (b : Books) (c : Context) (levels : Nat) : Prop where
  depth : b.depth + levels = c.limit
  names : b.names = c.scope.names

theorem leave?_enter (b : Books) : b.enter.leave? = some b := rfl

theorem pop?_push (opened : List (Option String)) (b : Books) :
    (b.push opened).pop? opened.length = some b := by
  simp [pop?, push]

theorem exists_leave? {b : Books} (h : 0 < b.depth) : ∃ b', b.leave? = some b' := by
  obtain ⟨_ | depth, names⟩ := b
  · cases h
  · exact ⟨_, rfl⟩

theorem depth_of_leave? {b b' : Books} (h : b.leave? = some b') : b.depth = b'.depth + 1 := by
  obtain ⟨_ | depth, names⟩ := b
  · cases h
  · obtain rfl := Option.some.inj h
    rfl

end Books

/-! ## Watched runs -/

/-- One step of reading, and what guards it: of what it cuts out of the source nothing is missing. -/
inductive Guarded (source : List Char) (s : State) : {α : Type} → Parse α → Prop
  | pure {α : Type} (a : α) : Guarded source s (pure a)
  | read : Guarded source s (read : Parse Context)
  | kind : Guarded source s kind
  | here : Guarded source s here
  | finish {start} : s.lastEnd ≤ s.current.span.start →
      (∃ text, Text.slice source start (s.since start).stop = some text) →
      Guarded source s (finish start)
  | afterLineBreak : s.lastEnd ≤ s.current.span.start →
      Text.slice source s.lastEnd s.current.span.start = some (String.ofList s.gap) →
      Guarded source s afterLineBreak
  | advance {flag} : Lexer.Cuts source flag s.cursor → Guarded source s (advance flag)
  | fault {α : Type} {cause offset} : cause.concernsDepth = false →
      Guarded source s (fault cause offset : Parse α)

/-- How a reader runs whose parts have some levels left: its result, and the books before and after.
A step needs right books. A part is entered before it is read, unless that exceeds the limit, and
left when it has been read or given up. Labels are put on before what they stand in front of, and
taken off when that has been read. -/
inductive Runs (source : List Char) : (levels : Nat) → {α : Type} → Parse α → Context → Books →
    State → EStateM.Result Fault State α → Books → Prop
  | step {levels α} {p : Parse α} {c b s} : b.Shows c levels → Guarded source s p →
      Runs source levels p c b s (p c s) b
  | bind {levels α β} {p : Parse α} {f : α → Parse β} {c b b₁ b₂ s a t r} :
      Runs source levels p c b s (.ok a t) b₁ → Runs source levels (f a) c b₁ t r b₂ →
      Runs source levels (p >>= f) c b s r b₂
  | stop {levels α β} {p : Parse α} {f : α → Parse β} {c b b₁ s e t} :
      Runs source levels p c b s (.error e t) b₁ → Runs source levels (p >>= f) c b s (.error e t) b₁
  | scope {levels α} {p : Parse α} {f c b b₁ b₂ s a t opened} :
      (f c.scope).names = opened ++ c.scope.names →
      Runs source levels p { c with scope := f c.scope } (b.push opened) s (.ok a t) b₁ →
      b₁.pop? opened.length = some b₂ → Runs source levels (inScope f p) c b s (.ok a t) b₂
  | scopeStop {levels α} {p : Parse α} {f c b b₁ s e t opened} :
      (f c.scope).names = opened ++ c.scope.names →
      Runs source levels p { c with scope := f c.scope } (b.push opened) s (.error e t) b₁ →
      Runs source levels (inScope f p) c b s (.error e t) b₁
  | statement {levels c b b₁ b₂ s r} : b.enter.depth ≤ c.limit →
      Runs source levels (statement (readers levels)) c b.enter s r b₁ → b₁.leave? = some b₂ →
      Runs source (levels + 1) (readers (levels + 1)).statement c b s r b₂
  | expression {levels floor forHead c b b₁ b₂ s r} : b.enter.depth ≤ c.limit →
      Runs source levels (expression (readers levels) floor forHead) c b.enter s r b₁ →
      b₁.leave? = some b₂ →
      Runs source (levels + 1) ((readers (levels + 1)).expression floor forHead) c b s r b₂
  | tooDeep {α : Type} {c b s} : c.limit < b.enter.depth →
      Runs source 0 (tooDeep : Parse α) c b s (tooDeep c s) b.enter

section
variable {source : List Char} {levels : Nat} {p : Parse α} {c : Context} {b b' : Books} {s t : State}

theorem Guarded.reaches {a} (h : Guarded source s p) (hr : Returns p c s a t) : Reaches s t := by
  cases h with
  | pure a => exact (returns_pure.1 hr).2 ▸ .refl
  | read => exact (returns_read.1 hr).2 ▸ .refl
  | kind => exact (returns_kind.1 hr).2 ▸ .refl
  | here => exact (returns_here.1 hr).2 ▸ .refl
  | finish _ _ => exact (returns_finish.1 hr).2 ▸ .refl
  | afterLineBreak _ _ => exact (returns_afterLineBreak.1 hr).2 ▸ .refl
  | advance _ => exact (returns_advance.1 hr).reaches
  | fault _ => exact absurd hr returns_fault

/-- A watched run does what the reader does. -/
theorem Runs.result {r} (h : Runs source levels p c b s r b') : p c s = r := by
  induction h with
  | step _ _ | tooDeep _ => rfl
  | bind _ _ ih ih' => rw [bind_apply, ih, ← ih']
  | stop _ ih => rw [bind_apply, ih]
  | scope _ _ _ ih | scopeStop _ _ ih => exact ih
  | statement _ _ _ ih | expression _ _ _ ih => exact ih

theorem Runs.reaches {r} (h : Runs source levels p c b s r b') : ∀ a t, r = .ok a t → Reaches s t := by
  induction h with
  | step _ hg => exact fun _ _ hr => hg.reaches hr
  | bind _ _ ih ih' => exact fun a t hr => (ih _ _ rfl).trans (ih' a t hr)
  | stop _ _ | scopeStop _ _ _ | tooDeep _ => nofun
  | scope _ _ _ ih => exact ih
  | statement _ _ _ ih | expression _ _ _ ih => exact ih

/-- What has been entered is left, and what has been put on is taken off: when a reader returns, the
books are what they were. When it stops, they show at least as many levels. -/
theorem Runs.books {r} (h : Runs source levels p c b s r b') :
    (∀ a t, r = .ok a t → b' = b) ∧ b.depth ≤ b'.depth := by
  have left {b b₁ b₂ : Books} {α : Type} {r : EStateM.Result Fault State α}
      (ih : (∀ a t, r = .ok a t → b₁ = b.enter) ∧ b.enter.depth ≤ b₁.depth)
      (hl : b₁.leave? = some b₂) : (∀ a t, r = .ok a t → b₂ = b) ∧ b.depth ≤ b₂.depth := by
    refine ⟨fun a t hr => ?_, ?_⟩
    · rw [ih.1 a t hr, Books.leave?_enter] at hl
      exact (Option.some.inj hl).symm
    · have hdepth := Books.depth_of_leave? hl
      have hle : b.depth + 1 ≤ b₁.depth := ih.2
      omega
  induction h with
  | step _ _ => exact ⟨fun _ _ _ => rfl, Nat.le_refl _⟩
  | bind _ _ ih ih' =>
    obtain rfl := ih.1 _ _ rfl
    exact ih'
  | stop _ ih => exact ⟨nofun, ih.2⟩
  | scope _ _ hpop ih =>
    rw [ih.1 _ _ rfl, Books.pop?_push] at hpop
    obtain rfl := Option.some.inj hpop
    exact ⟨fun _ _ _ => rfl, Nat.le_refl _⟩
  | scopeStop _ _ ih => exact ⟨nofun, ih.2⟩
  | statement _ _ hl ih | expression _ _ hl ih => exact left ih hl
  | tooDeep _ => exact ⟨nofun, Nat.le_succ _⟩

/-! ## Every run -/

/-- A state that the reading of a script goes through. -/
def State.Read (source : List Char) (s : State) : Prop :=
  ∃ s₀ : State, s₀.Begins source ∧ Reaches s₀ s

theorem State.Read.placed (h : s.Read source) : s.Placed source := by
  obtain ⟨s₀, hb, hr⟩ := h
  exact hr.placed hb

theorem State.Read.reaches (h : s.Read source) (hr : Reaches s t) : t.Read source := by
  obtain ⟨s₀, hb, hs⟩ := h
  exact ⟨s₀, hb, hs.trans hr⟩

theorem State.Read.boundary (h : s.Read source) {n : Nat} (hn : s.Met n) :
    Text.Boundary source n := by
  obtain ⟨s₀, hb, hr⟩ := h
  exact hr.boundary hb hn

/-- The trivia in front of the current token stand between it and the last one. -/
theorem State.Read.slice_gap (h : s.Read source) :
    Text.slice source s.lastEnd s.current.span.start = some (String.ofList s.gap) := by
  have cut {flag c token d} (hc : Cursor.Stands source c) (hn : Lexer.next flag c = (.ok token, d)) :
      Text.slice source c.offset token.span.start = some (String.ofList (Lexer.gap c)) := by
    obtain ⟨text, hf⟩ := Lexer.finds_of_next hn
    rw [hf.start]
    exact (hc.cuts flag).gap
  obtain ⟨s₀, hb, hr⟩ := h
  cases hr with
  | refl =>
    have hlast : s.lastEnd = 0 := by rw [State.lastEnd, hb.1]
    rw [hlast, hb.2.1]
    exact cut (Cursor.stands_ofText source) hb.2.2
  | step hr hm =>
    have hs := hr.placed hb
    rw [hm.lastEnd, hs.stop, hm.gap]
    exact cut hs.cursor hm.next

/-- What is cut out when a node is finished that began at a token. -/
theorem State.Read.exists_slice_since (h : s.Read source) {n : Nat} (hn : s.Met n) :
    ∃ text, Text.slice source n (s.since n).stop = some text := by
  refine (h.boundary hn).exists_slice ?_ (Nat.le_max_right _ _)
  rcases Nat.le_total s.lastEnd n with hle | hle
  · rw [State.since, Nat.max_eq_right hle]
    exact h.boundary hn
  · rw [State.since, Nat.max_eq_left hle]
    exact h.placed.last

/-- A reader whose runs are watched runs, from right books on; `w` are places of tokens. -/
def Watched (source : List Char) (levels : Nat) (w : Places) (p : Parse α) : Prop :=
  ∀ c b s, Books.Shows b c levels → s.Read source → (∀ n n', w n n' → s.Met n) →
    ∃ b', Runs source levels p c b s (p c s) b'

end

section
variable {source : List Char} {levels : Nat} {w : Places} {p : Parse α}

theorem Watched.step (h : ∀ s : State, s.Read source → (∀ n n', w n n' → s.Met n) →
    Guarded source s p) : Watched source levels w p :=
  fun _ b s hb hs hw => ⟨b, .step hb (h s hs hw)⟩

theorem Watched.bind {f : α → Parse β} (hp : Watched source levels w p)
    (hf : ∀ a, Watched source levels w (f a)) : Watched source levels w (p >>= f) := by
  intro c b s hb hs hw
  obtain ⟨b₁, hrun⟩ := hp c b s hb hs hw
  rw [bind_apply]
  cases hr : p c s with
  | error e t =>
    rw [hr] at hrun
    exact ⟨b₁, hrun.stop⟩
  | ok a t =>
    rw [hr] at hrun
    have hreach := hrun.reaches a t rfl
    obtain rfl := hrun.books.1 a t rfl
    obtain ⟨b₂, hrest⟩ := hf a c b₁ t hb (hs.reaches hreach) fun n n' hn => hreach.met (hw n n' hn)
    exact ⟨b₂, hrun.bind hrest⟩

theorem Watched.reading {f : Context → Parse α} (h : ∀ c, Watched source levels w (f c)) :
    Watched source levels w (read >>= f) :=
  Watched.bind (.step fun _ _ _ => .read) h

theorem watched_fault {cause offset} (hc : cause.concernsDepth = false) :
    Watched source levels w (fault cause offset : Parse α) :=
  .step fun _ _ _ => .fault hc

/-- What follows may be told where the current token starts. -/
theorem Watched.here {f : Nat → Parse α}
    (h : ∀ n, Watched source levels (fun m m' => w m m' ∨ m = n) (f n)) :
    Watched source levels w (here >>= f) := by
  intro c b s hb hs hw
  obtain ⟨b', hrun⟩ := h s.current.span.start c b s hb hs fun m m' hm => by
    rcases hm with hm | rfl
    · exact hw m m' hm
    · exact s.met_current
  exact ⟨b', .bind (.step hb .here) hrun⟩

theorem Watched.inScope {f : Scope → Scope} (hf : Scope.Opens f) (h : Watched source levels w p) :
    Watched source levels w (inScope f p) := by
  intro c b s hb hs hw
  obtain ⟨opened, hopened⟩ := hf c.scope
  have hpush : (b.push opened).Shows { c with scope := f c.scope } levels :=
    ⟨hb.depth, by rw [hopened, ← hb.names]; rfl⟩
  obtain ⟨b₁, hrun⟩ := h { c with scope := f c.scope } (b.push opened) s hpush hs hw
  show ∃ b', Runs source levels (Parser.inScope f p) c b s (p { c with scope := f c.scope } s) b'
  cases hr : p { c with scope := f c.scope } s with
  | error e t =>
    rw [hr] at hrun
    exact ⟨b₁, .scopeStop hopened hrun⟩
  | ok a t =>
    rw [hr] at hrun
    obtain rfl := hrun.books.1 a t rfl
    exact ⟨b, .scope hopened hrun (Books.pop?_push opened b)⟩

/-- A part is entered within the limit, and can be left however it ends. -/
theorem Watched.nested (h : Watched source levels w p)
    (hrule : ∀ {c b b₁ b₂ s r}, b.enter.depth ≤ c.limit → Runs source levels p c b.enter s r b₁ →
      b₁.leave? = some b₂ → Runs source (levels + 1) p c b s r b₂) :
    Watched source (levels + 1) w p := by
  intro c b s hb hs hw
  have henter : b.enter.Shows c levels :=
    ⟨(Nat.add_right_comm b.depth 1 levels).trans hb.depth, hb.names⟩
  have hle : b.enter.depth ≤ c.limit := henter.depth ▸ Nat.le_add_right _ _
  obtain ⟨b₁, hrun⟩ := h c b.enter s henter hs hw
  obtain ⟨b₂, hleave⟩ := Books.exists_leave? (Nat.lt_of_lt_of_le (Nat.succ_pos _) hrun.books.2)
  exact ⟨b₂, hrule hle hrun hleave⟩

end

section
variable (source : List Char)

theorem watched_steps (levels : Nat) : Steps (fun _ => ()) fun w _ _ _ p _ => Watched source levels w p where
  pure _ := .step fun _ _ _ => .pure _
  bind hp hf := hp.bind fun a => hf a a rfl
  forget h := h
  kind := .step fun _ _ _ => .kind
  here h := Watched.here fun n => h n n (fun _ _ hm => .inl hm) (.inr rfl)
  afterLineBreak := .step fun _ hs _ => .afterLineBreak hs.placed.last_le hs.slice_gap
  finish hstart := .step fun _ hs hw =>
    .finish hs.placed.last_le (hs.exists_slice_since (hw _ _ hstart))
  advance := .step fun _ hs _ => .advance (Cursor.Stands.cuts hs.placed.cursor _)
  fault hc _ := watched_fault hc
  inScope hf h := h.inScope hf
  stacked h := .reading fun c => h c.scope.stacked
  check {_ _ _ _ _ _ _ _ g _ cause rest _} hc _ _ h := .reading fun c => by
    split
    · exact (watched_fault (concernsDepth_of_labels hc)).bind fun _ => h
    · exact h

theorem watched_coupling (levels : Nat) :
    Coupling (fun _ => ()) fun w _ _ _ p _ => Watched source levels w p :=
  (watched_steps source levels).coupling fun h => .reading fun c => h c.budget

/-- Every statement and every expression runs so, at every level of nesting. -/
theorem readers_watched (levels : Nat) :
    Coupled (fun _ => ()) (fun w _ _ _ p _ => Watched source levels w p) true (readers levels)
      (readers levels) := by
  induction levels with
  | zero =>
    have exceeds {α : Type} {w : Places} : Watched source 0 w (tooDeep : Parse α) := by
      intro c b s hb _ _
      have hdepth := hb.depth
      exact ⟨b.enter, .tooDeep (by rw [← hdepth]; exact Nat.lt_succ_self _)⟩
    exact ⟨readers_taking 0, exceeds, exceeds⟩
  | succ levels ih =>
    have hparts := (watched_coupling source levels).readers (readers_taking (levels + 1)) ih ih
    exact ⟨hparts.takes, hparts.statement.nested .statement, hparts.expression.nested .expression⟩

theorem program_watched (levels : Nat) :
    Watched source levels (fun _ _ => False) (program (readers levels)) :=
  (watched_coupling source levels).program (readers_watched source levels)

end

/-- An operator that carries an expression on binds tighter than some floor, so its strength can be
lowered. -/
theorem continuation?_pos {floor forHead k q} (h : continuation? floor forHead k = some q) : 0 < q :=
  Nat.lt_of_le_of_lt (Nat.zero_le _) (continuation?_eq_some.1 h).2.1

end Parser

/-- A pair of surrogates is put together without going below either range. -/
theorem Quoted.toNat_ofPair {high low : Nat} (hh : isHighSurrogate high = true)
    (hl : isLowSurrogate low = true) :
    (ofPair high low).toNat + (0xd800 * 0x400 + 0xdc00) = 0x10000 + high * 0x400 + low := by
  simp only [isHighSurrogate, isLowSurrogate, Bool.and_eq_true, decide_eq_true_eq] at hh hl
  have hvalid : (0x10000 + (high - 0xd800) * 0x400 + (low - 0xdc00)).isValidChar := by
    right
    omega
  have hchar : (ofPair high low).toNat = 0x10000 + (high - 0xd800) * 0x400 + (low - 0xdc00) := by
    rw [ofPair, Char.ofNat, dif_pos hvalid]
    rfl
  omega

/-- A placeholder ends inside its template, and names an argument that there is. -/
theorem Template.placeholder?_inside {args : List (List Char)} {cs arg : List Char} {width : Nat}
    (h : placeholder? args cs = some (arg, width)) : arg ∈ args ∧ width ≤ cs.length := by
  unfold placeholder? at h
  dsimp only at h
  split at h
  · rename_i hclosed
    obtain ⟨i, -, hi⟩ := Option.bind_eq_some_iff.1 h
    obtain ⟨a, ha, he⟩ := Option.map_eq_some_iff.1 hi
    obtain ⟨rfl, rfl⟩ := Prod.mk.inj he
    refine ⟨List.mem_of_getElem? ha, ?_⟩
    rw [List.head?_drop] at hclosed
    exact (List.getElem?_eq_some_iff.1 hclosed).1
  · cases h

/-! ## The whole -/

/-- Reading and printing never reach for what is not there. Whatever the source and the limit, every
run is a watched run, from empty books on: all that is cut out of the source is there, and a reader
that returns leaves the books as they were. Lines are looked up inside the table, and neither a
strength nor the level of indentation is lowered below 0. -/
theorem parse_print_in_range (source : String) (limit : Nat) :
    -- Reading: the first token, and the script from there.
    Lexer.Cuts source.toList false (.ofText source.toList) ∧
    (∀ s : Parser.State, s.Begins source.toList → ∃ b,
      Parser.Runs source.toList limit (Parser.program (Parser.readers limit))
        (.ofText source.toList limit) .empty s
        (Parser.program (Parser.readers limit) (.ofText source.toList limit) s) b) ∧
    (∀ levels (α : Type) (p : Parser.Parse α) c b s r b',
      Parser.Runs source.toList levels p c b s r b' →
        p c s = r ∧ (∀ a t, r = .ok a t → b' = b) ∧ b.depth ≤ b'.depth) ∧
    -- Lines: a search among their starts.
    (LineTable.ofText source.toList).starts.Pairwise (· < ·) ∧
    (∀ offset, (∃ answer, LineTable.Answers (LineTable.ofText source.toList).starts offset answer) ∧
      ∀ answer, LineTable.Answers (LineTable.ofText source.toList).starts offset answer →
        answer ≠ .error 0 ∧
        ∃ line, (LineTable.ofText source.toList).lines[LineTable.indexOf answer]? = some line ∧
          line.start ≤ offset ∧
          LineTable.lineAt offset 1 (LineTable.ofText source.toList).first
              (LineTable.ofText source.toList).later = (LineTable.indexOf answer + 1, line)) ∧
    -- Strengths that are lowered, surrogates that are put together, placeholders that are filled.
    (∀ floor forHead k q, Parser.continuation? floor forHead k = some q → 0 < q) ∧
    0 < Priority.of .new .leading ∧
    (∀ high low, Quoted.isHighSurrogate high = true → Quoted.isLowSurrogate low = true →
      (Quoted.ofPair high low).toNat + (0xd800 * 0x400 + 0xdc00) =
        0x10000 + high * 0x400 + low) ∧
    (∀ args cs arg width, Template.placeholder? args cs = some (arg, width) →
      arg ∈ args ∧ width ≤ cs.length) ∧
    -- Printing: the level of indentation as a counter, and the lines inside a statement.
    (∀ p : Program Location, Printer.Counts 0 (Printer.program p.body) 0) ∧
    (∀ level (x : Stmt Location), Printer.Counts level (Printer.stmt level x) level) ∧
    (∀ level w level', Printer.Counts level w level' → level' = level) ∧
    (∀ level (x : Stmt Location) ps, Printer.stmt level x ps =
      (Printer.stmt 0 x []).map (Piece.indent level) ++ ps) ∧
    ∀ level (x : Stmt Location) l, .newline l ∈ Printer.stmt level x [] → level ≤ l := by
  have shown : Parser.Books.empty.Shows (.ofText source.toList limit) limit :=
    ⟨Nat.zero_add limit, rfl⟩
  exact ⟨(Cursor.stands_ofText source.toList).cuts false,
    fun s hb => Parser.program_watched source.toList limit _ _ s shown ⟨s, hb, .refl⟩ nofun,
    fun _ _ _ _ _ _ _ _ hr => ⟨hr.result, hr.books⟩,
    LineTable.starts_pairwise source.toList,
    fun offset => ⟨LineTable.exists_answers (LineTable.starts_pairwise source.toList) offset,
      fun _ ha => LineTable.lineAt_of_answers ha⟩,
    fun _ _ _ _ hq => Parser.continuation?_pos hq,
    by decide,
    fun _ _ hh hl => Quoted.toNat_ofPair hh hl,
    fun _ _ _ _ hp => Template.placeholder?_inside hp,
    fun p => Printer.program_counts p.body,
    fun level x => (Printer.drawn_stmt x).counts level,
    fun _ _ _ hc => hc.eq,
    fun level x ps => (Printer.drawn_stmt x).relative level ps,
    fun _ x _ hl => (Printer.drawn_stmt x).le_of_newline_mem hl⟩

/-- A labelled loop with a block, after which nothing is open. -/
theorem parse_print_in_range_labeled : ∃ s p t,
    s.Begins "a: do { b } while (c)".toList ∧
    Parser.Runs "a: do { b } while (c)".toList 9 (Parser.program (Parser.readers 9))
      (.ofText "a: do { b } while (c)".toList 9) .empty s (.ok p t) .empty := by
  have h := parse_print_in_range "a: do { b } while (c)" 9
  have hok : (parse "a: do { b } while (c)" 9).isOk = true := by decide +kernel
  obtain ⟨p, hp⟩ := exists_parse_of_isOk hok
  obtain ⟨q, hq, rfl⟩ := parse_eq_ok.1 hp
  obtain ⟨s, t, hb, hreturns⟩ := Parser.run_eq_ok.1 hq
  obtain ⟨b, hrun⟩ := h.2.1 s hb
  rw [show Parser.program (Parser.readers 9) _ s = .ok q t from hreturns] at hrun
  obtain rfl := (h.2.2.1 _ _ _ _ _ _ _ _ hrun).2.1 q t rfl
  exact ⟨s, q, t, hb, hrun⟩

end ScriptTree
