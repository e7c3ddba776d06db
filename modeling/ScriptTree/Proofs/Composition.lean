import ScriptTree.Proofs.Progress

/-! # What every pair of readers inherits from its steps

Two runs are compared step by step. Readers are put together from a few steps by sequencing, so a
relation that the steps have and that sequencing keeps holds between the readers of every production;
`Steps` lists what has to be shown. The results of two readers are compared under a key, which forgets
what the runs may differ in: notes are compared under `note`. A relation also knows whether a token has
been taken yet, before and after a reader, and which places of the two runs are known to correspond:
wherever a reader looks where it stands, such a pair of places is added. -/
namespace ScriptTree

namespace Cause

/-- The two faults that concern labels and jumps. -/
def concernsLabels : Cause → Bool
  | .invalidJump _ | .duplicateLabel _ => true
  | _ => false

/-- The fault of running out of levels. -/
def concernsDepth : Cause → Bool
  | .nestingTooDeep _ => true
  | _ => false

end Cause

namespace Scope

/-- The names of the labels, innermost first; loops and switches have none. -/
def names (s : Scope) : List (Option String) := s.labels.map (·.name)

/-- A way into a part, where at most some more labels are around. -/
def Opens (f : Scope → Scope) : Prop := ∀ s, ∃ opened, (f s).names = opened ++ s.names

theorem opens_settle : Opens settle := fun _ => ⟨[], rfl⟩

theorem opens_enter (target : JumpTarget) : Opens (enter target) := fun _ => ⟨[none], rfl⟩

/-- The labels directly in front get another target, and keep their names. -/
theorem opens_label (stacked : Nat) (name : String) (target : Option JumpTarget) :
    Opens (label stacked name target) := by
  intro s
  refine ⟨[some name], ?_⟩
  simp only [names, label, List.map_append, List.map_cons, List.map_map, List.cons_append,
    List.nil_append]
  rw [show (fun l : Label => l.name) ∘ (fun l : Label => ⟨l.name, target⟩) = (·.name) from rfl,
    ← List.map_append, List.take_append_drop]

end Scope

theorem Expr.map_eq_map_identifier {f : α → β} {e : Expr α} {i : Identifier α}
    (h : Expr.map f e = Expr.map f (.identifier i)) :
    ∃ i', e = .identifier i' ∧ Identifier.map f i' = Identifier.map f i := by
  cases e <;> simp only [Expr.map, reduceCtorEq, Expr.identifier.injEq] at h
  exact ⟨_, rfl, h⟩

/-- What `new` makes of its operand: a call gives its callee and its arguments. -/
def Expr.construct (note : α) : Expr α → Expr α
  | .call _ callee arguments => .new note callee arguments
  | callee => .new note callee []

theorem Expr.map_construct (f : α → β) (note : α) (e : Expr α) :
    (Expr.construct note e).map f = Expr.construct (f note) (e.map f) := by
  cases e <;> simp [Expr.construct, Expr.map, Expr.mapList]

namespace Parser

theorem bindsOne_map (f : α → β) (t : ForTarget α) : bindsOne (t.map f) = bindsOne t := by
  rcases t with ⟨_, _ | ⟨_, _ | ⟨_, _⟩⟩⟩ | i <;> rfl

theorem isDefault_eq_of_map {note : Span → ν} {x x' : SwitchCase Span}
    (h : SwitchCase.map note x = SwitchCase.map note x') : isDefault x = isDefault x' := by
  obtain ⟨_, test, _⟩ := x
  obtain ⟨_, test', _⟩ := x'
  simp only [SwitchCase.map, SwitchCase.mk.injEq, Expr.mapOption_eq] at h
  simpa [isDefault] using congrArg Option.isNone h.2.1

theorem construction_eq {R : Readers} : construction R = (do
    let start ← here
    advance false
    let operand ← R.expression (Priority.of .new .leading - 1) false
    return Expr.construct (← finish start) operand) := by
  refine bind_congr fun _ => bind_congr fun _ => bind_congr fun operand => bind_congr fun _ => ?_
  cases operand <;> rfl

theorem forInRest_eq {R : Readers} {start : Nat} {target : ForTarget Span} :
    forInRest R start target =
      let rest : Parse (Stmt Span) := do
        eat (.operator .in)
        let object ← commaExpression R false
        eat .rightParen
        let body ← loopBody R
        return .forIn (← finish start) target object body
      if bindsOne target then rest else fault .manyBindings start >>= fun (_ : PUnit) => rest := by
  rcases target with ⟨_, _ | ⟨_, _ | ⟨_, _⟩⟩⟩ | i <;> rfl

/-- Pairs of places, of a first run and of a second one. -/
abbrev Places := Nat → Nat → Prop

/-- All pairs, for a relation that does not depend on places. -/
def Places.all : Places := fun _ _ => True

/-- A relation between two readers: the places known to correspond, whether a token has been taken
before and after them, the key under which their results agree, and the readers. -/
abbrev Relation := {α κ : Type} → Places → Bool → Bool → (α → κ) → Parse α → Parse α → Prop

/-- A relation that the small steps have and that sequencing keeps. -/
structure Steps {ν : Type} (note : Span → ν) (Q : Relation) : Prop where
  pure {α κ w b} {k : α → κ} {a a'} : k a = k a' → Q w b b k (pure a) (pure a')
  bind {α β κ μ w b₁ b₂ b₃} {j : α → κ} {k : β → μ} {p p' : Parse α} {f f' : α → Parse β} :
    Q w b₁ b₂ j p p' → (∀ a a', j a = j a' → Q w b₂ b₃ k (f a) (f' a')) →
    Q w b₁ b₃ k (p >>= f) (p' >>= f')
  forget {α κ w b b'} {k : α → κ} {p p'} : Q w b true k p p' → Q w b b' k p p'
  kind {w b} : Q w b b id kind kind
  here {α κ w b b'} {k : α → κ} {f f' : Nat → Parse α} :
    (∀ {w' : Places} n n', (∀ m m', w m m' → w' m m') → w' n n' → Q w' b b' k (f n) (f' n')) →
    Q w b b' k (here >>= f) (here >>= f')
  afterLineBreak {w b} : Q w b b id afterLineBreak afterLineBreak
  finish {w : Places} {b start start'} : w start start' → Q w b b note (finish start) (finish start')
  advance {w b flag} : Q w b true id (advance flag) (advance flag)
  fault {α κ} {w : Places} {b b' cause offset offset'} {k : α → κ} : cause.concernsDepth = false →
    w offset offset' → Q w b b' k (fault cause offset) (fault cause offset')
  inScope {α κ w b b' f} {k : α → κ} {p p'} : Scope.Opens f → Q w b b' k p p' →
    Q w b b' k (inScope f p) (inScope f p')
  stacked {α κ w b b'} {k : α → κ} {f f' : Nat → Parse α} : (∀ n, Q w b b' k (f n) (f' n)) →
    Q w b b' k (read >>= fun c => f c.scope.stacked) (read >>= fun c => f' c.scope.stacked)
  check {α κ} {w : Places} {b b' offset offset'} {k : α → κ} {g g' : Scope → Bool}
      {cause rest rest'} :
    cause.concernsLabels = true → w offset offset' → g = g' → Q w b b' k rest rest' →
    Q w b b' k
      (read >>= fun c => if (c.checkLabels && g c.scope) = true
        then Parser.fault cause offset >>= fun (_ : PUnit) => rest else rest)
      (read >>= fun c => if (c.checkLabels && g' c.scope) = true
        then Parser.fault cause offset' >>= fun (_ : PUnit) => rest' else rest')

namespace Steps
variable {ν : Type} {note : Span → ν} {Q : Relation} {w : Places}

theorem ite (_ : Steps note Q) {α κ b b'} {k : α → κ} {c : Prop} [Decidable c]
    {p p' q q' : Parse α} (hp : Q w b b' k p p') (hq : Q w b b' k q q') :
    Q w b b' k (if c then p else q) (if c then p' else q') := by
  split
  · exact hp
  · exact hq

variable (hQ : Steps note Q)
include hQ

/-- Sequencing after a step whose result is the same in both runs. -/
theorem bindSame {α β κ b₁ b₂ b₃} {k : β → κ} {p p' : Parse α} {f f' : α → Parse β}
    (hp : Q w b₁ b₂ id p p') (hf : ∀ a, Q w b₂ b₃ k (f a) (f' a)) :
    Q w b₁ b₃ k (p >>= f) (p' >>= f') := by
  refine hQ.bind hp fun a a' h => ?_
  obtain rfl : a = a' := h
  exact hf a

theorem map {α β κ μ b b'} {j : α → κ} {k : β → μ} {p p' : Parse α} {f : α → β}
    (h : Q w b b' j p p') (hf : ∀ a a', j a = j a' → k (f a) = k (f a')) :
    Q w b b' k (f <$> p) (f <$> p') := by
  rw [map_eq_pure_bind, map_eq_pure_bind]
  exact hQ.bind h fun a a' ha => hQ.pure (hf a a' ha)

theorem present {α κ b b'} {k : α → κ} {p p' : Parse α} (h : Q w b b' k p p') :
    Q w b b' (Option.map k) (some <$> p) (some <$> p') :=
  hQ.map h fun _ _ ha => congrArg some ha

theorem absent {α κ b} {k : α → κ} : Q w b b (Option.map k) (Pure.pure none) (Pure.pure none) :=
  hQ.pure rfl

theorem faultHere {α κ b b' cause} {k : α → κ} (hc : cause.concernsDepth = false) :
    Q w b b' k (faultHere cause) (faultHere cause) :=
  hQ.here fun _ _ _ h => hQ.fault hc h

theorem unexpected {α κ b b'} {k : α → κ} : Q w b b' k unexpected unexpected :=
  hQ.bindSame hQ.kind fun _ => hQ.faultHere rfl

theorem expect {b k} : Q w b b id (expect k) (expect k) :=
  hQ.bindSame hQ.kind fun _ => hQ.ite hQ.unexpected (hQ.pure rfl)

theorem eat {b k} : Q w b true id (eat k) (eat k) := hQ.bindSame hQ.expect fun _ => hQ.advance

theorem close {b k} : Q w b true id (close k) (close k) := hQ.bindSame hQ.expect fun _ => hQ.advance

theorem atEnd {b} : Q w b b id atEnd atEnd := by
  refine hQ.bindSame hQ.kind fun k => ?_
  split
  · exact hQ.pure rfl
  · exact hQ.pure rfl
  · exact hQ.forget (hQ.bindSame hQ.advance fun _ => hQ.pure rfl)
  · exact hQ.afterLineBreak

theorem endStatement {b} : Q w b b id endStatement endStatement :=
  hQ.bindSame hQ.atEnd fun _ => hQ.ite hQ.unexpected (hQ.pure rfl)

/-- A node of which only the note is still to come. -/
theorem node {α κ b start start'} {k : α → κ} {f f' : Span → α} (hs : w start start')
    (hf : ∀ n n', note n = note n' → k (f n) = k (f' n')) :
    Q w b b k (do return f (← Parser.finish start)) (do return f' (← Parser.finish start')) :=
  hQ.bind (hQ.finish hs) fun n n' hn => hQ.pure (hf n n' hn)

/-! ## Lists of equal fuel -/

section
variable {α κ : Type} {k : α → κ} {item item' : Parse α}

theorem itemsUntil {b isLast} (hi : Q w b b k item item') (fuel : Nat) :
    Q w b b (List.map k) (itemsUntil isLast item fuel) (itemsUntil isLast item' fuel) := by
  induction fuel with
  | zero => exact hQ.unexpected
  | succ fuel ih =>
    refine hQ.bindSame hQ.kind fun _ => hQ.ite (hQ.pure rfl) ?_
    exact hQ.bind hi fun x x' hx => hQ.bind ih fun xs xs' hxs => hQ.pure (by simp [hx, hxs])

theorem itemsAfterCommas (hi : Q w true true k item item') (fuel : Nat) :
    Q w true true (List.map k) (itemsAfterCommas item fuel) (itemsAfterCommas item' fuel) := by
  induction fuel with
  | zero => exact hQ.unexpected
  | succ fuel ih =>
    refine hQ.bindSame hQ.kind fun _ => hQ.ite (hQ.pure rfl) ?_
    exact hQ.bindSame hQ.advance fun _ => hQ.bind hi fun x x' hx =>
      hQ.bind ih fun xs xs' hxs => hQ.pure (by simp [hx, hxs])

end

theorem extendAll {R R' : Readers} {start start' floor forHead}
    (he : ∀ left left' q, Expr.map note left = Expr.map note left' →
      Q w true true (Expr.map note) (extend R start forHead left q) (extend R' start' forHead left' q))
    (fuel : Nat) {left left'} (hl : Expr.map note left = Expr.map note left') :
    Q w true true (Expr.map note) (extendAll R start floor forHead fuel left)
      (extendAll R' start' floor forHead fuel left') := by
  induction fuel generalizing left left' with
  | zero => exact hQ.unexpected
  | succ fuel ih =>
    refine hQ.bindSame hQ.kind fun _ => ?_
    split
    · exact hQ.pure hl
    · exact hQ.bind (he _ _ _ hl) fun _ _ h => ih h

theorem switchCases {R R' : Readers}
    (hc : ∀ {w}, Q w true true (SwitchCase.map note) (switchCase R) (switchCase R')) (fuel : Nat)
    (hasDefault : Bool) : Q w true true (List.map (SwitchCase.map note))
      (switchCases R fuel hasDefault) (switchCases R' fuel hasDefault) := by
  induction fuel generalizing w hasDefault with
  | zero => exact hQ.unexpected
  | succ fuel ih =>
    refine hQ.bindSame hQ.kind fun _ => hQ.ite (hQ.pure rfl) ?_
    refine hQ.here fun start start' _ hs => hQ.bind hc fun x x' hx => ?_
    obtain ⟨n, test, body⟩ := x
    obtain ⟨n', test', body'⟩ := x'
    have rest {w : Places} (b : Bool) : Q w true true (List.map (SwitchCase.map note))
        (do return .mk n test body :: (← Parser.switchCases R fuel b))
        (do return .mk n' test' body' :: (← Parser.switchCases R' fuel b)) :=
      hQ.bind (ih b) fun xs xs' hxs => hQ.pure (by simp [hx, hxs])
    have ht : test.isNone = test'.isNone := isDefault_eq_of_map hx
    dsimp only
    rw [ht]
    exact hQ.ite (hQ.bindSame (hQ.fault rfl hs) fun _ => rest _) (rest _)

end Steps

/-- A relation that every pair of readers inherits: the steps have it, and so have the loops, given
that their parts have it. How often a loop may run is read from the context. -/
structure Coupling {ν : Type} (note : Span → ν) (Q : Relation) : Prop
    extends Steps note Q where
  upTo {R R' : Readers} {w b isLast} : Taking R → Q w b b (Stmt.map note) R.statement R'.statement →
    Q w b b (List.map (Stmt.map note)) (upTo isLast R.statement) (upTo isLast R'.statement)
  moreItems {α κ w} {k : α → κ} {item item'} : Q w true true k item item' →
    Q w true true (List.map k) (moreItems item) (moreItems item')
  extendAll {R R' : Readers} {w start start' floor forHead left left'} : Taking R →
    (∀ left left' q, Expr.map note left = Expr.map note left' →
      Q w true true (Expr.map note) (extend R start forHead left q)
        (extend R' start' forHead left' q)) →
    Expr.map note left = Expr.map note left' →
    Q w true true (Expr.map note)
      (read >>= fun c => extendAll R start floor forHead c.budget left)
      (read >>= fun c => extendAll R' start' floor forHead c.budget left')
  switchCases {R R' : Readers} {w} : Taking R →
    (∀ {w}, Q w true true (SwitchCase.map note) (switchCase R) (switchCase R')) →
    Q w true true (List.map (SwitchCase.map note))
      (read >>= fun c => switchCases R c.budget false)
      (read >>= fun c => switchCases R' c.budget false)

/-- Where both runs may go equally often through a loop, the loops need no proof of their own. -/
theorem Steps.coupling {ν : Type} {note : Span → ν} {Q : Relation}
    (hQ : Steps note Q)
    (budget : ∀ {α κ : Type} {w : Places} {b b' : Bool} {k : α → κ} {f f' : Nat → Parse α},
      (∀ n, Q w b b' k (f n) (f' n)) →
      Q w b b' k (read >>= fun c => f c.budget) (read >>= fun c => f' c.budget)) :
    Coupling note Q where
  toSteps := hQ
  upTo _ hi := budget fun n => hQ.itemsUntil hi n
  moreItems hi := budget fun n => hQ.itemsAfterCommas hi n
  extendAll _ he hl := budget fun n => hQ.extendAll he n hl
  switchCases _ hc := budget fun n => hQ.switchCases hc n false

/-- The readers of two levels are related, once a token has been taken or also before. -/
structure Coupled {ν : Type} (note : Span → ν) (Q : Relation) (b : Bool) (R R' : Readers) : Prop where
  takes : Taking R
  statement {w} : Q w b true (Stmt.map note) R.statement R'.statement
  expression {w floor forHead} :
    Q w b true (Expr.map note) (R.expression floor forHead) (R'.expression floor forHead)

namespace Coupling
variable {ν : Type} {note : Span → ν} {Q : Relation} {w : Places}
variable (hQ : Coupling note Q)
include hQ

/-! ## Lists -/

section
variable {α κ : Type} {k : α → κ} {item item' : Parse α} (hi : Q w true true k item item')
include hi

theorem separated : Q w true true (List.map k) (separated item) (separated item') :=
  hQ.bind hi fun x x' hx => hQ.bind (hQ.moreItems hi) fun xs xs' hxs =>
    hQ.pure (by simp [hx, hxs])

theorem closedList {last} :
    Q w true true (List.map k) (closedList last item) (closedList last item') := by
  have rest (xs xs' : List α) (h : List.map k xs = List.map k xs') :
      Q w true true (List.map k) (do Parser.close last; return xs)
        (do Parser.close last; return xs') :=
    hQ.bindSame hQ.close fun _ => hQ.pure h
  exact hQ.bindSame hQ.kind fun _ => hQ.ite (hQ.bind (hQ.pure rfl) rest)
    (hQ.bind (hQ.separated hi) rest)

end

/-! ## Expressions -/

theorem identifier {b} : Q w b true (Identifier.map note) identifier identifier := by
  refine hQ.here fun _ _ _ hs => hQ.bindSame hQ.kind fun _ => ?_
  split
  · exact hQ.bindSame hQ.advance fun _ => hQ.node hs fun _ _ hn => by simp [Identifier.map, hn]
  · exact hQ.unexpected

theorem literal {b} : Q w b true (Literal.map note) literal literal := by
  refine hQ.here fun _ _ _ hs => hQ.bindSame hQ.kind fun _ => ?_
  split
  · exact hQ.bindSame hQ.advance fun _ => hQ.node hs fun _ _ hn => by simp [Literal.map, hn]
  · exact hQ.unexpected

theorem parameters {b} : Q w b true (Identifier.mapList note) parameters parameters :=
  hQ.bindSame hQ.eat fun _ => hQ.closedList hQ.identifier

theorem propertyKey {b} : Q w b true (PropertyKey.map note) propertyKey propertyKey := by
  refine hQ.bindSame hQ.kind fun _ => ?_
  split
  · exact hQ.bind hQ.identifier fun _ _ h => hQ.pure (by simp [PropertyKey.map, h])
  · exact hQ.bind hQ.literal fun _ _ h => hQ.pure (by simp [PropertyKey.map, h])

theorem checkTarget {b cause e e' offset offset'} (hc : cause.concernsDepth = false)
    (he : Expr.map note e = Expr.map note e') (ho : w offset offset') :
    Q w b b id (checkTarget cause e offset) (checkTarget cause e' offset') := by
  have ht : e.isTarget = e'.isTarget := by
    rw [← Expr.isTarget_map note e, he, Expr.isTarget_map]
  rw [Parser.checkTarget, Parser.checkTarget, ht]
  exact hQ.ite (hQ.fault hc ho) (hQ.pure rfl)

section
variable {R R' : Readers} (hR : Coupled note Q true R R')
include hR

theorem block {b} : Q w b true (Block.map note) (block R) (block R') :=
  hQ.here fun _ _ _ hs => hQ.bindSame hQ.eat fun _ =>
    hQ.bind (hQ.upTo hR.takes hR.statement) fun _ _ hb => hQ.bindSame hQ.advance fun _ =>
    hQ.node hs fun _ _ hn => by simp [Block.map, Stmt.mapList_eq, hn, hb]

theorem commaExpression {b forHead}
    (he : ∀ {w}, Q w b true (Expr.map note) (R.expression 0 forHead) (R'.expression 0 forHead)) :
    Q w b true (Expr.map note) (commaExpression R forHead) (commaExpression R' forHead) := by
  refine hQ.here fun start start' _ hs => hQ.bind he fun e e' he =>
    hQ.bind (hQ.moreItems hR.expression) fun rest rest' hrest => ?_
  match rest, rest', hrest with
  | [], [], _ => exact hQ.pure he
  | x :: xs, x' :: xs', hrest =>
    simp only [List.map_cons] at hrest
    exact hQ.node hs fun _ _ hn => by
      simp only [Expr.map, Expr.mapList_eq, List.map_cons, hn, he, hrest]

theorem property {b} : Q w b true (Property.map note) (property R) (property R') :=
  hQ.here fun _ _ _ hs => hQ.bind hQ.propertyKey fun _ _ hk => hQ.bindSame hQ.eat fun _ =>
    hQ.bind hR.expression fun _ _ he => hQ.node hs fun _ _ hn => by
      simp [Property.map, hn, hk, he]

theorem functionExpression {b} :
    Q w b true (Expr.map note) (functionExpression R) (functionExpression R') := by
  have rest {w : Places} (start start' : Nat) (hs : w start start')
      (id id' : Option (Identifier Span))
      (hid : id.map (Identifier.map note) = id'.map (Identifier.map note)) :
      Q w true true (Expr.map note)
        (do let params ← Parser.parameters
            let body ← Parser.block R
            return Expr.function (← Parser.finish start) id params body)
        (do let params ← Parser.parameters
            let body ← Parser.block R'
            return Expr.function (← Parser.finish start') id' params body) :=
    hQ.bind hQ.parameters fun _ _ hp => hQ.bind (hQ.block hR) fun _ _ hb =>
      hQ.node hs fun _ _ hn => by simp only [Expr.map, hn, hp, hb, hid]
  refine hQ.here fun start start' _ hs => hQ.bindSame hQ.advance fun _ =>
    hQ.bindSame hQ.kind fun _ => ?_
  split
  · exact hQ.bind (hQ.present hQ.identifier) fun id id' h => rest start start' hs id id' h
  · exact hQ.bind hQ.absent fun id id' h => rest start start' hs id id' h

theorem construction {b} : Q w b true (Expr.map note) (construction R) (construction R') := by
  rw [construction_eq, construction_eq]
  exact hQ.here fun _ _ _ hs => hQ.bindSame hQ.advance fun _ =>
    hQ.bind hR.expression fun _ _ he => hQ.node hs fun _ _ hn => by
      rw [Expr.map_construct, Expr.map_construct, hn, he]

theorem leadingOperator {b op} :
    Q w b true (Expr.map note) (leadingOperator R op) (leadingOperator R' op) := by
  have rest {w : Places} (start start' : Nat) (hs : w start start') : Q w b true (Expr.map note)
      (do Parser.advance false
          let operandStart ← Parser.here
          let operand ← R.expression (Priority.of op .leading) false
          if op.isUpdate then
            Parser.checkTarget .invalidUpdateTarget operand operandStart
            return Expr.update (← Parser.finish start) op operand true
          else
            return Expr.unary (← Parser.finish start) op operand)
      (do Parser.advance false
          let operandStart ← Parser.here
          let operand ← R'.expression (Priority.of op .leading) false
          if op.isUpdate then
            Parser.checkTarget .invalidUpdateTarget operand operandStart
            return Expr.update (← Parser.finish start') op operand true
          else
            return Expr.unary (← Parser.finish start') op operand) :=
    hQ.bindSame hQ.advance fun _ => hQ.here fun _ _ hw ho =>
      hQ.bind hR.expression fun _ _ he => hQ.ite
        (hQ.bindSame (hQ.checkTarget rfl he ho) fun _ => hQ.node (hw _ _ hs) fun _ _ hn => by
          simp only [Expr.map, hn, he])
        (hQ.node (hw _ _ hs) fun _ _ hn => by simp only [Expr.map, hn, he])
  exact hQ.here fun start start' _ hs => hQ.ite
    (hQ.bindSame (hQ.fault rfl hs) fun _ => rest start start' hs) (rest start start' hs)

theorem operand {b} : Q w b true (Expr.map note) (operand R) (operand R') := by
  refine hQ.bindSame hQ.kind fun _ => ?_
  split
  case h_1 =>
    exact hQ.here fun _ _ _ hs => hQ.bindSame hQ.eat fun _ =>
      hQ.bind (hQ.separated hR.expression) fun _ _ he => hQ.bindSame hQ.close fun _ =>
      hQ.node hs fun _ _ hn => by simp only [Expr.map, Expr.mapList_eq, hn, he]
  case h_2 =>
    exact hQ.here fun _ _ _ hs => hQ.bindSame hQ.advance fun _ =>
      hQ.bind (hQ.closedList hR.expression) fun _ _ he =>
      hQ.node hs fun _ _ hn => by simp only [Expr.map, Expr.mapList_eq, hn, he]
  case h_3 => exact hQ.construction hR
  case h_4 => exact hQ.leadingOperator hR
  case h_11 => exact hQ.map hQ.identifier fun _ _ h => by simp only [Expr.map, h]
  case h_12 =>
    exact hQ.here fun _ _ _ hs => hQ.bindSame hQ.advance fun _ =>
      hQ.node hs fun _ _ hn => by simp only [Expr.map, hn]
  case h_13 => exact hQ.functionExpression hR
  case h_14 =>
    exact hQ.here fun _ _ _ hs => hQ.bindSame hQ.advance fun _ =>
      hQ.bind (hQ.closedList (hQ.property hR)) fun _ _ hp =>
      hQ.node hs fun _ _ hn => by simp only [Expr.map, Property.mapList_eq, hn, hp]
  case h_15 => exact hQ.faultHere rfl
  all_goals exact hQ.map hQ.literal fun _ _ h => by simp only [Expr.map, h]

theorem afterOperator {b start start' forHead left left' priority op}
    (hs : w start start') (hl : Expr.map note left = Expr.map note left') :
    Q w b true (Expr.map note) (afterOperator R start forHead left priority op)
      (afterOperator R' start' forHead left' priority op) := by
  have operand {floor} {f f' : Expr Span → Span → Expr Span}
      (hf : ∀ r r' n n', Expr.map note r = Expr.map note r' → note n = note n' →
        Expr.map note (f r n) = Expr.map note (f' r' n')) : Q w b true (Expr.map note)
      (do Parser.advance false
          let right ← R.expression floor forHead
          return f right (← Parser.finish start))
      (do Parser.advance false
          let right ← R'.expression floor forHead
          return f' right (← Parser.finish start')) :=
    hQ.bindSame hQ.advance fun _ => hQ.bind hR.expression fun r r' hr =>
      hQ.node hs fun n n' hn => hf r r' n n' hr hn
  refine hQ.ite (operand fun _ _ _ _ hr hn => by simp only [Expr.map, hl, hr, hn])
    (hQ.ite (hQ.bindSame (hQ.checkTarget rfl hl hs) fun _ =>
      operand fun _ _ _ _ hr hn => by simp only [Expr.map, hl, hr, hn])
    (hQ.ite (operand fun _ _ _ _ hr hn => by simp only [Expr.map, hl, hr, hn])
    (hQ.ite (operand fun _ _ _ _ hr hn => by simp only [Expr.map, hl, hr, hn])
    (hQ.ite ?_ (hQ.ite ?_ (hQ.faultHere rfl))))))
  · exact hQ.bindSame hQ.advance fun _ => hQ.bind hR.expression fun _ _ hx =>
      hQ.bindSame hQ.eat fun _ => hQ.bind hR.expression fun _ _ hy =>
      hQ.node hs fun _ _ hn => by simp only [Expr.map, hl, hx, hy, hn]
  · exact hQ.bindSame (hQ.checkTarget rfl hl hs) fun _ => hQ.bindSame hQ.advance fun _ =>
      hQ.node hs fun _ _ hn => by simp only [Expr.map, hl, hn]

theorem extend {b start start' forHead left left' priority}
    (hs : w start start') (hl : Expr.map note left = Expr.map note left') :
    Q w b true (Expr.map note) (extend R start forHead left priority)
      (extend R' start' forHead left' priority) := by
  refine hQ.bindSame hQ.kind fun _ => ?_
  split
  · exact hQ.bindSame hQ.advance fun _ => hQ.bind (hQ.closedList hR.expression) fun _ _ ha =>
      hQ.node hs fun _ _ hn => by simp only [Expr.map, Expr.mapList_eq, hl, ha, hn]
  · exact hQ.bindSame hQ.advance fun _ =>
      hQ.bind (hQ.commaExpression hR hR.expression) fun _ _ hp => hQ.bindSame hQ.close fun _ =>
      hQ.node hs fun _ _ hn => by simp only [Expr.map, hl, hp, hn]
  · exact hQ.afterOperator hR hs hl
  · exact hQ.unexpected

/-- An expression takes a token before it reads a part. -/
theorem expression {b floor forHead} :
    Q w b true (Expr.map note) (expression R floor forHead) (expression R' floor forHead) :=
  hQ.here fun _ _ _ hs => hQ.bind (hQ.operand hR) fun _ _ hl =>
    hQ.extendAll hR.takes (fun _ _ _ h => hQ.extend hR hs h) hl

/-! ## Statements -/

theorem condition {b} : Q w b true (Expr.map note) (condition R) (condition R') :=
  hQ.bindSame hQ.eat fun _ => hQ.bind (hQ.commaExpression hR hR.expression) fun _ _ he =>
    hQ.bindSame hQ.eat fun _ => hQ.pure he

theorem argument {b} : Q w b true (Option.map (Expr.map note)) (argument R) (argument R') :=
  hQ.bindSame hQ.advance fun _ => hQ.bindSame hQ.atEnd fun _ => hQ.ite (hQ.pure rfl)
    (hQ.bind (hQ.commaExpression hR hR.expression) fun _ _ he =>
      hQ.bindSame hQ.endStatement fun _ => hQ.pure (congrArg some he))

omit hR in
theorem jump (jump : Jump) {start start'} (hs : w start start')
    {label label' : Option (Identifier Span)}
    (hl : label.map (Identifier.map note) = label'.map (Identifier.map note)) :
    Q w true true (Stmt.map note)
      (do let note ← Parser.finish start
          match jump with
          | .break => return Stmt.break note label
          | .continue => return Stmt.continue note label)
      (do let note ← Parser.finish start'
          match jump with
          | .break => return Stmt.break note label'
          | .continue => return Stmt.continue note label') := by
  refine hQ.bind (hQ.finish hs) fun _ _ hn => ?_
  cases jump with
  | «break» => exact hQ.pure (by simp only [Stmt.map, hn, hl])
  | «continue» => exact hQ.pure (by simp only [Stmt.map, hn, hl])

omit hR in
theorem jumpStatement {b jump start start'} (hs : w start start') :
    Q w b true (Stmt.map note) (jumpStatement jump start) (jumpStatement jump start') := by
  have rest (label label' : Option (Identifier Span))
      (hl : label.map (Identifier.map note) = label'.map (Identifier.map note)) := by
    have names : label.map (·.name) = label'.map (·.name) := by
      have h := congrArg (Option.map (·.name)) hl
      simpa only [Option.map_map, Function.comp_def, Identifier.map] using h
    exact @Steps.check _ _ _ hQ.toSteps _ _ w true true _ _ _
      (fun sc => !sc.allows jump (label.map (·.name)))
      (fun sc => !sc.allows jump (label'.map (·.name))) (.invalidJump jump) _ _ rfl hs
      (by rw [names]) (hQ.jump jump hs hl)
  exact hQ.bindSame hQ.advance fun _ => hQ.bindSame hQ.atEnd fun _ =>
    hQ.ite (hQ.bind hQ.absent rest) (hQ.bind hQ.identifier fun i i' hi =>
      hQ.bindSame hQ.endStatement fun _ => hQ.bind (hQ.pure (by simp only [Option.map_some, hi])) rest)

theorem switchCase {b} : Q w b true (SwitchCase.map note) (switchCase R) (switchCase R') := by
  have rest {w : Places} (start start' : Nat) (hs : w start start') (test test' : Option (Expr Span))
      (ht : test.map (Expr.map note) = test'.map (Expr.map note)) :
      Q w true true (SwitchCase.map note)
        (do Parser.eat .colon
            let consequent ← Parser.upTo endsCase R.statement
            return SwitchCase.mk (← Parser.finish start) test consequent)
        (do Parser.eat .colon
            let consequent ← Parser.upTo endsCase R'.statement
            return SwitchCase.mk (← Parser.finish start') test' consequent) :=
    hQ.bindSame hQ.eat fun _ => hQ.bind (hQ.upTo hR.takes hR.statement) fun _ _ hb =>
      hQ.node hs fun _ _ hn => by
        simp only [SwitchCase.map, Stmt.mapList_eq, Expr.mapOption_eq, hn, ht, hb]
  refine hQ.here fun start start' _ hs => hQ.bindSame hQ.kind fun _ => ?_
  split
  · exact hQ.bindSame hQ.advance fun _ =>
      hQ.bind (hQ.present (hQ.commaExpression hR hR.expression)) (rest start start' hs)
  · exact hQ.bindSame hQ.advance fun _ => hQ.bind hQ.absent (rest start start' hs)
  · exact hQ.bind hQ.unexpected (rest start start' hs)

theorem catchClause {b} : Q w b true (CatchClause.map note) (catchClause R) (catchClause R') :=
  hQ.here fun _ _ _ hs => hQ.bindSame hQ.advance fun _ => hQ.bindSame hQ.eat fun _ =>
    hQ.bind hQ.identifier fun _ _ hi => hQ.bindSame hQ.eat fun _ =>
    hQ.bind (hQ.block hR) fun _ _ hb =>
    hQ.node hs fun _ _ hn => by simp only [CatchClause.map, hn, hi, hb]

theorem tryStatement {b start start'} (hs : w start start') :
    Q w b true (Stmt.map note) (tryStatement R start) (tryStatement R' start') := by
  have last (body body' : Block Span) (handler handler' : Option (CatchClause Span))
      (hb : Block.map note body = Block.map note body')
      (hh : handler.map (CatchClause.map note) = handler'.map (CatchClause.map note))
      (finalizer finalizer' : Option (Block Span))
      (hf : finalizer.map (Block.map note) = finalizer'.map (Block.map note)) :
      Q w true true (Stmt.map note)
        (do return Stmt.try (← Parser.finish start) body handler finalizer)
        (do return Stmt.try (← Parser.finish start') body' handler' finalizer') :=
    hQ.node hs fun _ _ hn => by
      simp only [Stmt.map, CatchClause.mapOption_eq, Block.mapOption_eq, hn, hb, hh, hf]
  have rest (body body' : Block Span) (hb : Block.map note body = Block.map note body')
      (handler handler' : Option (CatchClause Span))
      (hh : handler.map (CatchClause.map note) = handler'.map (CatchClause.map note)) :
      Q w true true (Stmt.map note)
        (do let finalizer ←
              if (← Parser.kind) = .keyword .finally then
                Parser.advance false
                some <$> Parser.block R
              else Pure.pure none
            return Stmt.try (← Parser.finish start) body handler finalizer)
        (do let finalizer ←
              if (← Parser.kind) = .keyword .finally then
                Parser.advance false
                some <$> Parser.block R'
              else Pure.pure none
            return Stmt.try (← Parser.finish start') body' handler' finalizer) :=
    hQ.bindSame hQ.kind fun _ => hQ.ite
      (hQ.bindSame hQ.advance fun _ =>
        hQ.bind (hQ.present (hQ.block hR)) (last body body' handler handler' hb hh))
      (hQ.bind hQ.absent (last body body' handler handler' hb hh))
  exact hQ.bindSame hQ.advance fun _ => hQ.bind (hQ.block hR) fun body body' hb =>
    hQ.bindSame hQ.kind fun _ => hQ.ite
      (hQ.bind (hQ.present (hQ.catchClause hR)) (rest body body' hb))
      (hQ.bindSame hQ.expect fun _ => hQ.bind hQ.absent (rest body body' hb))

theorem loopBody : Q w true true (Stmt.map note) (loopBody R) (loopBody R') :=
  hQ.inScope (Scope.opens_enter _) hR.statement

theorem declarator {b forHead} :
    Q w b true (Declarator.map note) (declarator R forHead) (declarator R' forHead) := by
  have last {w : Places} (start start' : Nat) (hs : w start start') (id id' : Identifier Span)
      (hid : Identifier.map note id = Identifier.map note id') (init init' : Option (Expr Span))
      (hi : init.map (Expr.map note) = init'.map (Expr.map note)) :
      Q w true true (Declarator.map note)
        (do return Declarator.mk (← Parser.finish start) id init)
        (do return Declarator.mk (← Parser.finish start') id' init') :=
    hQ.node hs fun _ _ hn => by simp only [Declarator.map, Expr.mapOption_eq, hn, hid, hi]
  exact hQ.here fun start start' _ hs => hQ.bind hQ.identifier fun id id' hid =>
    hQ.bindSame hQ.kind fun _ => hQ.ite
      (hQ.bindSame hQ.advance fun _ =>
        hQ.bind (hQ.present hR.expression) (last start start' hs id id' hid))
      (hQ.bind hQ.absent (last start start' hs id id' hid))

theorem declaration {b forHead} :
    Q w b true (Declaration.map note) (declaration R forHead) (declaration R' forHead) := by
  have last {w : Places} (start start' : Nat) (hs : w start start')
      (ds ds' : List (Declarator Span))
      (hd : ds.map (Declarator.map note) = ds'.map (Declarator.map note)) :
      Q w true true (Declaration.map note)
        (do return Declaration.mk (← Parser.finish start) ds)
        (do return Declaration.mk (← Parser.finish start') ds') :=
    hQ.node hs fun _ _ hn => by simp only [Declaration.map, Declarator.mapList_eq, hn, hd]
  exact hQ.here fun start start' _ hs => hQ.bindSame hQ.advance fun _ =>
    hQ.bind (hQ.separated (hQ.declarator hR)) fun ds ds' hd => hQ.ite
      (hQ.bindSame hQ.endStatement fun _ => last start start' hs ds ds' hd)
      (last start start' hs ds ds' hd)

theorem forRest {b start start' init init'} (hs : w start start')
    (hi : Option.map (ForInit.map note) init = Option.map (ForInit.map note) init') :
    Q w b true (Stmt.map note) (forRest R start init) (forRest R' start' init') := by
  have optional : Q w true true (Option.map (Expr.map note)) (some <$> Parser.commaExpression R false)
      (some <$> Parser.commaExpression R' false) :=
    hQ.present (hQ.commaExpression hR hR.expression)
  have body (test test' : Option (Expr Span))
      (ht : test.map (Expr.map note) = test'.map (Expr.map note))
      (update update' : Option (Expr Span))
      (hu : update.map (Expr.map note) = update'.map (Expr.map note)) :
      Q w true true (Stmt.map note)
        (do Parser.eat .rightParen
            let body ← Parser.loopBody R
            return Stmt.for (← Parser.finish start) init test update body)
        (do Parser.eat .rightParen
            let body ← Parser.loopBody R'
            return Stmt.for (← Parser.finish start') init' test' update' body) :=
    hQ.bindSame hQ.eat fun _ => hQ.bind (hQ.loopBody hR) fun _ _ hb => hQ.node hs fun _ _ hn => by
      simp only [Stmt.map, ForInit.mapOption_eq, Expr.mapOption_eq, hn, hi, ht, hu, hb]
  have rest (test test' : Option (Expr Span))
      (ht : test.map (Expr.map note) = test'.map (Expr.map note)) : Q w true true (Stmt.map note)
        (do Parser.eat .semicolon
            let update ← if (← Parser.kind) = .rightParen then Pure.pure none
              else some <$> Parser.commaExpression R false
            Parser.eat .rightParen
            let body ← Parser.loopBody R
            return Stmt.for (← Parser.finish start) init test update body)
        (do Parser.eat .semicolon
            let update ← if (← Parser.kind) = .rightParen then Pure.pure none
              else some <$> Parser.commaExpression R' false
            Parser.eat .rightParen
            let body ← Parser.loopBody R'
            return Stmt.for (← Parser.finish start') init' test' update body) :=
    hQ.bindSame hQ.eat fun _ => hQ.bindSame hQ.kind fun _ =>
      hQ.ite (hQ.bind hQ.absent (body test test' ht)) (hQ.bind optional (body test test' ht))
  exact hQ.bindSame hQ.eat fun _ => hQ.bindSame hQ.kind fun _ =>
    hQ.ite (hQ.bind hQ.absent rest) (hQ.bind optional rest)

theorem forInRest {b start start' target target'} (hs : w start start')
    (ht : ForTarget.map note target = ForTarget.map note target') :
    Q w b true (Stmt.map note) (forInRest R start target) (forInRest R' start' target') := by
  have rest : Q w b true (Stmt.map note)
      (do Parser.eat (.operator .in)
          let object ← Parser.commaExpression R false
          Parser.eat .rightParen
          let body ← Parser.loopBody R
          return Stmt.forIn (← Parser.finish start) target object body)
      (do Parser.eat (.operator .in)
          let object ← Parser.commaExpression R' false
          Parser.eat .rightParen
          let body ← Parser.loopBody R'
          return Stmt.forIn (← Parser.finish start') target' object body) :=
    hQ.bindSame hQ.eat fun _ => hQ.bind (hQ.commaExpression hR hR.expression) fun _ _ ho =>
      hQ.bindSame hQ.eat fun _ => hQ.bind (hQ.loopBody hR) fun _ _ hb =>
      hQ.node hs fun _ _ hn => by simp only [Stmt.map, hn, ht, ho, hb]
  have hone : bindsOne target = bindsOne target' := by
    rw [← bindsOne_map note target, ht, bindsOne_map]
  rw [forInRest_eq, forInRest_eq, hone]
  exact hQ.ite rest (hQ.bindSame (hQ.fault rfl hs) fun _ => rest)

theorem forStatement {b start start'} (hs : w start start') :
    Q w b true (Stmt.map note) (forStatement R start) (forStatement R' start') := by
  refine hQ.bindSame hQ.advance fun _ => hQ.bindSame hQ.eat fun _ => hQ.bindSame hQ.kind fun _ => ?_
  split
  · refine hQ.bind (hQ.declaration hR) fun d d' hd => hQ.bindSame hQ.kind fun _ => ?_
    split
    · exact hQ.forRest hR hs (by simp only [Option.map_some, ForInit.map, hd])
    · exact hQ.forInRest hR hs (by simp only [ForTarget.map, hd])
    · exact hQ.unexpected
  · exact hQ.forRest hR hs rfl
  · refine hQ.bind (hQ.commaExpression hR hR.expression) fun e e' he =>
      hQ.bindSame hQ.kind fun k => ?_
    split
    · obtain ⟨i', rfl, hi⟩ := Expr.map_eq_map_identifier he.symm
      exact hQ.forInRest hR hs (by simp only [ForTarget.map, hi])
    · rename_i hne
      split
      · obtain ⟨i, rfl, -⟩ := Expr.map_eq_map_identifier he
        exact absurd rfl (hne i rfl)
      · exact hQ.forRest hR hs (by simp only [Option.map_some, ForInit.map, he])

theorem labeledStatement {stacked start start' label label'} (hs : w start start')
    (hl : Identifier.map note label = Identifier.map note label') :
    Q w true true (Stmt.map note) (labeledStatement R stacked start label)
      (labeledStatement R' stacked start' label') := by
  obtain ⟨n, name⟩ := label
  obtain ⟨n', name'⟩ := label'
  obtain ⟨-, rfl⟩ : note n = note n' ∧ name = name' := by simpa only [Identifier.map,
    Identifier.mk.injEq] using hl
  refine @Steps.check _ _ _ hQ.toSteps _ _ w true true _ _ _ (fun sc => sc.declares name)
    (fun sc => sc.declares name) (.duplicateLabel name) _ _ rfl hs rfl ?_
  exact hQ.bindSame hQ.kind fun _ => hQ.bind (hQ.inScope (Scope.opens_label _ _ _) hR.statement) fun _ _ hb =>
    hQ.node hs fun _ _ hn => by simp only [Stmt.map, hn, hl, hb]

theorem expressionStatement {b stacked start start'} (hs : w start start')
    (he : ∀ {w}, Q w b true (Expr.map note) (R.expression 0 false) (R'.expression 0 false)) :
    Q w b true (Stmt.map note) (expressionStatement R stacked start)
      (expressionStatement R' stacked start') := by
  refine hQ.bind (hQ.commaExpression hR he) fun e e' he => hQ.bindSame hQ.kind fun _ => ?_
  split
  · obtain ⟨i', rfl, hi⟩ := Expr.map_eq_map_identifier he.symm
    exact hQ.bindSame hQ.advance fun _ => hQ.labeledStatement hR hs hi.symm
  · rename_i hne
    split
    · obtain ⟨i, rfl, -⟩ := Expr.map_eq_map_identifier he
      exact absurd rfl (hne i rfl)
    · exact hQ.bindSame hQ.endStatement fun _ => hQ.node hs fun _ _ hn => by
        simp only [Stmt.map, hn, he]

theorem keywordStatement {b start start' word} (hs : w start start') :
    Q w b true (Stmt.map note) (keywordStatement R start word) (keywordStatement R' start' word) := by
  cases word with
  | «if» =>
    have last (test test' : Expr Span) (ht : Expr.map note test = Expr.map note test')
        (x x' : Stmt Span) (hx : Stmt.map note x = Stmt.map note x') (y y' : Option (Stmt Span))
        (hy : y.map (Stmt.map note) = y'.map (Stmt.map note)) : Q w true true (Stmt.map note)
          (do return Stmt.if (← Parser.finish start) test x y)
          (do return Stmt.if (← Parser.finish start') test' x' y') :=
      hQ.node hs fun _ _ hn => by simp only [Stmt.map, Stmt.mapOption_eq, hn, ht, hx, hy]
    exact hQ.bindSame hQ.advance fun _ => hQ.bind (hQ.condition hR) fun test test' ht =>
      hQ.bind hR.statement fun x x' hx => hQ.bindSame hQ.kind fun _ => hQ.ite
        (hQ.bindSame hQ.advance fun _ =>
          hQ.bind (hQ.present hR.statement) (last test test' ht x x' hx))
        (hQ.bind hQ.absent (last test test' ht x x' hx))
  | debugger =>
    exact hQ.bindSame hQ.advance fun _ => hQ.bindSame hQ.endStatement fun _ =>
      hQ.node hs fun _ _ hn => by simp only [Stmt.map, hn]
  | «with» =>
    exact hQ.bindSame hQ.advance fun _ => hQ.bind (hQ.condition hR) fun _ _ he =>
      hQ.bind hR.statement fun _ _ hb => hQ.node hs fun _ _ hn => by
        simp only [Stmt.map, hn, he, hb]
  | «return» =>
    exact hQ.bind (hQ.argument hR) fun _ _ he => hQ.node hs fun _ _ hn => by
      simp only [Stmt.map, Expr.mapOption_eq, hn, he]
  | throw =>
    refine hQ.bind (hQ.argument hR) fun e e' he => ?_
    match e, e', he with
    | none, none, _ => exact hQ.faultHere rfl
    | some e, some e', he =>
      exact hQ.node hs fun _ _ hn => by simp only [Stmt.map, hn, Option.some.inj he]
  | «break» => exact hQ.jumpStatement hs
  | «continue» => exact hQ.jumpStatement hs
  | switch =>
    exact hQ.bindSame hQ.advance fun _ => hQ.bind (hQ.condition hR) fun _ _ he =>
      hQ.bindSame hQ.eat fun _ =>
      hQ.bind (hQ.inScope (Scope.opens_enter _) (hQ.switchCases hR.takes (hQ.switchCase hR)))
        fun _ _ hc =>
      hQ.bindSame hQ.advance fun _ => hQ.node hs fun _ _ hn => by
        simp only [Stmt.map, SwitchCase.mapList_eq, hn, he, hc]
  | «try» => exact hQ.tryStatement hR hs
  | «while» =>
    exact hQ.bindSame hQ.advance fun _ => hQ.bind (hQ.condition hR) fun _ _ he =>
      hQ.bind (hQ.loopBody hR) fun _ _ hb => hQ.node hs fun _ _ hn => by
        simp only [Stmt.map, hn, he, hb]
  | «do» =>
    exact hQ.bindSame hQ.advance fun _ => hQ.bind (hQ.loopBody hR) fun _ _ hb =>
      hQ.bindSame hQ.eat fun _ => hQ.bind (hQ.condition hR) fun _ _ he =>
      hQ.node hs fun _ _ hn => by simp only [Stmt.map, hn, he, hb]
  | var => exact hQ.map (hQ.declaration hR) fun _ _ h => by simp only [Stmt.map, h]
  | «for» => exact hQ.forStatement hR hs
  | function =>
    exact hQ.bindSame hQ.advance fun _ => hQ.bind hQ.identifier fun _ _ hi =>
      hQ.bind hQ.parameters fun _ _ hp => hQ.bind (hQ.block hR) fun _ _ hb =>
      hQ.node hs fun _ _ hn => by simp only [Stmt.map, hn, hi, hp, hb]
  | _ => exact hQ.fault rfl hs

/-- A statement, with the number of labels stacked before it. -/
theorem stackedStatement {b}
    (he : ∀ {w}, Q w b true (Expr.map note) (R.expression 0 false) (R'.expression 0 false))
    (stacked : Nat) : Q w b true (Stmt.map note)
      (Parser.inScope Scope.settle do
        let start ← Parser.here
        match ← Parser.kind with
        | .keyword word => Parser.keywordStatement R start word
        | .semicolon =>
          Parser.advance false
          return Stmt.empty (← Parser.finish start)
        | .leftBrace => Stmt.block <$> Parser.block R
        | _ => Parser.expressionStatement R stacked start)
      (Parser.inScope Scope.settle do
        let start ← Parser.here
        match ← Parser.kind with
        | .keyword word => Parser.keywordStatement R' start word
        | .semicolon =>
          Parser.advance false
          return Stmt.empty (← Parser.finish start)
        | .leftBrace => Stmt.block <$> Parser.block R'
        | _ => Parser.expressionStatement R' stacked start) := by
  refine hQ.inScope Scope.opens_settle (hQ.here fun _ _ _ hs => hQ.bindSame hQ.kind fun _ => ?_)
  split
  · exact hQ.keywordStatement hR hs
  · exact hQ.bindSame hQ.advance fun _ => hQ.node hs fun _ _ hn => by simp only [Stmt.map, hn]
  · exact hQ.map (hQ.block hR) fun _ _ h => by simp only [Stmt.map, h]
  · exact hQ.expressionStatement hR hs he

/-- Of its parts, a statement reads only a leading expression before it has taken a token. -/
theorem statement {b}
    (he : ∀ {w}, Q w b true (Expr.map note) (R.expression 0 false) (R'.expression 0 false)) :
    Q w b true (Stmt.map note) (statement R) (statement R') :=
  hQ.stacked (hQ.stackedStatement hR he)

end

theorem program {R R' : Readers} {b} (hR : Coupled note Q b R R') :
    Q w b b (Program.map note) (program R) (program R') :=
  hQ.here fun _ _ _ hs => hQ.bind (hQ.upTo hR.takes (hQ.forget hR.statement)) fun _ _ hb =>
    hQ.node hs fun _ _ hn => by simp only [Program.map, Stmt.mapList_eq, hn, hb]

/-- What the readers of one level have in common, those of the next level have in common. -/
theorem readers {n m b} (ht : Taking (readers (n + 1)))
    (inner : Coupled note Q true (readers n) (readers m))
    (first : Coupled note Q b (readers n) (readers m)) :
    Coupled note Q b (readers (n + 1)) (readers (m + 1)) :=
  ⟨ht, hQ.statement inner first.expression, hQ.expression inner⟩

end Coupling
end Parser
end ScriptTree
