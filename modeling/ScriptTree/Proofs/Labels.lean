import ScriptTree.Proofs.Inheritance
import ScriptTree.Proofs.Sites

/-! # The label stack is declarative scoping

Reading with the checks of labels and jumps returns exactly the trees that reading without them
returns and whose statements stand where they may. The scope holds what is around the current place;
only the labels directly in front of the statement that is about to be read may change what they
stand for, each time one more label follows them. -/
namespace ScriptTree

/-! ## The scope and what is around -/

namespace Scope

/-- What is around the statement about to be read, if that statement is a given target: the labels
directly in front of it stand for it. -/
def around (sc : Scope) (target : Option JumpTarget) : List Label :=
  (sc.labels.take sc.stacked).map (fun l => ⟨l.name, target⟩) ++ sc.labels.drop sc.stacked

/-- The labels directly in front stand for what the next token announces. -/
def Fits (sc : Scope) (k : TokenKind) : Prop :=
  ∀ l ∈ sc.labels.take sc.stacked, l.target = Parser.targetAt k

theorem fits_of_settled {sc : Scope} (h : sc.stacked = 0) (k : TokenKind) : sc.Fits k := by
  simp [Fits, h]

theorem around_of_settled {sc : Scope} (h : sc.stacked = 0) (target : Option JumpTarget) :
    sc.around target = sc.labels := by
  simp [around, h]

theorem Fits.around {sc : Scope} {k : TokenKind} (h : sc.Fits k) :
    sc.around (Parser.targetAt k) = sc.labels := by
  have he : (sc.labels.take sc.stacked).map (fun l => ⟨l.name, Parser.targetAt k⟩) =
      sc.labels.take sc.stacked := by
    rw [List.map_congr_left (g := id), List.map_id]
    intro l hl
    rw [← h l hl]
    rfl
  rw [Scope.around, he, List.take_append_drop]

theorem take_map_take_append_drop (g : α → α) (n : Nat) (xs : List α) :
    ((xs.take n).map g ++ xs.drop n).take n = (xs.take n).map g ∧
      ((xs.take n).map g ++ xs.drop n).drop n = xs.drop n := by
  induction n generalizing xs with
  | zero => simp
  | succ n ih =>
    cases xs with
    | nil => simp
    | cons x xs => simpa using ih xs

theorem label_fits (sc : Scope) (n : Nat) (name : String) (k : TokenKind) :
    (sc.label n name (Parser.targetAt k)).Fits k := by
  intro l hl
  simp only [label, List.cons_append, List.take_succ_cons,
    (take_map_take_append_drop (fun l : Label => ⟨l.name, Parser.targetAt k⟩) n sc.labels).1,
    List.mem_cons, List.mem_map] at hl
  rcases hl with rfl | ⟨l, -, rfl⟩ <;> rfl

/-- One more label in front: it and those before it stand for the same statement. -/
theorem around_label (labels : List Label) (n : Nat) (name : String)
    (first target : Option JumpTarget) (k : Nat) :
    (label n name first ⟨labels, k⟩).around target =
      ⟨some name, target⟩ :: around ⟨labels, n⟩ target := by
  obtain ⟨ht, hd⟩ :=
    take_map_take_append_drop (fun l : Label => ⟨l.name, first⟩) n labels
  simp only [around, label, List.cons_append, List.take_succ_cons, List.drop_succ_cons, ht, hd,
    List.map_cons, List.map_map]
  rfl

/-- Which names are declared does not depend on what they stand for. -/
theorem declares_eq_false {labels : List Label} {n k : Nat} {name : String}
    {target : Option JumpTarget} :
    declares ⟨labels, k⟩ name = false ↔ ∀ a ∈ around ⟨labels, n⟩ target, a.name ≠ some name := by
  have hn : (around ⟨labels, n⟩ target).map (·.name) = labels.map (·.name) := by
    simp only [around, List.map_append, List.map_map, Function.comp_def]
    rw [← List.map_append, List.take_append_drop]
  have hd : (∀ a ∈ around ⟨labels, n⟩ target, a.name ≠ some name) ↔
      ∀ x ∈ (around ⟨labels, n⟩ target).map (·.name), x ≠ some name := by
    simp only [List.forall_mem_map]
  rw [hd, hn]
  simp [declares]

theorem allows_iff {sc : Scope} {note : α} {label : Option (Identifier α)} {j : Jump} :
    sc.allows j (label.map (·.name)) = true ↔
      (Parser.jumpNode note label j).Allowed sc.labels := by
  have hr : ∀ target : Option JumpTarget,
      reaches .break target = true ↔ target = some .loop ∨ target = some .switch := by
    rintro (_ | _ | _) <;> simp [reaches]
  have hc : ∀ target : Option JumpTarget, reaches .continue target = true ↔ target = some .loop := by
    rintro (_ | _ | _) <;> simp [reaches]
  cases j <;> cases label <;> simp [allows, Parser.jumpNode, Stmt.Allowed, hr, hc]

end Scope

namespace Parser

/-- One relation is another together with a property of what was read. -/
def Splits (item item' : State → α → State → Prop) (Q : α → Prop) : Prop :=
  ∀ ⦃s x t⦄, item s x t ↔ item' s x t ∧ Q x

/-! ## Lists of parts -/

variable {item item' : State → α → State → Prop} {Q : α → Prop}

theorem Items.splits {isLast} (h : Splits item item' Q) :
    Splits (Items isLast item) (Items isLast item') fun xs => ∀ x ∈ xs, Q x := by
  intro s xs t
  constructor
  · intro hi
    induction hi with
    | done hl => exact ⟨.done hl, by simp⟩
    | more hl hx _ ih =>
      obtain ⟨hx, hq⟩ := h.1 hx
      exact ⟨.more hl hx ih.1, List.forall_mem_cons.2 ⟨hq, ih.2⟩⟩
  · rintro ⟨hi, hq⟩
    induction hi with
    | done hl => exact .done hl
    | more hl hx _ ih =>
      obtain ⟨hx', hq⟩ := List.forall_mem_cons.1 hq
      exact .more hl (h.2 ⟨hx, hx'⟩) (ih hq)

theorem AfterCommas.splits (h : Splits item item' Q) :
    Splits (AfterCommas item) (AfterCommas item') fun xs => ∀ x ∈ xs, Q x := by
  intro s xs t
  constructor
  · intro hi
    induction hi with
    | done hk => exact ⟨.done hk, by simp⟩
    | more hk hm hx _ ih =>
      obtain ⟨hx, hq⟩ := h.1 hx
      exact ⟨.more hk hm hx ih.1, List.forall_mem_cons.2 ⟨hq, ih.2⟩⟩
  · rintro ⟨hi, hq⟩
    induction hi with
    | done hk => exact .done hk
    | more hk hm hx _ ih =>
      obtain ⟨hx', hq⟩ := List.forall_mem_cons.1 hq
      exact .more hk hm (h.2 ⟨hx, hx'⟩) (ih hq)

theorem ClosedList.splits {last} (h : Splits item item' Q) :
    Splits (ClosedList last item) (ClosedList last item') fun xs => ∀ x ∈ xs, Q x := by
  intro s xs t
  constructor
  · intro hi
    cases hi with
    | empty hk hm => exact ⟨.empty hk hm, by simp⟩
    | filled hk hx hxs hl hm =>
      obtain ⟨hx, hq⟩ := h.1 hx
      obtain ⟨hxs, hqs⟩ := (AfterCommas.splits h).1 hxs
      exact ⟨.filled hk hx hxs hl hm, List.forall_mem_cons.2 ⟨hq, hqs⟩⟩
  · rintro ⟨hi, hq⟩
    cases hi with
    | empty hk hm => exact .empty hk hm
    | filled hk hx hxs hl hm =>
      obtain ⟨hx', hq⟩ := List.forall_mem_cons.1 hq
      exact .filled hk (h.2 ⟨hx, hx'⟩) ((AfterCommas.splits h).2 ⟨hxs, hq⟩) hl hm

section
variable {p : Parse α} {c : Context} {Q : α → Prop}

theorem separated_splits (h : Splits (Returns p c) (Returns p c.unchecked) Q) :
    Splits (Returns (separated p) c) (Returns (separated p) c.unchecked)
      fun xs => ∀ x ∈ xs, Q x := by
  intro s xs t
  rw [returns_separated, returns_separated]
  constructor
  · rintro ⟨x, u, ys, rfl, hx, hys, hn⟩
    obtain ⟨hx, hq⟩ := h.1 hx
    obtain ⟨hys, hqs⟩ := (AfterCommas.splits h).1 hys
    exact ⟨⟨x, u, ys, rfl, hx, hys, hn⟩, List.forall_mem_cons.2 ⟨hq, hqs⟩⟩
  · rintro ⟨⟨x, u, ys, rfl, hx, hys, hn⟩, hq⟩
    obtain ⟨hx', hq⟩ := List.forall_mem_cons.1 hq
    exact ⟨x, u, ys, rfl, h.2 ⟨hx, hx'⟩, (AfterCommas.splits h).2 ⟨hys, hq⟩, hn⟩

theorem closedList_splits {last} (h : Splits (Returns p c) (Returns p c.unchecked) Q) :
    Splits (Returns (closedList last p) c) (Returns (closedList last p) c.unchecked)
      fun xs => ∀ x ∈ xs, Q x := by
  intro s xs t
  rw [returns_closedList, returns_closedList, ClosedList.splits h]
  exact ⟨fun ⟨⟨hl, hq⟩, hn⟩ => ⟨⟨hl, hn⟩, hq⟩, fun ⟨⟨hl, hn⟩, hq⟩ => ⟨⟨hl, hq⟩, hn⟩⟩

theorem Unless.splits {k} (h : Splits (Returns p c) (Returns p c.unchecked) Q) :
    Splits (Unless k p c) (Unless k p c.unchecked) fun x => ∀ a ∈ x, Q a := by
  intro s x t
  constructor
  · rintro (hk | ⟨hk, ha⟩)
    · exact ⟨.absent hk, by simp⟩
    · exact ⟨.present hk (h.1 ha).1, by simpa using (h.1 ha).2⟩
  · rintro ⟨hk | ⟨hk, ha⟩, hq⟩
    · exact .absent hk
    · exact .present hk (h.2 ⟨ha, by simpa using hq⟩)

theorem Announced.splits {k} (h : Splits (Returns p c) (Returns p c.unchecked) Q) :
    Splits (Announced k p c) (Announced k p c.unchecked) fun x => ∀ a ∈ x, Q a := by
  intro s x t
  constructor
  · rintro (hk | ⟨hk, hm, ha⟩)
    · exact ⟨.absent hk, by simp⟩
    · exact ⟨.present hk hm (h.1 ha).1, by simpa using (h.1 ha).2⟩
  · rintro ⟨hk | ⟨hk, hm, ha⟩, hq⟩
    · exact .absent hk
    · exact .present hk hm (h.2 ⟨ha, by simpa using hq⟩)

theorem Trailing.splits (h : Splits (Returns p c) (Returns p c.unchecked) Q) :
    Splits (Trailing p c) (Trailing p c.unchecked) fun x => ∀ a ∈ x, Q a := by
  intro s x t
  constructor
  · rintro (he | ⟨hk, hg, ha, he⟩)
    · exact ⟨.absent he, by simp⟩
    · exact ⟨.present hk hg (h.1 ha).1 he, by simpa using (h.1 ha).2⟩
  · rintro ⟨he | ⟨hk, hg, ha, he⟩, hq⟩
    · exact .absent he
    · exact .present hk hg (h.2 ⟨ha, by simpa using hq⟩) he

theorem identifier_unchecked :
    Splits (Returns identifier c) (Returns identifier c.unchecked) fun _ => True := by
  intro s i t
  rw [returns_identifier, returns_identifier, and_true]

theorem propertyKey_unchecked {s key t} :
    Returns propertyKey c s key t ↔ Returns propertyKey c.unchecked s key t := by
  simp only [returns_propertyKey, returns_identifier, returns_literal]

theorem parameters_unchecked {s ids t} :
    Returns parameters c s ids t ↔ Returns parameters c.unchecked s ids t := by
  have h := @ClosedList.splits _ _ _ _ .rightParen (@identifier_unchecked c)
  simp only [implies_true] at h
  rw [returns_parameters, returns_parameters]
  constructor
  · rintro ⟨s₁, hk, hm, hl, hn⟩
    exact ⟨s₁, hk, hm, (h.1 hl).1, hn⟩
  · rintro ⟨s₁, hk, hm, hl, hn⟩
    exact ⟨s₁, hk, hm, h.2 ⟨hl, trivial⟩, hn⟩

end

/-! ## Productions -/

/-- Readers that return with checks what they return without, if it is scoped. The labels in front
of a statement are known to fit its first token; inside a statement there are none. -/
structure Tracks (R : Readers) : Prop where
  statement {c s x t} : c.checkLabels = true → c.scope.Fits s.current.kind →
    (Returns R.statement c s x t ↔ Returns R.statement c.unchecked s x t ∧
      Scoped (x.sites (c.scope.around x.target)))
  expression {floor forHead c} : c.checkLabels = true → c.scope.stacked = 0 →
    Splits (Returns (R.expression floor forHead) c) (Returns (R.expression floor forHead) c.unchecked)
      fun e => Scoped (e.sites c.scope.labels)

section
variable {R : Readers} (hR : Tracks R) {c : Context} (hc : c.checkLabels = true)
  (hs : c.scope.stacked = 0)
include hR hc hs

theorem Tracks.inner : Splits (Returns R.statement c) (Returns R.statement c.unchecked)
    fun x => Scoped (x.sites c.scope.labels) := by
  intro s x t
  rw [hR.statement hc (Scope.fits_of_settled hs _), Scope.around_of_settled hs]

theorem block_tracks : Splits (Returns (block R) c) (Returns (block R) c.unchecked)
    fun b => Scoped (b.sites c.scope.labels) := by
  intro s b t
  rw [returns_block, returns_block]
  constructor
  · rintro ⟨s₁, body, s₂, hk, hm, hb, hn, hm', rfl⟩
    obtain ⟨hb, hq⟩ := (Items.splits (hR.inner hc hs)).1 hb
    exact ⟨⟨s₁, body, s₂, hk, hm, hb, hn, hm', rfl⟩, Stmt.scoped_sitesList.2 hq⟩
  · rintro ⟨⟨s₁, body, s₂, hk, hm, hb, hn, hm', rfl⟩, hq⟩
    exact ⟨s₁, body, s₂, hk, hm,
      (Items.splits (hR.inner hc hs)).2 ⟨hb, Stmt.scoped_sitesList.1 hq⟩, hn, hm', rfl⟩

theorem commaForm_tracks {forHead} : Splits (CommaForm R c forHead) (CommaForm R c.unchecked forHead)
    fun e => Scoped (e.sites c.scope.labels) := by
  intro s e t
  constructor
  · intro h
    cases h with
    | single he hk hn =>
      obtain ⟨he, hq⟩ := (hR.expression hc hs).1 he
      exact ⟨.single he hk hn, hq⟩
    | joined he hes hn =>
      obtain ⟨he, hq⟩ := (hR.expression hc hs).1 he
      obtain ⟨hes, hqs⟩ := (AfterCommas.splits (hR.expression hc hs)).1 hes
      exact ⟨.joined he hes hn, Expr.scoped_sitesList.2 (List.forall_mem_cons.2 ⟨hq, hqs⟩)⟩
  · rintro ⟨h, hq⟩
    cases h with
    | single he hk hn => exact .single ((hR.expression hc hs).2 ⟨he, hq⟩) hk hn
    | joined he hes hn =>
      obtain ⟨hq, hqs⟩ := List.forall_mem_cons.1 (Expr.scoped_sitesList.1 hq)
      exact .joined ((hR.expression hc hs).2 ⟨he, hq⟩)
        ((AfterCommas.splits (hR.expression hc hs)).2 ⟨hes, hqs⟩) hn

theorem commaExpression_tracks {forHead} :
    Splits (Returns (commaExpression R forHead) c) (Returns (commaExpression R forHead) c.unchecked)
      fun e => Scoped (e.sites c.scope.labels) := by
  intro s e t
  rw [returns_commaExpression, returns_commaExpression]
  constructor
  · intro h
    exact (commaForm_tracks hR hc hs).1 h
  · intro h
    exact (commaForm_tracks hR hc hs).2 h

theorem property_tracks : Splits (Returns (property R) c) (Returns (property R) c.unchecked)
    fun p => Scoped (p.sites c.scope.labels) := by
  intro s p t
  rw [returns_property, returns_property]
  constructor
  · rintro ⟨key, s₁, s₂, value, hkey, hk, hm, hv, rfl⟩
    obtain ⟨hv, hq⟩ := (hR.expression hc hs).1 hv
    exact ⟨⟨key, s₁, s₂, value, propertyKey_unchecked.1 hkey, hk, hm, hv, rfl⟩, hq⟩
  · rintro ⟨⟨key, s₁, s₂, value, hkey, hk, hm, hv, rfl⟩, hq⟩
    exact ⟨key, s₁, s₂, value, propertyKey_unchecked.2 hkey, hk, hm,
      (hR.expression hc hs).2 ⟨hv, hq⟩, rfl⟩

theorem operand_tracks : Splits (OperandForm R c) (OperandForm R c.unchecked)
    fun e => Scoped (e.sites c.scope.labels) := by
  intro s e t
  constructor
  · intro h
    cases h with
    | group hk hm hes hl hm' =>
      obtain ⟨hes, hq⟩ := (separated_splits (hR.expression hc hs)).1 hes
      exact ⟨.group hk hm hes hl hm', Expr.scoped_sitesList.2 hq⟩
    | array hk hm hes =>
      obtain ⟨hes, hq⟩ := (closedList_splits (hR.expression hc hs)).1 hes
      exact ⟨.array hk hm hes, Expr.scoped_sitesList.2 hq⟩
    | newCall hk hm he =>
      obtain ⟨he, hq⟩ := (hR.expression hc hs).1 he
      exact ⟨.newCall hk hm he, hq⟩
    | newPlain hk hm he hne =>
      obtain ⟨he, hq⟩ := (hR.expression hc hs).1 he
      exact ⟨.newPlain hk hm he hne, by simpa [Expr.sites, Expr.sitesList] using hq⟩
    | unary hk hl hu hm he =>
      obtain ⟨he, hq⟩ := (hR.expression hc hs).1 he
      exact ⟨.unary hk hl hu hm he, hq⟩
    | update hk hu hm he ht =>
      obtain ⟨he, hq⟩ := (hR.expression hc hs).1 he
      exact ⟨.update hk hu hm he ht, hq⟩
    | literal hl =>
      rw [returns_literal] at hl
      exact ⟨.literal (returns_literal.2 hl), scoped_nil⟩
    | identifier hi => exact ⟨.identifier (identifier_unchecked.1 hi).1, scoped_nil⟩
    | this hk hm => exact ⟨.this hk hm, scoped_nil⟩
    | function hk hm hid hp hb =>
      obtain ⟨hb, hq⟩ := (block_tracks hR hc hs).1 hb
      refine ⟨.function hk hm ?_ (parameters_unchecked.1 hp) hb, hq⟩
      exact hid.imp_right fun ⟨i, hi, hr⟩ => ⟨i, hi, (identifier_unchecked.1 hr).1⟩
    | object hk hm hps =>
      obtain ⟨hps, hq⟩ := (closedList_splits (property_tracks hR hc hs)).1 hps
      exact ⟨.object hk hm hps, Property.scoped_sitesList.2 hq⟩
  · rintro ⟨h, hq⟩
    cases h with
    | group hk hm hes hl hm' =>
      exact .group hk hm
        ((separated_splits (hR.expression hc hs)).2 ⟨hes, Expr.scoped_sitesList.1 hq⟩) hl hm'
    | array hk hm hes =>
      exact .array hk hm
        ((closedList_splits (hR.expression hc hs)).2 ⟨hes, Expr.scoped_sitesList.1 hq⟩)
    | newCall hk hm he => exact .newCall hk hm ((hR.expression hc hs).2 ⟨he, hq⟩)
    | newPlain hk hm he hne =>
      exact .newPlain hk hm
        ((hR.expression hc hs).2 ⟨he, by simpa [Expr.sites, Expr.sitesList] using hq⟩) hne
    | unary hk hl hu hm he => exact .unary hk hl hu hm ((hR.expression hc hs).2 ⟨he, hq⟩)
    | update hk hu hm he ht => exact .update hk hu hm ((hR.expression hc hs).2 ⟨he, hq⟩) ht
    | literal hl =>
      rw [returns_literal] at hl
      exact .literal (returns_literal.2 hl)
    | identifier hi => exact .identifier (identifier_unchecked.2 ⟨hi, trivial⟩)
    | this hk hm => exact .this hk hm
    | function hk hm hid hp hb =>
      refine .function hk hm ?_ (parameters_unchecked.2 hp) ((block_tracks hR hc hs).2 ⟨hb, hq⟩)
      exact hid.imp_right fun ⟨i, hi, hr⟩ => ⟨i, hi, identifier_unchecked.2 ⟨hr, trivial⟩⟩
    | object hk hm hps =>
      exact .object hk hm
        ((closedList_splits (property_tracks hR hc hs)).2 ⟨hps, Property.scoped_sitesList.1 hq⟩)

theorem extendForm_tracks {start forHead left q s e t} :
    Scoped (left.sites c.scope.labels) ∧ ExtendForm R c start forHead left q s e t ↔
      ExtendForm R c.unchecked start forHead left q s e t ∧ Scoped (e.sites c.scope.labels) := by
  constructor
  · rintro ⟨hl, h⟩
    cases h with
    | call hk hm ha =>
      obtain ⟨ha, hq⟩ := (closedList_splits (hR.expression hc hs)).1 ha
      exact ⟨.call hk hm ha, scoped_append.2 ⟨hl, Expr.scoped_sitesList.2 hq⟩⟩
    | index hk hm hp hb hm' =>
      obtain ⟨hp, hq⟩ := (commaForm_tracks hR hc hs).1 hp
      exact ⟨.index hk hm hp hb hm', scoped_append.2 ⟨hl, hq⟩⟩
    | binary hk ho hm hr =>
      obtain ⟨hr, hq⟩ := (hR.expression hc hs).1 hr
      exact ⟨.binary hk ho hm hr, scoped_append.2 ⟨hl, hq⟩⟩
    | assignment hk ho ht hm hr =>
      obtain ⟨hr, hq⟩ := (hR.expression hc hs).1 hr
      exact ⟨.assignment hk ho ht hm hr, scoped_append.2 ⟨hl, hq⟩⟩
    | logical hk ho hm hr =>
      obtain ⟨hr, hq⟩ := (hR.expression hc hs).1 hr
      exact ⟨.logical hk ho hm hr, scoped_append.2 ⟨hl, hq⟩⟩
    | dot hk hm hr =>
      obtain ⟨hr, hq⟩ := (hR.expression hc hs).1 hr
      exact ⟨.dot hk hm hr, scoped_append.2 ⟨hl, hq⟩⟩
    | conditional hk hm hx hk' hm' hy =>
      obtain ⟨hx, hq⟩ := (hR.expression hc hs).1 hx
      obtain ⟨hy, hq'⟩ := (hR.expression hc hs).1 hy
      exact ⟨.conditional hk hm hx hk' hm' hy,
        scoped_append.2 ⟨scoped_append.2 ⟨hl, hq⟩, hq'⟩⟩
    | update hk ho ht hm => exact ⟨.update hk ho ht hm, hl⟩
  · rintro ⟨h, hq⟩
    cases h with
    | call hk hm ha =>
      obtain ⟨hl, hq⟩ := scoped_append.1 hq
      exact ⟨hl, .call hk hm
        ((closedList_splits (hR.expression hc hs)).2 ⟨ha, Expr.scoped_sitesList.1 hq⟩)⟩
    | index hk hm hp hb hm' =>
      obtain ⟨hl, hq⟩ := scoped_append.1 hq
      exact ⟨hl, .index hk hm ((commaForm_tracks hR hc hs).2 ⟨hp, hq⟩) hb hm'⟩
    | binary hk ho hm hr =>
      obtain ⟨hl, hq⟩ := scoped_append.1 hq
      exact ⟨hl, .binary hk ho hm ((hR.expression hc hs).2 ⟨hr, hq⟩)⟩
    | assignment hk ho ht hm hr =>
      obtain ⟨hl, hq⟩ := scoped_append.1 hq
      exact ⟨hl, .assignment hk ho ht hm ((hR.expression hc hs).2 ⟨hr, hq⟩)⟩
    | logical hk ho hm hr =>
      obtain ⟨hl, hq⟩ := scoped_append.1 hq
      exact ⟨hl, .logical hk ho hm ((hR.expression hc hs).2 ⟨hr, hq⟩)⟩
    | dot hk hm hr =>
      obtain ⟨hl, hq⟩ := scoped_append.1 hq
      exact ⟨hl, .dot hk hm ((hR.expression hc hs).2 ⟨hr, hq⟩)⟩
    | conditional hk hm hx hk' hm' hy =>
      obtain ⟨hq, hq'⟩ := scoped_append.1 hq
      obtain ⟨hl, hq⟩ := scoped_append.1 hq
      exact ⟨hl, .conditional hk hm ((hR.expression hc hs).2 ⟨hx, hq⟩) hk' hm'
        ((hR.expression hc hs).2 ⟨hy, hq'⟩)⟩
    | update hk ho ht hm => exact ⟨hq, .update hk ho ht hm⟩

theorem extended_tracks {start floor forHead n left s e t} :
    Scoped (left.sites c.scope.labels) ∧ Extended R c start floor forHead n left s e t ↔
      Extended R c.unchecked start floor forHead n left s e t ∧ Scoped (e.sites c.scope.labels) := by
  constructor
  · rintro ⟨hl, h⟩
    induction h with
    | stop hk => exact ⟨.stop hk, hl⟩
    | more hk he _ ih =>
      obtain ⟨he, hl⟩ := (extendForm_tracks hR hc hs).1 ⟨hl, he⟩
      obtain ⟨hx, hq⟩ := ih hl
      exact ⟨.more hk he hx, hq⟩
  · rintro ⟨h, hq⟩
    induction h with
    | stop hk => exact ⟨hq, .stop hk⟩
    | more hk he _ ih =>
      obtain ⟨hl, hx⟩ := ih hq
      obtain ⟨hl, he⟩ := (extendForm_tracks hR hc hs).2 ⟨he, hl⟩
      exact ⟨hl, .more hk he hx⟩

theorem expression_tracks {floor forHead} :
    Splits (Returns (expression R floor forHead) c) (Returns (expression R floor forHead) c.unchecked)
      fun e => Scoped (e.sites c.scope.labels) := by
  intro s e t
  rw [returns_expression, returns_expression]
  constructor
  · rintro ⟨first, u, n, ho, hx, hn⟩
    obtain ⟨ho, hq⟩ := (operand_tracks hR hc hs).1 ho
    obtain ⟨hx, hq⟩ := (extended_tracks hR hc hs).1 ⟨hq, hx⟩
    exact ⟨⟨first, u, n, ho, hx, hn⟩, hq⟩
  · rintro ⟨⟨first, u, n, ho, hx, hn⟩, hq⟩
    obtain ⟨hq, hx⟩ := (extended_tracks hR hc hs).2 ⟨hx, hq⟩
    exact ⟨first, u, n, (operand_tracks hR hc hs).2 ⟨ho, hq⟩, hx, hn⟩

theorem condition_tracks : Splits (Returns (condition R) c) (Returns (condition R) c.unchecked)
    fun e => Scoped (e.sites c.scope.labels) := by
  intro s e t
  rw [returns_condition, returns_condition]
  constructor
  · rintro ⟨s₁, s₂, hk, hm, he, hl, hm'⟩
    obtain ⟨he, hq⟩ := (commaForm_tracks hR hc hs).1 he
    exact ⟨⟨s₁, s₂, hk, hm, he, hl, hm'⟩, hq⟩
  · rintro ⟨⟨s₁, s₂, hk, hm, he, hl, hm'⟩, hq⟩
    exact ⟨s₁, s₂, hk, hm, (commaForm_tracks hR hc hs).2 ⟨he, hq⟩, hl, hm'⟩

omit hs in
theorem loopBody_tracks : Splits (Returns (loopBody R) c) (Returns (loopBody R) c.unchecked)
    fun x => Scoped (x.sites (inLoop c.scope.labels)) :=
  @Tracks.inner R hR { c with scope := c.scope.enter .loop } hc rfl

theorem declarator_tracks {forHead} :
    Splits (Returns (declarator R forHead) c) (Returns (declarator R forHead) c.unchecked)
      fun d => Scoped (d.sites c.scope.labels) := by
  intro s d t
  rw [returns_declarator, returns_declarator]
  constructor
  · rintro ⟨id, s₁, init, hi, ha, rfl⟩
    obtain ⟨ha, hq⟩ := (Announced.splits (hR.expression hc hs)).1 ha
    exact ⟨⟨id, s₁, init, (identifier_unchecked.1 hi).1, ha, rfl⟩, Expr.scoped_sitesOption.2 hq⟩
  · rintro ⟨⟨id, s₁, init, hi, ha, rfl⟩, hq⟩
    exact ⟨id, s₁, init, identifier_unchecked.2 ⟨hi, trivial⟩,
      (Announced.splits (hR.expression hc hs)).2 ⟨ha, Expr.scoped_sitesOption.1 hq⟩, rfl⟩

theorem declaration_tracks {forHead} :
    Splits (Returns (declaration R forHead) c) (Returns (declaration R forHead) c.unchecked)
      fun d => Scoped (d.sites c.scope.labels) := by
  intro s d t
  rw [returns_declaration, returns_declaration]
  constructor
  · rintro ⟨s₁, ds, s₂, hm, hds, hend, rfl⟩
    obtain ⟨hds, hq⟩ := (separated_splits (declarator_tracks hR hc hs)).1 hds
    exact ⟨⟨s₁, ds, s₂, hm, hds, hend, rfl⟩, Declarator.scoped_sitesList.2 hq⟩
  · rintro ⟨⟨s₁, ds, s₂, hm, hds, hend, rfl⟩, hq⟩
    exact ⟨s₁, ds, s₂, hm, (separated_splits (declarator_tracks hR hc hs)).2
      ⟨hds, Declarator.scoped_sitesList.1 hq⟩, hend, rfl⟩

theorem caseHead_tracks : Splits (CaseHead R c) (CaseHead R c.unchecked)
    fun e => Scoped (Expr.sitesOption c.scope.labels e) := by
  intro s e t
  constructor
  · rintro (⟨hk, hm, he⟩ | ⟨hk, hm⟩)
    · obtain ⟨he, hq⟩ := (commaForm_tracks hR hc hs).1 he
      exact ⟨.case hk hm he, hq⟩
    · exact ⟨.default hk hm, scoped_nil⟩
  · rintro ⟨⟨hk, hm, he⟩ | ⟨hk, hm⟩, hq⟩
    · exact .case hk hm ((commaForm_tracks hR hc hs).2 ⟨he, hq⟩)
    · exact .default hk hm

theorem switchCase_tracks : Splits (Returns (switchCase R) c) (Returns (switchCase R) c.unchecked)
    fun x => Scoped (x.sites c.scope.labels) := by
  intro s x t
  rw [returns_switchCase, returns_switchCase]
  constructor
  · rintro ⟨test, s₁, s₂, body, hh, hk, hm, hb, hn, rfl⟩
    obtain ⟨hh, hq⟩ := (caseHead_tracks hR hc hs).1 hh
    obtain ⟨hb, hqs⟩ := (Items.splits (hR.inner hc hs)).1 hb
    exact ⟨⟨test, s₁, s₂, body, hh, hk, hm, hb, hn, rfl⟩,
      scoped_append.2 ⟨hq, Stmt.scoped_sitesList.2 hqs⟩⟩
  · rintro ⟨⟨test, s₁, s₂, body, hh, hk, hm, hb, hn, rfl⟩, hq⟩
    obtain ⟨hq, hqs⟩ := scoped_append.1 hq
    exact ⟨test, s₁, s₂, body, (caseHead_tracks hR hc hs).2 ⟨hh, hq⟩, hk, hm,
      (Items.splits (hR.inner hc hs)).2 ⟨hb, Stmt.scoped_sitesList.1 hqs⟩, hn, rfl⟩

theorem cases_tracks {b} : Splits (Cases R c b) (Cases R c.unchecked b)
    fun xs => Scoped (SwitchCase.sitesList c.scope.labels xs) := by
  intro s xs t
  constructor
  · intro h
    induction h with
    | done hk => exact ⟨.done hk, scoped_nil⟩
    | more hk hx hb _ ih =>
      obtain ⟨hx, hq⟩ := (switchCase_tracks hR hc hs).1 hx
      exact ⟨.more hk hx hb ih.1, scoped_append.2 ⟨hq, ih.2⟩⟩
  · rintro ⟨h, hq⟩
    induction h with
    | done hk => exact .done hk
    | more hk hx hb _ ih =>
      obtain ⟨hx', hq⟩ := scoped_append.1 hq
      exact .more hk ((switchCase_tracks hR hc hs).2 ⟨hx, hx'⟩) hb (ih hq)

theorem handlerForm_tracks : Splits (HandlerForm R c) (HandlerForm R c.unchecked)
    fun x => Scoped (CatchClause.sitesOption c.scope.labels x) := by
  intro s x t
  constructor
  · rintro (⟨hk, hx⟩ | hk)
    · obtain ⟨s₁, s₂, param, s₃, s₄, body, hm, hl, hm₁, hp, hr, hm₂, hb, rfl⟩ :=
        returns_catchClause.1 hx
      obtain ⟨hb, hq⟩ := (block_tracks hR hc hs).1 hb
      exact ⟨.present hk (returns_catchClause.2 ⟨s₁, s₂, param, s₃, s₄, body, hm, hl, hm₁,
        (identifier_unchecked.1 hp).1, hr, hm₂, hb, rfl⟩), hq⟩
    · exact ⟨.absent hk, scoped_nil⟩
  · rintro ⟨⟨hk, hx⟩ | hk, hq⟩
    · obtain ⟨s₁, s₂, param, s₃, s₄, body, hm, hl, hm₁, hp, hr, hm₂, hb, rfl⟩ :=
        returns_catchClause.1 hx
      exact .present hk (returns_catchClause.2 ⟨s₁, s₂, param, s₃, s₄, body, hm, hl, hm₁,
        identifier_unchecked.2 ⟨hp, trivial⟩, hr, hm₂, (block_tracks hR hc hs).2 ⟨hb, hq⟩, rfl⟩)
    · exact .absent hk

theorem forTail_tracks {s test update body t} :
    ForTail R c s test update body t ↔ ForTail R c.unchecked s test update body t ∧
      Scoped (Expr.sitesOption c.scope.labels test ++ Expr.sitesOption c.scope.labels update ++
        body.sites (inLoop c.scope.labels)) := by
  have part {k} := @Unless.splits _ _ _ _ k (@commaExpression_tracks _ hR _ hc hs false)
  rw [scoped_append, scoped_append, Expr.scoped_sitesOption, Expr.scoped_sitesOption]
  constructor
  · rintro ⟨hk, hm, ht, hk', hm', hu, hl, hm'', hb⟩
    obtain ⟨ht, hq⟩ := part.1 ht
    obtain ⟨hu, hq'⟩ := part.1 hu
    obtain ⟨hb, hq''⟩ := (loopBody_tracks hR hc).1 hb
    exact ⟨⟨hk, hm, ht, hk', hm', hu, hl, hm'', hb⟩, ⟨hq, hq'⟩, hq''⟩
  · rintro ⟨⟨hk, hm, ht, hk', hm', hu, hl, hm'', hb⟩, ⟨hq, hq'⟩, hq''⟩
    exact ⟨hk, hm, part.2 ⟨ht, hq⟩, hk', hm', part.2 ⟨hu, hq'⟩, hl, hm'',
      (loopBody_tracks hR hc).2 ⟨hb, hq''⟩⟩

theorem forInTail_tracks {s object body t} :
    ForInTail R c s object body t ↔ ForInTail R c.unchecked s object body t ∧
      Scoped (object.sites c.scope.labels ++ body.sites (inLoop c.scope.labels)) := by
  rw [scoped_append]
  constructor
  · rintro ⟨hk, hm, ho, hl, hm', hb⟩
    obtain ⟨ho, hq⟩ := (commaForm_tracks hR hc hs).1 ho
    obtain ⟨hb, hq'⟩ := (loopBody_tracks hR hc).1 hb
    exact ⟨⟨hk, hm, ho, hl, hm', hb⟩, hq, hq'⟩
  · rintro ⟨⟨hk, hm, ho, hl, hm', hb⟩, hq, hq'⟩
    exact ⟨hk, hm, (commaForm_tracks hR hc hs).2 ⟨ho, hq⟩, hl, hm',
      (loopBody_tracks hR hc).2 ⟨hb, hq'⟩⟩

/-- A loop's own place does not matter, so only what is inside it is looked at. -/
theorem forForm_tracks {start} : Splits (ForForm R c start) (ForForm R c.unchecked start)
    fun x => Scoped (x.innerSites c.scope.labels) := by
  intro s x t
  constructor
  · intro h
    cases h with
    | counted hk hd ht =>
      obtain ⟨hd, hq⟩ := (declaration_tracks hR hc hs).1 hd
      obtain ⟨ht, hq'⟩ := (forTail_tracks hR hc hs).1 ht
      refine ⟨.counted hk hd ht, ?_⟩
      simpa only [Stmt.innerSites, ForInit.sitesOption, ForInit.sites, Stmt.sites, scoped_append,
        and_assoc] using And.intro hq hq'
    | bound hk hd hb ht =>
      obtain ⟨hd, hq⟩ := (declaration_tracks hR hc hs).1 hd
      obtain ⟨ht, hq'⟩ := (forInTail_tracks hR hc hs).1 ht
      refine ⟨.bound hk hd hb ht, ?_⟩
      simpa only [Stmt.innerSites, ForTarget.sites, Stmt.sites, scoped_append, and_assoc]
        using And.intro hq hq'
    | bare ht =>
      obtain ⟨ht, hq'⟩ := (forTail_tracks hR hc hs).1 ht
      refine ⟨.bare ht, ?_⟩
      simpa only [Stmt.innerSites, ForInit.sitesOption, Stmt.sites, List.nil_append] using hq'
    | named hk hk' he ht =>
      obtain ⟨he, -⟩ := (commaForm_tracks hR hc hs).1 he
      obtain ⟨ht, hq'⟩ := (forInTail_tracks hR hc hs).1 ht
      refine ⟨.named hk hk' he ht, ?_⟩
      simpa only [Stmt.innerSites, ForTarget.sites, Stmt.sites, List.nil_append] using hq'
    | started hk hk' he ht =>
      obtain ⟨he, hq⟩ := (commaForm_tracks hR hc hs).1 he
      obtain ⟨ht, hq'⟩ := (forTail_tracks hR hc hs).1 ht
      refine ⟨.started hk hk' he ht, ?_⟩
      simpa only [Stmt.innerSites, ForInit.sitesOption, ForInit.sites, Stmt.sites, scoped_append,
        and_assoc] using And.intro hq hq'
  · rintro ⟨h, hq⟩
    cases h with
    | counted hk hd ht =>
      simp only [Stmt.innerSites, ForInit.sitesOption, ForInit.sites, List.append_assoc] at hq
      rw [scoped_append] at hq
      exact .counted hk ((declaration_tracks hR hc hs).2 ⟨hd, hq.1⟩)
        ((forTail_tracks hR hc hs).2 ⟨ht, by simpa only [Stmt.sites, List.append_assoc] using hq.2⟩)
    | bound hk hd hb ht =>
      simp only [Stmt.innerSites, ForTarget.sites, List.append_assoc] at hq
      rw [scoped_append] at hq
      exact .bound hk ((declaration_tracks hR hc hs).2 ⟨hd, hq.1⟩) hb
        ((forInTail_tracks hR hc hs).2 ⟨ht, hq.2⟩)
    | bare ht => exact .bare ((forTail_tracks hR hc hs).2 ⟨ht, hq⟩)
    | named hk hk' he ht =>
      exact .named hk hk' ((commaForm_tracks hR hc hs).2 ⟨he, scoped_nil⟩)
        ((forInTail_tracks hR hc hs).2 ⟨ht, hq⟩)
    | started hk hk' he ht =>
      simp only [Stmt.innerSites, ForInit.sitesOption, ForInit.sites, List.append_assoc] at hq
      rw [scoped_append] at hq
      exact .started hk hk' ((commaForm_tracks hR hc hs).2 ⟨he, hq.1⟩)
        ((forTail_tracks hR hc hs).2 ⟨ht, by simpa only [Stmt.sites, List.append_assoc] using hq.2⟩)

omit hR hc hs in
theorem ForForm.allowed {start s x t} (h : ForForm R c start s x t) (around : List Label) :
    x.Allowed around := by
  cases h <;> trivial

omit hR hc hs in
theorem StatementForm.of_labeled {stacked s note i body t}
    (h : StatementForm R c stacked s (.labeled note i body) t) :
    ∃ s₁ s₂, opensStatement s.current.kind = false ∧ CommaForm R c false s (.identifier i) s₁ ∧
      s₁.current.kind = .colon ∧ Moves false s₁ s₂ ∧
      (c.checkLabels = true → c.scope.declares i.name = false) ∧
      Returns R.statement
        { c with scope := c.scope.label stacked i.name (targetAt s₂.current.kind) } s₂ body t ∧
      note = t.since s.current.span.start := by
  generalize hx : Stmt.labeled note i body = x at h
  cases h with
  | labeled ho he hk hm hd hb =>
    cases hx
    exact ⟨_, _, ho, he, hk, hm, hd, hb, rfl⟩
  | @jump j _ _ _ _ _ _ _ => cases j <;> cases hx
  | «for» _ _ _ _ hf => cases hf <;> cases hx
  | _ => cases hx

omit hR hc hs in
/-- What a statement is shows in its first token, unless that is a label. -/
theorem StatementForm.target {stacked s x t} (h : StatementForm R c stacked s x t)
    (hx : ∀ note i b, x ≠ .labeled note i b) : x.target = targetAt s.current.kind := by
  have opens {k} (ho : opensStatement k = false) : targetAt k = none := by
    cases k <;> first | rfl | cases ho
  cases h with
  | labeled _ _ _ _ _ _ => exact absurd rfl (hx _ _ _)
  | expression ho _ _ _ => rw [opens ho]; rfl
  | @jump j _ _ _ hk _ _ _ => rw [hk]; cases j <;> rfl
  | «for» hk _ _ _ hf => rw [hk]; cases hf <;> rfl
  | empty hk _ | block hk _ | «if» hk _ _ _ _ | debugger hk _ _ | «with» hk _ _ _ | «return» hk _ _
  | throw hk _ _ | switch hk _ _ _ _ _ _ _ | «try» hk _ _ _ _ | «while» hk _ _ _
  | doWhile hk _ _ _ _ _ | declaration hk _ | function hk _ _ _ _ => rw [hk]; rfl

/-- Statements other than labeled ones: the labels in front of them are settled. -/
theorem statementForm_splits {stacked s x t} (hx : ∀ note i b, x ≠ .labeled note i b) :
    StatementForm R c stacked s x t ↔ StatementForm R c.unchecked stacked s x t ∧
      Scoped (x.sites c.scope.labels) := by
  constructor
  · intro h
    cases h with
    | empty hk hm => exact ⟨.empty hk hm, scoped_cons.2 ⟨trivial, scoped_nil⟩⟩
    | block hk hb =>
      obtain ⟨hb, hq⟩ := (block_tracks hR hc hs).1 hb
      exact ⟨.block hk hb, scoped_cons.2 ⟨trivial, hq⟩⟩
    | expression ho he hne hend =>
      obtain ⟨he, hq⟩ := (commaForm_tracks hR hc hs).1 he
      exact ⟨.expression ho he hne hend, scoped_cons.2 ⟨trivial, hq⟩⟩
    | labeled _ _ _ _ _ _ => exact absurd rfl (hx _ _ _)
    | «if» hk hm ht hy hz =>
      obtain ⟨ht, hq⟩ := (condition_tracks hR hc hs).1 ht
      obtain ⟨hy, hq'⟩ := (hR.inner hc hs).1 hy
      obtain ⟨hz, hq''⟩ := (Announced.splits (hR.inner hc hs)).1 hz
      exact ⟨.if hk hm ht hy hz, scoped_cons.2 ⟨trivial, scoped_append.2
        ⟨scoped_append.2 ⟨hq, hq'⟩, Stmt.scoped_sitesOption.2 hq''⟩⟩⟩
    | debugger hk hm hend => exact ⟨.debugger hk hm hend, scoped_cons.2 ⟨trivial, scoped_nil⟩⟩
    | «with» hk hm he hb =>
      obtain ⟨he, hq⟩ := (condition_tracks hR hc hs).1 he
      obtain ⟨hb, hq'⟩ := (hR.inner hc hs).1 hb
      exact ⟨.with hk hm he hb, scoped_cons.2 ⟨trivial, scoped_append.2 ⟨hq, hq'⟩⟩⟩
    | «return» hk hm he =>
      obtain ⟨he, hq⟩ := (Trailing.splits (commaExpression_tracks hR hc hs)).1 he
      exact ⟨.return hk hm he, scoped_cons.2 ⟨trivial, Expr.scoped_sitesOption.2 hq⟩⟩
    | throw hk hm he =>
      obtain ⟨he, hq⟩ := (Trailing.splits (commaExpression_tracks hR hc hs)).1 he
      exact ⟨.throw hk hm he, scoped_cons.2 ⟨trivial, hq _ rfl⟩⟩
    | @jump j _ label _ hk hm hl ha =>
      refine ⟨.jump hk hm (Trailing.splits identifier_unchecked |>.1 hl).1 (by simp [Context.unchecked]),
        scoped_cons.2 ⟨Scope.allows_iff.1 (ha hc), ?_⟩⟩
      cases j <;> exact scoped_nil
    | switch hk hm he hl hm' hcs hn hm'' =>
      obtain ⟨he, hq⟩ := (condition_tracks hR hc hs).1 he
      obtain ⟨hcs, hq'⟩ :=
        (@cases_tracks R hR { c with scope := c.scope.enter .switch } hc rfl _).1 hcs
      exact ⟨.switch hk hm he hl hm' hcs hn hm'',
        scoped_cons.2 ⟨trivial, scoped_append.2 ⟨hq, hq'⟩⟩⟩
    | «try» hk hm hb hh hf =>
      obtain ⟨hb, hq⟩ := (block_tracks hR hc hs).1 hb
      obtain ⟨hh, hq'⟩ := (handlerForm_tracks hR hc hs).1 hh
      obtain ⟨hf, hq''⟩ := (Announced.splits (block_tracks hR hc hs)).1 hf
      exact ⟨.try hk hm hb hh hf, scoped_cons.2 ⟨trivial, scoped_append.2
        ⟨scoped_append.2 ⟨hq, hq'⟩, Block.scoped_sitesOption.2 hq''⟩⟩⟩
    | «while» hk hm he hb =>
      obtain ⟨he, hq⟩ := (condition_tracks hR hc hs).1 he
      obtain ⟨hb, hq'⟩ := (loopBody_tracks hR hc).1 hb
      exact ⟨.while hk hm he hb, scoped_cons.2 ⟨trivial, scoped_append.2 ⟨hq, hq'⟩⟩⟩
    | doWhile hk hm hb hw hm' he =>
      obtain ⟨he, hq⟩ := (condition_tracks hR hc hs).1 he
      obtain ⟨hb, hq'⟩ := (loopBody_tracks hR hc).1 hb
      exact ⟨.doWhile hk hm hb hw hm' he, scoped_cons.2 ⟨trivial, scoped_append.2 ⟨hq', hq⟩⟩⟩
    | declaration hk hd =>
      obtain ⟨hd, hq⟩ := (declaration_tracks hR hc hs).1 hd
      exact ⟨.declaration hk hd, scoped_cons.2 ⟨trivial, hq⟩⟩
    | «for» hk hm hl hm' hf =>
      obtain ⟨hf', hq⟩ := (forForm_tracks hR hc hs).1 hf
      exact ⟨.for hk hm hl hm' hf', scoped_cons.2 ⟨hf.allowed _, hq⟩⟩
    | function hk hm hi hp hb =>
      obtain ⟨hb, hq⟩ := (block_tracks hR hc hs).1 hb
      exact ⟨.function hk hm (identifier_unchecked.1 hi).1 (parameters_unchecked.1 hp) hb,
        scoped_cons.2 ⟨trivial, hq⟩⟩
  · rintro ⟨h, hq⟩
    obtain ⟨ha, hq⟩ := scoped_cons.1 hq
    cases h with
    | empty hk hm => exact .empty hk hm
    | block hk hb => exact .block hk ((block_tracks hR hc hs).2 ⟨hb, hq⟩)
    | expression ho he hne hend =>
      exact .expression ho ((commaForm_tracks hR hc hs).2 ⟨he, hq⟩) hne hend
    | labeled _ _ _ _ _ _ => exact absurd rfl (hx _ _ _)
    | «if» hk hm ht hy hz =>
      obtain ⟨hq, hq''⟩ := scoped_append.1 hq
      obtain ⟨hq, hq'⟩ := scoped_append.1 hq
      exact .if hk hm ((condition_tracks hR hc hs).2 ⟨ht, hq⟩) ((hR.inner hc hs).2 ⟨hy, hq'⟩)
        ((Announced.splits (hR.inner hc hs)).2 ⟨hz, Stmt.scoped_sitesOption.1 hq''⟩)
    | debugger hk hm hend => exact .debugger hk hm hend
    | «with» hk hm he hb =>
      obtain ⟨hq, hq'⟩ := scoped_append.1 hq
      exact .with hk hm ((condition_tracks hR hc hs).2 ⟨he, hq⟩) ((hR.inner hc hs).2 ⟨hb, hq'⟩)
    | «return» hk hm he =>
      exact .return hk hm ((Trailing.splits (commaExpression_tracks hR hc hs)).2
        ⟨he, Expr.scoped_sitesOption.1 hq⟩)
    | throw hk hm he =>
      exact .throw hk hm ((Trailing.splits (commaExpression_tracks hR hc hs)).2
        ⟨he, by simpa [Stmt.innerSites] using hq⟩)
    | @jump j _ label _ hk hm hl _ =>
      exact .jump hk hm ((Trailing.splits identifier_unchecked).2 ⟨hl, by simp⟩)
        fun _ => Scope.allows_iff.2 ha
    | switch hk hm he hl hm' hcs hn hm'' =>
      obtain ⟨hq, hq'⟩ := scoped_append.1 hq
      exact .switch hk hm ((condition_tracks hR hc hs).2 ⟨he, hq⟩) hl hm'
        ((@cases_tracks R hR { c with scope := c.scope.enter .switch } hc rfl _).2 ⟨hcs, hq'⟩) hn hm''
    | «try» hk hm hb hh hf =>
      obtain ⟨hq, hq''⟩ := scoped_append.1 hq
      obtain ⟨hq, hq'⟩ := scoped_append.1 hq
      exact .try hk hm ((block_tracks hR hc hs).2 ⟨hb, hq⟩)
        ((handlerForm_tracks hR hc hs).2 ⟨hh, hq'⟩)
        ((Announced.splits (block_tracks hR hc hs)).2 ⟨hf, Block.scoped_sitesOption.1 hq''⟩)
    | «while» hk hm he hb =>
      obtain ⟨hq, hq'⟩ := scoped_append.1 hq
      exact .while hk hm ((condition_tracks hR hc hs).2 ⟨he, hq⟩)
        ((loopBody_tracks hR hc).2 ⟨hb, hq'⟩)
    | doWhile hk hm hb hw hm' he =>
      obtain ⟨hq', hq⟩ := scoped_append.1 hq
      exact .doWhile hk hm ((loopBody_tracks hR hc).2 ⟨hb, hq'⟩) hw hm'
        ((condition_tracks hR hc hs).2 ⟨he, hq⟩)
    | declaration hk hd => exact .declaration hk ((declaration_tracks hR hc hs).2 ⟨hd, hq⟩)
    | «for» hk hm hl hm' hf =>
      exact .for hk hm hl hm' ((forForm_tracks hR hc hs).2 ⟨hf, hq⟩)
    | function hk hm hi hp hb =>
      exact .function hk hm (identifier_unchecked.2 ⟨hi, trivial⟩) (parameters_unchecked.2 hp)
        ((block_tracks hR hc hs).2 ⟨hb, hq⟩)

/-- A labeled statement: the label and those in front of it come to stand for the body. -/
theorem labeledForm_tracks {stacked s note i body t} :
    StatementForm R c stacked s (.labeled note i body) t ↔
      StatementForm R c.unchecked stacked s (.labeled note i body) t ∧
        Scoped (Stmt.sites (Scope.around ⟨c.scope.labels, stacked⟩ body.target)
          (.labeled note i body)) := by
  have inner {s₂ : State} : Scoped (Stmt.innerSites
        (Scope.around ⟨c.scope.labels, stacked⟩ body.target) (.labeled note i body)) ↔
      Scoped (body.sites ((c.scope.label stacked i.name (targetAt s₂.current.kind)).around
        body.target)) := by
    rw [Scope.around_label c.scope.labels stacked i.name _ body.target c.scope.stacked]
    exact Iff.rfl
  have under {s₂ : State} := @Tracks.statement R hR
    { c with scope := c.scope.label stacked i.name (targetAt s₂.current.kind) } s₂ body t hc
    (Scope.label_fits _ _ _ _)
  constructor
  · intro h
    obtain ⟨s₁, s₂, ho, he, hk, hm, hd, hb, rfl⟩ := h.of_labeled
    obtain ⟨he, -⟩ := (commaForm_tracks hR hc hs).1 he
    obtain ⟨hb, hq⟩ := under.1 hb
    exact ⟨.labeled ho he hk hm (by simp [Context.unchecked]) hb,
      scoped_cons.2 ⟨Scope.declares_eq_false.1 (hd hc), inner.2 hq⟩⟩
  · rintro ⟨h, hq⟩
    obtain ⟨ha, hq⟩ := scoped_cons.1 hq
    obtain ⟨s₁, s₂, ho, he, hk, hm, -, hb, rfl⟩ := h.of_labeled
    exact .labeled ho ((commaForm_tracks hR hc hs).2 ⟨he, scoped_nil⟩) hk hm
      (fun _ => Scope.declares_eq_false.2 ha)
      (under.2 ⟨hb, inner.1 hq⟩)

omit hs in
theorem statement_tracks {s x t} (hf : c.scope.Fits s.current.kind) :
    Returns (statement R) c s x t ↔ Returns (statement R) c.unchecked s x t ∧
      Scoped (x.sites (c.scope.around x.target)) := by
  rw [returns_statement, returns_statement]
  by_cases hx : ∃ note i b, x = .labeled note i b
  · obtain ⟨note, i, b, rfl⟩ := hx
    exact @labeledForm_tracks R hR { c with scope := c.scope.settle } hc rfl _ _ _ _ _ _
  · have hx : ∀ note i b, x ≠ .labeled note i b := fun note i b h => hx ⟨note, i, b, h⟩
    have splits := @statementForm_splits R hR { c with scope := c.scope.settle } hc rfl
      c.scope.stacked s x t hx
    constructor
    · intro h
      rw [h.target hx, hf.around]
      exact splits.1 h
    · rintro ⟨h, hq⟩
      rw [h.target hx, hf.around] at hq
      exact splits.2 ⟨h, hq⟩

end

theorem readers_track (n : Nat) : Tracks (readers n) := by
  induction n with
  | zero =>
    constructor
    · intro c s x t hc hf
      simp [readers]
    · intro floor forHead c hc hs s e t
      simp [readers]
  | succ n ih =>
    constructor
    · intro c s x t hc hf
      exact statement_tracks ih hc hf
    · intro floor forHead c hc hs
      exact expression_tracks ih hc hs

/-- A script is read with checks if it is read without them and its tree is scoped. -/
theorem run_eq_ok_iff_scoped {c : Context} {source : List Char} {p : Program Span}
    (hc : c.checkLabels = true) (hs : c.scope = Scope.empty) :
    (run c source).result = .ok p ↔ (run c.unchecked source).result = .ok p ∧ Scoped p.sites := by
  have split {s p t} : Returns (program (readers c.limit)) c s p t ↔
      Returns (program (readers c.limit)) c.unchecked s p t ∧ Scoped p.sites := by
    have items := @Items.splits _ _ _ _ (· == .endOfInput)
      ((readers_track c.limit).inner hc (by rw [hs]; rfl))
    rw [hs] at items
    rw [returns_program, returns_program]
    constructor
    · rintro ⟨body, hb, hn, rfl⟩
      obtain ⟨hb, hq⟩ := items.1 hb
      exact ⟨⟨body, hb, hn, rfl⟩, Stmt.scoped_sitesList.2 hq⟩
    · rintro ⟨⟨body, hb, hn, rfl⟩, hq⟩
      exact ⟨body, items.2 ⟨hb, Stmt.scoped_sitesList.1 hq⟩, hn, rfl⟩
  rw [run_eq_ok, run_eq_ok]
  constructor
  · rintro ⟨s, t, hb, hp⟩
    obtain ⟨hp, hq⟩ := split.1 hp
    exact ⟨⟨s, t, hb, hp⟩, hq⟩
  · rintro ⟨⟨s, t, hb, hp⟩, hq⟩
    exact ⟨s, t, hb, split.2 ⟨hp, hq⟩⟩

/-! ## Faults -/

/-- With checks, a reader does what it does without them, or it stops at a label or a jump. -/
def Agrees (α : Type) (p : Parse α) : Prop :=
  ∀ c s, p c s = p c.unchecked s ∨ ∃ f u, p c s = .error f u ∧ f.cause.concernsLabels = true

theorem Agrees.bind {p : Parse α} {f : α → Parse β} (hp : Agrees α p) (hf : ∀ a, Agrees β (f a)) :
    Agrees β (p >>= f) := by
  intro c s
  rw [bind_apply, bind_apply]
  rcases hp c s with he | ⟨g, u, he, hg⟩
  · rw [he]
    cases p c.unchecked s with
    | ok a t => exact hf a c t
    | error g u => exact .inl rfl
  · rw [he]
    exact .inr ⟨g, u, rfl, hg⟩

theorem agrees_inherited : Inherited Agrees where
  pure := fun _ _ => .inl rfl
  bind := Agrees.bind
  get := fun _ _ => .inl rfl
  advance := fun _ _ => .inl (advance_apply.trans advance_apply.symm)
  fault := fun _ _ => .inl rfl
  inScope hp := fun _ s => hp _ s
  reading := by
    intro α β g f hg hf c s
    rw [read_bind_apply, read_bind_apply, hg]
    exact hf (g c) c s
  check := by
    intro α g cause offset rest hl hr c s
    have hu : ¬ (c.unchecked.checkLabels && g c.unchecked.scope) = true := by
      simp [Context.unchecked]
    rw [read_bind_apply, read_bind_apply, if_neg hu]
    by_cases hb : (c.checkLabels && g c.scope) = true
    · rw [if_pos hb]
      exact .inr ⟨⟨cause, offset⟩, s, rfl, hl⟩
    · rw [if_neg hb]
      exact hr c s

/-- A script that is read without checks is read alike with them, or fails at a label or a jump. -/
theorem run_agrees (c : Context) (source : List Char) :
    (run c source).result = (run c.unchecked source).result ∨
      ∃ f, (run c source).result = .error f ∧ f.cause.concernsLabels = true := by
  simp only [run]
  cases Lexer.next false (Cursor.ofText source) with
  | mk result cursor =>
    cases result with
    | error f => exact .inl rfl
    | ok token =>
      rcases agrees_inherited.program (agrees_inherited.readers c.limit) c
        ⟨token, Lexer.gap (Cursor.ofText source), [], cursor⟩ with he | ⟨f, u, he, hf⟩
      · left
        simp only [he]
        rfl
      · exact .inr ⟨f, by simp only [he], hf⟩

end Parser

/-- Reads a script without the checks of labels and jumps. -/
def parseUnchecked (source : String) (maxDepth : Nat) : Except Failure (Program Location) :=
  let cs := source.toList
  let ending := Parser.run (Parser.Context.ofText cs maxDepth).unchecked cs
  (ending.result.mapError (Fault.resolve (LineTable.ofText cs))).map (·.locate cs)

theorem parseUnchecked_eq_ok {source : String} {maxDepth : Nat} {p : Program Location} :
    parseUnchecked source maxDepth = .ok p ↔
      ∃ q, (Parser.run (Parser.Context.ofText source.toList maxDepth).unchecked
          source.toList).result = .ok q ∧ p = q.locate source.toList := by
  simp only [parseUnchecked]
  cases (Parser.run (Parser.Context.ofText source.toList maxDepth).unchecked source.toList).result with
  | ok q =>
    show Except.ok (q.locate source.toList) = .ok p ↔ _
    simp [eq_comm]
  | error f =>
    show Except.error _ = .ok p ↔ _
    simp

/-- The label stack is declarative scoping: the checks accept a script exactly if its tree is
scoped, and what they reject fails at a jump or a label. -/
theorem parse_eq_ok_iff_scoped (source : String) (maxDepth : Nat) (p : Program Location) :
    (parse source maxDepth = .ok p ↔ parseUnchecked source maxDepth = .ok p ∧ Scoped p.sites) ∧
      (parseUnchecked source maxDepth = .ok p → ¬ Scoped p.sites →
        ∃ f, parse source maxDepth = .error f ∧
          ((∃ j, f.cause = .invalidJump j) ∨ ∃ name, f.cause = .duplicateLabel name)) := by
  have accepts : parse source maxDepth = .ok p ↔
      parseUnchecked source maxDepth = .ok p ∧ Scoped p.sites := by
    rw [parse_eq_ok, parseUnchecked_eq_ok]
    constructor
    · rintro ⟨q, hq, rfl⟩
      obtain ⟨hq, hs⟩ := (Parser.run_eq_ok_iff_scoped rfl rfl).1 hq
      exact ⟨⟨q, hq, rfl⟩, (Program.scoped_map _ q).2 hs⟩
    · rintro ⟨⟨q, hq, rfl⟩, hs⟩
      exact ⟨q, (Parser.run_eq_ok_iff_scoped rfl rfl).2 ⟨hq, (Program.scoped_map _ q).1 hs⟩, rfl⟩
  refine ⟨accepts, ?_⟩
  intro hu hs
  rcases Parser.run_agrees (Parser.Context.ofText source.toList maxDepth) source.toList with
    he | ⟨f, he, hf⟩
  · have hp : parse source maxDepth = .ok p := by
      rw [parse_eq_ok, he]
      exact parseUnchecked_eq_ok.1 hu
    exact absurd (accepts.1 hp).2 hs
  · refine ⟨f.resolve (LineTable.ofText source.toList), ?_, ?_⟩
    · simp only [parse, parseSpans, he]
      rfl
    · revert hf
      cases f with
      | mk cause offset =>
        intro hf
        cases cause <;> cases hf
        · exact .inl ⟨_, rfl⟩
        · exact .inr ⟨_, rfl⟩

-- A jump from a function inside the loop to the outer of two stacked labels, and one to a label
-- that does not stand for a loop.
example : (parse "a: b: while (x) \x7b f(function () \x7b continue a \x7d) \x7d" 9).isOk = true := by
  decide +kernel

example : (parse "a: \x7b while (x) continue a \x7d" 9).isOk = false := by decide +kernel

/-- A break out of nothing: only the check of jumps rejects it. -/
theorem parse_eq_ok_iff_scoped_stray : ∃ p, parseUnchecked "break" 9 = .ok p ∧ ¬ Scoped p.sites ∧
    ∃ f, parse "break" 9 = .error f ∧
      ((∃ j, f.cause = .invalidJump j) ∨ ∃ name, f.cause = .duplicateLabel name) := by
  have hok : (parseUnchecked "break" 9).isOk = true := by decide +kernel
  have hno : (parse "break" 9).isOk = false := by decide +kernel
  cases hp : parseUnchecked "break" 9 with
  | ok p =>
    have hs : ¬ Scoped p.sites := by
      intro hs
      rw [(parse_eq_ok_iff_scoped _ _ p).1.2 ⟨hp, hs⟩] at hno
      cases hno
    exact ⟨p, rfl, hs, (parse_eq_ok_iff_scoped _ _ p).2 hp hs⟩
  | error f =>
    rw [hp] at hok
    cases hok

end ScriptTree
