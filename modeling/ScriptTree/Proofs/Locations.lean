import ScriptTree.Proofs.Frames
import ScriptTree.Proofs.Tokens

/-! # Locations are exact and nested

A node is located from the first token of it to the last token taken when it is finished. Tokens come
in order, so what has been read since a place lies between that place and the last token; `Chain`
says so of the parts of a node while they are read, and finishing the node closes the chain. -/
namespace ScriptTree

namespace Text

/-- A place between two characters of a text, or at one of its ends. -/
def Boundary (source : List Char) (n : Nat) : Prop :=
  ∃ before after, source = before ++ after ∧ bytes before = n

/-- Two boundaries cut out the text between them. -/
theorem Boundary.cut {source : List Char} {a b : Nat} (ha : Boundary source a)
    (hb : Boundary source b) (h : a ≤ b) : ∃ before text after, source = before ++ (text ++ after) ∧
      a = bytes before ∧ b = a + bytes text := by
  obtain ⟨x, x', hx, rfl⟩ := ha
  obtain ⟨y, y', hy, rfl⟩ := hb
  rcases List.append_eq_append_iff.1 (hx.symm.trans hy) with ⟨text, rfl, rfl⟩ | ⟨text, rfl, rfl⟩
  · exact ⟨x, text, y', hx, rfl, by simp⟩
  · obtain rfl : text = [] := eq_nil_of_bytes_eq_zero (by rw [bytes_append] at h; omega)
    exact ⟨y, [], x', by simpa using hy, by simp, by simp [bytes]⟩

end Text

/-- A location that is that of the text between two offsets. -/
structure Location.Marks (source : List Char) (l : Location) (a b : Nat) : Prop where
  text : ∃ before text after, source = before ++ (text ++ after) ∧ a = Text.bytes before ∧
    b = a + Text.bytes text ∧ l.source = String.ofList text
  start : l.start = (LineTable.ofText source).position a
  stop : l.stop = (LineTable.ofText source).position b

/-- A span between two boundaries. -/
def Span.Bounds (source : List Char) (n : Span) (a b : Nat) : Prop :=
  n = ⟨a, b⟩ ∧ Text.Boundary source a ∧ Text.Boundary source b

theorem Span.Bounds.marks {source : List Char} {n : Span} {a b : Nat} (h : n.Bounds source a b)
    (hle : a ≤ b) : (n.locate source (LineTable.ofText source)).Marks source a b := by
  obtain ⟨rfl, ha, hb⟩ := h
  obtain ⟨before, text, after, rfl, rfl, rfl⟩ := ha.cut hb hle
  refine ⟨⟨before, text, after, rfl, rfl, rfl, ?_⟩, rfl, rfl⟩
  rw [Span.locate, Text.slice_append, Option.getD_some]

namespace Parser

/-! ## Places of tokens -/

/-- The last token, the current one and the cursor stand in this order in the source. -/
structure State.Placed (source : List Char) (s : State) : Prop where
  cursor : ∃ before, source = before ++ s.cursor.rest ∧ Text.bytes before = s.cursor.offset
  last : Text.Boundary source s.lastEnd
  start : Text.Boundary source s.current.span.start
  last_le : s.lastEnd ≤ s.current.span.start
  start_le : s.current.span.start ≤ s.current.span.stop
  stop : s.current.span.stop = s.cursor.offset

variable {source : List Char}

theorem State.Placed.of_finds {flag : Bool} {c : Cursor} {text : List Char} {t : State}
    (h : Lexer.Finds flag c t.current text t.cursor)
    (hc : ∃ before, source = before ++ c.rest ∧ Text.bytes before = c.offset)
    (hlast : Text.Boundary source t.lastEnd) (hle : t.lastEnd ≤ c.offset) : t.Placed source := by
  obtain ⟨before, hsource, hb⟩ := hc
  rw [h.rest] at hsource
  have hstart := h.start
  have hstop := h.stop
  have hoffset := h.offset
  refine ⟨⟨before ++ (Lexer.gap c ++ text), by simpa using hsource, ?_⟩, hlast,
    ⟨before ++ Lexer.gap c, text ++ t.cursor.rest, by simpa using hsource, ?_⟩, ?_, ?_, ?_⟩
  · rw [Text.bytes_append, Text.bytes_append]
    omega
  · rw [Text.bytes_append]
    omega
  · omega
  · omega
  · omega

theorem Moves.lastEnd {flag s t} (h : Moves flag s t) : t.lastEnd = s.current.span.stop := by
  rw [State.lastEnd, h.earlier]

theorem State.Placed.moves {flag s t} (hs : s.Placed source) (h : Moves flag s t) :
    t.Placed source := by
  obtain ⟨text, hf⟩ := h.finds
  have hlast := h.lastEnd.trans hs.stop
  obtain ⟨before, hsource, hb⟩ := hs.cursor
  exact .of_finds hf ⟨before, hsource, hb⟩ (hlast ▸ ⟨before, _, hsource, hb⟩) (Nat.le_of_eq hlast)

theorem State.Begins.placed {s : State} (h : s.Begins source) : s.Placed source := by
  obtain ⟨text, hf⟩ := h.finds
  have hlast : s.lastEnd = 0 := by rw [State.lastEnd, h.1]
  exact .of_finds hf ⟨[], rfl, rfl⟩ (hlast ▸ ⟨[], source, rfl, rfl⟩) (by omega)

/-! ## Chains -/

/-- Frames of what was read since `lo`: they lie one after the other up to the last token taken. -/
structure Chain (source : List Char) (lo : Nat) (fs : List (Frame Span)) (s : State) : Prop where
  placed : s.Placed source
  nested : Nested (Span.Bounds source) fs lo s.lastEnd

/-- Readers that put down their frames from the current token on. -/
def Lays (source : List Char) (item : State → α → State → Prop) (g : α → List (Frame Span)) : Prop :=
  ∀ ⦃s x t⦄, item s x t → s.Placed source → Chain source s.current.span.start (g x) t

/-- Readers that add their frames to a chain. -/
def Adds (source : List Char) (item : State → α → State → Prop) (g : α → List (Frame Span)) : Prop :=
  ∀ ⦃s x t⦄, item s x t → ∀ {lo fs}, Chain source lo fs s → Chain source lo (fs ++ g x) t

variable {s t : State} {lo : Nat} {fs : List (Frame Span)}

theorem Chain.moves {flag} (h : Chain source lo fs s) (hm : Moves flag s t) :
    Chain source lo fs t := by
  refine ⟨h.placed.moves hm, h.nested.to_le ?_⟩
  rw [hm.lastEnd]
  exact Nat.le_trans h.placed.last_le h.placed.start_le

theorem Chain.ends (h : Chain source lo fs s) (he : Ends s t) : Chain source lo fs t := by
  cases he with
  | before _ => exact h
  | semicolon _ hm => exact h.moves hm
  | line _ _ => exact h

/-- The first token of a node. -/
theorem State.Placed.begins {flag} (hs : s.Placed source) (hm : Moves flag s t) :
    Chain source s.current.span.start [] t :=
  ⟨hs.moves hm, .nil (by rw [hm.lastEnd]; exact hs.start_le)⟩

theorem Lays.adds {item : State → α → State → Prop} {g} (h : Lays source item g) :
    Adds source item g := by
  intro s x t hx lo fs hs
  have ht := h hx hs.placed
  exact ⟨ht.placed, hs.nested.append (ht.nested.from_le hs.placed.last_le)⟩

/-- Finishing a node closes the chain of its parts. -/
theorem Chain.node {start : Nat} {parts : List (Frame Span)} (h : Chain source start parts t)
    (hs : Text.Boundary source start) : Chain source start [⟨t.since start, parts⟩] t := by
  have hmax : t.since start = ⟨start, t.lastEnd⟩ := by
    rw [State.since, Nat.max_eq_left h.nested.le]
  exact ⟨h.placed, .cons (Nat.le_refl _) ⟨hmax, hs, h.placed.last⟩ h.nested (.nil (Nat.le_refl _))⟩

/-! ## Lists -/

section
variable {item : State → α → State → Prop} {g : α → Frame Span}

theorem Items.adds {isLast} (h : Lays source item fun x => [g x]) :
    Adds source (Items isLast item) (List.map g) := by
  intro s xs t hxs
  induction hxs with
  | done _ =>
    intro lo fs hs
    simpa using hs
  | more _ hx _ ih =>
    intro lo fs hs
    simpa using ih (h.adds hx hs)

theorem AfterCommas.adds (h : Lays source item fun x => [g x]) :
    Adds source (AfterCommas item) (List.map g) := by
  intro s xs t hxs
  induction hxs with
  | done _ =>
    intro lo fs hs
    simpa using hs
  | more _ hm hx _ ih =>
    intro lo fs hs
    simpa using ih (h.adds hx (hs.moves hm))

theorem ClosedList.adds {last} (h : Lays source item fun x => [g x]) :
    Adds source (ClosedList last item) (List.map g) := by
  intro s xs t hxs lo fs hs
  cases hxs with
  | empty _ hm => simpa using hs.moves hm
  | filled _ hx hxs _ hm => simpa using (AfterCommas.adds h hxs (h.adds hx hs)).moves hm

theorem separated_adds {p : Parse α} {c} (h : Lays source (Returns p c) fun x => [g x]) :
    Adds source (Returns (separated p) c) (List.map g) := by
  intro s xs t hxs lo fs hs
  obtain ⟨x, u, ys, rfl, hx, hys, -⟩ := returns_separated.1 hxs
  simpa using AfterCommas.adds h hys (h.adds hx hs)

theorem closedList_adds {p : Parse α} {c last} (h : Lays source (Returns p c) fun x => [g x]) :
    Adds source (Returns (closedList last p) c) (List.map g) :=
  fun _ _ _ hxs _ _ hs => ClosedList.adds h (returns_closedList.1 hxs).1 hs

end

/-! ## Expressions -/

theorem identifier_lays {c} : Lays source (Returns identifier c) fun i => [Identifier.frame i] := by
  intro s i t h hs
  obtain ⟨name, -, hm, rfl⟩ := returns_identifier.1 h
  exact (hs.begins hm).node hs.start

theorem literal_lays {c} : Lays source (Returns literal c) fun l => [Literal.frame l] := by
  intro s l t h hs
  obtain ⟨v, -, hm, rfl⟩ := returns_literal.1 h
  exact (hs.begins hm).node hs.start

theorem propertyKey_lays {c} :
    Lays source (Returns propertyKey c) fun k => [PropertyKey.frame k] := by
  intro s key t h
  rcases returns_propertyKey.1 h with ⟨i, hi, rfl⟩ | ⟨l, hl, rfl⟩
  · exact identifier_lays hi
  · exact literal_lays hl

theorem parameters_adds {c} : Adds source (Returns parameters c) (List.map Identifier.frame) := by
  intro s ids t h lo fs hs
  obtain ⟨s₁, -, hm, hl, -⟩ := returns_parameters.1 h
  exact ClosedList.adds identifier_lays hl (hs.moves hm)

/-- Readers whose nodes are located. -/
structure Locating (source : List Char) (R : Readers) : Prop where
  statement {c} : Lays source (Returns R.statement c) fun x => [Stmt.frame x]
  expression {floor forHead c} :
    Lays source (Returns (R.expression floor forHead) c) fun e => [Expr.frame e]

section
variable {R : Readers} (hR : Locating source R) {c : Context}
include hR

theorem block_lays : Lays source (Returns (block R) c) fun b => [Block.frame b] := by
  intro s b t h hs
  obtain ⟨s₁, body, s₂, -, hm, hb, -, hm', rfl⟩ := returns_block.1 h
  simpa [Block.frame] using ((Items.adds hR.statement hb (hs.begins hm)).moves hm').node hs.start

theorem commaForm_lays {forHead} : Lays source (CommaForm R c forHead) fun e => [Expr.frame e] := by
  intro s e t h hs
  cases h with
  | single he _ _ => exact hR.expression he hs
  | joined he hes _ =>
    simpa [Expr.frame] using (AfterCommas.adds hR.expression hes (hR.expression he hs)).node hs.start

theorem property_lays : Lays source (Returns (property R) c) fun p => [Property.frame p] := by
  intro s p t h hs
  obtain ⟨key, s₁, s₂, value, hkey, -, hm, hv, rfl⟩ := returns_property.1 h
  simpa [Property.frame] using
    (hR.expression.adds hv ((propertyKey_lays hkey hs).moves hm)).node hs.start

theorem operand_lays : Lays source (OperandForm R c) fun e => [Expr.frame e] := by
  intro s e t h hs
  cases h with
  | group _ hm hes _ hm' =>
    simpa [Expr.frame] using
      ((separated_adds hR.expression hes (hs.begins hm)).moves hm').node hs.start
  | array _ hm hes =>
    simpa [Expr.frame] using (closedList_adds hR.expression hes (hs.begins hm)).node hs.start
  | newCall _ hm he =>
    -- The call is taken apart: its parts lie where it lay.
    have hc := hR.expression.adds he (hs.begins hm)
    rw [List.nil_append, Expr.frame] at hc
    exact Chain.node ⟨hc.placed, hc.nested.parts⟩ hs.start
  | newPlain _ hm he _ =>
    simpa [Expr.frame] using (hR.expression.adds he (hs.begins hm)).node hs.start
  | unary _ _ _ hm he =>
    simpa [Expr.frame] using (hR.expression.adds he (hs.begins hm)).node hs.start
  | update _ _ hm he _ =>
    simpa [Expr.frame] using (hR.expression.adds he (hs.begins hm)).node hs.start
  | literal hl => exact literal_lays hl hs
  | identifier hi => exact identifier_lays hi hs
  | this _ hm => exact (hs.begins hm).node hs.start
  | @function id _ _ _ s₂ _ _ _ hm hid hp hb =>
    have hname : Chain source s.current.span.start (Identifier.frameOption id) s₂ := by
      rcases hid with ⟨rfl, rfl, -⟩ | ⟨i, rfl, hi⟩
      · exact hs.begins hm
      · exact identifier_lays.adds hi (hs.begins hm)
    simpa [Expr.frame] using
      ((block_lays hR).adds hb (parameters_adds hp hname)).node hs.start
  | object _ hm hps =>
    simpa [Expr.frame] using (closedList_adds (property_lays hR) hps (hs.begins hm)).node hs.start

/-- One step after an operand encloses it. -/
theorem extendForm_chain {start forHead left q s e t}
    (h : ExtendForm R c start forHead left q s e t) (hstart : Text.Boundary source start)
    (hs : Chain source start [left.frame] s) : Chain source start [e.frame] t := by
  cases h with
  | call _ hm ha =>
    simpa [Expr.frame] using (closedList_adds hR.expression ha (hs.moves hm)).node hstart
  | index _ hm hp _ hm' =>
    simpa [Expr.frame] using (((commaForm_lays hR).adds hp (hs.moves hm)).moves hm').node hstart
  | binary _ _ hm hr =>
    simpa [Expr.frame] using (hR.expression.adds hr (hs.moves hm)).node hstart
  | assignment _ _ _ hm hr =>
    simpa [Expr.frame] using (hR.expression.adds hr (hs.moves hm)).node hstart
  | logical _ _ hm hr =>
    simpa [Expr.frame] using (hR.expression.adds hr (hs.moves hm)).node hstart
  | dot _ hm hp =>
    simpa [Expr.frame] using (hR.expression.adds hp (hs.moves hm)).node hstart
  | conditional _ hm hx _ hm' hy =>
    have htest := hR.expression.adds hx (hs.moves hm)
    simpa [Expr.frame] using (hR.expression.adds hy (htest.moves hm')).node hstart
  | update _ _ _ hm => simpa [Expr.frame] using (hs.moves hm).node hstart

theorem extended_chain {start floor forHead n left s e t}
    (h : Extended R c start floor forHead n left s e t) (hstart : Text.Boundary source start)
    (hs : Chain source start [left.frame] s) : Chain source start [e.frame] t := by
  induction h with
  | stop _ => exact hs
  | more _ he _ ih => exact ih (extendForm_chain hR he hstart hs)

theorem expression_lays {floor forHead} :
    Lays source (Returns (expression R floor forHead) c) fun e => [Expr.frame e] := by
  intro s e t h hs
  obtain ⟨first, u, n, ho, hx, -⟩ := returns_expression.1 h
  exact extended_chain hR hx hs.start (operand_lays hR ho hs)

/-! ## Statements -/

theorem commaExpression_lays {forHead} :
    Lays source (Returns (commaExpression R forHead) c) fun e => [Expr.frame e] :=
  fun _ _ _ h => commaForm_lays hR (returns_commaExpression.1 h)

theorem condition_adds : Adds source (Returns (condition R) c) fun e => [Expr.frame e] := by
  intro s e t h lo fs hs
  obtain ⟨s₁, s₂, -, hm, he, -, hm'⟩ := returns_condition.1 h
  exact ((commaForm_lays hR).adds he (hs.moves hm)).moves hm'

theorem loopBody_adds : Adds source (Returns (loopBody R) c) fun x => [Stmt.frame x] :=
  fun _ _ _ h _ _ hs => hR.statement.adds (returns_inScope.1 h) hs

theorem declarator_lays {forHead} :
    Lays source (Returns (declarator R forHead) c) fun d => [Declarator.frame d] := by
  intro s d t h hs
  obtain ⟨id, s₁, init, hi, ha, rfl⟩ := returns_declarator.1 h
  have hid := identifier_lays hi hs
  cases ha with
  | absent _ => simpa [Declarator.frame, Expr.frameOption] using hid.node hs.start
  | present _ hm he =>
    simpa [Declarator.frame, Expr.frameOption] using
      (hR.expression.adds he (hid.moves hm)).node hs.start

theorem declaration_lays {forHead} :
    Lays source (Returns (declaration R forHead) c) fun d => [Declaration.frame d] := by
  intro s d t h hs
  obtain ⟨s₁, ds, s₂, hm, hds, hend, rfl⟩ := returns_declaration.1 h
  have hparts := separated_adds (declarator_lays hR) hds (hs.begins hm)
  have hlast : Chain source s.current.span.start ([] ++ ds.map Declarator.frame) t := by
    rcases hend with ⟨-, rfl⟩ | ⟨-, he⟩
    · exact hparts
    · exact hparts.ends he
  simpa [Declaration.frame] using hlast.node hs.start

theorem switchCase_lays : Lays source (Returns (switchCase R) c) fun x => [SwitchCase.frame x] := by
  intro s x t h hs
  obtain ⟨test, s₁, s₂, body, hh, -, hm, hb, -, rfl⟩ := returns_switchCase.1 h
  have hhead : Chain source s.current.span.start (Expr.frameOption test) s₁ := by
    cases hh with
    | case _ hm' he => exact (commaForm_lays hR).adds he (hs.begins hm')
    | default _ hm' => exact hs.begins hm'
  simpa [SwitchCase.frame] using (Items.adds hR.statement hb (hhead.moves hm)).node hs.start

theorem cases_adds {b} : Adds source (Cases R c b) (List.map SwitchCase.frame) := by
  intro s xs t hxs
  induction hxs with
  | done _ =>
    intro lo fs hs
    simpa using hs
  | more _ hx _ _ ih =>
    intro lo fs hs
    simpa using ih ((switchCase_lays hR).adds hx hs)

theorem handlerForm_adds : Adds source (HandlerForm R c) CatchClause.frameOption := by
  intro s x t h lo fs hs
  cases h with
  | absent _ => simpa [CatchClause.frameOption] using hs
  | present _ hx =>
    have hlays : Lays source (Returns (catchClause R) c) fun x => [CatchClause.frame x] := by
      intro s x t h hs
      obtain ⟨s₁, s₂, param, s₃, s₄, body, hm, -, hm₁, hp, -, hm₂, hb, rfl⟩ :=
        returns_catchClause.1 h
      have hparam := identifier_lays.adds hp ((hs.begins hm).moves hm₁)
      simpa [CatchClause.frame] using ((block_lays hR).adds hb (hparam.moves hm₂)).node hs.start
    exact hlays.adds hx hs

theorem Unless.adds {k} : Adds source (Unless k (commaExpression R false) c) Expr.frameOption := by
  intro s x t h lo fs hs
  cases h with
  | absent _ => simpa [Expr.frameOption] using hs
  | present _ he => exact (commaExpression_lays hR).adds he hs

theorem forTail_chain {s test update body t} (h : ForTail R c s test update body t)
    (hs : Chain source lo fs s) : Chain source lo
      (fs ++ Expr.frameOption test ++ Expr.frameOption update ++ [body.frame]) t := by
  obtain ⟨-, hm, ht, -, hm', hu, -, hm'', hb⟩ := h
  have htest := Unless.adds hR ht (hs.moves hm)
  have hupdate := Unless.adds hR hu (htest.moves hm')
  exact loopBody_adds hR hb (hupdate.moves hm'')

theorem forInTail_chain {s object body t} (h : ForInTail R c s object body t)
    (hs : Chain source lo fs s) : Chain source lo (fs ++ [object.frame] ++ [body.frame]) t := by
  obtain ⟨-, hm, ho, -, hm', hb⟩ := h
  have hobject := (commaForm_lays hR).adds ho (hs.moves hm)
  exact loopBody_adds hR hb (hobject.moves hm')

theorem forForm_chain {start s x t} (h : ForForm R c start s x t)
    (hstart : Text.Boundary source start) (hs : Chain source start [] s) :
    Chain source start [x.frame] t := by
  cases h with
  | counted _ hd ht =>
    simpa [Stmt.frame, ForInit.frameOption, ForInit.frame] using
      (forTail_chain hR ht ((declaration_lays hR).adds hd hs)).node hstart
  | bound _ hd _ ht =>
    simpa [Stmt.frame, ForTarget.frame] using
      (forInTail_chain hR ht ((declaration_lays hR).adds hd hs)).node hstart
  | bare ht =>
    simpa [Stmt.frame, ForInit.frameOption] using (forTail_chain hR ht hs).node hstart
  | named _ _ he ht =>
    simpa [Stmt.frame, ForTarget.frame, Expr.frame] using
      (forInTail_chain hR ht ((commaForm_lays hR).adds he hs)).node hstart
  | started _ _ he ht =>
    simpa [Stmt.frame, ForInit.frameOption, ForInit.frame] using
      (forTail_chain hR ht ((commaForm_lays hR).adds he hs)).node hstart

theorem statementForm_lays {stacked} :
    Lays source (StatementForm R c stacked) fun x => [Stmt.frame x] := by
  intro s x t h hs
  cases h with
  | empty _ hm => simpa [Stmt.frame] using (hs.begins hm).node hs.start
  | block _ hb => exact block_lays hR hb hs
  | expression _ he _ hend =>
    simpa [Stmt.frame] using ((commaForm_lays hR he hs).ends hend).node hs.start
  | labeled _ he _ hm _ hb =>
    simpa [Stmt.frame, Expr.frame] using
      (hR.statement.adds hb ((commaForm_lays hR he hs).moves hm)).node hs.start
  | «if» _ hm hc hx hy =>
    have hthen := hR.statement.adds hx (condition_adds hR hc (hs.begins hm))
    cases hy with
    | absent _ => simpa [Stmt.frame, Stmt.frameOption] using hthen.node hs.start
    | present _ hm' hz =>
      simpa [Stmt.frame, Stmt.frameOption] using
        (hR.statement.adds hz (hthen.moves hm')).node hs.start
  | debugger _ hm hend => simpa [Stmt.frame] using ((hs.begins hm).ends hend).node hs.start
  | «with» _ hm he hb =>
    simpa [Stmt.frame] using
      (hR.statement.adds hb (condition_adds hR he (hs.begins hm))).node hs.start
  | «return» _ hm he =>
    cases he with
    | absent hend =>
      simpa [Stmt.frame, Expr.frameOption] using ((hs.begins hm).ends hend).node hs.start
    | present _ _ he hend =>
      simpa [Stmt.frame, Expr.frameOption] using
        (((commaExpression_lays hR).adds he (hs.begins hm)).ends hend).node hs.start
  | throw _ hm he =>
    cases he with
    | present _ _ he hend =>
      simpa [Stmt.frame] using
        (((commaExpression_lays hR).adds he (hs.begins hm)).ends hend).node hs.start
  | @jump j _ label _ _ hm hl _ =>
    have hframe : (jumpNode (t.since s.current.span.start) label j).frame
        = ⟨t.since s.current.span.start, Identifier.frameOption label⟩ := by
      cases j <;> rw [jumpNode, Stmt.frame]
    show Chain source s.current.span.start [Stmt.frame _] t
    rw [hframe]
    cases hl with
    | absent hend => exact ((hs.begins hm).ends hend).node hs.start
    | present _ _ hi hend => exact ((identifier_lays.adds hi (hs.begins hm)).ends hend).node hs.start
  | switch _ hm he _ hm' hc _ hm'' =>
    have hhead := condition_adds hR he (hs.begins hm)
    simpa [Stmt.frame] using ((cases_adds hR hc (hhead.moves hm')).moves hm'').node hs.start
  | «try» _ hm hb hh hf =>
    have hhandler := handlerForm_adds hR hh ((block_lays hR).adds hb (hs.begins hm))
    cases hf with
    | absent _ => simpa [Stmt.frame, Block.frameOption] using hhandler.node hs.start
    | present _ hm' hf =>
      simpa [Stmt.frame, Block.frameOption] using
        ((block_lays hR).adds hf (hhandler.moves hm')).node hs.start
  | «while» _ hm he hb =>
    simpa [Stmt.frame] using
      (loopBody_adds hR hb (condition_adds hR he (hs.begins hm))).node hs.start
  | doWhile _ hm hb _ hm' he =>
    have hbody := loopBody_adds hR hb (hs.begins hm)
    simpa [Stmt.frame] using (condition_adds hR he (hbody.moves hm')).node hs.start
  | declaration _ hd => exact declaration_lays hR hd hs
  | «for» _ hm _ hm' hf => exact forForm_chain hR hf hs.start ((hs.begins hm).moves hm')
  | function _ hm hi hp hb =>
    have hparams := parameters_adds hp (identifier_lays.adds hi (hs.begins hm))
    simpa [Stmt.frame] using ((block_lays hR).adds hb hparams).node hs.start

end

/-- The readers of every level locate their nodes, because each level only combines the one below. -/
theorem readers_locating (n : Nat) : Locating source (readers n) := by
  induction n with
  | zero =>
    constructor
    · intro c s x t h
      exact absurd h returns_tooDeep
    · intro floor forHead c s e t h
      exact absurd h returns_tooDeep
  | succ n ih =>
    constructor
    · intro c s x t h
      exact statementForm_lays ih (returns_statement.1 h)
    · intro floor forHead c
      exact expression_lays ih

/-- A script is located from its first token on. One without statements is located at its end. -/
theorem program_nested {n c s p t} (h : Returns (program (readers n)) c s p t)
    (hs : s.Placed source) :
    Nested (Span.Bounds source) [p.frame] s.current.span.start t.current.span.start ∧
      t.Placed source := by
  obtain ⟨body, hb, -, rfl⟩ := returns_program.1 h
  cases hb with
  | done _ =>
    have hmax : s.since s.current.span.start = ⟨s.current.span.start, s.current.span.start⟩ := by
      rw [State.since, Nat.max_eq_right hs.last_le]
    exact ⟨.cons (Nat.le_refl _) ⟨hmax, hs.start, hs.start⟩ (.nil (Nat.le_refl _))
      (.nil (Nat.le_refl _)), hs⟩
  | more _ hx hxs =>
    have hfirst := (readers_locating n).statement hx hs
    have hbody := Items.adds (readers_locating n).statement hxs hfirst
    have hnode := (hbody.node hs.start).nested.to_le hbody.placed.last_le
    exact ⟨by simpa [Program.frame] using hnode, hbody.placed⟩

end Parser

/-- Locations are exact and nested: every node of a script is located by the text between two places
of the source, with their positions; its parts lie between the same places, one after the other. -/
theorem parse_located {source : String} {maxDepth : Nat} {p : Program Location}
    (h : parse source maxDepth = .ok p) :
    Nested (Location.Marks source.toList) [p.frame] 0 (Text.bytes source.toList) := by
  obtain ⟨q, hq, rfl⟩ := parse_eq_ok.1 h
  obtain ⟨s, t, hb, hp⟩ := Parser.run_eq_ok.1 hq
  obtain ⟨hn, ht⟩ := Parser.program_nested hp hb.placed
  have hstop : t.current.span.start ≤ Text.bytes source.toList := by
    obtain ⟨before, after, hcut, hbytes⟩ := ht.start
    rw [hcut, Text.bytes_append]
    omega
  rw [Program.locate, Program.frame_map]
  exact ((hn.from_le (Nat.zero_le _)).to_le hstop).map fun _ _ _ hle hb => hb.marks hle

/-- A script with line breaks, a character of two bytes and a call that `new` takes apart. -/
theorem parse_located_construction : ∃ p, parse "s = 'é'\nx = new y(z) ;" 9 = .ok p ∧
    Nested (Location.Marks "s = 'é'\nx = new y(z) ;".toList) [p.frame] 0
      (Text.bytes "s = 'é'\nx = new y(z) ;".toList) := by
  have hok : (parse "s = 'é'\nx = new y(z) ;" 9).isOk = true := by decide +kernel
  obtain ⟨p, hp⟩ := exists_parse_of_isOk hok
  exact ⟨p, hp, parse_located hp⟩

end ScriptTree
