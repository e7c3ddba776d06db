import ScriptTree.Proofs.StatementForms

/-! # A law of every expression in a tree

`nodes` lists the expressions of a tree, each before its parts, those inside function bodies
included. A law that each production establishes for the node it builds, from what it knows about
the parts it has read, holds of every node of every script. -/
namespace ScriptTree

mutual
def Expr.nodes : Expr α → List (Expr α)
  | .identifier i => [.identifier i]
  | .literal l => [.literal l]
  | .this note => [.this note]
  | .array note es => .array note es :: Expr.nodesList es
  | .object note ps => .object note ps :: Property.nodesList ps
  | .function note id params body => .function note id params body :: body.nodes
  | .unary note op e => .unary note op e :: e.nodes
  | .update note op e leading => .update note op e leading :: e.nodes
  | .binary note op l r => .binary note op l r :: (l.nodes ++ r.nodes)
  | .logical note op l r => .logical note op l r :: (l.nodes ++ r.nodes)
  | .assignment note op l r => .assignment note op l r :: (l.nodes ++ r.nodes)
  | .conditional note t x y => .conditional note t x y :: (t.nodes ++ x.nodes ++ y.nodes)
  | .member note o p dotted => .member note o p dotted :: (o.nodes ++ p.nodes)
  | .call note f es => .call note f es :: (f.nodes ++ Expr.nodesList es)
  | .new note f es => .new note f es :: (f.nodes ++ Expr.nodesList es)
  | .sequence note es => .sequence note es :: Expr.nodesList es
def Expr.nodesList : List (Expr α) → List (Expr α)
  | [] => []
  | e :: es => e.nodes ++ Expr.nodesList es
def Expr.nodesOption : Option (Expr α) → List (Expr α)
  | none => []
  | some e => e.nodes
def Property.nodes : Property α → List (Expr α)
  | .mk _ _ value => value.nodes
def Property.nodesList : List (Property α) → List (Expr α)
  | [] => []
  | p :: ps => p.nodes ++ Property.nodesList ps
def Block.nodes : Block α → List (Expr α)
  | .mk _ body => Stmt.nodesList body
def Block.nodesOption : Option (Block α) → List (Expr α)
  | none => []
  | some b => b.nodes
def Declarator.nodes : Declarator α → List (Expr α)
  | .mk _ _ init => Expr.nodesOption init
def Declarator.nodesList : List (Declarator α) → List (Expr α)
  | [] => []
  | d :: ds => d.nodes ++ Declarator.nodesList ds
def Declaration.nodes : Declaration α → List (Expr α)
  | .mk _ ds => Declarator.nodesList ds
def SwitchCase.nodes : SwitchCase α → List (Expr α)
  | .mk _ test body => Expr.nodesOption test ++ Stmt.nodesList body
def SwitchCase.nodesList : List (SwitchCase α) → List (Expr α)
  | [] => []
  | c :: cs => c.nodes ++ SwitchCase.nodesList cs
def CatchClause.nodes : CatchClause α → List (Expr α)
  | .mk _ _ body => body.nodes
def CatchClause.nodesOption : Option (CatchClause α) → List (Expr α)
  | none => []
  | some c => c.nodes
def ForInit.nodes : ForInit α → List (Expr α)
  | .declaration d => d.nodes
  | .expression e => e.nodes
def ForInit.nodesOption : Option (ForInit α) → List (Expr α)
  | none => []
  | some i => i.nodes
def ForTarget.nodes : ForTarget α → List (Expr α)
  | .declaration d => d.nodes
  | .identifier _ => []
def Stmt.nodes : Stmt α → List (Expr α)
  | .empty _ | .debugger _ | .break _ _ | .continue _ _ => []
  | .block b => b.nodes
  | .expression _ e | .throw _ e => e.nodes
  | .declaration d => d.nodes
  | .if _ t x y => t.nodes ++ x.nodes ++ Stmt.nodesOption y
  | .with _ e b | .while _ e b => e.nodes ++ b.nodes
  | .return _ e => Expr.nodesOption e
  | .switch _ e cs => e.nodes ++ SwitchCase.nodesList cs
  | .try _ b h f => b.nodes ++ CatchClause.nodesOption h ++ Block.nodesOption f
  | .doWhile _ b e => b.nodes ++ e.nodes
  | .for _ i t u b =>
    ForInit.nodesOption i ++ Expr.nodesOption t ++ Expr.nodesOption u ++ b.nodes
  | .forIn _ t e b => t.nodes ++ e.nodes ++ b.nodes
  | .function _ _ _ body => body.nodes
  | .labeled _ _ b => b.nodes
def Stmt.nodesOption : Option (Stmt α) → List (Expr α)
  | none => []
  | some s => s.nodes
def Stmt.nodesList : List (Stmt α) → List (Expr α)
  | [] => []
  | s :: ss => s.nodes ++ Stmt.nodesList ss
end

/-- The expressions of a script. -/
def Program.nodes (p : Program α) : List (Expr α) := Stmt.nodesList p.body

@[simp] theorem Expr.nodesList_eq (es : List (Expr α)) :
    Expr.nodesList es = es.flatMap Expr.nodes := by
  induction es with
  | nil => rfl
  | cons e es ih => simp [Expr.nodesList, ih]

@[simp] theorem Property.nodesList_eq (ps : List (Property α)) :
    Property.nodesList ps = ps.flatMap Property.nodes := by
  induction ps with
  | nil => rfl
  | cons p ps ih => simp [Property.nodesList, ih]

@[simp] theorem Declarator.nodesList_eq (ds : List (Declarator α)) :
    Declarator.nodesList ds = ds.flatMap Declarator.nodes := by
  induction ds with
  | nil => rfl
  | cons d ds ih => simp [Declarator.nodesList, ih]

@[simp] theorem SwitchCase.nodesList_eq (cs : List (SwitchCase α)) :
    SwitchCase.nodesList cs = cs.flatMap SwitchCase.nodes := by
  induction cs with
  | nil => rfl
  | cons c cs ih => simp [SwitchCase.nodesList, ih]

@[simp] theorem Stmt.nodesList_eq (ss : List (Stmt α)) :
    Stmt.nodesList ss = ss.flatMap Stmt.nodes := by
  induction ss with
  | nil => rfl
  | cons s ss ih => simp [Stmt.nodesList, ih]

mutual
theorem Expr.nodes_map (f : α → β) : ∀ e : Expr α, (e.map f).nodes = e.nodes.map (Expr.map f)
  | .identifier _ | .literal _ | .this _ => rfl
  | .array _ es | .sequence _ es => by
    simp only [Expr.map, Expr.nodes, List.map_cons, Expr.nodesList_map f es]
  | .object _ ps => by
    simp only [Expr.map, Expr.nodes, List.map_cons, Property.nodesList_map f ps]
  | .function _ id params body => by
    simp only [Expr.map, Expr.nodes, List.map_cons, Block.nodes_map f body]
  | .unary _ op e | .update _ op e _ => by
    simp only [Expr.map, Expr.nodes, List.map_cons, Expr.nodes_map f e]
  | .binary _ op l r | .logical _ op l r | .assignment _ op l r | .member _ l r _ => by
    simp only [Expr.map, Expr.nodes, List.map_cons, List.map_append, Expr.nodes_map f l,
      Expr.nodes_map f r]
  | .conditional _ t x y => by
    simp only [Expr.map, Expr.nodes, List.map_cons, List.map_append, Expr.nodes_map f t,
      Expr.nodes_map f x, Expr.nodes_map f y]
  | .call _ g es | .new _ g es => by
    simp only [Expr.map, Expr.nodes, List.map_cons, List.map_append, Expr.nodes_map f g,
      Expr.nodesList_map f es]
theorem Expr.nodesList_map (f : α → β) : ∀ es : List (Expr α),
    Expr.nodesList (Expr.mapList f es) = (Expr.nodesList es).map (Expr.map f)
  | [] => rfl
  | e :: es => by
    simp only [Expr.mapList, Expr.nodesList, List.map_append, Expr.nodes_map f e,
      Expr.nodesList_map f es]
theorem Expr.nodesOption_map (f : α → β) : ∀ e : Option (Expr α),
    Expr.nodesOption (Expr.mapOption f e) = (Expr.nodesOption e).map (Expr.map f)
  | none => rfl
  | some e => Expr.nodes_map f e
theorem Property.nodesList_map (f : α → β) : ∀ ps : List (Property α),
    Property.nodesList (Property.mapList f ps) = (Property.nodesList ps).map (Expr.map f)
  | [] => rfl
  | .mk _ k v :: ps => by
    simp only [Property.mapList, Property.map, Property.nodesList, Property.nodes, List.map_append,
      Expr.nodes_map f v, Property.nodesList_map f ps]
theorem Block.nodes_map (f : α → β) : ∀ b : Block α, (b.map f).nodes = b.nodes.map (Expr.map f)
  | .mk _ ss => Stmt.nodesList_map f ss
theorem Block.nodesOption_map (f : α → β) : ∀ b : Option (Block α),
    Block.nodesOption (Block.mapOption f b) = (Block.nodesOption b).map (Expr.map f)
  | none => rfl
  | some b => Block.nodes_map f b
theorem Declarator.nodesList_map (f : α → β) : ∀ ds : List (Declarator α),
    Declarator.nodesList (Declarator.mapList f ds) = (Declarator.nodesList ds).map (Expr.map f)
  | [] => rfl
  | .mk _ id init :: ds => by
    simp only [Declarator.mapList, Declarator.map, Declarator.nodesList, Declarator.nodes,
      List.map_append, Expr.nodesOption_map f init, Declarator.nodesList_map f ds]
theorem Declaration.nodes_map (f : α → β) : ∀ d : Declaration α,
    (d.map f).nodes = d.nodes.map (Expr.map f)
  | .mk _ ds => Declarator.nodesList_map f ds
theorem SwitchCase.nodesList_map (f : α → β) : ∀ cs : List (SwitchCase α),
    SwitchCase.nodesList (SwitchCase.mapList f cs) = (SwitchCase.nodesList cs).map (Expr.map f)
  | [] => rfl
  | .mk _ test body :: cs => by
    simp only [SwitchCase.mapList, SwitchCase.map, SwitchCase.nodesList, SwitchCase.nodes,
      List.map_append, Expr.nodesOption_map f test, Stmt.nodesList_map f body,
      SwitchCase.nodesList_map f cs]
theorem CatchClause.nodesOption_map (f : α → β) : ∀ c : Option (CatchClause α),
    CatchClause.nodesOption (CatchClause.mapOption f c) =
      (CatchClause.nodesOption c).map (Expr.map f)
  | none => rfl
  | some (.mk _ _ body) => Block.nodes_map f body
theorem ForInit.nodesOption_map (f : α → β) : ∀ i : Option (ForInit α),
    ForInit.nodesOption (ForInit.mapOption f i) = (ForInit.nodesOption i).map (Expr.map f)
  | none => rfl
  | some (.declaration d) => Declaration.nodes_map f d
  | some (.expression e) => Expr.nodes_map f e
theorem ForTarget.nodes_map (f : α → β) : ∀ t : ForTarget α,
    (t.map f).nodes = t.nodes.map (Expr.map f)
  | .declaration d => Declaration.nodes_map f d
  | .identifier _ => rfl
theorem Stmt.nodes_map (f : α → β) : ∀ s : Stmt α, (s.map f).nodes = s.nodes.map (Expr.map f)
  | .empty _ | .debugger _ | .break _ _ | .continue _ _ => rfl
  | .block b => Block.nodes_map f b
  | .expression _ e | .throw _ e => Expr.nodes_map f e
  | .declaration d => Declaration.nodes_map f d
  | .if _ t x y => by
    simp only [Stmt.map, Stmt.nodes, List.map_append, Expr.nodes_map f t, Stmt.nodes_map f x,
      Stmt.nodesOption_map f y]
  | .with _ e b | .while _ e b | .doWhile _ b e => by
    simp only [Stmt.map, Stmt.nodes, List.map_append, Expr.nodes_map f e, Stmt.nodes_map f b]
  | .return _ e => Expr.nodesOption_map f e
  | .switch _ e cs => by
    simp only [Stmt.map, Stmt.nodes, List.map_append, Expr.nodes_map f e,
      SwitchCase.nodesList_map f cs]
  | .try _ b h e => by
    simp only [Stmt.map, Stmt.nodes, List.map_append, Block.nodes_map f b,
      CatchClause.nodesOption_map f h, Block.nodesOption_map f e]
  | .for _ i t u b => by
    simp only [Stmt.map, Stmt.nodes, List.map_append, ForInit.nodesOption_map f i,
      Expr.nodesOption_map f t, Expr.nodesOption_map f u, Stmt.nodes_map f b]
  | .forIn _ t e b => by
    simp only [Stmt.map, Stmt.nodes, List.map_append, ForTarget.nodes_map f t,
      Expr.nodes_map f e, Stmt.nodes_map f b]
  | .function _ id params body => Block.nodes_map f body
  | .labeled _ l b => Stmt.nodes_map f b
theorem Stmt.nodesOption_map (f : α → β) : ∀ s : Option (Stmt α),
    Stmt.nodesOption (Stmt.mapOption f s) = (Stmt.nodesOption s).map (Expr.map f)
  | none => rfl
  | some s => Stmt.nodes_map f s
theorem Stmt.nodesList_map (f : α → β) : ∀ ss : List (Stmt α),
    Stmt.nodesList (Stmt.mapList f ss) = (Stmt.nodesList ss).map (Expr.map f)
  | [] => rfl
  | s :: ss => by
    simp only [Stmt.mapList, Stmt.nodesList, List.map_append, Stmt.nodes_map f s,
      Stmt.nodesList_map f ss]
end

/-- Changing the notes changes each node in place. -/
theorem Program.nodes_map (f : α → β) (p : Program α) :
    (p.map f).nodes = p.nodes.map (Expr.map f) :=
  Stmt.nodesList_map f p.body

namespace Parser

/-! ## Lists of parts -/

/-- Whatever is read has a property. -/
def Every (item : State → α → State → Prop) (Q : α → Prop) : Prop := ∀ ⦃s x t⦄, item s x t → Q x

variable {item : State → α → State → Prop} {Q : α → Prop}

theorem Items.forall_mem {isLast} (hq : Every item Q) :
    Every (Items isLast item) fun xs => ∀ x ∈ xs, Q x := by
  intro s xs t h
  induction h with
  | done _ => simp
  | more _ hx _ ih => exact List.forall_mem_cons.2 ⟨hq hx, ih⟩

theorem AfterCommas.forall_mem (hq : Every item Q) :
    Every (AfterCommas item) fun xs => ∀ x ∈ xs, Q x := by
  intro s xs t h
  induction h with
  | done _ => simp
  | more _ _ hx _ ih => exact List.forall_mem_cons.2 ⟨hq hx, ih⟩

theorem separated_forall_mem {p : Parse α} {c} (hq : Every (Returns p c) Q) :
    Every (Returns (separated p) c) fun xs => ∀ x ∈ xs, Q x := by
  intro s xs t h
  obtain ⟨x, u, ys, rfl, hx, hys, -⟩ := returns_separated.1 h
  exact List.forall_mem_cons.2 ⟨hq hx, AfterCommas.forall_mem hq hys⟩

theorem closedList_forall_mem {p : Parse α} {last c} (hq : Every (Returns p c) Q) :
    Every (Returns (closedList last p) c) fun xs => ∀ x ∈ xs, Q x := by
  intro s xs t h
  cases (returns_closedList.1 h).1 with
  | empty _ _ => simp
  | filled _ hx hxs _ _ => exact List.forall_mem_cons.2 ⟨hq hx, AfterCommas.forall_mem hq hxs⟩

/-! ## The law of a node -/

/-- What is known of an expression when its reader stops: `J`, and that the current token does not
go on with it. -/
def Ended (J : Nat → Bool → Expr Span → TokenKind → Prop) (R : Readers) : Prop :=
  ∀ ⦃floor forHead c s e t⦄, Returns (R.expression floor forHead) c s e t →
    J floor forHead e t.current.kind ∧ continuation? floor forHead t.current.kind = none

/-- `P` is established at each node as it is built, and `J` is kept while an expression goes on. -/
structure Local (P : Expr Span → Prop) (J : Nat → Bool → Expr Span → TokenKind → Prop) : Prop where
  operand {R c s e t} (floor : Nat) (forHead : Bool) : Ended J R → OperandForm R c s e t →
    P e ∧ J floor forHead e t.current.kind
  extend {R c start floor forHead left q s e t} : Ended J R →
    J floor forHead left s.current.kind → continuation? floor forHead s.current.kind = some q →
    ExtendForm R c start forHead left q s e t → P e ∧ J floor forHead e t.current.kind
  sequence {note e x xs} : P (.sequence note (e :: x :: xs))

/-- Readers whose trees obey `P` everywhere. -/
structure Obeys (P : Expr Span → Prop) (J : Nat → Bool → Expr Span → TokenKind → Prop)
    (R : Readers) : Prop where
  ended : Ended J R
  statement {c} : Every (Returns R.statement c) fun x => ∀ e ∈ x.nodes, P e
  expression {floor forHead c} :
    Every (Returns (R.expression floor forHead) c) fun e => ∀ x ∈ e.nodes, P x

section
variable {P : Expr Span → Prop} {J : Nat → Bool → Expr Span → TokenKind → Prop} {R : Readers}
  {c : Context} {s t : State}

theorem block_obeys (hR : Obeys P J R) {b} (h : Returns (block R) c s b t) :
    ∀ e ∈ b.nodes, P e := by
  obtain ⟨s₁, body, s₂, hk, hm, hb, -, hm', rfl⟩ := returns_block.1 h
  rw [Block.nodes, Stmt.nodesList_eq]
  exact List.forall_mem_flatMap.2 (Items.forall_mem hR.statement hb)

theorem commaForm_obeys (hP : Local P J) (hR : Obeys P J R) {forHead e}
    (h : CommaForm R c forHead s e t) : ∀ x ∈ e.nodes, P x := by
  cases h with
  | single he _ _ => exact hR.expression he
  | joined he hes _ =>
    rw [Expr.nodes, Expr.nodesList_eq, List.forall_mem_cons]
    exact ⟨hP.sequence, List.forall_mem_flatMap.2
      (List.forall_mem_cons.2 ⟨hR.expression he, AfterCommas.forall_mem hR.expression hes⟩)⟩

theorem property_obeys (hR : Obeys P J R) {p} (h : Returns (property R) c s p t) :
    ∀ e ∈ p.nodes, P e := by
  obtain ⟨key, s₁, s₂, value, hkey, hk, hm, hv, rfl⟩ := returns_property.1 h
  exact hR.expression hv

theorem operand_obeys (hP : Local P J) (hR : Obeys P J R) {e} (h : OperandForm R c s e t) :
    ∀ x ∈ e.nodes, P x := by
  have hr := (hP.operand 0 false hR.ended h).1
  cases h with
  | group _ _ hes _ _ =>
    rw [Expr.nodes, Expr.nodesList_eq, List.forall_mem_cons]
    exact ⟨hr, List.forall_mem_flatMap.2 (separated_forall_mem hR.expression hes)⟩
  | array _ _ hes =>
    rw [Expr.nodes, Expr.nodesList_eq, List.forall_mem_cons]
    exact ⟨hr, List.forall_mem_flatMap.2 (closedList_forall_mem hR.expression hes)⟩
  | newCall _ _ he =>
    have hc := hR.expression he
    simp only [Expr.nodes, List.forall_mem_cons] at hc
    rw [Expr.nodes, List.forall_mem_cons]
    exact ⟨hr, hc.2⟩
  | newPlain _ _ he _ =>
    rw [Expr.nodes, Expr.nodesList, List.append_nil, List.forall_mem_cons]
    exact ⟨hr, hR.expression he⟩
  | unary _ _ _ _ he =>
    rw [Expr.nodes, List.forall_mem_cons]
    exact ⟨hr, hR.expression he⟩
  | update _ _ _ he _ =>
    rw [Expr.nodes, List.forall_mem_cons]
    exact ⟨hr, hR.expression he⟩
  | literal _ => simpa [Expr.nodes] using hr
  | identifier _ => simpa [Expr.nodes] using hr
  | this _ _ => simpa [Expr.nodes] using hr
  | function _ _ _ _ hb =>
    rw [Expr.nodes, List.forall_mem_cons]
    exact ⟨hr, block_obeys hR hb⟩
  | object _ _ hps =>
    rw [Expr.nodes, Property.nodesList_eq, List.forall_mem_cons]
    exact ⟨hr, List.forall_mem_flatMap.2
      (closedList_forall_mem (fun _ _ _ h => property_obeys hR h) hps)⟩

theorem extendForm_obeys (hP : Local P J) (hR : Obeys P J R) {start forHead left q e}
    (hl : ∀ x ∈ left.nodes, P x) (hr : P e) (h : ExtendForm R c start forHead left q s e t) :
    ∀ x ∈ e.nodes, P x := by
  cases h with
  | call _ _ ha =>
    rw [Expr.nodes, Expr.nodesList_eq, List.forall_mem_cons, List.forall_mem_append]
    exact ⟨hr, hl, List.forall_mem_flatMap.2 (closedList_forall_mem hR.expression ha)⟩
  | index _ _ hp _ _ =>
    rw [Expr.nodes, List.forall_mem_cons, List.forall_mem_append]
    exact ⟨hr, hl, commaForm_obeys hP hR hp⟩
  | binary _ _ _ h | assignment _ _ _ _ h | logical _ _ _ h | dot _ _ h =>
    rw [Expr.nodes, List.forall_mem_cons, List.forall_mem_append]
    exact ⟨hr, hl, hR.expression h⟩
  | conditional _ _ hx _ _ hy =>
    rw [Expr.nodes, List.forall_mem_cons, List.forall_mem_append, List.forall_mem_append]
    exact ⟨hr, ⟨hl, hR.expression hx⟩, hR.expression hy⟩
  | update _ _ _ _ =>
    rw [Expr.nodes, List.forall_mem_cons]
    exact ⟨hr, hl⟩

theorem extended_obeys (hP : Local P J) (hR : Obeys P J R) {start floor forHead n left e}
    (h : Extended R c start floor forHead n left s e t) :
    (∀ x ∈ left.nodes, P x) → J floor forHead left s.current.kind →
      (∀ x ∈ e.nodes, P x) ∧ J floor forHead e t.current.kind := by
  induction h with
  | stop _ =>
    intro hl hj
    exact ⟨hl, hj⟩
  | more hc he _ ih =>
    intro hl hj
    obtain ⟨hr, hj⟩ := hP.extend hR.ended hj hc he
    exact ih (extendForm_obeys hP hR hl hr he) hj

theorem expression_obeys (hP : Local P J) (hR : Obeys P J R) {floor forHead e}
    (h : Returns (expression R floor forHead) c s e t) :
    (∀ x ∈ e.nodes, P x) ∧ J floor forHead e t.current.kind ∧
      continuation? floor forHead t.current.kind = none := by
  obtain ⟨first, u, n, ho, hx, -⟩ := returns_expression.1 h
  obtain ⟨hnodes, hj⟩ :=
    extended_obeys hP hR hx (operand_obeys hP hR ho) (hP.operand floor forHead hR.ended ho).2
  exact ⟨hnodes, hj, hx.ended⟩

variable (hP : Local P J) (hR : Obeys P J R)
include hP hR

theorem condition_obeys : Every (Returns (condition R) c) fun e => ∀ x ∈ e.nodes, P x := by
  intro s e t h
  obtain ⟨s₁, s₂, hk, hm, he, hl, hm'⟩ := returns_condition.1 h
  exact commaForm_obeys hP hR he

theorem commaExpression_obeys {forHead} :
    Every (Returns (commaExpression R forHead) c) fun e => ∀ x ∈ e.nodes, P x :=
  fun _ _ _ h => commaForm_obeys hP hR (returns_commaExpression.1 h)

omit hP in
theorem declarator_obeys {forHead} :
    Every (Returns (declarator R forHead) c) fun d => ∀ e ∈ d.nodes, P e := by
  intro s d t h
  obtain ⟨id, s₁, init, hi, ha, rfl⟩ := returns_declarator.1 h
  cases ha with
  | absent _ => simp [Declarator.nodes, Expr.nodesOption]
  | present _ _ he => exact hR.expression he

omit hP in
theorem declaration_obeys {forHead} :
    Every (Returns (declaration R forHead) c) fun d => ∀ e ∈ d.nodes, P e := by
  intro s d t h
  obtain ⟨s₁, ds, s₂, hm, hds, hend, rfl⟩ := returns_declaration.1 h
  rw [Declaration.nodes, Declarator.nodesList_eq]
  exact List.forall_mem_flatMap.2 (separated_forall_mem (declarator_obeys hR) hds)

theorem switchCase_obeys : Every (Returns (switchCase R) c) fun x => ∀ e ∈ x.nodes, P e := by
  intro s x t h
  obtain ⟨test, s₁, s₂, body, hh, hc, hm, hb, -, rfl⟩ := returns_switchCase.1 h
  rw [SwitchCase.nodes, Stmt.nodesList_eq, List.forall_mem_append]
  refine ⟨?_, List.forall_mem_flatMap.2 (Items.forall_mem hR.statement hb)⟩
  cases hh with
  | case _ _ he => exact commaForm_obeys hP hR he
  | default _ _ => simp [Expr.nodesOption]

theorem cases_obeys {b} : Every (Cases R c b) fun xs => ∀ e ∈ SwitchCase.nodesList xs, P e := by
  intro s xs t h
  induction h with
  | done _ => simp
  | more _ hx _ _ ih =>
    rw [SwitchCase.nodesList, List.forall_mem_append]
    exact ⟨switchCase_obeys hP hR hx, ih⟩

theorem Unless.obeys {k} : Every (Unless k (commaExpression R false) c)
    fun x => ∀ e ∈ Expr.nodesOption x, P e := by
  intro s x t h
  cases h with
  | absent _ => simp [Expr.nodesOption]
  | present _ he => exact commaExpression_obeys hP hR he

omit hP in
theorem loopBody_obeys : Every (Returns (loopBody R) c) fun x => ∀ e ∈ x.nodes, P e :=
  fun _ _ _ h => hR.statement (returns_inScope.1 h)

theorem forTail_obeys {test update body} (h : ForTail R c s test update body t) :
    ∀ e ∈ Expr.nodesOption test ++ Expr.nodesOption update ++ body.nodes, P e := by
  obtain ⟨-, -, ht, -, -, hu, -, -, hb⟩ := h
  rw [List.forall_mem_append, List.forall_mem_append]
  exact ⟨⟨Unless.obeys hP hR ht, Unless.obeys hP hR hu⟩, loopBody_obeys hR hb⟩

theorem forInTail_obeys {object body} (h : ForInTail R c s object body t) :
    ∀ e ∈ object.nodes ++ body.nodes, P e := by
  obtain ⟨-, -, ho, -, -, hb⟩ := h
  rw [List.forall_mem_append]
  exact ⟨commaForm_obeys hP hR ho, loopBody_obeys hR hb⟩

theorem forForm_obeys {start} : Every (ForForm R c start) fun x => ∀ e ∈ x.nodes, P e := by
  intro s x t h
  have split {as bs : List (Expr Span)} (ha : ∀ e ∈ as, P e) (hb : ∀ e ∈ bs, P e) :
      ∀ e ∈ as ++ bs, P e := List.forall_mem_append.2 ⟨ha, hb⟩
  cases h with
  | counted _ hd ht =>
    simpa [Stmt.nodes, ForInit.nodesOption, ForInit.nodes] using
      split (declaration_obeys hR hd) (forTail_obeys hP hR ht)
  | bound _ hd _ ht =>
    simpa [Stmt.nodes, ForTarget.nodes] using
      split (declaration_obeys hR hd) (forInTail_obeys hP hR ht)
  | bare ht => simpa [Stmt.nodes, ForInit.nodesOption] using forTail_obeys hP hR ht
  | named _ _ _ ht => simpa [Stmt.nodes, ForTarget.nodes] using forInTail_obeys hP hR ht
  | started _ _ he ht =>
    simpa [Stmt.nodes, ForInit.nodesOption, ForInit.nodes] using
      split (commaForm_obeys hP hR he) (forTail_obeys hP hR ht)

theorem Trailing.obeys : Every (Trailing (commaExpression R false) c)
    fun x => ∀ e ∈ Expr.nodesOption x, P e := by
  intro s x t h
  cases h with
  | absent _ => simp [Expr.nodesOption]
  | present _ _ he _ => exact commaExpression_obeys hP hR he

theorem statementForm_obeys {stacked} :
    Every (StatementForm R c stacked) fun x => ∀ e ∈ x.nodes, P e := by
  intro s x t h
  cases h with
  | empty _ _ | debugger _ _ _ => simp [Stmt.nodes]
  | block _ hb => exact block_obeys hR hb
  | expression _ he _ _ => exact commaForm_obeys hP hR he
  | labeled _ _ _ _ _ hb =>
    rw [Stmt.nodes]
    exact hR.statement hb
  | «if» _ _ hc hx hy =>
    rw [Stmt.nodes, List.forall_mem_append, List.forall_mem_append]
    refine ⟨⟨condition_obeys hP hR hc, hR.statement hx⟩, ?_⟩
    cases hy with
    | absent _ => simp [Stmt.nodesOption]
    | present _ _ hz => exact hR.statement hz
  | «with» _ _ he hb =>
    rw [Stmt.nodes, List.forall_mem_append]
    exact ⟨condition_obeys hP hR he, hR.statement hb⟩
  | «return» _ _ he => exact Trailing.obeys hP hR he
  | throw _ _ he => exact Trailing.obeys hP hR he
  | @jump j _ _ _ _ _ _ _ => cases j <;> simp [jumpNode, Stmt.nodes]
  | switch _ _ he _ _ hc _ _ =>
    rw [Stmt.nodes, List.forall_mem_append]
    exact ⟨condition_obeys hP hR he, cases_obeys hP hR hc⟩
  | «try» _ _ hb hh hf =>
    rw [Stmt.nodes, List.forall_mem_append, List.forall_mem_append]
    refine ⟨⟨block_obeys hR hb, ?_⟩, ?_⟩
    · cases hh with
      | present _ hx =>
        obtain ⟨s₁, s₂, param, s₃, s₄, body, -, -, -, -, -, -, hb, rfl⟩ := returns_catchClause.1 hx
        exact block_obeys hR hb
      | absent _ => simp [CatchClause.nodesOption]
    · cases hf with
      | absent _ => simp [Block.nodesOption]
      | present _ _ hf => exact block_obeys hR hf
  | «while» _ _ he hb =>
    rw [Stmt.nodes, List.forall_mem_append]
    exact ⟨condition_obeys hP hR he, loopBody_obeys hR hb⟩
  | doWhile _ _ hb _ _ he =>
    rw [Stmt.nodes, List.forall_mem_append]
    exact ⟨loopBody_obeys hR hb, condition_obeys hP hR he⟩
  | declaration _ hd => exact declaration_obeys hR hd
  | «for» _ _ _ _ hf => exact forForm_obeys hP hR hf
  | function _ _ _ _ hb => exact block_obeys hR hb

end

variable {P : Expr Span → Prop} {J : Nat → Bool → Expr Span → TokenKind → Prop} (hP : Local P J)
include hP

theorem readers_obey (n : Nat) : Obeys P J (readers n) := by
  induction n with
  | zero =>
    constructor
    · intro floor forHead c s e t h
      exact absurd h returns_tooDeep
    · intro c s x t h
      exact absurd h returns_tooDeep
    · intro floor forHead c s e t h
      exact absurd h returns_tooDeep
  | succ n ih =>
    constructor
    · intro floor forHead c s e t h
      exact (expression_obeys hP ih h).2
    · intro c s x t h
      exact statementForm_obeys hP ih (returns_statement.1 h)
    · intro floor forHead c s e t h
      exact (expression_obeys hP ih h).1

/-- A local law holds at every expression of a script that was read. -/
theorem run_obeys {c : Context} {source : List Char} {p : Program Span}
    (h : (run c source).result = .ok p) : ∀ e ∈ p.nodes, P e := by
  obtain ⟨s, t, -, hp⟩ := run_eq_ok.1 h
  obtain ⟨body, hb, -, rfl⟩ := returns_program.1 hp
  rw [Program.nodes, Stmt.nodesList_eq]
  exact List.forall_mem_flatMap.2 (Items.forall_mem (readers_obey hP _).statement hb)

end Parser
end ScriptTree
