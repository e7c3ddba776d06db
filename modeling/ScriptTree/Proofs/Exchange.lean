import ScriptTree.Proofs.Nodes

/-! # Exchanging operators

A tree with other operators between the two operands of its binary nodes. Which operator a node gets
may depend on the notes of its operands, so one operator of a script can be exchanged alone: the one
that stands at a place between them. -/
namespace ScriptTree

mutual
def Expr.exchange (f : α → Operator → α → Operator) : Expr α → Expr α
  | .identifier i => .identifier i
  | .literal l => .literal l
  | .this note => .this note
  | .array note es => .array note (Expr.exchangeList f es)
  | .object note ps => .object note (Property.exchangeList f ps)
  | .function note id params body => .function note id params (body.exchange f)
  | .unary note op e => .unary note op (e.exchange f)
  | .update note op e leading => .update note op (e.exchange f) leading
  | .binary note op l r => .binary note (f l.note op r.note) (l.exchange f) (r.exchange f)
  | .logical note op l r => .logical note op (l.exchange f) (r.exchange f)
  | .assignment note op l r => .assignment note op (l.exchange f) (r.exchange f)
  | .conditional note t c a => .conditional note (t.exchange f) (c.exchange f) (a.exchange f)
  | .member note o p dotted => .member note (o.exchange f) (p.exchange f) dotted
  | .call note e es => .call note (e.exchange f) (Expr.exchangeList f es)
  | .new note e es => .new note (e.exchange f) (Expr.exchangeList f es)
  | .sequence note es => .sequence note (Expr.exchangeList f es)
def Expr.exchangeList (f : α → Operator → α → Operator) : List (Expr α) → List (Expr α)
  | [] => []
  | e :: es => e.exchange f :: Expr.exchangeList f es
def Expr.exchangeOption (f : α → Operator → α → Operator) : Option (Expr α) → Option (Expr α)
  | none => none
  | some e => some (e.exchange f)
def Property.exchange (f : α → Operator → α → Operator) : Property α → Property α
  | .mk note key value => .mk note key (value.exchange f)
def Property.exchangeList (f : α → Operator → α → Operator) : List (Property α) → List (Property α)
  | [] => []
  | p :: ps => p.exchange f :: Property.exchangeList f ps
def Block.exchange (f : α → Operator → α → Operator) : Block α → Block α
  | .mk note body => .mk note (Stmt.exchangeList f body)
def Block.exchangeOption (f : α → Operator → α → Operator) : Option (Block α) → Option (Block α)
  | none => none
  | some b => some (b.exchange f)
def Declarator.exchange (f : α → Operator → α → Operator) : Declarator α → Declarator α
  | .mk note id init => .mk note id (Expr.exchangeOption f init)
def Declarator.exchangeList (f : α → Operator → α → Operator) :
    List (Declarator α) → List (Declarator α)
  | [] => []
  | d :: ds => d.exchange f :: Declarator.exchangeList f ds
def Declaration.exchange (f : α → Operator → α → Operator) : Declaration α → Declaration α
  | .mk note ds => .mk note (Declarator.exchangeList f ds)
def SwitchCase.exchange (f : α → Operator → α → Operator) : SwitchCase α → SwitchCase α
  | .mk note test body => .mk note (Expr.exchangeOption f test) (Stmt.exchangeList f body)
def SwitchCase.exchangeList (f : α → Operator → α → Operator) :
    List (SwitchCase α) → List (SwitchCase α)
  | [] => []
  | c :: cs => c.exchange f :: SwitchCase.exchangeList f cs
def CatchClause.exchange (f : α → Operator → α → Operator) : CatchClause α → CatchClause α
  | .mk note param body => .mk note param (body.exchange f)
def CatchClause.exchangeOption (f : α → Operator → α → Operator) :
    Option (CatchClause α) → Option (CatchClause α)
  | none => none
  | some c => some (c.exchange f)
def ForInit.exchange (f : α → Operator → α → Operator) : ForInit α → ForInit α
  | .declaration d => .declaration (d.exchange f)
  | .expression e => .expression (e.exchange f)
def ForInit.exchangeOption (f : α → Operator → α → Operator) : Option (ForInit α) → Option (ForInit α)
  | none => none
  | some i => some (i.exchange f)
def ForTarget.exchange (f : α → Operator → α → Operator) : ForTarget α → ForTarget α
  | .declaration d => .declaration (d.exchange f)
  | .identifier i => .identifier i
def Stmt.exchange (f : α → Operator → α → Operator) : Stmt α → Stmt α
  | .empty note => .empty note
  | .block b => .block (b.exchange f)
  | .expression note e => .expression note (e.exchange f)
  | .declaration d => .declaration (d.exchange f)
  | .if note t c a => .if note (t.exchange f) (c.exchange f) (Stmt.exchangeOption f a)
  | .debugger note => .debugger note
  | .with note o b => .with note (o.exchange f) (b.exchange f)
  | .return note e => .return note (Expr.exchangeOption f e)
  | .throw note e => .throw note (e.exchange f)
  | .break note l => .break note l
  | .continue note l => .continue note l
  | .switch note d cs => .switch note (d.exchange f) (SwitchCase.exchangeList f cs)
  | .try note b h e =>
    .try note (b.exchange f) (CatchClause.exchangeOption f h) (Block.exchangeOption f e)
  | .while note t b => .while note (t.exchange f) (b.exchange f)
  | .doWhile note b t => .doWhile note (b.exchange f) (t.exchange f)
  | .for note i t u b => .for note (ForInit.exchangeOption f i) (Expr.exchangeOption f t)
    (Expr.exchangeOption f u) (b.exchange f)
  | .forIn note t o b => .forIn note (t.exchange f) (o.exchange f) (b.exchange f)
  | .function note id params body => .function note id params (body.exchange f)
  | .labeled note l b => .labeled note l (b.exchange f)
def Stmt.exchangeOption (f : α → Operator → α → Operator) : Option (Stmt α) → Option (Stmt α)
  | none => none
  | some s => some (s.exchange f)
def Stmt.exchangeList (f : α → Operator → α → Operator) : List (Stmt α) → List (Stmt α)
  | [] => []
  | s :: ss => s.exchange f :: Stmt.exchangeList f ss
end

def Program.exchange (f : α → Operator → α → Operator) (p : Program α) : Program α :=
  ⟨p.note, Stmt.exchangeList f p.body⟩

section
variable (f : α → Operator → α → Operator)

theorem Expr.exchangeList_eq (es : List (Expr α)) :
    Expr.exchangeList f es = es.map (Expr.exchange f) := by
  induction es with
  | nil => rfl
  | cons e es ih => rw [Expr.exchangeList, ih, List.map_cons]

theorem Property.exchangeList_eq (ps : List (Property α)) :
    Property.exchangeList f ps = ps.map (Property.exchange f) := by
  induction ps with
  | nil => rfl
  | cons p ps ih => rw [Property.exchangeList, ih, List.map_cons]

theorem Declarator.exchangeList_eq (ds : List (Declarator α)) :
    Declarator.exchangeList f ds = ds.map (Declarator.exchange f) := by
  induction ds with
  | nil => rfl
  | cons d ds ih => rw [Declarator.exchangeList, ih, List.map_cons]

theorem SwitchCase.exchangeList_eq (cs : List (SwitchCase α)) :
    SwitchCase.exchangeList f cs = cs.map (SwitchCase.exchange f) := by
  induction cs with
  | nil => rfl
  | cons c cs ih => rw [SwitchCase.exchangeList, ih, List.map_cons]

theorem Stmt.exchangeList_eq (ss : List (Stmt α)) :
    Stmt.exchangeList f ss = ss.map (Stmt.exchange f) := by
  induction ss with
  | nil => rfl
  | cons s ss ih => rw [Stmt.exchangeList, ih, List.map_cons]

theorem Expr.exchangeOption_eq (e : Option (Expr α)) :
    Expr.exchangeOption f e = e.map (Expr.exchange f) := by
  cases e <;> rfl

theorem Block.exchangeOption_eq (b : Option (Block α)) :
    Block.exchangeOption f b = b.map (Block.exchange f) := by
  cases b <;> rfl

theorem CatchClause.exchangeOption_eq (c : Option (CatchClause α)) :
    CatchClause.exchangeOption f c = c.map (CatchClause.exchange f) := by
  cases c <;> rfl

theorem Stmt.exchangeOption_eq (s : Option (Stmt α)) :
    Stmt.exchangeOption f s = s.map (Stmt.exchange f) := by
  cases s <;> rfl

/-- What may be assigned to does not depend on the operators. -/
theorem Expr.isTarget_exchange (e : Expr α) : (e.exchange f).isTarget = e.isTarget := by
  fun_induction Expr.isTarget e with
  | case1 => rfl
  | case2 => rfl
  | case3 note e ih => simpa [Expr.exchange, Expr.exchangeList, Expr.isTarget] using ih
  | case4 e named member single =>
    cases e with
    | identifier i => exact absurd rfl (named i)
    | member note o p dotted => exact absurd rfl (member note o p dotted)
    | sequence note es =>
      rcases es with _ | ⟨e, _ | ⟨e', es⟩⟩
      · rfl
      · exact absurd rfl (single note e)
      · rfl
    | _ => rfl

theorem Expr.exchange_eq_identifier {e : Expr α} {i : Identifier α}
    (h : e.exchange f = .identifier i) : e = .identifier i := by
  cases e <;> first | exact h | cases h

theorem Expr.exchange_eq_call {e : Expr α} {note g args} (h : e.exchange f = .call note g args) :
    ∃ g' args', e = .call note g' args' := by
  cases e <;> first | exact ⟨_, _, by rw [(Expr.call.inj h).1]⟩ | cases h

end

end ScriptTree
