import ScriptTree.Tree

/-! Changing what the nodes of a tree carry. Nothing else of the tree changes, so two trees that
differ in their notes alone become equal when the notes are forgotten. -/
namespace ScriptTree

def Identifier.map (f : α → β) (i : Identifier α) : Identifier β := ⟨f i.note, i.name⟩

def Literal.map (f : α → β) (l : Literal α) : Literal β := ⟨f l.note, l.value⟩

def PropertyKey.map (f : α → β) : PropertyKey α → PropertyKey β
  | .literal l => .literal (l.map f)
  | .identifier i => .identifier (i.map f)

def Identifier.mapList (f : α → β) (is : List (Identifier α)) : List (Identifier β) :=
  is.map (·.map f)

mutual
def Expr.map (f : α → β) : Expr α → Expr β
  | .identifier i => .identifier (i.map f)
  | .literal l => .literal (l.map f)
  | .this note => .this (f note)
  | .array note es => .array (f note) (Expr.mapList f es)
  | .object note ps => .object (f note) (Property.mapList f ps)
  | .function note id params body =>
    .function (f note) (id.map (·.map f)) (Identifier.mapList f params) (body.map f)
  | .unary note op e => .unary (f note) op (e.map f)
  | .update note op e leading => .update (f note) op (e.map f) leading
  | .binary note op l r => .binary (f note) op (l.map f) (r.map f)
  | .logical note op l r => .logical (f note) op (l.map f) (r.map f)
  | .assignment note op l r => .assignment (f note) op (l.map f) (r.map f)
  | .conditional note t c a => .conditional (f note) (t.map f) (c.map f) (a.map f)
  | .member note o p dotted => .member (f note) (o.map f) (p.map f) dotted
  | .call note e es => .call (f note) (e.map f) (Expr.mapList f es)
  | .new note e es => .new (f note) (e.map f) (Expr.mapList f es)
  | .sequence note es => .sequence (f note) (Expr.mapList f es)
def Expr.mapList (f : α → β) : List (Expr α) → List (Expr β)
  | [] => []
  | e :: es => e.map f :: Expr.mapList f es
def Expr.mapOption (f : α → β) : Option (Expr α) → Option (Expr β)
  | none => none
  | some e => some (e.map f)
def Property.map (f : α → β) : Property α → Property β
  | .mk note key value => .mk (f note) (key.map f) (value.map f)
def Property.mapList (f : α → β) : List (Property α) → List (Property β)
  | [] => []
  | p :: ps => p.map f :: Property.mapList f ps
def Block.map (f : α → β) : Block α → Block β
  | .mk note body => .mk (f note) (Stmt.mapList f body)
def Block.mapOption (f : α → β) : Option (Block α) → Option (Block β)
  | none => none
  | some b => some (b.map f)
def Declarator.map (f : α → β) : Declarator α → Declarator β
  | .mk note id init => .mk (f note) (id.map f) (Expr.mapOption f init)
def Declarator.mapList (f : α → β) : List (Declarator α) → List (Declarator β)
  | [] => []
  | d :: ds => d.map f :: Declarator.mapList f ds
def Declaration.map (f : α → β) : Declaration α → Declaration β
  | .mk note ds => .mk (f note) (Declarator.mapList f ds)
def SwitchCase.map (f : α → β) : SwitchCase α → SwitchCase β
  | .mk note test body => .mk (f note) (Expr.mapOption f test) (Stmt.mapList f body)
def SwitchCase.mapList (f : α → β) : List (SwitchCase α) → List (SwitchCase β)
  | [] => []
  | c :: cs => c.map f :: SwitchCase.mapList f cs
def CatchClause.map (f : α → β) : CatchClause α → CatchClause β
  | .mk note param body => .mk (f note) (param.map f) (body.map f)
def CatchClause.mapOption (f : α → β) : Option (CatchClause α) → Option (CatchClause β)
  | none => none
  | some c => some (c.map f)
def ForInit.map (f : α → β) : ForInit α → ForInit β
  | .declaration d => .declaration (d.map f)
  | .expression e => .expression (e.map f)
def ForInit.mapOption (f : α → β) : Option (ForInit α) → Option (ForInit β)
  | none => none
  | some i => some (i.map f)
def ForTarget.map (f : α → β) : ForTarget α → ForTarget β
  | .declaration d => .declaration (d.map f)
  | .identifier i => .identifier (i.map f)
def Stmt.map (f : α → β) : Stmt α → Stmt β
  | .empty note => .empty (f note)
  | .block b => .block (b.map f)
  | .expression note e => .expression (f note) (e.map f)
  | .declaration d => .declaration (d.map f)
  | .if note t c a => .if (f note) (t.map f) (c.map f) (Stmt.mapOption f a)
  | .debugger note => .debugger (f note)
  | .with note o b => .with (f note) (o.map f) (b.map f)
  | .return note e => .return (f note) (Expr.mapOption f e)
  | .throw note e => .throw (f note) (e.map f)
  | .break note l => .break (f note) (l.map (·.map f))
  | .continue note l => .continue (f note) (l.map (·.map f))
  | .switch note d cs => .switch (f note) (d.map f) (SwitchCase.mapList f cs)
  | .try note b h e => .try (f note) (b.map f) (CatchClause.mapOption f h) (Block.mapOption f e)
  | .while note t b => .while (f note) (t.map f) (b.map f)
  | .doWhile note b t => .doWhile (f note) (b.map f) (t.map f)
  | .for note i t u b =>
    .for (f note) (ForInit.mapOption f i) (Expr.mapOption f t) (Expr.mapOption f u) (b.map f)
  | .forIn note t o b => .forIn (f note) (t.map f) (o.map f) (b.map f)
  | .function note id params body =>
    .function (f note) (id.map f) (Identifier.mapList f params) (body.map f)
  | .labeled note l b => .labeled (f note) (l.map f) (b.map f)
def Stmt.mapOption (f : α → β) : Option (Stmt α) → Option (Stmt β)
  | none => none
  | some s => some (s.map f)
def Stmt.mapList (f : α → β) : List (Stmt α) → List (Stmt β)
  | [] => []
  | s :: ss => s.map f :: Stmt.mapList f ss
end

def Program.map (f : α → β) (p : Program α) : Program β := ⟨f p.note, Stmt.mapList f p.body⟩

/-! A list of nodes changes node by node, and so does a node that may be absent. -/

theorem Expr.mapList_eq (f : α → β) (es : List (Expr α)) :
    Expr.mapList f es = es.map (Expr.map f) := by
  induction es with
  | nil => rfl
  | cons e es ih => simp [Expr.mapList, ih]

theorem Property.mapList_eq (f : α → β) (ps : List (Property α)) :
    Property.mapList f ps = ps.map (Property.map f) := by
  induction ps with
  | nil => rfl
  | cons p ps ih => simp [Property.mapList, ih]

theorem Declarator.mapList_eq (f : α → β) (ds : List (Declarator α)) :
    Declarator.mapList f ds = ds.map (Declarator.map f) := by
  induction ds with
  | nil => rfl
  | cons d ds ih => simp [Declarator.mapList, ih]

theorem SwitchCase.mapList_eq (f : α → β) (cs : List (SwitchCase α)) :
    SwitchCase.mapList f cs = cs.map (SwitchCase.map f) := by
  induction cs with
  | nil => rfl
  | cons c cs ih => simp [SwitchCase.mapList, ih]

theorem Stmt.mapList_eq (f : α → β) (ss : List (Stmt α)) :
    Stmt.mapList f ss = ss.map (Stmt.map f) := by
  induction ss with
  | nil => rfl
  | cons s ss ih => simp [Stmt.mapList, ih]

theorem Expr.mapOption_eq (f : α → β) (e : Option (Expr α)) :
    Expr.mapOption f e = e.map (Expr.map f) := by
  cases e <;> simp [Expr.mapOption]

theorem Block.mapOption_eq (f : α → β) (b : Option (Block α)) :
    Block.mapOption f b = b.map (Block.map f) := by
  cases b <;> simp [Block.mapOption]

theorem CatchClause.mapOption_eq (f : α → β) (c : Option (CatchClause α)) :
    CatchClause.mapOption f c = c.map (CatchClause.map f) := by
  cases c <;> simp [CatchClause.mapOption]

theorem ForInit.mapOption_eq (f : α → β) (i : Option (ForInit α)) :
    ForInit.mapOption f i = i.map (ForInit.map f) := by
  cases i <;> simp [ForInit.mapOption]

theorem Stmt.mapOption_eq (f : α → β) (s : Option (Stmt α)) :
    Stmt.mapOption f s = s.map (Stmt.map f) := by
  cases s <;> simp [Stmt.mapOption]

@[simp] theorem Expr.note_map (f : α → β) (e : Expr α) : (e.map f).note = f e.note := by
  cases e <;> simp [Expr.map, Expr.note, Identifier.map, Literal.map]

@[simp] theorem Stmt.note_map (f : α → β) (s : Stmt α) : (s.map f).note = f s.note := by
  cases s with
  | block b => cases b; simp [Stmt.map, Stmt.note, Block.map, Block.note]
  | declaration d => cases d; simp [Stmt.map, Stmt.note, Declaration.map, Declaration.note]
  | _ => simp [Stmt.map, Stmt.note]

/-- What may be assigned to does not depend on the notes. -/
@[simp] theorem Expr.isTarget_map (f : α → β) (e : Expr α) : (e.map f).isTarget = e.isTarget := by
  fun_induction Expr.isTarget e with
  | case1 => rfl
  | case2 => rfl
  | case3 note e ih => simpa [Expr.map, Expr.mapList, Expr.isTarget] using ih
  | case4 e named member single =>
    cases e with
    | identifier i => exact absurd rfl (named i)
    | member note o p dotted => exact absurd rfl (member note o p dotted)
    | sequence note es =>
      match es with
      | [] => rfl
      | [e] => exact absurd rfl (single note e)
      | _ :: _ :: _ => rfl
    | _ => rfl

/-! ## Changing twice

Two changes one after the other are one change. -/

section
variable (f : α → β) (g : β → γ)

theorem Identifier.map_map (i : Identifier α) : (i.map f).map g = i.map (g ∘ f) := rfl

theorem PropertyKey.map_map : ∀ k : PropertyKey α, (k.map f).map g = k.map (g ∘ f)
  | .literal _ | .identifier _ => rfl

theorem Identifier.mapList_mapList (is : List (Identifier α)) :
    Identifier.mapList g (Identifier.mapList f is) = Identifier.mapList (g ∘ f) is :=
  List.map_map

/-- The name that a function or a jump may have. -/
theorem Identifier.mapOption_mapOption (i : Option (Identifier α)) :
    (i.map (·.map f)).map (·.map g) = i.map (·.map (g ∘ f)) :=
  Option.map_map _ _ _

mutual
theorem Expr.map_map : ∀ e : Expr α, (e.map f).map g = e.map (g ∘ f)
  | .identifier _ | .literal _ | .this _ => rfl
  | .array _ es | .sequence _ es => by
    simp only [Expr.map, Expr.mapList_mapList es, Function.comp_apply]
  | .object _ ps => by simp only [Expr.map, Property.mapList_mapList ps, Function.comp_apply]
  | .function _ id params body => by
    simp only [Expr.map, Identifier.mapOption_mapOption, Identifier.mapList_mapList,
      Block.map_map body, Function.comp_apply]
  | .unary _ _ e | .update _ _ e _ => by simp only [Expr.map, Expr.map_map e, Function.comp_apply]
  | .binary _ _ l r | .logical _ _ l r | .assignment _ _ l r | .member _ l r _ => by
    simp only [Expr.map, Expr.map_map l, Expr.map_map r, Function.comp_apply]
  | .conditional _ t c a => by
    simp only [Expr.map, Expr.map_map t, Expr.map_map c, Expr.map_map a, Function.comp_apply]
  | .call _ e es | .new _ e es => by
    simp only [Expr.map, Expr.map_map e, Expr.mapList_mapList es, Function.comp_apply]
theorem Expr.mapList_mapList : ∀ es : List (Expr α),
    Expr.mapList g (Expr.mapList f es) = Expr.mapList (g ∘ f) es
  | [] => rfl
  | e :: es => by simp only [Expr.mapList, Expr.map_map e, Expr.mapList_mapList es]
theorem Expr.mapOption_mapOption : ∀ e : Option (Expr α),
    Expr.mapOption g (Expr.mapOption f e) = Expr.mapOption (g ∘ f) e
  | none => rfl
  | some e => congrArg some (Expr.map_map e)
theorem Property.mapList_mapList : ∀ ps : List (Property α),
    Property.mapList g (Property.mapList f ps) = Property.mapList (g ∘ f) ps
  | [] => rfl
  | .mk _ k v :: ps => by
    simp only [Property.mapList, Property.map, PropertyKey.map_map, Expr.map_map v,
      Property.mapList_mapList ps, Function.comp_apply]
theorem Block.map_map : ∀ b : Block α, (b.map f).map g = b.map (g ∘ f)
  | .mk _ ss => by simp only [Block.map, Stmt.mapList_mapList ss, Function.comp_apply]
theorem Block.mapOption_mapOption : ∀ b : Option (Block α),
    Block.mapOption g (Block.mapOption f b) = Block.mapOption (g ∘ f) b
  | none => rfl
  | some b => congrArg some (Block.map_map b)
theorem Declarator.mapList_mapList : ∀ ds : List (Declarator α),
    Declarator.mapList g (Declarator.mapList f ds) = Declarator.mapList (g ∘ f) ds
  | [] => rfl
  | .mk _ id init :: ds => by
    simp only [Declarator.mapList, Declarator.map, Identifier.map_map,
      Expr.mapOption_mapOption init, Declarator.mapList_mapList ds, Function.comp_apply]
theorem Declaration.map_map : ∀ d : Declaration α, (d.map f).map g = d.map (g ∘ f)
  | .mk _ ds => by simp only [Declaration.map, Declarator.mapList_mapList ds, Function.comp_apply]
theorem SwitchCase.mapList_mapList : ∀ cs : List (SwitchCase α),
    SwitchCase.mapList g (SwitchCase.mapList f cs) = SwitchCase.mapList (g ∘ f) cs
  | [] => rfl
  | .mk _ test body :: cs => by
    simp only [SwitchCase.mapList, SwitchCase.map, Expr.mapOption_mapOption test,
      Stmt.mapList_mapList body, SwitchCase.mapList_mapList cs, Function.comp_apply]
theorem CatchClause.mapOption_mapOption : ∀ c : Option (CatchClause α),
    CatchClause.mapOption g (CatchClause.mapOption f c) = CatchClause.mapOption (g ∘ f) c
  | none => rfl
  | some (.mk _ _ body) => by
    simp only [CatchClause.mapOption, CatchClause.map, Identifier.map_map, Block.map_map body,
      Function.comp_apply]
theorem ForInit.mapOption_mapOption : ∀ i : Option (ForInit α),
    ForInit.mapOption g (ForInit.mapOption f i) = ForInit.mapOption (g ∘ f) i
  | none => rfl
  | some (.declaration d) => by simp only [ForInit.mapOption, ForInit.map, Declaration.map_map d]
  | some (.expression e) => by simp only [ForInit.mapOption, ForInit.map, Expr.map_map e]
theorem ForTarget.map_map : ∀ t : ForTarget α, (t.map f).map g = t.map (g ∘ f)
  | .declaration d => congrArg _ (Declaration.map_map d)
  | .identifier _ => rfl
theorem Stmt.map_map : ∀ s : Stmt α, (s.map f).map g = s.map (g ∘ f)
  | .empty _ | .debugger _ => rfl
  | .block b => congrArg _ (Block.map_map b)
  | .declaration d => congrArg _ (Declaration.map_map d)
  | .expression _ e | .throw _ e => by simp only [Stmt.map, Expr.map_map e, Function.comp_apply]
  | .if _ t c a => by
    simp only [Stmt.map, Expr.map_map t, Stmt.map_map c, Stmt.mapOption_mapOption a,
      Function.comp_apply]
  | .with _ e b | .while _ e b | .doWhile _ b e => by
    simp only [Stmt.map, Expr.map_map e, Stmt.map_map b, Function.comp_apply]
  | .return _ e => by simp only [Stmt.map, Expr.mapOption_mapOption e, Function.comp_apply]
  | .break _ _ | .continue _ _ => by
    simp only [Stmt.map, Identifier.mapOption_mapOption, Function.comp_apply]
  | .switch _ d cs => by
    simp only [Stmt.map, Expr.map_map d, SwitchCase.mapList_mapList cs, Function.comp_apply]
  | .try _ b h e => by
    simp only [Stmt.map, Block.map_map b, CatchClause.mapOption_mapOption h,
      Block.mapOption_mapOption e, Function.comp_apply]
  | .for _ i t u b => by
    simp only [Stmt.map, ForInit.mapOption_mapOption i, Expr.mapOption_mapOption t,
      Expr.mapOption_mapOption u, Stmt.map_map b, Function.comp_apply]
  | .forIn _ t o b => by
    simp only [Stmt.map, ForTarget.map_map t, Expr.map_map o, Stmt.map_map b, Function.comp_apply]
  | .function _ id params body => by
    simp only [Stmt.map, Identifier.map_map, Identifier.mapList_mapList, Block.map_map body,
      Function.comp_apply]
  | .labeled _ l b => by
    simp only [Stmt.map, Identifier.map_map, Stmt.map_map b, Function.comp_apply]
theorem Stmt.mapOption_mapOption : ∀ s : Option (Stmt α),
    Stmt.mapOption g (Stmt.mapOption f s) = Stmt.mapOption (g ∘ f) s
  | none => rfl
  | some s => congrArg some (Stmt.map_map s)
theorem Stmt.mapList_mapList : ∀ ss : List (Stmt α),
    Stmt.mapList g (Stmt.mapList f ss) = Stmt.mapList (g ∘ f) ss
  | [] => rfl
  | s :: ss => by simp only [Stmt.mapList, Stmt.map_map s, Stmt.mapList_mapList ss]
end

theorem Program.map_map (p : Program α) : (p.map f).map g = p.map (g ∘ f) := by
  simp only [Program.map, Stmt.mapList_mapList, Function.comp_apply]

end

end ScriptTree
