import ScriptTree.Proofs.StatementForms

/-! # Where statements stand

The sites of a tree are its statements, each with the labels, loops and switches around it,
innermost first. They say where a jump may go and where a label may stand without any account of
how the tree was read. A function body is a part of what surrounds the function. -/
namespace ScriptTree

/-- What a jump to a label in front of the statement would reach; further labels in front of the
same statement do not matter. -/
def Stmt.target : Stmt α → Option JumpTarget
  | .while _ _ _ | .doWhile _ _ _ | .for _ _ _ _ _ | .forIn _ _ _ _ => some .loop
  | .switch _ _ _ => some .switch
  | .labeled _ _ b => b.target
  | _ => none

/-- Inside a loop's body. -/
def inLoop (around : List Label) : List Label := ⟨none, some .loop⟩ :: around

/-- Among the cases of a switch. -/
def inSwitch (around : List Label) : List Label := ⟨none, some .switch⟩ :: around

mutual
def Expr.sites (around : List Label) : Expr α → List (List Label × Stmt α)
  | .identifier _ | .literal _ | .this _ => []
  | .array _ es | .sequence _ es => Expr.sitesList around es
  | .object _ ps => Property.sitesList around ps
  | .function _ _ _ body => body.sites around
  | .unary _ _ e | .update _ _ e _ => e.sites around
  | .binary _ _ l r | .logical _ _ l r | .assignment _ _ l r | .member _ l r _ =>
    l.sites around ++ r.sites around
  | .conditional _ t x y => t.sites around ++ x.sites around ++ y.sites around
  | .call _ f es | .new _ f es => f.sites around ++ Expr.sitesList around es
def Expr.sitesList (around : List Label) : List (Expr α) → List (List Label × Stmt α)
  | [] => []
  | e :: es => e.sites around ++ Expr.sitesList around es
def Expr.sitesOption (around : List Label) : Option (Expr α) → List (List Label × Stmt α)
  | none => []
  | some e => e.sites around
def Property.sites (around : List Label) : Property α → List (List Label × Stmt α)
  | .mk _ _ value => value.sites around
def Property.sitesList (around : List Label) : List (Property α) → List (List Label × Stmt α)
  | [] => []
  | p :: ps => p.sites around ++ Property.sitesList around ps
def Block.sites (around : List Label) : Block α → List (List Label × Stmt α)
  | .mk _ body => Stmt.sitesList around body
def Block.sitesOption (around : List Label) : Option (Block α) → List (List Label × Stmt α)
  | none => []
  | some b => b.sites around
def Declarator.sites (around : List Label) : Declarator α → List (List Label × Stmt α)
  | .mk _ _ init => Expr.sitesOption around init
def Declarator.sitesList (around : List Label) : List (Declarator α) → List (List Label × Stmt α)
  | [] => []
  | d :: ds => d.sites around ++ Declarator.sitesList around ds
def Declaration.sites (around : List Label) : Declaration α → List (List Label × Stmt α)
  | .mk _ ds => Declarator.sitesList around ds
def SwitchCase.sites (around : List Label) : SwitchCase α → List (List Label × Stmt α)
  | .mk _ test body => Expr.sitesOption around test ++ Stmt.sitesList around body
def SwitchCase.sitesList (around : List Label) : List (SwitchCase α) → List (List Label × Stmt α)
  | [] => []
  | c :: cs => c.sites around ++ SwitchCase.sitesList around cs
def CatchClause.sites (around : List Label) : CatchClause α → List (List Label × Stmt α)
  | .mk _ _ body => body.sites around
def CatchClause.sitesOption (around : List Label) :
    Option (CatchClause α) → List (List Label × Stmt α)
  | none => []
  | some c => c.sites around
def ForInit.sites (around : List Label) : ForInit α → List (List Label × Stmt α)
  | .declaration d => d.sites around
  | .expression e => e.sites around
def ForInit.sitesOption (around : List Label) : Option (ForInit α) → List (List Label × Stmt α)
  | none => []
  | some i => i.sites around
def ForTarget.sites (around : List Label) : ForTarget α → List (List Label × Stmt α)
  | .declaration d => d.sites around
  | .identifier _ => []
/-- The statements inside a statement, itself left out. -/
def Stmt.innerSites (around : List Label) : Stmt α → List (List Label × Stmt α)
  | .empty _ | .debugger _ | .break _ _ | .continue _ _ => []
  | .block b => b.sites around
  | .expression _ e | .throw _ e => e.sites around
  | .declaration d => d.sites around
  | .if _ t x y =>
    t.sites around ++ ((around, x) :: x.innerSites around) ++ Stmt.sitesOption around y
  | .with _ e b => e.sites around ++ ((around, b) :: b.innerSites around)
  | .return _ e => Expr.sitesOption around e
  | .switch _ e cs => e.sites around ++ SwitchCase.sitesList (inSwitch around) cs
  | .try _ b h f =>
    b.sites around ++ CatchClause.sitesOption around h ++ Block.sitesOption around f
  | .while _ e b => e.sites around ++ ((inLoop around, b) :: b.innerSites (inLoop around))
  | .doWhile _ b e => ((inLoop around, b) :: b.innerSites (inLoop around)) ++ e.sites around
  | .for _ i t u b =>
    ForInit.sitesOption around i ++ Expr.sitesOption around t ++ Expr.sitesOption around u ++
      ((inLoop around, b) :: b.innerSites (inLoop around))
  | .forIn _ t e b =>
    t.sites around ++ e.sites around ++ ((inLoop around, b) :: b.innerSites (inLoop around))
  | .function _ _ _ body => body.sites around
  | .labeled _ l b =>
    (⟨some l.name, b.target⟩ :: around, b) :: b.innerSites (⟨some l.name, b.target⟩ :: around)
def Stmt.sitesOption (around : List Label) : Option (Stmt α) → List (List Label × Stmt α)
  | none => []
  | some s => (around, s) :: s.innerSites around
def Stmt.sitesList (around : List Label) : List (Stmt α) → List (List Label × Stmt α)
  | [] => []
  | s :: ss => ((around, s) :: s.innerSites around) ++ Stmt.sitesList around ss
end

/-- A statement and those inside it, each with what is around it. -/
def Stmt.sites (around : List Label) (s : Stmt α) : List (List Label × Stmt α) :=
  (around, s) :: s.innerSites around

def Program.sites (p : Program α) : List (List Label × Stmt α) := Stmt.sitesList [] p.body

/-- Whether a statement may stand where it stands. A label is not inside another of its name. A jump
to a label is inside a statement of that label, and to continue there it has to be a loop. A jump
without a label is inside something it can leave or continue. -/
def Stmt.Allowed (around : List Label) : Stmt α → Prop
  | .labeled _ l _ => ∀ a ∈ around, a.name ≠ some l.name
  | .break _ (some l) => ∃ a ∈ around, a.name = some l.name
  | .continue _ (some l) => ∃ a ∈ around, a.name = some l.name ∧ a.target = some .loop
  | .break _ none => ∃ a ∈ around, a.target = some .loop ∨ a.target = some .switch
  | .continue _ none => ∃ a ∈ around, a.target = some .loop
  | _ => True

/-- All statements stand where they may. -/
def Scoped (sites : List (List Label × Stmt α)) : Prop :=
  ∀ site ∈ sites, site.2.Allowed site.1

@[simp] theorem scoped_nil : Scoped ([] : List (List Label × Stmt α)) := by simp [Scoped]

@[simp] theorem scoped_cons {site : List Label × Stmt α} {sites} :
    Scoped (site :: sites) ↔ site.2.Allowed site.1 ∧ Scoped sites := by
  simp [Scoped]

@[simp] theorem scoped_append {xs ys : List (List Label × Stmt α)} :
    Scoped (xs ++ ys) ↔ Scoped xs ∧ Scoped ys := by
  simp only [Scoped, List.forall_mem_append]

@[simp] theorem Expr.sitesList_eq (around : List Label) (es : List (Expr α)) :
    Expr.sitesList around es = es.flatMap (Expr.sites around) := by
  induction es with
  | nil => rfl
  | cons e es ih => simp [Expr.sitesList, ih]

@[simp] theorem Property.sitesList_eq (around : List Label) (ps : List (Property α)) :
    Property.sitesList around ps = ps.flatMap (Property.sites around) := by
  induction ps with
  | nil => rfl
  | cons p ps ih => simp [Property.sitesList, ih]

@[simp] theorem Declarator.sitesList_eq (around : List Label) (ds : List (Declarator α)) :
    Declarator.sitesList around ds = ds.flatMap (Declarator.sites around) := by
  induction ds with
  | nil => rfl
  | cons d ds ih => simp [Declarator.sitesList, ih]

@[simp] theorem SwitchCase.sitesList_eq (around : List Label) (cs : List (SwitchCase α)) :
    SwitchCase.sitesList around cs = cs.flatMap (SwitchCase.sites around) := by
  induction cs with
  | nil => rfl
  | cons c cs ih => simp [SwitchCase.sitesList, ih]

@[simp] theorem Stmt.sitesList_eq (around : List Label) (ss : List (Stmt α)) :
    Stmt.sitesList around ss = ss.flatMap (Stmt.sites around) := by
  induction ss with
  | nil => rfl
  | cons s ss ih => simp [Stmt.sitesList, Stmt.sites, ih]

theorem Expr.scoped_sitesList {around} {es : List (Expr α)} :
    Scoped (Expr.sitesList around es) ↔ ∀ e ∈ es, Scoped (e.sites around) := by
  rw [Expr.sitesList_eq]
  exact List.forall_mem_flatMap

theorem Expr.scoped_sitesOption {around} {e : Option (Expr α)} :
    Scoped (Expr.sitesOption around e) ↔ ∀ x ∈ e, Scoped (x.sites around) := by
  cases e <;> simp [Expr.sitesOption]

theorem Property.scoped_sitesList {around} {ps : List (Property α)} :
    Scoped (Property.sitesList around ps) ↔ ∀ p ∈ ps, Scoped (p.sites around) := by
  rw [Property.sitesList_eq]
  exact List.forall_mem_flatMap

theorem Declarator.scoped_sitesList {around} {ds : List (Declarator α)} :
    Scoped (Declarator.sitesList around ds) ↔ ∀ d ∈ ds, Scoped (d.sites around) := by
  rw [Declarator.sitesList_eq]
  exact List.forall_mem_flatMap

theorem Stmt.scoped_sitesOption {around} {s : Option (Stmt α)} :
    Scoped (Stmt.sitesOption around s) ↔ ∀ x ∈ s, Scoped (x.sites around) := by
  cases s <;> simp [Stmt.sitesOption, Stmt.sites]

theorem Block.scoped_sitesOption {around} {b : Option (Block α)} :
    Scoped (Block.sitesOption around b) ↔ ∀ x ∈ b, Scoped (x.sites around) := by
  cases b <;> simp [Block.sitesOption]

theorem Stmt.scoped_sitesList {around} {ss : List (Stmt α)} :
    Scoped (Stmt.sitesList around ss) ↔ ∀ s ∈ ss, Scoped (s.sites around) := by
  rw [Stmt.sitesList_eq]
  exact List.forall_mem_flatMap

@[simp] theorem Stmt.target_map (f : α → β) : ∀ s : Stmt α, (s.map f).target = s.target
  | .labeled _ _ b => Stmt.target_map f b
  | .empty _ | .block _ | .expression _ _ | .declaration _ | .if _ _ _ _ | .debugger _ | .with _ _ _
  | .return _ _ | .throw _ _ | .break _ _ | .continue _ _ | .switch _ _ _ | .try _ _ _ _
  | .while _ _ _ | .doWhile _ _ _ | .for _ _ _ _ _ | .forIn _ _ _ _ | .function _ _ _ _ => rfl

theorem Stmt.allowed_map (f : α → β) (around : List Label) (s : Stmt α) :
    (s.map f).Allowed around ↔ s.Allowed around := by
  rcases s with _ | _ | _ | _ | _ | _ | _ | _ | _ | ⟨_, _ | _⟩ | ⟨_, _ | _⟩ | _ | _ | _ | _ | _ | _ |
    _ | _ <;> exact Iff.rfl

mutual
theorem Expr.scoped_map (f : α → β) (around : List Label) : ∀ e : Expr α,
    Scoped ((e.map f).sites around) ↔ Scoped (e.sites around)
  | .identifier _ | .literal _ | .this _ => by simp [Expr.map, Expr.sites]
  | .array _ es | .sequence _ es => Expr.scopedList_map f around es
  | .object _ ps => Property.scopedList_map f around ps
  | .function _ id params body => Block.scoped_map f around body
  | .unary _ _ e | .update _ _ e _ => Expr.scoped_map f around e
  | .binary _ _ l r | .logical _ _ l r | .assignment _ _ l r | .member _ l r _ => by
    simp only [Expr.map, Expr.sites, scoped_append, Expr.scoped_map f around l,
      Expr.scoped_map f around r]
  | .conditional _ t x y => by
    simp only [Expr.map, Expr.sites, scoped_append, Expr.scoped_map f around t,
      Expr.scoped_map f around x, Expr.scoped_map f around y]
  | .call _ g es | .new _ g es => by
    simp only [Expr.map, Expr.sites, scoped_append, Expr.scoped_map f around g,
      Expr.scopedList_map f around es]
theorem Expr.scopedList_map (f : α → β) (around : List Label) : ∀ es : List (Expr α),
    Scoped (Expr.sitesList around (Expr.mapList f es)) ↔ Scoped (Expr.sitesList around es)
  | [] => by simp [Expr.mapList, Expr.sitesList]
  | e :: es => by
    simp only [Expr.mapList, Expr.sitesList, scoped_append, Expr.scoped_map f around e,
      Expr.scopedList_map f around es]
theorem Expr.scopedOption_map (f : α → β) (around : List Label) : ∀ e : Option (Expr α),
    Scoped (Expr.sitesOption around (Expr.mapOption f e)) ↔ Scoped (Expr.sitesOption around e)
  | none => by simp [Expr.mapOption, Expr.sitesOption]
  | some e => Expr.scoped_map f around e
theorem Property.scopedList_map (f : α → β) (around : List Label) : ∀ ps : List (Property α),
    Scoped (Property.sitesList around (Property.mapList f ps)) ↔
      Scoped (Property.sitesList around ps)
  | [] => by simp [Property.mapList, Property.sitesList]
  | .mk _ k v :: ps => by
    simp only [Property.mapList, Property.map, Property.sitesList, Property.sites, scoped_append,
      Expr.scoped_map f around v, Property.scopedList_map f around ps]
theorem Block.scoped_map (f : α → β) (around : List Label) : ∀ b : Block α,
    Scoped ((b.map f).sites around) ↔ Scoped (b.sites around)
  | .mk _ ss => Stmt.scopedList_map f around ss
theorem Block.scopedOption_map (f : α → β) (around : List Label) : ∀ b : Option (Block α),
    Scoped (Block.sitesOption around (Block.mapOption f b)) ↔ Scoped (Block.sitesOption around b)
  | none => by simp [Block.mapOption, Block.sitesOption]
  | some b => Block.scoped_map f around b
theorem Declarator.scopedList_map (f : α → β) (around : List Label) : ∀ ds : List (Declarator α),
    Scoped (Declarator.sitesList around (Declarator.mapList f ds)) ↔
      Scoped (Declarator.sitesList around ds)
  | [] => by simp [Declarator.mapList, Declarator.sitesList]
  | .mk _ id init :: ds => by
    simp only [Declarator.mapList, Declarator.map, Declarator.sitesList, Declarator.sites,
      scoped_append, Expr.scopedOption_map f around init, Declarator.scopedList_map f around ds]
theorem Declaration.scoped_map (f : α → β) (around : List Label) : ∀ d : Declaration α,
    Scoped ((d.map f).sites around) ↔ Scoped (d.sites around)
  | .mk _ ds => Declarator.scopedList_map f around ds
theorem SwitchCase.scopedList_map (f : α → β) (around : List Label) : ∀ cs : List (SwitchCase α),
    Scoped (SwitchCase.sitesList around (SwitchCase.mapList f cs)) ↔
      Scoped (SwitchCase.sitesList around cs)
  | [] => by simp [SwitchCase.mapList, SwitchCase.sitesList]
  | .mk _ test body :: cs => by
    simp only [SwitchCase.mapList, SwitchCase.map, SwitchCase.sitesList, SwitchCase.sites,
      scoped_append, Expr.scopedOption_map f around test, Stmt.scopedList_map f around body,
      SwitchCase.scopedList_map f around cs]
theorem CatchClause.scopedOption_map (f : α → β) (around : List Label) :
    ∀ c : Option (CatchClause α),
      Scoped (CatchClause.sitesOption around (CatchClause.mapOption f c)) ↔
        Scoped (CatchClause.sitesOption around c)
  | none => by simp [CatchClause.mapOption, CatchClause.sitesOption]
  | some (.mk _ _ body) => Block.scoped_map f around body
theorem ForInit.scopedOption_map (f : α → β) (around : List Label) : ∀ i : Option (ForInit α),
    Scoped (ForInit.sitesOption around (ForInit.mapOption f i)) ↔
      Scoped (ForInit.sitesOption around i)
  | none => by simp [ForInit.mapOption, ForInit.sitesOption]
  | some (.declaration d) => Declaration.scoped_map f around d
  | some (.expression e) => Expr.scoped_map f around e
theorem ForTarget.scoped_map (f : α → β) (around : List Label) : ∀ t : ForTarget α,
    Scoped ((t.map f).sites around) ↔ Scoped (t.sites around)
  | .declaration d => Declaration.scoped_map f around d
  | .identifier _ => by simp [ForTarget.map, ForTarget.sites]
theorem Stmt.scopedInner_map (f : α → β) (around : List Label) : ∀ s : Stmt α,
    Scoped ((s.map f).innerSites around) ↔ Scoped (s.innerSites around)
  | .empty _ | .debugger _ | .break _ _ | .continue _ _ => by simp [Stmt.map, Stmt.innerSites]
  | .block b => Block.scoped_map f around b
  | .expression _ e | .throw _ e => Expr.scoped_map f around e
  | .declaration d => Declaration.scoped_map f around d
  | .if _ t x y => by
    simp only [Stmt.map, Stmt.innerSites, scoped_append, scoped_cons, Expr.scoped_map f around t,
      Stmt.allowed_map, Stmt.scopedInner_map f around x, Stmt.scopedOption_map f around y]
  | .with _ e b => by
    simp only [Stmt.map, Stmt.innerSites, scoped_append, scoped_cons, Expr.scoped_map f around e,
      Stmt.allowed_map, Stmt.scopedInner_map f around b]
  | .return _ e => Expr.scopedOption_map f around e
  | .switch _ e cs => by
    simp only [Stmt.map, Stmt.innerSites, scoped_append, Expr.scoped_map f around e,
      SwitchCase.scopedList_map f (inSwitch around) cs]
  | .try _ b h e => by
    simp only [Stmt.map, Stmt.innerSites, scoped_append, Block.scoped_map f around b,
      CatchClause.scopedOption_map f around h, Block.scopedOption_map f around e]
  | .while _ e b | .doWhile _ b e => by
    simp only [Stmt.map, Stmt.innerSites, scoped_append, scoped_cons, Expr.scoped_map f around e,
      Stmt.allowed_map, Stmt.scopedInner_map f (inLoop around) b]
  | .for _ i t u b => by
    simp only [Stmt.map, Stmt.innerSites, scoped_append, scoped_cons, Stmt.allowed_map,
      ForInit.scopedOption_map f around i, Expr.scopedOption_map f around t,
      Expr.scopedOption_map f around u, Stmt.scopedInner_map f (inLoop around) b]
  | .forIn _ t e b => by
    simp only [Stmt.map, Stmt.innerSites, scoped_append, scoped_cons, Stmt.allowed_map,
      ForTarget.scoped_map f around t, Expr.scoped_map f around e,
      Stmt.scopedInner_map f (inLoop around) b]
  | .function _ id params body => Block.scoped_map f around body
  | .labeled _ l b => by
    simp only [Stmt.map, Stmt.innerSites, scoped_cons, Stmt.allowed_map, Stmt.target_map,
      Identifier.map, Stmt.scopedInner_map f (⟨some l.name, b.target⟩ :: around) b]
theorem Stmt.scopedOption_map (f : α → β) (around : List Label) : ∀ s : Option (Stmt α),
    Scoped (Stmt.sitesOption around (Stmt.mapOption f s)) ↔ Scoped (Stmt.sitesOption around s)
  | none => by simp [Stmt.mapOption, Stmt.sitesOption]
  | some s => by
    simp only [Stmt.mapOption, Stmt.sitesOption, scoped_cons, Stmt.allowed_map,
      Stmt.scopedInner_map f around s]
theorem Stmt.scopedList_map (f : α → β) (around : List Label) : ∀ ss : List (Stmt α),
    Scoped (Stmt.sitesList around (Stmt.mapList f ss)) ↔ Scoped (Stmt.sitesList around ss)
  | [] => by simp [Stmt.mapList, Stmt.sitesList]
  | s :: ss => by
    simp only [Stmt.mapList, Stmt.sitesList, scoped_append, scoped_cons, Stmt.allowed_map,
      Stmt.scopedInner_map f around s, Stmt.scopedList_map f around ss]
end

/-- Where statements may stand does not depend on the notes. -/
theorem Program.scoped_map (f : α → β) (p : Program α) :
    Scoped (p.map f).sites ↔ Scoped p.sites :=
  Stmt.scopedList_map f [] p.body

end ScriptTree
