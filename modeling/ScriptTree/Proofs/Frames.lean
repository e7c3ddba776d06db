import ScriptTree.Tree.Map

/-! # Notes, nested like the tree

The frame of a tree is what is left when only its notes are kept: each note with the frames of the
parts, in the order of the source. `Nested` says that the notes mark ranges, each inside the one
around it and after the ones before it. -/
namespace ScriptTree

inductive Frame (α : Type) where
  | mk (note : α) (parts : List (Frame α))

namespace Frame

mutual
def map (f : α → β) : Frame α → Frame β
  | .mk note parts => .mk (f note) (mapList f parts)
def mapList (f : α → β) : List (Frame α) → List (Frame β)
  | [] => []
  | x :: xs => x.map f :: mapList f xs
end

@[simp] theorem mapList_eq (f : α → β) (xs : List (Frame α)) : mapList f xs = xs.map (map f) := by
  induction xs with
  | nil => rfl
  | cons x xs ih => simp [mapList, ih]

end Frame

/-- Frames that lie one after the other between two offsets, each with its parts inside it; `bounds`
says between which offsets a note is. -/
inductive Nested (bounds : α → Nat → Nat → Prop) : List (Frame α) → Nat → Nat → Prop
  | nil {lo hi} : lo ≤ hi → Nested bounds [] lo hi
  | cons {note parts rest lo a b hi} : lo ≤ a → bounds note a b → Nested bounds parts a b →
      Nested bounds rest b hi → Nested bounds (⟨note, parts⟩ :: rest) lo hi

namespace Nested
variable {bounds : α → Nat → Nat → Prop} {fs gs : List (Frame α)} {lo mid hi : Nat}

theorem le (h : Nested bounds fs lo hi) : lo ≤ hi := by
  induction h with
  | nil h => exact h
  | cons ha _ _ _ hparts hrest => exact Nat.le_trans ha (Nat.le_trans hparts hrest)

theorem from_le {lo' : Nat} (h : Nested bounds fs lo hi) (hlo : lo' ≤ lo) :
    Nested bounds fs lo' hi := by
  cases h with
  | nil h => exact .nil (Nat.le_trans hlo h)
  | cons ha hn hparts hrest => exact .cons (Nat.le_trans hlo ha) hn hparts hrest

theorem append (h : Nested bounds fs lo mid) (h' : Nested bounds gs mid hi) :
    Nested bounds (fs ++ gs) lo hi := by
  induction h with
  | nil hle => exact h'.from_le hle
  | cons ha hn hparts _ _ ih => exact .cons ha hn hparts (ih h')

theorem to_le {hi' : Nat} (h : Nested bounds fs lo hi) (hhi : hi ≤ hi') :
    Nested bounds fs lo hi' := by
  simpa using h.append (.nil hhi)

/-- The parts of a single frame. -/
theorem parts {note parts} (h : Nested bounds [⟨note, parts⟩] lo hi) :
    Nested bounds parts lo hi := by
  cases h with
  | cons ha _ hparts hrest => exact (hparts.from_le ha).to_le hrest.le

/-- Other notes that mark the same ranges. -/
theorem map {bounds' : β → Nat → Nat → Prop} {f : α → β}
    (hf : ∀ note a b, a ≤ b → bounds note a b → bounds' (f note) a b)
    (h : Nested bounds fs lo hi) : Nested bounds' (fs.map (Frame.map f)) lo hi := by
  induction h with
  | nil h => exact .nil h
  | cons ha hn hparts _ ihparts ihrest =>
    rw [List.map_cons, Frame.map, Frame.mapList_eq]
    exact .cons ha (hf _ _ _ hparts.le hn) ihparts ihrest

end Nested

/-! ## The frame of a tree -/

def Identifier.frame (i : Identifier α) : Frame α := ⟨i.note, []⟩

def Literal.frame (l : Literal α) : Frame α := ⟨l.note, []⟩

def PropertyKey.frame : PropertyKey α → Frame α
  | .literal l => l.frame
  | .identifier i => i.frame

def Identifier.frameOption : Option (Identifier α) → List (Frame α)
  | none => []
  | some i => [i.frame]

mutual
def Expr.frame : Expr α → Frame α
  | .identifier i => i.frame
  | .literal l => l.frame
  | .this note => ⟨note, []⟩
  | .array note es | .sequence note es => ⟨note, Expr.frameList es⟩
  | .object note ps => ⟨note, Property.frameList ps⟩
  | .function note id params body =>
    ⟨note, Identifier.frameOption id ++ params.map Identifier.frame ++ [body.frame]⟩
  | .unary note _ e | .update note _ e _ => ⟨note, [e.frame]⟩
  | .binary note _ l r | .logical note _ l r | .assignment note _ l r | .member note l r _ =>
    ⟨note, [l.frame, r.frame]⟩
  | .conditional note t x y => ⟨note, [t.frame, x.frame, y.frame]⟩
  | .call note f es | .new note f es => ⟨note, f.frame :: Expr.frameList es⟩
def Expr.frameList : List (Expr α) → List (Frame α)
  | [] => []
  | e :: es => e.frame :: Expr.frameList es
def Expr.frameOption : Option (Expr α) → List (Frame α)
  | none => []
  | some e => [e.frame]
def Property.frame : Property α → Frame α
  | .mk note key value => ⟨note, [key.frame, value.frame]⟩
def Property.frameList : List (Property α) → List (Frame α)
  | [] => []
  | p :: ps => p.frame :: Property.frameList ps
def Block.frame : Block α → Frame α
  | .mk note body => ⟨note, Stmt.frameList body⟩
def Block.frameOption : Option (Block α) → List (Frame α)
  | none => []
  | some b => [b.frame]
def Declarator.frame : Declarator α → Frame α
  | .mk note id init => ⟨note, id.frame :: Expr.frameOption init⟩
def Declarator.frameList : List (Declarator α) → List (Frame α)
  | [] => []
  | d :: ds => d.frame :: Declarator.frameList ds
def Declaration.frame : Declaration α → Frame α
  | .mk note ds => ⟨note, Declarator.frameList ds⟩
def SwitchCase.frame : SwitchCase α → Frame α
  | .mk note test body => ⟨note, Expr.frameOption test ++ Stmt.frameList body⟩
def SwitchCase.frameList : List (SwitchCase α) → List (Frame α)
  | [] => []
  | c :: cs => c.frame :: SwitchCase.frameList cs
def CatchClause.frame : CatchClause α → Frame α
  | .mk note param body => ⟨note, [param.frame, body.frame]⟩
def CatchClause.frameOption : Option (CatchClause α) → List (Frame α)
  | none => []
  | some c => [c.frame]
def ForInit.frame : ForInit α → Frame α
  | .declaration d => d.frame
  | .expression e => e.frame
def ForInit.frameOption : Option (ForInit α) → List (Frame α)
  | none => []
  | some i => [i.frame]
def ForTarget.frame : ForTarget α → Frame α
  | .declaration d => d.frame
  | .identifier i => i.frame
def Stmt.frame : Stmt α → Frame α
  | .empty note | .debugger note => ⟨note, []⟩
  | .block b => b.frame
  | .expression note e | .throw note e => ⟨note, [e.frame]⟩
  | .declaration d => d.frame
  | .if note t x y => ⟨note, t.frame :: x.frame :: Stmt.frameOption y⟩
  | .with note e b | .while note e b => ⟨note, [e.frame, b.frame]⟩
  | .return note e => ⟨note, Expr.frameOption e⟩
  | .break note l | .continue note l => ⟨note, Identifier.frameOption l⟩
  | .switch note e cs => ⟨note, e.frame :: SwitchCase.frameList cs⟩
  | .try note b h f => ⟨note, b.frame :: (CatchClause.frameOption h ++ Block.frameOption f)⟩
  | .doWhile note b e => ⟨note, [b.frame, e.frame]⟩
  | .for note i t u b =>
    ⟨note, ForInit.frameOption i ++ Expr.frameOption t ++ Expr.frameOption u ++ [b.frame]⟩
  | .forIn note t e b => ⟨note, [t.frame, e.frame, b.frame]⟩
  | .function note id params body => ⟨note, id.frame :: (params.map Identifier.frame ++ [body.frame])⟩
  | .labeled note l b => ⟨note, [l.frame, b.frame]⟩
def Stmt.frameOption : Option (Stmt α) → List (Frame α)
  | none => []
  | some s => [s.frame]
def Stmt.frameList : List (Stmt α) → List (Frame α)
  | [] => []
  | s :: ss => s.frame :: Stmt.frameList ss
end

def Program.frame (p : Program α) : Frame α := ⟨p.note, Stmt.frameList p.body⟩

@[simp] theorem Expr.frameList_eq (es : List (Expr α)) : Expr.frameList es = es.map Expr.frame := by
  induction es with
  | nil => rfl
  | cons e es ih => simp [Expr.frameList, ih]

@[simp] theorem Property.frameList_eq (ps : List (Property α)) :
    Property.frameList ps = ps.map Property.frame := by
  induction ps with
  | nil => rfl
  | cons p ps ih => simp [Property.frameList, ih]

@[simp] theorem Declarator.frameList_eq (ds : List (Declarator α)) :
    Declarator.frameList ds = ds.map Declarator.frame := by
  induction ds with
  | nil => rfl
  | cons d ds ih => simp [Declarator.frameList, ih]

@[simp] theorem SwitchCase.frameList_eq (cs : List (SwitchCase α)) :
    SwitchCase.frameList cs = cs.map SwitchCase.frame := by
  induction cs with
  | nil => rfl
  | cons c cs ih => simp [SwitchCase.frameList, ih]

@[simp] theorem Stmt.frameList_eq (ss : List (Stmt α)) : Stmt.frameList ss = ss.map Stmt.frame := by
  induction ss with
  | nil => rfl
  | cons s ss ih => simp [Stmt.frameList, ih]

/-! ## Changing the notes -/

@[simp] theorem Identifier.frame_map (f : α → β) (i : Identifier α) :
    (i.map f).frame = i.frame.map f := by
  simp [Identifier.frame, Identifier.map, Frame.map]

@[simp] theorem Literal.frame_map (f : α → β) (l : Literal α) : (l.map f).frame = l.frame.map f := by
  simp [Literal.frame, Literal.map, Frame.map]

@[simp] theorem PropertyKey.frame_map (f : α → β) (k : PropertyKey α) :
    (k.map f).frame = k.frame.map f := by
  cases k <;> simp [PropertyKey.frame, PropertyKey.map]

@[simp] theorem Identifier.frameOption_map (f : α → β) (i : Option (Identifier α)) :
    Identifier.frameOption (i.map (·.map f)) = (Identifier.frameOption i).map (Frame.map f) := by
  cases i <;> simp [Identifier.frameOption]

@[simp] theorem Identifier.map_frame_mapList (f : α → β) (is : List (Identifier α)) :
    (Identifier.mapList f is).map Identifier.frame = (is.map Identifier.frame).map (Frame.map f) := by
  simp [Identifier.mapList, Function.comp_def]

mutual
theorem Expr.frame_map (f : α → β) : ∀ e : Expr α, (e.map f).frame = e.frame.map f
  | .identifier _ | .literal _ | .this _ => by simp [Expr.map, Expr.frame, Frame.map]
  | .array _ es | .sequence _ es => by
    simp only [Expr.map, Expr.frame, Frame.map, Frame.mapList_eq, Expr.frameList_map f es]
  | .object _ ps => by
    simp only [Expr.map, Expr.frame, Frame.map, Frame.mapList_eq, Property.frameList_map f ps]
  | .function _ id params body => by
    simp [Expr.map, Expr.frame, Frame.map, Block.frame_map f body]
  | .unary _ op e | .update _ op e _ => by
    simp [Expr.map, Expr.frame, Frame.map, Expr.frame_map f e]
  | .binary _ op l r | .logical _ op l r | .assignment _ op l r | .member _ l r _ => by
    simp [Expr.map, Expr.frame, Frame.map, Expr.frame_map f l, Expr.frame_map f r]
  | .conditional _ t x y => by
    simp [Expr.map, Expr.frame, Frame.map, Expr.frame_map f t, Expr.frame_map f x,
      Expr.frame_map f y]
  | .call _ g es | .new _ g es => by
    simp only [Expr.map, Expr.frame, Frame.map, Frame.mapList_eq, List.map_cons,
      Expr.frame_map f g, Expr.frameList_map f es]
theorem Expr.frameList_map (f : α → β) : ∀ es : List (Expr α),
    Expr.frameList (Expr.mapList f es) = (Expr.frameList es).map (Frame.map f)
  | [] => rfl
  | e :: es => by
    simp only [Expr.mapList, Expr.frameList, List.map_cons, Expr.frame_map f e,
      Expr.frameList_map f es]
theorem Property.frameList_map (f : α → β) : ∀ ps : List (Property α),
    Property.frameList (Property.mapList f ps) = (Property.frameList ps).map (Frame.map f)
  | [] => rfl
  | .mk _ k v :: ps => by
    simp only [Property.mapList, Property.map, Property.frameList, Property.frame, Frame.map,
      Frame.mapList_eq, List.map_cons, List.map_nil, PropertyKey.frame_map, Expr.frame_map f v,
      Property.frameList_map f ps]
theorem Block.frame_map (f : α → β) : ∀ b : Block α, (b.map f).frame = b.frame.map f
  | .mk _ ss => by
    simp only [Block.map, Block.frame, Frame.map, Frame.mapList_eq, Stmt.frameList_map f ss]
theorem Stmt.frameList_map (f : α → β) : ∀ ss : List (Stmt α),
    Stmt.frameList (Stmt.mapList f ss) = (Stmt.frameList ss).map (Frame.map f)
  | [] => rfl
  | s :: ss => by
    simp only [Stmt.mapList, Stmt.frameList, List.map_cons, Stmt.frame_map f s,
      Stmt.frameList_map f ss]
theorem Stmt.frame_map (f : α → β) : ∀ s : Stmt α, (s.map f).frame = s.frame.map f
  | .empty _ | .debugger _ => by simp [Stmt.map, Stmt.frame, Frame.map]
  | .block b => Block.frame_map f b
  | .expression _ e | .throw _ e => by simp [Stmt.map, Stmt.frame, Frame.map, Expr.frame_map f e]
  | .declaration d => Declaration.frame_map f d
  | .if _ t x y => by
    simp [Stmt.map, Stmt.frame, Frame.map, Expr.frame_map f t, Stmt.frame_map f x,
      Stmt.frameOption_map f y]
  | .with _ e b | .while _ e b | .doWhile _ b e => by
    simp [Stmt.map, Stmt.frame, Frame.map, Expr.frame_map f e, Stmt.frame_map f b]
  | .return _ e => by simp [Stmt.map, Stmt.frame, Frame.map, Expr.frameOption_map f e]
  | .break _ l | .continue _ l => by simp [Stmt.map, Stmt.frame, Frame.map]
  | .switch _ e cs => by
    simp only [Stmt.map, Stmt.frame, Frame.map, Frame.mapList_eq, List.map_cons,
      Expr.frame_map f e, SwitchCase.frameList_map f cs]
  | .try _ b h e => by
    simp [Stmt.map, Stmt.frame, Frame.map, Block.frame_map f b, CatchClause.frameOption_map f h,
      Block.frameOption_map f e]
  | .for _ i t u b => by
    simp [Stmt.map, Stmt.frame, Frame.map, ForInit.frameOption_map f i, Expr.frameOption_map f t,
      Expr.frameOption_map f u, Stmt.frame_map f b]
  | .forIn _ t e b => by
    simp [Stmt.map, Stmt.frame, Frame.map, ForTarget.frame_map f t, Expr.frame_map f e,
      Stmt.frame_map f b]
  | .function _ id params body => by
    simp [Stmt.map, Stmt.frame, Frame.map, Block.frame_map f body]
  | .labeled _ l b => by simp [Stmt.map, Stmt.frame, Frame.map, Stmt.frame_map f b]
theorem Expr.frameOption_map (f : α → β) : ∀ e : Option (Expr α),
    Expr.frameOption (Expr.mapOption f e) = (Expr.frameOption e).map (Frame.map f)
  | none => rfl
  | some e => by simp [Expr.mapOption, Expr.frameOption, Expr.frame_map f e]
theorem Stmt.frameOption_map (f : α → β) : ∀ s : Option (Stmt α),
    Stmt.frameOption (Stmt.mapOption f s) = (Stmt.frameOption s).map (Frame.map f)
  | none => rfl
  | some s => by simp [Stmt.mapOption, Stmt.frameOption, Stmt.frame_map f s]
theorem Block.frameOption_map (f : α → β) : ∀ b : Option (Block α),
    Block.frameOption (Block.mapOption f b) = (Block.frameOption b).map (Frame.map f)
  | none => rfl
  | some b => by simp [Block.mapOption, Block.frameOption, Block.frame_map f b]
theorem Declaration.frame_map (f : α → β) : ∀ d : Declaration α, (d.map f).frame = d.frame.map f
  | .mk _ ds => by
    simp only [Declaration.map, Declaration.frame, Frame.map, Frame.mapList_eq,
      Declarator.frameList_map f ds]
theorem Declarator.frameList_map (f : α → β) : ∀ ds : List (Declarator α),
    Declarator.frameList (Declarator.mapList f ds) = (Declarator.frameList ds).map (Frame.map f)
  | [] => rfl
  | .mk _ id init :: ds => by
    simp only [Declarator.mapList, Declarator.map, Declarator.frameList, Declarator.frame, Frame.map,
      Frame.mapList_eq, List.map_cons, Identifier.frame_map, Expr.frameOption_map f init,
      Declarator.frameList_map f ds]
theorem SwitchCase.frameList_map (f : α → β) : ∀ cs : List (SwitchCase α),
    SwitchCase.frameList (SwitchCase.mapList f cs) = (SwitchCase.frameList cs).map (Frame.map f)
  | [] => rfl
  | .mk _ test body :: cs => by
    simp only [SwitchCase.mapList, SwitchCase.map, SwitchCase.frameList, SwitchCase.frame, Frame.map,
      Frame.mapList_eq, List.map_cons, List.map_append, Expr.frameOption_map f test,
      Stmt.frameList_map f body, SwitchCase.frameList_map f cs]
theorem CatchClause.frameOption_map (f : α → β) : ∀ c : Option (CatchClause α),
    CatchClause.frameOption (CatchClause.mapOption f c) =
      (CatchClause.frameOption c).map (Frame.map f)
  | none => rfl
  | some (.mk _ param body) => by
    simp [CatchClause.mapOption, CatchClause.map, CatchClause.frameOption, CatchClause.frame,
      Frame.map, Block.frame_map f body]
theorem ForInit.frameOption_map (f : α → β) : ∀ i : Option (ForInit α),
    ForInit.frameOption (ForInit.mapOption f i) = (ForInit.frameOption i).map (Frame.map f)
  | none => rfl
  | some (.declaration d) => by
    simp [ForInit.mapOption, ForInit.map, ForInit.frameOption, ForInit.frame,
      Declaration.frame_map f d]
  | some (.expression e) => by
    simp [ForInit.mapOption, ForInit.map, ForInit.frameOption, ForInit.frame, Expr.frame_map f e]
theorem ForTarget.frame_map (f : α → β) : ∀ t : ForTarget α, (t.map f).frame = t.frame.map f
  | .declaration d => Declaration.frame_map f d
  | .identifier i => Identifier.frame_map f i
end

theorem Program.frame_map (f : α → β) (p : Program α) : (p.map f).frame = p.frame.map f := by
  simp only [Program.frame, Program.map, Frame.map, Frame.mapList_eq, Stmt.frameList_map]

end ScriptTree
