import ScriptTree.Proofs.Borders

/-! # Notes are not printed

The printer looks at no note: trees that differ in their notes alone are printed alike, and the
printer restores the nodes of the one if it restores those of the other. -/
namespace ScriptTree

namespace Printer

theorem name_map (f : α → β) (i : Identifier α) : name (i.map f) = name i := rfl

theorem key_map (f : α → β) (k : PropertyKey α) : key (k.map f) = key k := by
  cases k <;> rfl

theorem optionalName_map (f : α → β) (i : Option (Identifier α)) :
    optionalName (i.map (·.map f)) = optionalName i := by
  cases i <;> rfl

theorem jump_map (f : α → β) (k : Keyword) (label : Option (Identifier α)) :
    jump k (label.map (·.map f)) = jump k label := by
  rw [jump, jump, optionalName_map]

theorem signature_map (f : α → β) (id : Option (Identifier α)) (params : List (Identifier α)) :
    signature (id.map (·.map f)) (Identifier.mapList f params) = signature id params := by
  rw [signature, signature, optionalName_map, Identifier.mapList, List.map_map]
  rfl

theorem isInteger_map (f : α → β) (e : Expr α) : isInteger (e.map f) = isInteger e := by
  cases e with
  | literal l =>
    obtain ⟨note, value⟩ := l
    cases value <;> rfl
  | _ => rfl

mutual
theorem expr_map (f : α → β) (level : Nat) : ∀ e : Expr α, expr level (e.map f) = expr level e
  | .identifier _ | .literal _ | .this _ => rfl
  | .array _ es | .sequence _ es => by rw [Expr.map, expr, expr, exprs_map f level es]
  | .object _ ps => by rw [Expr.map, expr, expr, properties_map f level ps]
  | .function _ id params body => by
    rw [Expr.map, expr, expr, signature_map, block_map f level body]
  | .unary _ op e | .update _ op e true | .update _ op e false => by
    rw [Expr.map, expr, expr, expr_map f level e]
  | .binary _ op l r | .logical _ op l r | .assignment _ op l r | .member _ l r false => by
    rw [Expr.map, expr, expr, expr_map f level l, expr_map f level r]
  | .conditional _ t x y => by
    rw [Expr.map, expr, expr, expr_map f level t, expr_map f level x, expr_map f level y]
  | .member _ o p true => by
    rw [Expr.map, expr, expr, isInteger_map, expr_map f level o, expr_map f level p]
  | .call _ g es => by rw [Expr.map, expr, expr, expr_map f level g, exprs_map f level es]
  | .new _ g [] => by rw [Expr.map, Expr.mapList, expr, expr, expr_map f level g]
  | .new _ g (e :: es) => by
    rw [Expr.map, Expr.mapList, expr, expr, expr_map f level g, expr_map f level e,
      exprs_map f level es]
theorem exprs_map (f : α → β) (level : Nat) : ∀ es : List (Expr α),
    exprs level (Expr.mapList f es) = exprs level es
  | [] => rfl
  | e :: es => by rw [Expr.mapList, exprs, exprs, expr_map f level e, exprs_map f level es]
theorem properties_map (f : α → β) (level : Nat) : ∀ ps : List (Property α),
    properties level (Property.mapList f ps) = properties level ps
  | [] => rfl
  | .mk _ k value :: ps => by
    rw [Property.mapList, Property.map, properties, properties, property, property, key_map,
      expr_map f level value, properties_map f level ps]
theorem spaced_map (f : α → β) (level : Nat) : ∀ e : Option (Expr α),
    spaced level (Expr.mapOption f e) = spaced level e
  | none => rfl
  | some e => by rw [Expr.mapOption, spaced, spaced, expr_map f level e]
theorem declarators_map (f : α → β) (level : Nat) : ∀ ds : List (Declarator α),
    declarators level (Declarator.mapList f ds) = declarators level ds
  | [] => rfl
  | .mk _ _ none :: ds => by
    rw [Declarator.mapList, Declarator.map, Expr.mapOption, declarators, declarators, declarator,
      declarator, name_map, declarators_map f level ds]
  | .mk _ _ (some e) :: ds => by
    rw [Declarator.mapList, Declarator.map, Expr.mapOption, declarators, declarators, declarator,
      declarator, name_map, expr_map f level e, declarators_map f level ds]
theorem declaration_map (f : α → β) (level : Nat) : ∀ d : Declaration α,
    declaration level (d.map f) = declaration level d
  | .mk _ ds => by rw [Declaration.map, declaration, declaration, declarators_map f level ds]
theorem block_map (f : α → β) (level : Nat) : ∀ b : Block α, block level (b.map f) = block level b
  | .mk _ [] => rfl
  | .mk _ (s :: ss) => by
    rw [Block.map, Stmt.mapList, block, block, stmt_map f (level + 1) s, lines_map f (level + 1) ss]
theorem lines_map (f : α → β) (level : Nat) : ∀ ss : List (Stmt α),
    lines level (Stmt.mapList f ss) = lines level ss
  | [] => rfl
  | s :: ss => by rw [Stmt.mapList, lines, lines, stmt_map f level s, lines_map f level ss]
theorem switchCases_map (f : α → β) (level : Nat) : ∀ cs : List (SwitchCase α),
    switchCases level (SwitchCase.mapList f cs) = switchCases level cs
  | [] => rfl
  | .mk _ none ss :: cs => by
    rw [SwitchCase.mapList, SwitchCase.map, Expr.mapOption, switchCases, switchCases, switchCase,
      switchCase, lines_map f (level + 1) ss, switchCases_map f level cs]
  | .mk _ (some e) ss :: cs => by
    rw [SwitchCase.mapList, SwitchCase.map, Expr.mapOption, switchCases, switchCases, switchCase,
      switchCase, expr_map f level e, lines_map f (level + 1) ss, switchCases_map f level cs]
theorem handler_map (f : α → β) (level : Nat) : ∀ c : Option (CatchClause α),
    handler level (CatchClause.mapOption f c) = handler level c
  | none => rfl
  | some (.mk _ param body) => by
    rw [CatchClause.mapOption, CatchClause.map, handler, handler, catchClause, catchClause, name_map,
      block_map f level body]
theorem finalizer_map (f : α → β) (level : Nat) : ∀ b : Option (Block α),
    finalizer level (Block.mapOption f b) = finalizer level b
  | none => rfl
  | some b => by rw [Block.mapOption, finalizer, finalizer, block_map f level b]
theorem alternate_map (f : α → β) (level : Nat) : ∀ s : Option (Stmt α),
    alternate level (Stmt.mapOption f s) = alternate level s
  | none => rfl
  | some s => by rw [Stmt.mapOption, alternate, alternate, stmt_map f level s]
theorem forStart_map (f : α → β) (level : Nat) : ∀ i : Option (ForInit α),
    forStart level (ForInit.mapOption f i) = forStart level i
  | none => rfl
  | some (.declaration d) => by
    rw [ForInit.mapOption, ForInit.map, forStart, forStart, forInit, forInit,
      declaration_map f level d]
  | some (.expression e) => by
    rw [ForInit.mapOption, ForInit.map, forStart, forStart, forInit, forInit, expr_map f level e]
theorem forTarget_map (f : α → β) (level : Nat) : ∀ t : ForTarget α,
    forTarget level (t.map f) = forTarget level t
  | .declaration d => by rw [ForTarget.map, forTarget, forTarget, declaration_map f level d]
  | .identifier _ => rfl
theorem stmt_map (f : α → β) (level : Nat) : ∀ s : Stmt α, stmt level (s.map f) = stmt level s
  | .empty _ | .debugger _ => rfl
  | .block b => by rw [Stmt.map, stmt, stmt, block_map f level b]
  | .expression _ e | .throw _ e => by rw [Stmt.map, stmt, stmt, expr_map f level e]
  | .declaration d => by rw [Stmt.map, stmt, stmt, declaration_map f level d]
  | .if _ t x y => by
    rw [Stmt.map, stmt, stmt, expr_map f level t, stmt_map f level x, alternate_map f level y]
  | .with _ e b | .while _ e b | .doWhile _ b e => by
    rw [Stmt.map, stmt, stmt, expr_map f level e, stmt_map f level b]
  | .return _ e => by rw [Stmt.map, stmt, stmt, spaced_map f level e]
  | .break _ l | .continue _ l => by rw [Stmt.map, stmt, stmt, jump_map]
  | .switch _ e cs => by
    rw [Stmt.map, stmt, stmt, expr_map f level e, switchCases_map f (level + 1) cs]
  | .try _ b h e => by
    rw [Stmt.map, stmt, stmt, block_map f level b, handler_map f level h, finalizer_map f level e]
  | .for _ i t u b => by
    rw [Stmt.map, stmt, stmt, forStart_map f level i, spaced_map f level t, spaced_map f level u,
      stmt_map f level b]
  | .forIn _ t e b => by
    rw [Stmt.map, stmt, stmt, forTarget_map f level t, expr_map f level e, stmt_map f level b]
  | .function _ id params body => by
    rw [Stmt.map, stmt, stmt, block_map f level body]
    exact congrArg (· ∘ block level body) (signature_map f (some id) params)
  | .labeled _ l b => by rw [Stmt.map, stmt, stmt, name_map, stmt_map f level b]
end

theorem program_map (f : α → β) : ∀ body : List (Stmt α), program (Stmt.mapList f body) = program body
  | [] => rfl
  | s :: ss => by rw [Stmt.mapList, program, program, stmt_map f 0 s, lines_map f 0 ss]

end Printer

/-- Trees that differ in their notes alone are printed alike. -/
theorem Program.print_map (f : α → β) (style : Style) (p : Program α) :
    (p.map f).print style = p.print style := by
  rw [Program.print, Program.print, Program.map, Printer.program_map]

namespace Expr

theorem rightmost_map (f : α → β) : ∀ e : Expr α, (e.map f).rightmost = e.rightmost.map f
  | .binary _ _ _ r | .logical _ _ _ r | .assignment _ _ _ r | .conditional _ _ _ r
  | .member _ _ r true | .unary _ _ r | .update _ _ r true | .new _ r [] => rightmost_map f r
  | .identifier _ | .literal _ | .this _ | .array _ _ | .object _ _ | .function _ _ _ _
  | .update _ _ _ false | .member _ _ _ false | .call _ _ _ | .new _ _ (_ :: _) | .sequence _ _ => rfl

theorem first_map (f : α → β) : ∀ e : Expr α, (e.map f).first = e.first
  | .binary _ _ e _ | .logical _ _ e _ | .assignment _ _ e _ | .conditional _ e _ _ | .member _ e _ _
  | .call _ e _ | .update _ _ e false => first_map f e
  | .identifier _ | .literal _ | .this _ | .array _ _ | .object _ _ | .function _ _ _ _ | .unary _ _ _
  | .update _ _ _ true | .new _ _ _ | .sequence _ _ => rfl

theorem leadsWithNumber_map (f : α → β) (e : Expr α) :
    (e.map f).leadsWithNumber = e.leadsWithNumber := by
  rw [leadsWithNumber, leadsWithNumber, first_map]

theorem endsInBody_map (f : α → β) (e : Expr α) : (e.map f).endsInBody = e.endsInBody := by
  rw [endsInBody, endsInBody, rightmost_map]
  cases e.rightmost <;> rfl

theorem restorable_map (f : α → β) (e : Expr α) : (e.map f).restorable = e.restorable := by
  cases e with
  | binary _ op l r | assignment _ op l r => rw [map, restorable, restorable, endsInBody_map]
  | member _ o p dotted =>
    cases dotted with
    | true => rw [map, restorable, restorable, leadsWithNumber_map]
    | false => rfl
  | new _ g es =>
    cases es with
    | nil => cases g <;> rfl
    | cons e es => cases g <;> rfl
  | _ => rfl

end Expr

/-- The printer restores the nodes of a script whatever their notes are. -/
theorem Program.restorable_map (f : α → β) (p : Program α) :
    (∀ e ∈ (p.map f).nodes, e.restorable = true) ↔ ∀ e ∈ p.nodes, e.restorable = true := by
  rw [Program.nodes_map, List.forall_mem_map]
  simp only [Expr.restorable_map]

end ScriptTree
