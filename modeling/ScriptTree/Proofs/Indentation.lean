import ScriptTree.Printer

/-! # Indentation is relative

The level of indentation is one more inside a block or a switch, and the old one again behind it. So a
counter would do that is raised and lowered and never lowered below 0: every tree leaves it where it
was. And what is written at a level is what would be written at level 0, moved in by that level. -/
namespace ScriptTree

/-! ## Moving in -/

namespace Piece

/-- The same piece, some levels further in. -/
def indent (n : Nat) : Piece → Piece
  | .newline level => .newline (level + n)
  | p => p

theorem indent_zero (p : Piece) : p.indent 0 = p := by cases p <;> rfl

theorem indent_comp_indent (m n : Nat) : indent n ∘ indent m = indent (m + n) := by
  funext p
  cases p <;> simp [indent, Nat.add_assoc]

theorem le_of_newline_mem_indent {n level : Nat} {ps : List Piece}
    (h : .newline level ∈ ps.map (indent n)) : n ≤ level := by
  obtain ⟨p, -, hp⟩ := List.mem_map.1 h
  cases p <;> simp only [indent, reduceCtorEq, Piece.newline.injEq] at hp
  omega

end Piece

namespace Printer

/-- Writers, one for each level, that are put together from pieces, line breaks at the level, and
what is written one level further in. -/
inductive Drawn : (Nat → Writer) → Prop
  | tok (text : String) : Drawn fun _ => tok text
  | space : Drawn fun _ => space
  | blank : Drawn fun _ => blank
  | nothing : Drawn fun _ => nothing
  | newline : Drawn newline
  | comp {v w} : Drawn v → Drawn w → Drawn fun level => v level ∘ w level
  | deeper {w} : Drawn w → Drawn fun level => w (level + 1)

/-- Writing with a counter for the level: where it stands before and behind. Lines begin where it
stands. It is raised for what is written inside and lowered again, if it is above 0. -/
inductive Counts : Nat → Writer → Nat → Prop
  | tok {n} (text : String) : Counts n (tok text) n
  | space {n} : Counts n space n
  | blank {n} : Counts n blank n
  | nothing {n} : Counts n nothing n
  | newline {n} : Counts n (newline n) n
  | comp {m n k v w} : Counts m v n → Counts n w k → Counts m (v ∘ w) k
  | inside {n m w} : Counts (n + 1) w m → 0 < m → Counts n w (m - 1)

/-- Writers that put the same pieces at every level, but for how far they are moved in. -/
def Relative (w : Nat → Writer) : Prop :=
  ∀ level k, w level k = (w 0 []).map (Piece.indent level) ++ k

variable {v w : Nat → Writer}

/-- The counter is back where it was. -/
theorem Counts.eq {m n : Nat} {w : Writer} (h : Counts m w n) : n = m := by
  induction h with
  | tok _ | space | blank | nothing | newline => rfl
  | comp _ _ ih ih' => exact ih'.trans ih
  | inside _ _ ih => rw [ih, Nat.add_sub_cancel]

theorem Relative.comp (hv : Relative v) (hw : Relative w) : Relative fun level => v level ∘ w level := by
  intro level k
  have hzero : v 0 (w 0 []) = v 0 [] ++ w 0 [] := by
    rw [hv 0 (w 0 []), List.map_id'' Piece.indent_zero]
  calc v level (w level k)
      = (v 0 []).map (Piece.indent level) ++ ((w 0 []).map (Piece.indent level) ++ k) := by
        rw [hw level k, hv level]
    _ = (v 0 (w 0 [])).map (Piece.indent level) ++ k := by
        rw [hzero, List.map_append, List.append_assoc]

theorem Relative.deeper (hw : Relative w) : Relative fun level => w (level + 1) := by
  intro level k
  calc w (level + 1) k = (w 0 []).map (Piece.indent (level + 1)) ++ k := hw (level + 1) k
    _ = ((w 0 []).map (Piece.indent 1)).map (Piece.indent level) ++ k := by
      rw [List.map_map, Piece.indent_comp_indent, Nat.add_comm]
    _ = (w (0 + 1) []).map (Piece.indent level) ++ k := by
      rw [hw (0 + 1) [], List.append_nil]

namespace Drawn

theorem counts (h : Drawn w) (level : Nat) : Counts level (w level) level := by
  induction h generalizing level with
  | tok text => exact .tok text
  | space => exact .space
  | blank => exact .blank
  | nothing => exact .nothing
  | newline => exact .newline
  | comp _ _ ih ih' => exact .comp (ih level) (ih' level)
  | deeper _ ih => exact .inside (ih (level + 1)) (Nat.succ_pos level)

theorem relative (h : Drawn w) : Relative w := by
  induction h with
  | tok _ | space | blank | nothing => exact fun _ _ => rfl
  | newline =>
    intro level k
    simp [Printer.newline, Piece.indent]
  | comp _ _ ih ih' => exact ih.comp ih'
  | deeper _ ih => exact ih.deeper

/-- No line begins further out. -/
theorem le_of_newline_mem (h : Drawn w) {level l : Nat} (hl : .newline l ∈ w level []) :
    level ≤ l := by
  rw [h.relative level [], List.append_nil] at hl
  exact Piece.le_of_newline_mem_indent hl

end Drawn

/-! ## Phrases -/

section
variable (hw : Drawn w)
include hw

theorem Drawn.afterToken (text : String) : Drawn fun level => Printer.tok text ∘ w level :=
  .comp (.tok text) hw

theorem Drawn.beforeToken (text : String) : Drawn fun level => w level ∘ Printer.tok text :=
  .comp hw (.tok text)

theorem Drawn.afterSpace : Drawn fun level => Printer.space ∘ w level := .comp .space hw

/-- Something between two tokens. -/
theorem Drawn.between (first last : String) :
    Drawn fun level => Printer.tok first ∘ w level ∘ Printer.tok last :=
  (hw.beforeToken last).afterToken first

/-- Something after a token and a space. -/
theorem Drawn.afterWord (text : String) :
    Drawn fun level => Printer.tok text ∘ Printer.space ∘ w level :=
  hw.afterSpace.afterToken text

/-- Something after a token between two spaces. -/
theorem Drawn.afterSpaced (text : String) :
    Drawn fun level => Printer.space ∘ Printer.tok text ∘ Printer.space ∘ w level :=
  (hw.afterWord text).afterSpace

/-- Lines inside, and the token that closes them on a line of its own. -/
theorem Drawn.lined (text : String) :
    Drawn fun level => w (level + 1) ∘ Printer.newline level ∘ Printer.tok text :=
  .comp hw.deeper (Drawn.newline.beforeToken text)

theorem Drawn.header (k : Keyword) : Drawn fun level => header k (w level) :=
  Drawn.afterWord (.comp (hw.between "(" ")") .space) _

end

theorem drawn_names (is : List (Identifier α)) : Drawn fun _ => commas (is.map name) := by
  induction is with
  | nil => exact .nothing
  | cons i is ih =>
    cases is with
    | nil => exact .tok _
    | cons j is => exact (ih.afterWord _).afterToken _

theorem drawn_optionalName (i : Option (Identifier α)) : Drawn fun _ => optionalName i := by
  cases i with
  | none => exact .nothing
  | some i => exact .tok _

theorem drawn_signature (id : Option (Identifier α)) (params : List (Identifier α)) :
    Drawn fun _ => signature id params :=
  have rest := Drawn.comp (Drawn.between (drawn_names params) "(" ")") .space
  Drawn.afterToken (.comp (drawn_optionalName id) rest) _

theorem drawn_key (k : PropertyKey α) : Drawn fun _ => key k := by
  cases k with
  | literal l => exact .tok _
  | identifier i => exact .tok _

theorem drawn_jump (k : Keyword) (label : Option (Identifier α)) : Drawn fun _ => jump k label :=
  (drawn_optionalName label).between _ _

/-! ## Trees -/

mutual
theorem drawn_expr : ∀ e : Expr α, Drawn (expr · e)
  | .identifier _ | .literal _ | .this _ => .tok _
  | .array _ es | .sequence _ es => (drawn_exprs es).between _ _
  | .object _ ps => (drawn_properties ps).between _ _
  | .function _ id params body => (drawn_signature id params).comp (drawn_block body)
  | .unary _ _ e => (drawn_expr e).afterToken _
  | .update _ _ e true => (drawn_expr e).afterToken _
  | .update _ _ e false => (drawn_expr e).beforeToken _
  | .binary _ _ l r | .logical _ _ l r | .assignment _ _ l r =>
    (drawn_expr l).comp ((drawn_expr r).afterSpaced _)
  | .conditional _ t c a =>
    (drawn_expr t).comp (((drawn_expr c).comp ((drawn_expr a).afterSpaced _)).afterSpaced _)
  | .member _ o p true => by
    have hgap : Drawn fun _ => if isInteger o then blank else nothing := by
      split
      · exact .blank
      · exact .nothing
    exact (drawn_expr o).comp (hgap.comp ((drawn_expr p).afterToken _))
  | .member _ o p false => (drawn_expr o).comp ((drawn_expr p).between _ _)
  | .call _ f es => (drawn_expr f).comp ((drawn_exprs es).between _ _)
  | .new _ f es => by
    have hf := drawn_expr f
    have hes := drawn_exprs es
    cases es with
    | nil => exact hf.afterWord _
    | cons e es => exact (hf.comp (hes.between _ _)).afterWord _
theorem drawn_exprs : ∀ es : List (Expr α), Drawn fun level => commas (exprs level es)
  | [] => .nothing
  | [e] => drawn_expr e
  | e :: e' :: es => (drawn_expr e).comp ((drawn_exprs (e' :: es)).afterWord _)
theorem drawn_property : ∀ p : Property α, Drawn (property · p)
  | .mk _ k value => (drawn_key k).comp ((drawn_expr value).afterWord _)
theorem drawn_properties : ∀ ps : List (Property α),
    Drawn fun level => commas (properties level ps)
  | [] => .nothing
  | [p] => drawn_property p
  | p :: p' :: ps => (drawn_property p).comp ((drawn_properties (p' :: ps)).afterWord _)
theorem drawn_spaced : ∀ e : Option (Expr α), Drawn (spaced · e)
  | none => .nothing
  | some e => (drawn_expr e).afterSpace
theorem drawn_declarator : ∀ d : Declarator α, Drawn (declarator · d)
  | .mk _ _ none => .tok _
  | .mk _ _ (some e) => ((drawn_expr e).afterSpaced _).afterToken _
theorem drawn_declarators : ∀ ds : List (Declarator α),
    Drawn fun level => commas (declarators level ds)
  | [] => .nothing
  | [d] => drawn_declarator d
  | d :: d' :: ds => (drawn_declarator d).comp ((drawn_declarators (d' :: ds)).afterWord _)
theorem drawn_declaration : ∀ d : Declaration α, Drawn (declaration · d)
  | .mk _ ds => (drawn_declarators ds).afterToken _
theorem drawn_block : ∀ b : Block α, Drawn (block · b)
  | .mk _ ss => by
    have hss := drawn_lines ss
    cases ss with
    | nil => exact Drawn.afterToken (.tok _) _
    | cons s ss => exact (hss.lined _).afterToken _
theorem drawn_lines : ∀ ss : List (Stmt α), Drawn (lines · ss)
  | [] => .nothing
  | s :: ss => .comp .newline ((drawn_stmt s).comp (drawn_lines ss))
theorem drawn_switchCase : ∀ c : SwitchCase α, Drawn (switchCase · c)
  | .mk _ none ss => ((drawn_lines ss).deeper.afterToken _).afterToken _
  | .mk _ (some e) ss => ((drawn_expr e).comp ((drawn_lines ss).deeper.afterToken _)).afterWord _
theorem drawn_switchCases : ∀ cs : List (SwitchCase α), Drawn (switchCases · cs)
  | [] => .nothing
  | c :: cs => .comp .newline ((drawn_switchCase c).comp (drawn_switchCases cs))
theorem drawn_catchClause : ∀ c : CatchClause α, Drawn (catchClause · c)
  | .mk _ _ body => ((((drawn_block body).afterWord _).afterToken _).afterToken _).afterSpaced _
theorem drawn_handler : ∀ c : Option (CatchClause α), Drawn (handler · c)
  | none => .nothing
  | some c => drawn_catchClause c
theorem drawn_finalizer : ∀ b : Option (Block α), Drawn (finalizer · b)
  | none => .nothing
  | some b => (drawn_block b).afterSpaced _
theorem drawn_alternate : ∀ s : Option (Stmt α), Drawn (alternate · s)
  | none => .nothing
  | some s => (drawn_stmt s).afterSpaced _
theorem drawn_forInit : ∀ i : ForInit α, Drawn (forInit · i)
  | .declaration d => drawn_declaration d
  | .expression e => drawn_expr e
theorem drawn_forStart : ∀ i : Option (ForInit α), Drawn (forStart · i)
  | none => .nothing
  | some i => drawn_forInit i
theorem drawn_forTarget : ∀ t : ForTarget α, Drawn (forTarget · t)
  | .declaration d => drawn_declaration d
  | .identifier _ => .tok _
theorem drawn_stmt : ∀ s : Stmt α, Drawn (stmt · s)
  | .empty _ => .tok _
  | .block b => drawn_block b
  | .expression _ e => (drawn_expr e).beforeToken _
  | .declaration d => (drawn_declaration d).beforeToken _
  | .if _ t c a => ((drawn_expr t).header _).comp ((drawn_stmt c).comp (drawn_alternate a))
  | .debugger _ => Drawn.afterToken (.tok _) _
  | .with _ o b => ((drawn_expr o).header _).comp (drawn_stmt b)
  | .return _ e => (drawn_spaced e).between _ _
  | .throw _ e => ((drawn_expr e).beforeToken _).afterWord _
  | .break _ l | .continue _ l => drawn_jump _ l
  | .switch _ d cs =>
    ((drawn_expr d).header _).comp (((drawn_switchCases cs).lined _).afterToken _)
  | .try _ b h f =>
    ((drawn_block b).comp ((drawn_handler h).comp (drawn_finalizer f))).afterWord _
  | .while _ t b => ((drawn_expr t).header _).comp (drawn_stmt b)
  | .doWhile _ b t =>
    ((drawn_stmt b).comp (((drawn_expr t).between _ _).afterSpaced _)).afterWord _
  | .for _ i t u b =>
    have last := (drawn_spaced u).comp ((drawn_stmt b).afterWord _)
    have rest := (drawn_spaced t).comp (last.afterToken _)
    (((drawn_forStart i).comp (rest.afterToken _)).afterToken _).afterWord _
  | .forIn _ t o b =>
    have rest := (drawn_expr o).comp ((drawn_stmt b).afterWord _)
    (((drawn_forTarget t).comp (rest.afterSpaced _)).afterToken _).afterWord _
  | .function _ _ params body => (drawn_signature _ params).comp (drawn_block body)
  | .labeled _ _ b => ((drawn_stmt b).afterWord _).afterToken _
end

/-- A script begins at level 0. -/
theorem program_counts (body : List (Stmt α)) : Counts 0 (program body) 0 := by
  cases body with
  | nil => exact .nothing
  | cons s ss => exact ((drawn_stmt s).comp (drawn_lines ss)).counts 0

end Printer
end ScriptTree
