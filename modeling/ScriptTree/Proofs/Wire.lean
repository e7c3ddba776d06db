import ScriptTree.Tree.Shape

/-! # What the JSON of a tree promises

In JSON the argument of a throw statement could be missing, and a literal could have the parts of a
regular expression beside any value. No object in the JSON of a tree is like that. The type of trees
carries both: it has no room for a throw statement without an argument, and keeps the parts of a
regular expression in its value. So this is a fact about writing, and holds of trees that were never
read; that there is an argument is what the reader of a throw statement checks before it builds one. -/
namespace ScriptTree

mutual
/-- The objects in a value, each before those inside it. -/
def Json.objects : Json → List (List (String × Json))
  | .array items => Json.objectsList items
  | .object fields => fields :: Json.objectsFields fields
  | .null | .bool _ | .int _ | .double _ | .string _ => []
def Json.objectsList : List Json → List (List (String × Json))
  | [] => []
  | j :: js => j.objects ++ Json.objectsList js
def Json.objectsFields : List (String × Json) → List (List (String × Json))
  | [] => []
  | (_, j) :: fs => j.objects ++ Json.objectsFields fs
end

/-- What the fields of an object promise. A throw statement has an argument. A literal has the parts
of a regular expression just if its value is the empty object that stands for one. -/
def Shape.Promised (fields : List (String × Json)) : Prop :=
  (fields.lookup "type" = some (.string "ThrowStatement") →
    ∃ argument, fields.lookup "argument" = some argument ∧ argument ≠ .null) ∧
  (fields.lookup "type" = some (.string "Literal") →
    ((fields.lookup "regex").isSome = true ↔ fields.lookup "value" = some (.object [])))

/-- Every object in the value keeps its promise. -/
def Json.Promised (j : Json) : Prop := ∀ fields ∈ j.objects, Shape.Promised fields

namespace Json

@[simp] theorem promised_null : Json.null.Promised := List.forall_mem_nil _

@[simp] theorem promised_bool (b : Bool) : (Json.bool b).Promised := List.forall_mem_nil _

@[simp] theorem promised_string (s : String) : (Json.string s).Promised := List.forall_mem_nil _

theorem promised_array {items : List Json} :
    (Json.array items).Promised ↔ ∀ j ∈ items, j.Promised := by
  rw [Promised, objects]
  induction items with
  | nil => simp [objectsList]
  | cons j js ih => simp [objectsList, or_imp, forall_and, ih, Promised]

theorem promised_cons {j : Json} {js : List Json} :
    (Json.array (j :: js)).Promised ↔ j.Promised ∧ (Json.array js).Promised := by
  rw [promised_array, promised_array, List.forall_mem_cons]

theorem promised_object {fields : List (String × Json)} :
    (Json.object fields).Promised ↔ Shape.Promised fields ∧ ∀ f ∈ fields, f.2.Promised := by
  have inside : (∀ o ∈ objectsFields fields, Shape.Promised o) ↔ ∀ f ∈ fields, f.2.Promised := by
    induction fields with
    | nil => simp [objectsFields]
    | cons f fs ih => simp [objectsFields, or_imp, forall_and, ih, Promised]
  rw [Promised, objects, List.forall_mem_cons, inside]

/-- Numbers have no parts. -/
theorem promised_ofDouble (x : Double) : (Json.ofDouble x).Promised := by
  unfold ofDouble
  split
  · split
    · split <;> exact List.forall_mem_nil _
    · exact List.forall_mem_nil _
  · exact List.forall_mem_nil _

end Json

namespace Shape

theorem promised_location (l : Location) : l.toJson.Promised := by
  have place (p : Position) : p.toJson.Promised :=
    Json.promised_object.2 ⟨⟨nofun, nofun⟩, by simp [Json.nat, Json.Promised, Json.objects]⟩
  exact Json.promised_object.2 ⟨⟨nofun, nofun⟩, by simp [place]⟩

/-- Only throw statements and literals have something to promise. -/
theorem promised_node {type : String} {loc : Location} {fields : List (String × Json)}
    (hthrow : type ≠ "ThrowStatement") (hliteral : type ≠ "Literal")
    (hfields : ∀ f ∈ fields, f.2.Promised) : (node type loc fields).Promised := by
  refine Json.promised_object.2 ⟨⟨fun h => ?_, fun h => ?_⟩, ?_⟩
  · exact absurd (Json.string.inj (Option.some.inj h)) hthrow
  · exact absurd (Json.string.inj (Option.some.inj h)) hliteral
  · exact List.forall_mem_cons.2 ⟨Json.promised_string _,
      List.forall_mem_cons.2 ⟨promised_location loc, hfields⟩⟩

theorem promised_identifier (i : Identifier Location) : (identifier i).Promised :=
  promised_node (by decide) (by decide) (by simp)

theorem promised_identifiers (is : List (Identifier Location)) : (identifiers is).Promised :=
  Json.promised_array.2 (List.forall_mem_map.2 fun i _ => promised_identifier i)

theorem promised_literal (l : Literal Location) : (literal l).Promised := by
  refine Json.promised_object.2 ⟨⟨fun h => ?_, fun _ => ?_⟩, ?_⟩
  · exact absurd (Json.string.inj (Option.some.inj h)) (by decide)
  · cases l.value with
    | number x =>
      have hne : Json.ofDouble x ≠ .object [] := by
        unfold Json.ofDouble
        split
        · split
          · split <;> nofun
          · nofun
        · nofun
      simpa [literalFields, List.lookup_cons] using hne
    | _ => simp [literalFields, List.lookup_cons]
  · cases l.value with
    | regex pattern flags =>
      have parts : (Json.object [("pattern", .string pattern), ("flags", .string flags)]).Promised :=
        Json.promised_object.2 ⟨⟨nofun, nofun⟩, by simp⟩
      have empty : (Json.object []).Promised :=
        Json.promised_object.2 ⟨⟨nofun, nofun⟩, List.forall_mem_nil _⟩
      simp [literalFields, promised_location, parts, empty]
    | _ => simp [literalFields, promised_location, Json.promised_ofDouble]

theorem expr_ne_null (e : Expr Location) : expr e ≠ .null := by
  cases e <;> nofun

mutual
theorem promised_expr : ∀ e : Expr Location, (expr e).Promised
  | .identifier i => promised_identifier i
  | .literal l => promised_literal l
  | .this _ => promised_node (by decide) (by decide) (by simp)
  | .array _ es | .sequence _ es =>
    promised_node (by decide) (by decide) (by simp [promised_exprs es])
  | .object _ ps => promised_node (by decide) (by decide) (by simp [promised_properties ps])
  | .function _ id params body => promised_node (by decide) (by decide)
      (by cases id <;> simp [promised_identifier, promised_identifiers, promised_block body])
  | .unary _ _ e | .update _ _ e _ =>
    promised_node (by decide) (by decide) (by simp [operator, promised_expr e])
  | .binary _ _ l r | .logical _ _ l r | .assignment _ _ l r | .member _ l r _ =>
    promised_node (by decide) (by decide) (by simp [operator, promised_expr l, promised_expr r])
  | .conditional _ t x y => promised_node (by decide) (by decide)
      (by simp [promised_expr t, promised_expr x, promised_expr y])
  | .call _ f es | .new _ f es =>
    promised_node (by decide) (by decide) (by simp [promised_expr f, promised_exprs es])
theorem promised_exprs : ∀ es : List (Expr Location), (Json.array (exprs es)).Promised
  | [] => List.forall_mem_nil _
  | e :: es => Json.promised_cons.2 ⟨promised_expr e, promised_exprs es⟩
theorem promised_exprOrNull : ∀ e : Option (Expr Location), (exprOrNull e).Promised
  | none => Json.promised_null
  | some e => promised_expr e
theorem promised_properties : ∀ ps : List (Property Location), (Json.array (properties ps)).Promised
  | [] => List.forall_mem_nil _
  | .mk _ key value :: ps => Json.promised_cons.2 ⟨promised_node (by decide) (by decide)
      (by cases key <;>
        simp [propertyKey, promised_literal, promised_identifier, promised_expr value]),
      promised_properties ps⟩
theorem promised_block : ∀ b : Block Location, (block b).Promised
  | .mk _ body => promised_node (by decide) (by decide) (by simp [promised_stmts body])
theorem promised_blockOrNull : ∀ b : Option (Block Location), (blockOrNull b).Promised
  | none => Json.promised_null
  | some b => promised_block b
theorem promised_declarators : ∀ ds : List (Declarator Location), (Json.array (declarators ds)).Promised
  | [] => List.forall_mem_nil _
  | .mk _ id init :: ds => Json.promised_cons.2 ⟨promised_node (by decide) (by decide)
      (by simp [promised_identifier, promised_exprOrNull init]), promised_declarators ds⟩
theorem promised_declaration : ∀ d : Declaration Location, (declaration d).Promised
  | .mk _ ds => promised_node (by decide) (by decide) (by simp [promised_declarators ds])
theorem promised_switchCases : ∀ cs : List (SwitchCase Location), (Json.array (switchCases cs)).Promised
  | [] => List.forall_mem_nil _
  | .mk _ test body :: cs => Json.promised_cons.2 ⟨promised_node (by decide) (by decide)
      (by simp [promised_exprOrNull test, promised_stmts body]), promised_switchCases cs⟩
theorem promised_catchOrNull : ∀ c : Option (CatchClause Location), (catchOrNull c).Promised
  | none => Json.promised_null
  | some (.mk _ param body) => promised_node (by decide) (by decide)
      (by simp [promised_identifier, promised_block body])
theorem promised_forInitOrNull : ∀ i : Option (ForInit Location), (forInitOrNull i).Promised
  | none => Json.promised_null
  | some (.declaration d) => promised_declaration d
  | some (.expression e) => promised_expr e
theorem promised_forTarget : ∀ t : ForTarget Location, (forTarget t).Promised
  | .declaration d => promised_declaration d
  | .identifier i => promised_identifier i
theorem promised_stmt : ∀ s : Stmt Location, (stmt s).Promised
  | .empty _ | .debugger _ => promised_node (by decide) (by decide) (by simp)
  | .block b => promised_block b
  | .expression _ e => promised_node (by decide) (by decide) (by simp [promised_expr e])
  | .declaration d => promised_declaration d
  | .if _ t x y => promised_node (by decide) (by decide)
      (by simp [promised_expr t, promised_stmt x, promised_stmtOrNull y])
  | .with _ e b | .while _ e b | .doWhile _ b e =>
    promised_node (by decide) (by decide) (by simp [promised_expr e, promised_stmt b])
  | .return _ e => promised_node (by decide) (by decide) (by simp [promised_exprOrNull e])
  | .throw _ e => Json.promised_object.2
      ⟨⟨fun _ => ⟨expr e, rfl, expr_ne_null e⟩,
        fun h => absurd (Json.string.inj (Option.some.inj h)) (by decide)⟩,
        by simp [promised_location, promised_expr e]⟩
  | .break _ l | .continue _ l => promised_node (by decide) (by decide)
      (by cases l <;> simp [Json.ofOption, promised_identifier])
  | .switch _ e cs =>
    promised_node (by decide) (by decide) (by simp [promised_expr e, promised_switchCases cs])
  | .try _ b h f => promised_node (by decide) (by decide)
      (by simp [promised_block b, promised_catchOrNull h, promised_blockOrNull f])
  | .for _ i t u b => promised_node (by decide) (by decide)
      (by simp [promised_forInitOrNull i, promised_exprOrNull t, promised_exprOrNull u,
        promised_stmt b])
  | .forIn _ t e b => promised_node (by decide) (by decide)
      (by simp [promised_forTarget t, promised_expr e, promised_stmt b])
  | .function _ id params body => promised_node (by decide) (by decide)
      (by simp [promised_identifier, promised_identifiers, promised_block body])
  | .labeled _ l b =>
    promised_node (by decide) (by decide) (by simp [promised_identifier, promised_stmt b])
theorem promised_stmtOrNull : ∀ s : Option (Stmt Location), (stmtOrNull s).Promised
  | none => Json.promised_null
  | some s => promised_stmt s
theorem promised_stmts : ∀ ss : List (Stmt Location), (Json.array (stmts ss)).Promised
  | [] => List.forall_mem_nil _
  | s :: ss => Json.promised_cons.2 ⟨promised_stmt s, promised_stmts ss⟩
end

end Shape

/-- The types see to it, whatever the tree comes from. -/
theorem Program.promised_toJson (p : Program Location) : p.toJson.Promised :=
  Shape.promised_node (by decide) (by decide) (by simp [Shape.promised_stmts p.body])

end ScriptTree
