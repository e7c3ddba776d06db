import ScriptTree.Proofs.JsonText
import ScriptTree.Tree.Wide

/-! # The JSON of a tree tells which tree it is

A node says its type and its location first, so nodes of different types differ there, and nodes of
one type field by field. What is left are the values: an operator by its text, a number by its
spelling if it is finite and not a negative zero, and a part that is missing by a null or by the
field that is not there. -/
namespace ScriptTree

/-- A finite double that is not negative zero. -/
def Double.Ordinary : Double → Prop
  | .finite negative rank => negative = true → rank.val ≠ 0
  | .infinite _ | .nan => False

theorem Double.unitsAt_injective {m n : Nat} (h : unitsAt m = unitsAt n) : m = n := by
  rw [← nearestRank_units Nat.one_pos m, h, nearestRank_units Nat.one_pos]

namespace Json

/-- An ordinary number is an integer with its sign, or itself. -/
theorem ofDouble_forms (negative : Bool) (rank : Fin finiteCount) :
    (∃ n, Double.unitsAt rank = n * Double.oneInUnits ∧
      ofDouble (.finite negative rank) = .int (if negative then -n else n)) ∨
    ofDouble (.finite negative rank) = .double (.finite negative rank) := by
  unfold ofDouble Double.natural?
  dsimp only
  split
  · rename_i n hn
    split at hn
    · cases hn
      split
      · refine .inl ⟨_, ?_, rfl⟩
        rw [Nat.div_mul_cancel (Nat.dvd_of_mod_eq_zero ‹_›)]
      · exact .inr rfl
    · cases hn
  · exact .inr rfl

theorem ofDouble_injective {x y : Double} (hx : x.Ordinary) (hy : y.Ordinary)
    (h : ofDouble x = ofDouble y) : x = y := by
  rcases x with ⟨m, r⟩ | _ | _ <;> try exact hx.elim
  rcases y with ⟨n, s⟩ | _ | _ <;> try exact hy.elim
  rcases ofDouble_forms m r with ⟨i, hi, hr⟩ | hr <;>
    rcases ofDouble_forms n s with ⟨j, hj, hs⟩ | hs <;>
    rw [hr, hs] at h
  · have hzero {rank : Fin finiteCount} {k : Nat} (hk : Double.unitsAt rank = k * Double.oneInUnits)
        (hrank : rank.val ≠ 0) : k ≠ 0 := by
      rintro rfl
      rw [Nat.zero_mul] at hk
      exact hrank (Double.unitsAt_injective (hk.trans (by decide)))
    have hsigned := int.inj h
    have hsame : m = n ∧ i = j := by
      cases m <;> cases n <;> simp only [Bool.false_eq_true, if_true, if_false] at hsigned
      · exact ⟨rfl, by omega⟩
      · have := hzero hj (hy rfl)
        exact absurd hsigned (by omega)
      · have := hzero hi (hx rfl)
        exact absurd hsigned (by omega)
      · exact ⟨rfl, by omega⟩
    obtain ⟨rfl, rfl⟩ := hsame
    rw [Fin.ext (Double.unitsAt_injective (hi.trans hj.symm))]
  · cases h
  · cases h
  · exact double.inj h

theorem ofDouble_number {x : Double} (hx : x.Ordinary) :
    (∃ i, ofDouble x = .int i) ∨ ∃ y, ofDouble x = .double y := by
  rcases x with ⟨m, r⟩ | _ | _ <;> try exact hx.elim
  rcases ofDouble_forms m r with ⟨i, -, hr⟩ | hr
  · exact .inl ⟨_, hr⟩
  · exact .inr ⟨_, hr⟩

theorem ofOption_inj {f : α → Json} (hf : ∀ a b, f a = f b → a = b) (hnull : ∀ a, f a ≠ .null)
    {a b : Option α} (h : ofOption f a = ofOption f b) : a = b := by
  rcases a with _ | a <;> rcases b with _ | b
  · rfl
  · exact absurd h.symm (hnull b)
  · exact absurd h (hnull a)
  · rw [hf a b h]

end Json

theorem Operator.text_injective {a b : Operator} (h : a.text = b.text) : a = b := by
  have hfind (op : Operator) :
      (Operator.dot :: (symbols ++ words)).find? (·.text == op.text) = some op := by
    cases op <;> decide
  rw [← Option.some.injEq, ← hfind a, h, hfind b]

theorem Position.toJson_inj {p q : Position} (h : p.toJson = q.toJson) : p = q := by
  obtain ⟨line, column⟩ := p
  obtain ⟨line', column'⟩ := q
  simpa [Position.toJson, Json.nat, Int.ofNat_inj] using h

theorem Location.toJson_inj {l m : Location} (h : l.toJson = m.toJson) : l = m := by
  obtain ⟨source, start, stop⟩ := l
  obtain ⟨source', start', stop'⟩ := m
  obtain ⟨hsource, hstart, hstop⟩ : source = source' ∧ start.toJson = start'.toJson ∧
      stop.toJson = stop'.toJson := by simpa [Location.toJson] using h
  rw [hsource, Position.toJson_inj hstart, Position.toJson_inj hstop]

namespace Shape

variable {s t : String} {l m : Location}

theorem node_ne (h : s ≠ t) {fields fields' : List (String × Json)} :
    node s l fields ≠ node t m fields' := by
  simp [node, h]

theorem node_inj {fields fields' : List (String × Json)}
    (h : node t l fields = node t m fields') : l = m ∧ fields = fields' := by
  simp only [node, Json.object.injEq, List.cons.injEq, Prod.mk.injEq, true_and] at h
  exact ⟨Location.toJson_inj h.1, h.2⟩

section
variable {a b c d : String} {u v w x u' v' w' x' : Json}

theorem node_inj₁ (h : node t l [(a, u)] = node t m [(a, u')]) : l = m ∧ u = u' := by
  simpa using node_inj h

theorem node_inj₂ (h : node t l [(a, u), (b, v)] = node t m [(a, u'), (b, v')]) :
    l = m ∧ u = u' ∧ v = v' := by
  simpa using node_inj h

theorem node_inj₃ (h : node t l [(a, u), (b, v), (c, w)] = node t m [(a, u'), (b, v'), (c, w')]) :
    l = m ∧ u = u' ∧ v = v' ∧ w = w' := by
  simpa using node_inj h

theorem node_inj₄ (h : node t l [(a, u), (b, v), (c, w), (d, x)] =
      node t m [(a, u'), (b, v'), (c, w'), (d, x')]) :
    l = m ∧ u = u' ∧ v = v' ∧ w = w' ∧ x = x' := by
  simpa using node_inj h

end

theorem identifier_inj {i j : Identifier Location} (h : identifier i = identifier j) : i = j := by
  obtain ⟨loc, name⟩ := i
  obtain ⟨loc', name'⟩ := j
  obtain ⟨rfl, hname⟩ := node_inj₁ h
  rw [show name = name' from Json.string.inj hname]

theorem identifiers_inj {is js : List (Identifier Location)}
    (h : identifiers is = identifiers js) : is = js :=
  List.map_inj_right (fun _ _ => identifier_inj) |>.1 (Json.array.inj h)

theorem operator_inj {op op' : Operator} (h : operator op = operator op') : op = op' :=
  Operator.text_injective (Json.string.inj h)

end Shape

namespace Wide

open Shape

/-- A field that may be missing is told from the ones behind it by its name. -/
theorem optionalField_inj {f : α → Json} (hf : ∀ a b, f a = f b → a = b) {name : String}
    {fields fields' : List (String × Json)} (hne : ∀ j, (name, j) ∉ fields)
    (hne' : ∀ j, (name, j) ∉ fields') {a b : Option α}
    (h : optionalField name f a ++ fields = optionalField name f b ++ fields') :
    a = b ∧ fields = fields' := by
  rcases a with _ | a <;> rcases b with _ | b
  · exact ⟨rfl, h⟩
  · have hfields : fields = (name, f b) :: fields' := h
    exact absurd (hfields ▸ List.mem_cons_self) (hne (f b))
  · have hfields : (name, f a) :: fields = fields' := h
    exact absurd (hfields ▸ List.mem_cons_self) (hne' (f a))
  · obtain ⟨hfield, hrest⟩ := List.cons.inj h
    rw [hf a b (Prod.mk.inj hfield).2]
    exact ⟨rfl, hrest⟩

theorem RegexParts.toJson_inj {r r' : RegexParts} (h : r.toJson = r'.toJson) : r = r' := by
  obtain ⟨pattern, flags⟩ := r
  obtain ⟨pattern', flags'⟩ := r'
  simpa [RegexParts.toJson] using h

/-- What the value of a literal is written as. -/
theorem LiteralValue.fields_inj {v w : LiteralValue} (hv : ∀ x, v = .number x → x.Ordinary)
    (hw : ∀ x, w = .number x → x.Ordinary) (h : v.fields = w.fields) : v = w := by
  have hnumber {x : Double} {u : LiteralValue} (hx : x.Ordinary)
      (hu : ∀ y, u = .number y → y.Ordinary) (h : (number x).fields = u.fields) : number x = u := by
    cases u with
    | number y => rw [Json.ofDouble_injective hx (hu y rfl) (by simpa [fields] using h)]
    | _ => rcases Json.ofDouble_number hx with ⟨i, hi⟩ | ⟨y, hy⟩ <;> simp_all [fields]
  cases v with
  | number x => exact hnumber (hv x rfl) hw h
  | _ => cases w with
    | number y => exact (hnumber (hw y rfl) hv h.symm).symm
    | _ => simp_all [fields]

theorem Literal.toJson_inj {l m : Literal} (hl : ∀ x ∈ l.numbers, x.Ordinary)
    (hm : ∀ x ∈ m.numbers, x.Ordinary) (h : l.toJson = m.toJson) : l = m := by
  have hfields (v : LiteralValue) (j : Json) : ("regex", j) ∉ v.fields := by
    cases v <;> simp [LiteralValue.fields]
  have hnumber {k : Literal} (hk : ∀ x ∈ k.numbers, x.Ordinary) (x : Double)
      (hx : k.value = .number x) : x.Ordinary := hk x (by simp [Literal.numbers, hx])
  obtain ⟨hloc, hrest⟩ := node_inj h
  obtain ⟨hregex, hvalue⟩ :=
    optionalField_inj (fun _ _ => RegexParts.toJson_inj) (hfields _) (hfields _) hrest
  have hvalues := LiteralValue.fields_inj (hnumber hl) (hnumber hm) hvalue
  obtain ⟨loc, regex, value⟩ := l
  obtain ⟨loc', regex', value'⟩ := m
  congr

theorem PropertyKey.toJson_inj {k k' : PropertyKey} (hk : ∀ x ∈ k.numbers, x.Ordinary)
    (hk' : ∀ x ∈ k'.numbers, x.Ordinary) (h : k.toJson = k'.toJson) : k = k' := by
  cases k <;> cases k' <;> try exact absurd h (node_ne (by decide))
  · rw [Literal.toJson_inj hk hk' h]
  · rw [identifier_inj h]

theorem Expr.toJson_ne_null (e : Expr) : e.toJson ≠ .null := by
  cases e <;> nofun

theorem Stmt.toJson_ne_null : ∀ s : Stmt, s.toJson ≠ .null
  | .block ⟨_, _⟩ | .declaration ⟨_, _⟩ => nofun
  | .empty _ | .expression _ _ | .if _ _ _ _ | .debugger _ | .with _ _ _ | .return _ _
  | .throw _ _ | .break _ _ | .continue _ _ | .switch _ _ _ | .try _ _ _ _ | .while _ _ _
  | .doWhile _ _ _ | .for _ _ _ _ _ | .forIn _ _ _ _ | .function _ _ _ _ | .labeled _ _ _ => nofun

theorem ofOption_identifier_inj {a b : Option (Identifier Location)}
    (h : Json.ofOption identifier a = Json.ofOption identifier b) : a = b :=
  Json.ofOption_inj (fun _ _ => identifier_inj) nofun h

/-- Every number literal is finite and not a negative zero. -/
def Clear (numbers : List Double) : Prop := ∀ x ∈ numbers, x.Ordinary

theorem clear_append {xs ys : List Double} : Clear (xs ++ ys) ↔ Clear xs ∧ Clear ys :=
  List.forall_mem_append

/-- A node's type tells of which form it is. -/
theorem Expr.ctorIdx_eq {e e' : Expr} (h : e.toJson = e'.toJson) : e.ctorIdx = e'.ctorIdx := by
  cases e <;> cases e' <;> first | rfl | exact absurd h (node_ne (by decide))

theorem Stmt.ctorIdx_eq {s s' : Stmt} (h : s.toJson = s'.toJson) : s.ctorIdx = s'.ctorIdx := by
  -- Blocks and declarations are nodes of their own, so they are opened as well.
  rcases s with _ | ⟨_, _⟩ | _ | ⟨_, _⟩ <;> rcases s' with _ | ⟨_, _⟩ | _ | ⟨_, _⟩ <;>
    first | rfl | exact absurd h (node_ne (by decide))

-- The induction is on the first tree. The second is of the same form, since it has the same type.
mutual
theorem Expr.toJson_inj : ∀ (e e' : Expr), Clear e.numbers → Clear e'.numbers →
    e.toJson = e'.toJson → e = e'
  | .identifier i, e', _, _, h => by
    cases e' <;> cases Expr.ctorIdx_eq h
    rw [identifier_inj h]
  | .literal l, e', hp, hq, h => by
    cases e' <;> cases Expr.ctorIdx_eq h
    rw [Literal.toJson_inj hp hq h]
  | .this loc, e', _, _, h => by
    cases e' <;> cases Expr.ctorIdx_eq h
    rw [(node_inj h).1]
  | .array _ es, e', hp, hq, h | .sequence _ es, e', hp, hq, h => by
    cases e' <;> cases Expr.ctorIdx_eq h
    obtain ⟨rfl, hes⟩ := node_inj₁ h
    rw [Expr.toJsonList_inj es _ hp hq (Json.array.inj hes)]
  | .object _ ps, e', hp, hq, h => by
    cases e' <;> cases Expr.ctorIdx_eq h
    obtain ⟨rfl, hps⟩ := node_inj₁ h
    rw [Property.toJsonList_inj ps _ hp hq (Json.array.inj hps)]
  | .function _ _ _ body, e', hp, hq, h => by
    cases e' <;> cases Expr.ctorIdx_eq h
    obtain ⟨rfl, hfields⟩ := node_inj h
    obtain ⟨rfl, hrest⟩ :=
      optionalField_inj (fun _ _ => identifier_inj) (by simp) (by simp) hfields
    obtain ⟨hparams, hbody⟩ : _ ∧ body.toJson = _ := by simpa using hrest
    rw [identifiers_inj hparams, Block.toJson_inj body _ hp hq hbody]
  | .unary _ _ e _, e', hp, hq, h | .update _ _ e _, e', hp, hq, h => by
    cases e' <;> cases Expr.ctorIdx_eq h
    simp only [Expr.numbers] at hp hq
    obtain ⟨rfl, hop, he, hleading⟩ := node_inj₃ h
    rw [operator_inj hop, Expr.toJson_inj e _ hp hq he, Json.bool.inj hleading]
  | .binary _ _ l r, e', hp, hq, h | .logical _ _ l r, e', hp, hq, h
  | .assignment _ _ l r, e', hp, hq, h => by
    cases e' <;> cases Expr.ctorIdx_eq h
    simp only [Expr.numbers, clear_append] at hp hq
    obtain ⟨rfl, hop, hl, hr⟩ := node_inj₃ h
    rw [operator_inj hop, Expr.toJson_inj l _ hp.1 hq.1 hl, Expr.toJson_inj r _ hp.2 hq.2 hr]
  | .conditional _ t c a, e', hp, hq, h => by
    cases e' <;> cases Expr.ctorIdx_eq h
    simp only [Expr.numbers, clear_append] at hp hq
    obtain ⟨rfl, ht, hc, ha⟩ := node_inj₃ h
    rw [Expr.toJson_inj t _ hp.1 hq.1 ht, Expr.toJson_inj c _ hp.2.1 hq.2.1 hc,
      Expr.toJson_inj a _ hp.2.2 hq.2.2 ha]
  | .member _ o p _, e', hp, hq, h => by
    cases e' <;> cases Expr.ctorIdx_eq h
    simp only [Expr.numbers, clear_append] at hp hq
    obtain ⟨rfl, ho, hproperty, hdotted⟩ := node_inj₃ h
    rw [Expr.toJson_inj o _ hp.1 hq.1 ho, Expr.toJson_inj p _ hp.2 hq.2 hproperty,
      Json.bool.inj hdotted]
  | .call _ f es, e', hp, hq, h | .new _ f es, e', hp, hq, h => by
    cases e' <;> cases Expr.ctorIdx_eq h
    simp only [Expr.numbers, clear_append] at hp hq
    obtain ⟨rfl, hf, hes⟩ := node_inj₂ h
    rw [Expr.toJson_inj f _ hp.1 hq.1 hf, Expr.toJsonList_inj es _ hp.2 hq.2 (Json.array.inj hes)]
termination_by structural e => e
theorem Expr.toJsonList_inj : ∀ (es es' : List Expr), Clear (Expr.numbersList es) →
    Clear (Expr.numbersList es') → Expr.toJsonList es = Expr.toJsonList es' → es = es'
  | [], [], _, _, _ => rfl
  | [], _ :: _, _, _, h => nomatch h
  | _ :: _, [], _, _, h => nomatch h
  | e :: es, e' :: es', hp, hq, h => by
    simp only [Expr.numbersList, clear_append] at hp hq
    obtain ⟨he, hes⟩ := List.cons.inj h
    rw [Expr.toJson_inj e e' hp.1 hq.1 he, Expr.toJsonList_inj es es' hp.2 hq.2 hes]
termination_by structural es => es
theorem Expr.toJsonOption_inj : ∀ (e e' : Option Expr), Clear (Expr.numbersOption e) →
    Clear (Expr.numbersOption e') → Expr.toJsonOption e = Expr.toJsonOption e' → e = e'
  | none, none, _, _, _ => rfl
  | none, some e, _, _, h => absurd h.symm e.toJson_ne_null
  | some e, none, _, _, h => absurd h e.toJson_ne_null
  | some e, some e', hp, hq, h => congrArg some (Expr.toJson_inj e e' hp hq h)
termination_by structural e => e
theorem Property.toJson_inj : ∀ (p p' : Property), Clear p.numbers → Clear p'.numbers →
    p.toJson = p'.toJson → p = p'
  | .mk _ key value, .mk _ _ _, hp, hq, h => by
    simp only [Property.numbers, clear_append] at hp hq
    obtain ⟨rfl, hkey, hvalue, -⟩ := node_inj₃ h
    rw [PropertyKey.toJson_inj hp.1 hq.1 hkey, Expr.toJson_inj value _ hp.2 hq.2 hvalue]
termination_by structural p => p
theorem Property.toJsonList_inj : ∀ (ps ps' : List Property), Clear (Property.numbersList ps) →
    Clear (Property.numbersList ps') → Property.toJsonList ps = Property.toJsonList ps' → ps = ps'
  | [], [], _, _, _ => rfl
  | [], _ :: _, _, _, h => nomatch h
  | _ :: _, [], _, _, h => nomatch h
  | p :: ps, p' :: ps', hp, hq, h => by
    simp only [Property.numbersList, clear_append] at hp hq
    obtain ⟨hhead, hps⟩ := List.cons.inj h
    rw [Property.toJson_inj p p' hp.1 hq.1 hhead, Property.toJsonList_inj ps ps' hp.2 hq.2 hps]
termination_by structural ps => ps
theorem Block.toJson_inj : ∀ (b b' : Block), Clear b.numbers → Clear b'.numbers →
    b.toJson = b'.toJson → b = b'
  | .mk _ body, .mk _ _, hp, hq, h => by
    obtain ⟨rfl, hbody⟩ := node_inj₁ h
    rw [Stmt.toJsonList_inj body _ hp hq (Json.array.inj hbody)]
termination_by structural b => b
theorem Block.toJsonOption_inj : ∀ (b b' : Option Block), Clear (Block.numbersOption b) →
    Clear (Block.numbersOption b') → Block.toJsonOption b = Block.toJsonOption b' → b = b'
  | none, none, _, _, _ => rfl
  | none, some ⟨_, _⟩, _, _, h => nomatch h
  | some ⟨_, _⟩, none, _, _, h => nomatch h
  | some b, some b', hp, hq, h => congrArg some (Block.toJson_inj b b' hp hq h)
termination_by structural b => b
theorem Declarator.toJson_inj : ∀ (d d' : Declarator), Clear d.numbers → Clear d'.numbers →
    d.toJson = d'.toJson → d = d'
  | .mk _ _ init, .mk _ _ _, hp, hq, h => by
    obtain ⟨rfl, hid, hinit⟩ := node_inj₂ h
    rw [identifier_inj hid, Expr.toJsonOption_inj init _ hp hq hinit]
termination_by structural d => d
theorem Declarator.toJsonList_inj : ∀ (ds ds' : List Declarator),
    Clear (Declarator.numbersList ds) → Clear (Declarator.numbersList ds') →
    Declarator.toJsonList ds = Declarator.toJsonList ds' → ds = ds'
  | [], [], _, _, _ => rfl
  | [], _ :: _, _, _, h => nomatch h
  | _ :: _, [], _, _, h => nomatch h
  | d :: ds, d' :: ds', hp, hq, h => by
    simp only [Declarator.numbersList, clear_append] at hp hq
    obtain ⟨hd, hds⟩ := List.cons.inj h
    rw [Declarator.toJson_inj d d' hp.1 hq.1 hd, Declarator.toJsonList_inj ds ds' hp.2 hq.2 hds]
termination_by structural ds => ds
theorem Declaration.toJson_inj : ∀ (d d' : Declaration), Clear d.numbers → Clear d'.numbers →
    d.toJson = d'.toJson → d = d'
  | .mk _ ds, .mk _ _, hp, hq, h => by
    obtain ⟨rfl, -, hds⟩ := node_inj₂ h
    rw [Declarator.toJsonList_inj ds _ hp hq (Json.array.inj hds)]
termination_by structural d => d
theorem SwitchCase.toJson_inj : ∀ (c c' : SwitchCase), Clear c.numbers → Clear c'.numbers →
    c.toJson = c'.toJson → c = c'
  | .mk _ test body, .mk _ _ _, hp, hq, h => by
    simp only [SwitchCase.numbers, clear_append] at hp hq
    obtain ⟨rfl, htest, hbody⟩ := node_inj₂ h
    rw [Expr.toJsonOption_inj test _ hp.1 hq.1 htest,
      Stmt.toJsonList_inj body _ hp.2 hq.2 (Json.array.inj hbody)]
termination_by structural c => c
theorem SwitchCase.toJsonList_inj : ∀ (cs cs' : List SwitchCase),
    Clear (SwitchCase.numbersList cs) → Clear (SwitchCase.numbersList cs') →
    SwitchCase.toJsonList cs = SwitchCase.toJsonList cs' → cs = cs'
  | [], [], _, _, _ => rfl
  | [], _ :: _, _, _, h => nomatch h
  | _ :: _, [], _, _, h => nomatch h
  | c :: cs, c' :: cs', hp, hq, h => by
    simp only [SwitchCase.numbersList, clear_append] at hp hq
    obtain ⟨hc, hcs⟩ := List.cons.inj h
    rw [SwitchCase.toJson_inj c c' hp.1 hq.1 hc, SwitchCase.toJsonList_inj cs cs' hp.2 hq.2 hcs]
termination_by structural cs => cs
theorem CatchClause.toJson_inj : ∀ (c c' : CatchClause), Clear c.numbers → Clear c'.numbers →
    c.toJson = c'.toJson → c = c'
  | .mk _ _ body, .mk _ _ _, hp, hq, h => by
    obtain ⟨rfl, hparam, hbody⟩ := node_inj₂ h
    rw [identifier_inj hparam, Block.toJson_inj body _ hp hq hbody]
termination_by structural c => c
theorem CatchClause.toJsonOption_inj : ∀ (c c' : Option CatchClause),
    Clear (CatchClause.numbersOption c) → Clear (CatchClause.numbersOption c') →
    CatchClause.toJsonOption c = CatchClause.toJsonOption c' → c = c'
  | none, none, _, _, _ => rfl
  | none, some ⟨_, _, _⟩, _, _, h => nomatch h
  | some ⟨_, _, _⟩, none, _, _, h => nomatch h
  | some c, some c', hp, hq, h => congrArg some (CatchClause.toJson_inj c c' hp hq h)
termination_by structural c => c
theorem ForInit.toJson_inj : ∀ (i i' : ForInit), Clear i.numbers → Clear i'.numbers →
    i.toJson = i'.toJson → i = i'
  | .declaration d, .declaration d', hp, hq, h =>
    congrArg ForInit.declaration (Declaration.toJson_inj d d' hp hq h)
  | .declaration ⟨_, _⟩, .expression e, _, _, h => by
    cases e <;> exact absurd h (node_ne (by decide))
  | .expression e, .declaration ⟨_, _⟩, _, _, h => by
    cases e <;> exact absurd h (node_ne (by decide))
  | .expression e, .expression e', hp, hq, h =>
    congrArg ForInit.expression (Expr.toJson_inj e e' hp hq h)
termination_by structural i => i
theorem ForInit.toJsonOption_inj : ∀ (i i' : Option ForInit), Clear (ForInit.numbersOption i) →
    Clear (ForInit.numbersOption i') → ForInit.toJsonOption i = ForInit.toJsonOption i' → i = i'
  | none, none, _, _, _ => rfl
  | none, some (.declaration ⟨_, _⟩), _, _, h => nomatch h
  | none, some (.expression e), _, _, h => absurd h.symm e.toJson_ne_null
  | some (.declaration ⟨_, _⟩), none, _, _, h => nomatch h
  | some (.expression e), none, _, _, h => absurd h e.toJson_ne_null
  | some i, some i', hp, hq, h => congrArg some (ForInit.toJson_inj i i' hp hq h)
termination_by structural i => i
theorem ForTarget.toJson_inj : ∀ (t t' : ForTarget), Clear t.numbers → Clear t'.numbers →
    t.toJson = t'.toJson → t = t'
  | .declaration d, .declaration d', hp, hq, h =>
    congrArg ForTarget.declaration (Declaration.toJson_inj d d' hp hq h)
  | .declaration ⟨_, _⟩, .identifier _, _, _, h => absurd h (node_ne (by decide))
  | .identifier _, .declaration ⟨_, _⟩, _, _, h => absurd h (node_ne (by decide))
  | .identifier _, .identifier _, _, _, h => congrArg ForTarget.identifier (identifier_inj h)
termination_by structural t => t
theorem Stmt.toJson_inj : ∀ (s s' : Stmt), Clear s.numbers → Clear s'.numbers →
    s.toJson = s'.toJson → s = s'
  | .empty _, s', _, _, h | .debugger _, s', _, _, h => by
    cases s' <;> cases Stmt.ctorIdx_eq h
    rw [(node_inj h).1]
  | .block b, s', hp, hq, h => by
    cases s' <;> cases Stmt.ctorIdx_eq h
    rw [Block.toJson_inj b _ hp hq h]
  | .declaration d, s', hp, hq, h => by
    cases s' <;> cases Stmt.ctorIdx_eq h
    rw [Declaration.toJson_inj d _ hp hq h]
  | .expression _ e, s', hp, hq, h => by
    cases s' <;> cases Stmt.ctorIdx_eq h
    obtain ⟨rfl, he⟩ := node_inj₁ h
    rw [Expr.toJson_inj e _ hp hq he]
  | .return _ e, s', hp, hq, h | .throw _ e, s', hp, hq, h => by
    cases s' <;> cases Stmt.ctorIdx_eq h
    obtain ⟨rfl, he⟩ := node_inj₁ h
    rw [Expr.toJsonOption_inj e _ hp hq he]
  | .break _ _, s', _, _, h | .continue _ _, s', _, _, h => by
    cases s' <;> cases Stmt.ctorIdx_eq h
    obtain ⟨rfl, hlabel⟩ := node_inj₁ h
    rw [ofOption_identifier_inj hlabel]
  | .if _ t c a, s', hp, hq, h => by
    cases s' <;> cases Stmt.ctorIdx_eq h
    simp only [Stmt.numbers, clear_append] at hp hq
    obtain ⟨rfl, ht, hc, ha⟩ := node_inj₃ h
    rw [Expr.toJson_inj t _ hp.1 hq.1 ht, Stmt.toJson_inj c _ hp.2.1 hq.2.1 hc,
      Stmt.toJsonOption_inj a _ hp.2.2 hq.2.2 ha]
  | .with _ e b, s', hp, hq, h | .while _ e b, s', hp, hq, h => by
    cases s' <;> cases Stmt.ctorIdx_eq h
    simp only [Stmt.numbers, clear_append] at hp hq
    obtain ⟨rfl, he, hb⟩ := node_inj₂ h
    rw [Expr.toJson_inj e _ hp.1 hq.1 he, Stmt.toJson_inj b _ hp.2 hq.2 hb]
  | .doWhile _ b t, s', hp, hq, h => by
    cases s' <;> cases Stmt.ctorIdx_eq h
    simp only [Stmt.numbers, clear_append] at hp hq
    obtain ⟨rfl, hb, ht⟩ := node_inj₂ h
    rw [Stmt.toJson_inj b _ hp.2 hq.2 hb, Expr.toJson_inj t _ hp.1 hq.1 ht]
  | .switch _ d cs, s', hp, hq, h => by
    cases s' <;> cases Stmt.ctorIdx_eq h
    simp only [Stmt.numbers, clear_append] at hp hq
    obtain ⟨rfl, hd, hcs⟩ := node_inj₂ h
    rw [Expr.toJson_inj d _ hp.1 hq.1 hd,
      SwitchCase.toJsonList_inj cs _ hp.2 hq.2 (Json.array.inj hcs)]
  | .try _ b c f, s', hp, hq, h => by
    cases s' <;> cases Stmt.ctorIdx_eq h
    simp only [Stmt.numbers, clear_append] at hp hq
    obtain ⟨rfl, hb, hc, hf⟩ := node_inj₃ h
    rw [Block.toJson_inj b _ hp.1 hq.1 hb, CatchClause.toJsonOption_inj c _ hp.2.1 hq.2.1 hc,
      Block.toJsonOption_inj f _ hp.2.2 hq.2.2 hf]
  | .for _ i t u b, s', hp, hq, h => by
    cases s' <;> cases Stmt.ctorIdx_eq h
    simp only [Stmt.numbers, clear_append] at hp hq
    obtain ⟨rfl, hi, ht, hu, hb⟩ := node_inj₄ h
    rw [ForInit.toJsonOption_inj i _ hp.1 hq.1 hi, Expr.toJsonOption_inj t _ hp.2.1 hq.2.1 ht,
      Expr.toJsonOption_inj u _ hp.2.2.1 hq.2.2.1 hu, Stmt.toJson_inj b _ hp.2.2.2 hq.2.2.2 hb]
  | .forIn _ t o b, s', hp, hq, h => by
    cases s' <;> cases Stmt.ctorIdx_eq h
    simp only [Stmt.numbers, clear_append] at hp hq
    obtain ⟨rfl, ht, ho, hb⟩ := node_inj₃ h
    rw [ForTarget.toJson_inj t _ hp.1 hq.1 ht, Expr.toJson_inj o _ hp.2.1 hq.2.1 ho,
      Stmt.toJson_inj b _ hp.2.2 hq.2.2 hb]
  | .function _ _ _ body, s', hp, hq, h => by
    cases s' <;> cases Stmt.ctorIdx_eq h
    obtain ⟨rfl, hid, hparams, hbody⟩ := node_inj₃ h
    rw [identifier_inj hid, identifiers_inj hparams, Block.toJson_inj body _ hp hq hbody]
  | .labeled _ _ b, s', hp, hq, h => by
    cases s' <;> cases Stmt.ctorIdx_eq h
    simp only [Stmt.numbers] at hp hq
    obtain ⟨rfl, hb, hlabel⟩ := node_inj₂ h
    rw [Stmt.toJson_inj b _ hp hq hb, identifier_inj hlabel]
termination_by structural s => s
theorem Stmt.toJsonOption_inj : ∀ (s s' : Option Stmt), Clear (Stmt.numbersOption s) →
    Clear (Stmt.numbersOption s') → Stmt.toJsonOption s = Stmt.toJsonOption s' → s = s'
  | none, none, _, _, _ => rfl
  | none, some s, _, _, h => absurd h.symm s.toJson_ne_null
  | some s, none, _, _, h => absurd h s.toJson_ne_null
  | some s, some s', hp, hq, h => congrArg some (Stmt.toJson_inj s s' hp hq h)
termination_by structural s => s
theorem Stmt.toJsonList_inj : ∀ (ss ss' : List Stmt), Clear (Stmt.numbersList ss) →
    Clear (Stmt.numbersList ss') → Stmt.toJsonList ss = Stmt.toJsonList ss' → ss = ss'
  | [], [], _, _, _ => rfl
  | [], _ :: _, _, _, h => nomatch h
  | _ :: _, [], _, _, h => nomatch h
  | s :: ss, s' :: ss', hp, hq, h => by
    simp only [Stmt.numbersList, clear_append] at hp hq
    obtain ⟨hs, hss⟩ := List.cons.inj h
    rw [Stmt.toJson_inj s s' hp.1 hq.1 hs, Stmt.toJsonList_inj ss ss' hp.2 hq.2 hss]
termination_by structural ss => ss
end

theorem Program.toJson_inj {p q : Program} (hp : Clear p.numbers) (hq : Clear q.numbers)
    (h : p.toJson = q.toJson) : p = q := by
  obtain ⟨loc, body⟩ := p
  obtain ⟨loc', body'⟩ := q
  obtain ⟨rfl, hbody⟩ := node_inj₁ h
  rw [Stmt.toJsonList_inj body body' hp hq (Json.array.inj hbody)]

/-- The JSON shape loses nothing, whichever way it is written. -/
theorem Program.eq_of_text_eq {p q : Program} (hp : ∀ x ∈ p.numbers, x.Ordinary)
    (hq : ∀ x ∈ q.numbers, x.Ordinary)
    (h : p.toJson.compact = q.toJson.compact ∨ p.toJson.pretty = q.toJson.pretty) : p = q := by
  rcases h with h | h
  · exact Program.toJson_inj hp hq (Json.compact_injective h)
  · exact Program.toJson_inj hp hq (Json.pretty_injective h)

/-- `throw 2`, as it is read. -/
def thrownTwo : ScriptTree.Program Location :=
  let two : ScriptTree.Literal Location :=
    ⟨⟨"2", ⟨1, 6⟩, ⟨1, 7⟩⟩, .number (.finite false ⟨0x4000000000000000, by decide⟩)⟩
  ⟨⟨"throw 2", ⟨1, 0⟩, ⟨1, 7⟩⟩, [.throw ⟨"throw 2", ⟨1, 0⟩, ⟨1, 7⟩⟩ (.literal two)]⟩

/-- The same tree with all of its fields. -/
def thrownTwoWide : Program :=
  let two : Literal :=
    ⟨⟨"2", ⟨1, 6⟩, ⟨1, 7⟩⟩, none, .number (.finite false ⟨0x4000000000000000, by decide⟩)⟩
  ⟨⟨"throw 2", ⟨1, 0⟩, ⟨1, 7⟩⟩, [.throw ⟨"throw 2", ⟨1, 0⟩, ⟨1, 7⟩⟩ (some (.literal two))]⟩

theorem Program.eq_of_text_eq_throw :
    (∀ x ∈ (ofTree thrownTwo).numbers, x.Ordinary) ∧
      (∀ x ∈ thrownTwoWide.numbers, x.Ordinary) ∧
      (ofTree thrownTwo).toJson.compact = thrownTwoWide.toJson.compact ∧
      ofTree thrownTwo = thrownTwoWide := by
  have hnumbers : ∀ x ∈ [Double.finite false ⟨0x4000000000000000, by decide⟩], x.Ordinary := by
    intro x hx
    obtain rfl := List.mem_singleton.1 hx
    exact nofun
  have htext : (ofTree thrownTwo).toJson.compact = thrownTwoWide.toJson.compact := by
    rw [Program.toJson_ofTree]
    exact congrArg Json.compact rfl
  exact ⟨hnumbers, hnumbers, htext, Program.eq_of_text_eq hnumbers hnumbers (.inl htext)⟩

end Wide
end ScriptTree
