import Mathlib.Data.List.Nodup
import ScriptTree.Command.Run
import ScriptTree.Proofs.JsonGrammar

/-! # Settings are defaults, then the file, then the flags

A settings file is any JSON text of an object that gives each of the known fields at most once and in
range, among whatever else it holds. Each setting is what its flag says, else what the file says, and
else its default. So only the known fields count: not their order, the blanks and the escapes, nor the
fields that are not known. -/
namespace ScriptTree

namespace Written

/-- The fields of an object by their names, if the value is one. -/
def Value.members? : Value → Option (List (String × Value))
  | .emptyObject _ => some []
  | .object fields => some fields.members
  | _ => none

/-- The items of an array, if the value is one. -/
def Value.items? : Value → Option (List Value)
  | .emptyArray _ => some []
  | .array items => some items.values
  | _ => none

/-- What fields tell under a name: nothing if none of them has it, and else what the value of the one
that has it means. -/
def Tells (members : List (String × Value)) (name : String) (Means : Value → α → Prop) :
    Option α → Prop
  | none => members.filter (·.1 == name) = []
  | some a => ∃ v, members.filter (·.1 == name) = [(name, v)] ∧ Means v a

/-! ## What values mean -/

inductive MeansBool : Value → Bool → Prop
  | bool b : MeansBool (.bool b) b

/-- A number in plain digits, below a limit. -/
inductive MeansNatural (limit : Nat) : Value → Nat → Prop
  | number {numeral n} :
    numeral.natural? = some n → n < limit → MeansNatural limit (.number numeral) n

/-- A string, or null for none. -/
inductive MeansText : Value → Option String → Prop
  | null : MeansText .null none
  | string q : MeansText (.string q) (some q.value)

/-- The limits of the parser, by name or by place: how deep a script may nest, if that is given. -/
inductive MeansLimits : Value → Option Nat → Prop
  | named {v members maxDepth} : v.members? = some members →
    Tells members "max_depth" (MeansNatural (2 ^ 64)) maxDepth → MeansLimits v maxDepth
  | noItem {v} : v.items? = some [] → MeansLimits v none
  | item {v item n} : v.items? = some [item] → MeansNatural (2 ^ 64) item n → MeansLimits v (some n)

end Written

/-- What a file gives of the known fields. -/
structure Known where
  jsonLogs : Option Bool
  verbosity : Option Nat
  parser : Option (Option Nat)
  indent : Option (Option String)
deriving DecidableEq

/-- The fields give each of the known ones at most once, and a value in its range. -/
structure Known.GivenBy (known : Known) (members : List (String × Written.Value)) : Prop where
  jsonLogs : Written.Tells members "json_logs" Written.MeansBool known.jsonLogs
  verbosity : Written.Tells members "verbosity" (Written.MeansNatural (2 ^ 8)) known.verbosity
  parser : Written.Tells members "parser" Written.MeansLimits known.parser
  indent : Written.Tells members "indent" Written.MeansText known.indent

/-- A JSON text of an object with such fields. -/
def Known.SpelledBy (known : Known) (text : String) : Prop :=
  ∃ (file : Written.File) (members : List (String × Written.Value)), file.text = text ∧
    file.value.members? = some members ∧ known.GivenBy members

/-! ## Fields of a record -/

namespace Written

variable {members : List (String × Value)} {name : String}

theorem Tells.length_le {Means : Value → α → Prop} {o : Option α} (h : Tells members name Means o) :
    (members.filter (·.1 == name)).length ≤ 1 := by
  cases o with
  | none =>
    have hnone : members.filter (·.1 == name) = [] := h
    simp [hnone]
  | some a =>
    obtain ⟨v, hone, -⟩ := h
    simp [hone]

/-- The fields of an object as they are read. -/
def documents (members : List (String × Value)) : List (String × Document) :=
  members.map fun (name, v) => (name, v.document)

theorem Value.document_of_members? {v : Value} (h : v.members? = some members) :
    v.document = .object ((documents members).map fun (name, d) => (some name, d)) := by
  cases v with
  | emptyObject gap =>
    obtain rfl := Option.some.inj h
    rfl
  | object fields =>
    obtain rfl := Option.some.inj h
    rw [Value.document, fields.documents_eq, documents, List.map_map]
    rfl
  | _ => cases h

theorem Value.document_of_items? {v : Value} {items : List Value} (h : v.items? = some items) :
    v.document = .array (items.map Value.document) := by
  cases v with
  | emptyArray gap =>
    obtain rfl := Option.some.inj h
    rfl
  | array items =>
    obtain rfl := Option.some.inj h
    rw [Value.document, items.documents_eq]
  | _ => cases h

end Written

namespace Record

theorem lookup_eq_head? (fields : List (String × α)) (name : String) :
    fields.lookup name = (fields.filter (·.1 == name)).head?.map (·.2) := by
  induction fields with
  | nil => rfl
  | cons field fields ih =>
    obtain ⟨other, a⟩ := field
    by_cases h : name = other
    · subst h
      rw [List.filter_cons_of_pos (by simp)]
      simp
    · have hne : (name == other) = false := beq_false_of_ne h
      rw [List.lookup_cons, hne, List.filter_cons_of_neg (by simpa using Ne.symm h)]
      exact ih

theorem mapM_named (fields : List (String × Document)) :
    (fields.map fun (name, d) => (some name, d)).mapM
      (fun ((name, d) : Option String × Document) => name.map fun name => (name, d)) =
        some fields := by
  induction fields with
  | nil => rfl
  | cons field fields ih =>
    rw [List.map_cons, List.mapM_cons, ih]
    rfl

/-- The known fields of an object that gives each of them once at most. -/
theorem members?_object {names : List String} {fields : List (String × Document)}
    (h : ∀ name ∈ names, (fields.filter (·.1 == name)).length ≤ 1) :
    ∃ known, members? names (.object (fields.map fun (name, d) => (some name, d))) = some known ∧
      ∀ name ∈ names, known.filter (·.1 == name) = fields.filter (·.1 == name) := by
  have hknown (name : String) (hname : name ∈ names) :
      (fields.filter fun (name, _) => names.contains name).filter (·.1 == name) =
        fields.filter (·.1 == name) := by
    rw [List.filter_filter]
    refine List.filter_congr fun field _ => ?_
    by_cases hfield : field.1 = name
    · simp [hfield, hname]
    · simp [hfield]
  have hnodup : ((fields.filter fun (name, _) => names.contains name).map (·.1)).Nodup := by
    refine List.nodup_iff_count_le_one.2 fun name => ?_
    rw [List.count, List.countP_map, List.countP_eq_length_filter]
    by_cases hname : name ∈ names
    · exact (congrArg List.length (hknown name hname)).trans_le (h name hname)
    · refine (congrArg List.length (List.filter_eq_nil_iff.2 fun field hfield hsame => ?_)).trans_le
        (Nat.zero_le 1)
      obtain rfl : field.1 = name := by simpa using hsame
      exact hname (by simpa using (List.mem_filter.1 hfield).2)
  refine ⟨fields.filter fun (name, _) => names.contains name, ?_, hknown⟩
  rw [members?, mapM_named]
  simp only [Option.bind_eq_bind, Option.bind_some]
  exact if_pos hnodup

/-- The known fields of a value, if it is an object that gives each of them once at most. -/
theorem members?_document {v : Written.Value} {members : List (String × Written.Value)}
    (hv : v.members? = some members) {names : List String}
    (h : ∀ name ∈ names, (members.filter (·.1 == name)).length ≤ 1) :
    ∃ known, members? names v.document = some known ∧ ∀ name ∈ names,
      known.filter (·.1 == name) = Written.documents (members.filter (·.1 == name)) := by
  have hfilter (name : String) : (Written.documents members).filter (·.1 == name) =
      Written.documents (members.filter (·.1 == name)) := List.filter_map
  have honce (name : String) (hname : name ∈ names) :
      ((Written.documents members).filter (·.1 == name)).length ≤ 1 := by
    rw [hfilter, Written.documents, List.length_map]
    exact h name hname
  obtain ⟨known, hread, hknown⟩ := members?_object honce
  rw [Written.Value.document_of_members? hv]
  exact ⟨known, hread, fun name hname => (hknown name hname).trans (hfilter name)⟩

/-- A field is read as what the object tells there. -/
theorem field?_tells {members : List (String × Written.Value)} {name : String}
    {Means : Written.Value → α → Prop} {o : Option α} (h : Written.Tells members name Means o)
    {known : List (String × Document)}
    (hknown : known.filter (·.1 == name) = Written.documents (members.filter (·.1 == name)))
    {reader : Document → Option α} (hreader : ∀ v a, Means v a → reader v.document = some a) :
    field? known name reader = some o := by
  rw [field?, lookup_eq_head?, hknown]
  cases o with
  | none =>
    have hnone : members.filter (·.1 == name) = [] := h
    rw [hnone]
    rfl
  | some a =>
    obtain ⟨v, hone, hv⟩ := h
    rw [hone]
    exact congrArg (Option.map some) (hreader v a hv)

theorem bool?_means {v : Written.Value} {b : Bool} (h : Written.MeansBool v b) :
    bool? v.document = some b := by
  cases h
  rfl

theorem natural?_means {limit n : Nat} {v : Written.Value} (h : Written.MeansNatural limit v n) :
    natural? limit v.document = some n := by
  obtain ⟨hnatural, hlt⟩ := h
  rw [Written.Value.document, hnatural]
  exact if_pos hlt

theorem text?_means {v : Written.Value} {o : Option String} (h : Written.MeansText v o) :
    text? v.document = some o := by
  cases h <;> rfl

end Record

namespace Layer

open Record (members?_document field?_tells natural?_means bool?_means text?_means)

theorem ofLimits?_means {v : Written.Value} {maxDepth : Option Nat}
    (h : Written.MeansLimits v maxDepth) : ofLimits? v.document = some maxDepth := by
  cases h with
  | named hmembers htells =>
    obtain ⟨known, hread, hknown⟩ :=
      members?_document hmembers (List.forall_mem_singleton.2 htells.length_le)
    have hfield := field?_tells htells (hknown _ List.mem_cons_self) fun _ _ => natural?_means
    rw [ofLimits?, hread]
    exact hfield
  | noItem hitems =>
    rw [Written.Value.document_of_items? hitems]
    rfl
  | item hitems hmeans =>
    rw [Written.Value.document_of_items? hitems]
    exact congrArg (Option.map some) (natural?_means hmeans)

end Layer

/-- The layer that a file with these fields is. -/
def Known.layer (known : Known) : Layer :=
  ⟨known.jsonLogs, known.verbosity, known.parser.join, known.indent.join⟩

theorem Known.GivenBy.ofDocument? {known : Known} {v : Written.Value}
    {members : List (String × Written.Value)} (hv : v.members? = some members)
    (h : known.GivenBy members) : Layer.ofDocument? v.document = some known.layer := by
  obtain ⟨fields, hread, hfields⟩ := Record.members?_document hv
    (List.forall_mem_cons.2 ⟨h.jsonLogs.length_le, List.forall_mem_cons.2 ⟨h.verbosity.length_le,
      List.forall_mem_cons.2 ⟨h.parser.length_le, List.forall_mem_singleton.2 h.indent.length_le⟩⟩⟩)
  have hjson := Record.field?_tells h.jsonLogs (hfields _ (by simp)) fun _ _ => Record.bool?_means
  have hverbosity : Record.field? fields "verbosity" (Record.natural? 256) = some known.verbosity :=
    Record.field?_tells h.verbosity (hfields _ (by simp)) fun _ _ => Record.natural?_means
  have hparser := Record.field?_tells h.parser (hfields _ (by simp)) fun _ _ => Layer.ofLimits?_means
  have hindent := Record.field?_tells h.indent (hfields _ (by simp)) fun _ _ => Record.text?_means
  rw [Layer.ofDocument?, hread]
  simp only [Option.bind_eq_bind, Option.bind_some, hjson, hverbosity, hparser, hindent]
  rfl

/-- A text is read as the layer of the known fields in it. -/
theorem Known.SpelledBy.ofText? {known : Known} {text : String} (h : known.SpelledBy text) :
    Layer.ofText? text = some known.layer := by
  obtain ⟨file, members, rfl, hmembers, hknown⟩ := h
  rw [Layer.ofText?, file.read?_text]
  exact hknown.ofDocument? hmembers

namespace Command

theorem decodeText_toUTF8 (text : String) : decodeText text.toUTF8 = .ok text := by
  rw [decodeText, String.fromUTF8?, dif_pos (show text.toUTF8.IsValidUTF8 from text.isValidUTF8)]
  rfl

theorem settings_of_spelled {w : World} {flags : Flags} {path text : String} {known : Known}
    (hpath : flags.config = some path) (hfile : w.file path = .ok text.toUTF8)
    (hknown : known.SpelledBy text) :
    settings w flags = .ok (flags.layer.above known.layer).settle := by
  have htext : w.text path = .ok text := by
    rw [World.text, hfile]
    exact decodeText_toUTF8 text
  have hlayer : w.layer path = .ok known.layer := by
    simp only [World.layer, htext, hknown.ofText?]
  simp only [settings, hpath, hlayer]
  rfl

/-- What the flags leave open the file may say, and the rest has defaults. -/
theorem Flags.settle_above (flags : Flags) (known : Known) :
    (flags.layer.above known.layer).settle =
      { jsonLogs := if flags.json then true else known.jsonLogs.getD false
        verbosity := if 0 < flags.verbose then flags.verbose else known.verbosity.getD 0
        maxDepth := flags.maxDepth.getD ((known.parser.getD none).getD defaultMaxDepth)
        indent := known.indent.getD none } := by
  obtain ⟨verbose, json, config, maxDepth⟩ := flags
  obtain ⟨jsonLogs, verbosity, parser, indent⟩ := known
  simp only [Flags.layer, Known.layer, Layer.above, Layer.settle, Settings.mk.injEq]
  refine ⟨?_, ?_, ?_, ?_⟩
  · cases json <;> rfl
  · split <;> rfl
  · cases maxDepth <;> cases parser <;> rfl
  · cases indent <;> rfl

/-- Settings come in layers. Whatever JSON object the settings file holds, if it gives each known
field at most once and in range, a setting is what its flag says if the flag is given, else what the
file says, and else the default. Every other such text that gives the same known fields makes the
same settings. -/
theorem settings_layered {w : World} {flags : Flags} {path text : String} {known : Known}
    (hpath : flags.config = some path) (hfile : w.file path = .ok text.toUTF8)
    (hknown : known.SpelledBy text) :
    settings w flags = .ok
      { jsonLogs := if flags.json then true else known.jsonLogs.getD false
        verbosity := if 0 < flags.verbose then flags.verbose else known.verbosity.getD 0
        maxDepth := flags.maxDepth.getD ((known.parser.getD none).getD defaultMaxDepth)
        indent := known.indent.getD none } ∧
    ∀ (other : World) (elsewhere respelled : String), other.file elsewhere = .ok respelled.toUTF8 →
      known.SpelledBy respelled →
        settings other { flags with config := some elsewhere } = settings w flags := by
  have hsettings := settings_of_spelled hpath hfile hknown
  refine ⟨hsettings.trans (congrArg Except.ok (flags.settle_above known)), ?_⟩
  intro other elsewhere respelled hother hrespelled
  exact (settings_of_spelled rfl hother hrespelled).trans hsettings.symm

section

open Written

def noGap : Gap := ⟨[], List.forall_mem_nil _⟩

def oneBlank : Gap := ⟨[' '], List.forall_mem_singleton.2 List.mem_cons_self⟩

/-- The letters of a word that needs no escape. -/
def rawLetters (word : String) : List Letter :=
  word.toList.filterMap fun c =>
    if h : 0x20 ≤ c.toNat ∧ c ≠ '\x22' ∧ c ≠ '\\' then some (.raw c h) else none

def oneDigit (c : Char) (h : Text.isDigit c = true) : Digits :=
  ⟨[c], nofun, List.forall_mem_singleton.2 h⟩

def minusHalf : Numeral := ⟨true, oneDigit '0' rfl, fun _ => rfl, some (oneDigit '5' rfl), none⟩

def seven : Numeral := ⟨false, oneDigit '7' rfl, by decide, none, none⟩

/-- A field that is not known here and one that is. -/
def mixedLimits : Fields :=
  .more noGap ⟨rawLetters "verbosity"⟩ noGap noGap (.number minusHalf) oneBlank
    (.last oneBlank ⟨rawLetters "max_depth"⟩ noGap noGap (.number seven) noGap)

/-- A field that is not known, and three that are, one of which has an escape in its name. -/
def mixedFields : Fields :=
  .more noGap ⟨rawLetters "x"⟩ oneBlank noGap (.array (.last noGap (.emptyObject oneBlank) noGap))
    noGap (.more oneBlank ⟨rawLetters "parser"⟩ noGap oneBlank (.object mixedLimits) noGap
      (.more noGap
        ⟨rawLetters "json" ++
          .unit ⟨['0', '0', '5', 'F'], rfl, rfl⟩ ⟨rfl, rfl⟩ :: rawLetters "logs"⟩
        noGap noGap (.bool true) noGap
        (.last noGap ⟨rawLetters "indent"⟩ noGap noGap (.string ⟨[.short 't' '\t' (by decide)]⟩)
          noGap)))

def mixedText : String :=
  " \x7b\"x\" :[\x7b \x7d], \"parser\": \x7b\"verbosity\":-0.5 , \"max_depth\":7\x7d," ++
    "\"json\\u005Flogs\":true,\"indent\":\"\\t\"\x7d"

def mixedKnown : Known := ⟨some true, none, some (some 7), some (some "\t")⟩

theorem mixedKnown_givenBy : mixedKnown.GivenBy mixedFields.members where
  jsonLogs := ⟨_, rfl, .bool true⟩
  verbosity := rfl
  parser := ⟨_, rfl, .named rfl ⟨_, rfl, .number rfl (by decide)⟩⟩
  indent := ⟨_, rfl, .string _⟩

/-- A world with one file, whatever it is called. -/
def mixedWorld : World where
  standardInput := .empty
  file _ := .ok mixedText.toUTF8
  configVariable := none

theorem settings_layered_mixed :
    mixedWorld.file "s.json" = .ok mixedText.toUTF8 ∧ mixedKnown.SpelledBy mixedText ∧
      settings mixedWorld ⟨2, false, some "s.json", none⟩ = .ok ⟨true, 2, 7, some "\t"⟩ ∧
      ∀ (other : World) (elsewhere respelled : String), other.file elsewhere = .ok respelled.toUTF8 →
        mixedKnown.SpelledBy respelled →
          settings other ⟨2, false, some elsewhere, none⟩ =
            settings mixedWorld ⟨2, false, some "s.json", none⟩ := by
  have hfile : mixedWorld.file "s.json" = .ok mixedText.toUTF8 := rfl
  have hknown : mixedKnown.SpelledBy mixedText :=
    ⟨⟨oneBlank, .object mixedFields, noGap⟩, _, by decide +kernel, rfl, mixedKnown_givenBy⟩
  exact ⟨hfile, hknown, settings_layered rfl hfile hknown⟩

end

end Command

end ScriptTree
