import Mathlib.Data.List.Forall2
import ScriptTree.Command.Run

/-! # What the commands say of one input

A command line that checks many inputs checks each as it would alone, as long as standard input, which
is gone once it has been read, is among them once at most. What is found there is also what parsing and
printing the input meet: they end well if it is a script, and else they write the same error. -/
namespace ScriptTree

theorem parseSpans_eq_error {source : String} {maxDepth : Nat} {f : Failure}
    (h : parse source maxDepth = .error f) : parseSpans source maxDepth = .error f := by
  rw [parse] at h
  cases hp : parseSpans source maxDepth with
  | ok p =>
    rw [hp] at h
    cases h
  | error g =>
    rw [hp] at h
    exact congrArg Except.error (Except.error.inj h)

namespace Command

/-! ## Lines -/

/-- A command line, and the variable that it is run under. -/
structure Invocation where
  configVariable : Option String
  words : List String

namespace Invocation

/-- The files and the standard input of a world, under the variable of this line. -/
def world (line : Invocation) (w : World) : World := { w with configVariable := line.configVariable }

def run (line : Invocation) (w : World) : Outcome := Command.run (line.world w) line.words

/-- The line is understood as asking for an action, its settings can be read, and `maxDepth` is what
they tell the parser. -/
def Asks (line : Invocation) (w : World) (action : Action) (json : Bool) (maxDepth : Nat) : Prop :=
  ∃ flags s, readArguments? line.configVariable line.words = some (.run flags action) ∧
    settings (line.world w) flags = .ok s ∧ flags.json = json ∧ s.maxDepth = maxDepth

variable {line : Invocation} {w : World} {action : Action} {json : Bool} {maxDepth : Nat}

theorem checkFiles_world (standardInput : ByteArray) (paths : List String) :
    checkFiles (line.world w) maxDepth standardInput paths =
      checkFiles w maxDepth standardInput paths := by
  induction paths generalizing standardInput with
  | nil => rfl
  | cons path paths ih => exact congrArg _ (ih _)

/-- No action sees the variable. -/
theorem runAction_world (s : Settings) :
    runAction (line.world w) s json action = runAction w s json action := by
  cases action with
  | check paths =>
    rw [runAction, runCheck, checkFiles_world]
    rfl
  | _ => rfl

theorem Asks.run_eq (h : line.Asks w action json maxDepth) :
    ∃ s : Settings, s.maxDepth = maxDepth ∧ line.run w = runAction w s json action := by
  obtain ⟨flags, s, hwords, hsettings, rfl, hs⟩ := h
  refine ⟨s, hs, ?_⟩
  rw [run, Command.run, show (line.world w).configVariable = line.configVariable from rfl, hwords]
  simp only [hsettings, runAction_world]

end Invocation

/-! ## Reports -/

/-- What is written of the results of a check. -/
def report (json : Bool) (results : List CheckResult) : Outcome :=
  let failed := failures results
  let text :=
    if json then
      (Json.object [("ok", .bool (failed == 0)), ("checked", .nat results.length),
        ("failed", .nat failed), ("results", .array (results.map CheckResult.toJson))]).pretty
    else
      "checked " ++ toString results.length ++ " file(s), " ++ toString failed ++ " failed"
  ⟨if failed = 0 then 0 else 1, text ++ "\n"⟩

theorem report_status (json : Bool) (results : List CheckResult) :
    (report json results).status = 0 ↔ failures results = 0 := by
  simp [report]

variable {w : World} {path : String} {maxDepth : Nat} {json : Bool}

/-- What a check finds at a path if it reads nothing else. -/
def checkPath (w : World) (maxDepth : Nat) (path : String) : CheckResult :=
  checkInput maxDepth path (readInput w w.standardInput path).1

/-- Reading a file takes nothing from standard input, and nothing in it matters. -/
theorem readInput_of_file (h : isStandardInput path = false) (standardInput other : ByteArray) :
    readInput w standardInput path = ((readInput w other path).1, standardInput) := by
  simp [readInput, h]

theorem checkFiles_of_files {paths : List String}
    (h : ∀ path ∈ paths, isStandardInput path = false) (standardInput : ByteArray) :
    checkFiles w maxDepth standardInput paths = paths.map (checkPath w maxDepth) := by
  induction paths with
  | nil => rfl
  | cons path paths ih =>
    obtain ⟨hfile, hfiles⟩ := List.forall_mem_cons.1 h
    rw [checkFiles, readInput_of_file hfile standardInput w.standardInput]
    exact congrArg _ (ih hfiles)

/-- Until standard input is read it is all there, and after that only files follow. -/
theorem checkFiles_eq_map {paths : List String} (h : paths.countP isStandardInput ≤ 1) :
    checkFiles w maxDepth w.standardInput paths = paths.map (checkPath w maxDepth) := by
  induction paths with
  | nil => rfl
  | cons path paths ih =>
    cases hp : isStandardInput path with
    | false =>
      rw [List.countP_cons_of_neg (by simp [hp])] at h
      rw [checkFiles, readInput_of_file hp w.standardInput w.standardInput]
      exact congrArg _ (ih h)
    | true =>
      rw [List.countP_cons_of_pos hp] at h
      have hfiles : paths.countP isStandardInput = 0 := by omega
      have hrest : checkFiles w maxDepth (readInput w w.standardInput path).2 paths =
          paths.map (checkPath w maxDepth) :=
        checkFiles_of_files (by simpa using List.countP_eq_zero.1 hfiles) _
      exact congrArg _ hrest

/-! ## Single inputs -/

/-- How a command ends that needs the tree of one input, by what a check finds there. -/
inductive Ends (json : Bool) : CheckResult → Outcome → Prop
  | ok {file outcome} : outcome.status = 0 → Ends json ⟨file, .ok⟩ outcome
  | rejected {file f} (input : Input) :
    input.name = file → Ends json ⟨file, .rejected f⟩ (reject json input f)
  | unreadable {file message} : Ends json ⟨file, .unreadable message⟩ fail

theorem Ends.isOk_iff {r : CheckResult} {outcome : Outcome} (h : Ends json r outcome) :
    r.isOk = true ↔ outcome.status = 0 := by
  cases h with
  | ok h => exact ⟨fun _ => h, fun _ => rfl⟩
  | rejected input _ => cases json <;> exact ⟨nofun, nofun⟩
  | unreadable => exact ⟨nofun, nofun⟩

theorem withInput_ends {handle : Input → Outcome}
    (h : ∀ input, Ends json (checkInput maxDepth path (.ok input)) (handle input)) :
    Ends json (checkPath w maxDepth path) (withInput w path handle) := by
  rw [checkPath, withInput]
  cases (readInput w w.standardInput path).1 with
  | ok input => exact h input
  | error message => exact .unreadable

variable {line : Invocation}

theorem Invocation.Asks.parse_ends {compact : Bool}
    (h : line.Asks w (.parse path compact) json maxDepth) :
    Ends json (checkPath w maxDepth path) (line.run w) := by
  obtain ⟨s, rfl, hrun⟩ := h.run_eq
  rw [hrun]
  refine withInput_ends fun input => ?_
  rw [checkInput, parse]
  cases parseSpans input.text s.maxDepth with
  | ok p => exact .ok rfl
  | error f => exact .rejected input rfl

theorem Invocation.Asks.print_ends {minified : Bool}
    (h : line.Asks w (.print path minified) json maxDepth) :
    Ends json (checkPath w maxDepth path) (line.run w) := by
  obtain ⟨s, rfl, hrun⟩ := h.run_eq
  rw [hrun]
  refine withInput_ends fun input => ?_
  rw [checkInput, transform]
  cases parseSpans input.text s.maxDepth with
  | ok p =>
    refine .ok ?_
    dsimp only [Except.map]
    split <;> rfl
  | error f => exact .rejected input rfl

/-- What is written under `--json` of a script that cannot be read as one. -/
def refusal (file : String) (error : Json) : Outcome :=
  ⟨1, (Json.object [("ok", .bool false), ("file", .string file), ("error", error)]).pretty ++ "\n"⟩

theorem Ends.eq_refusal {file : String} {f : Failure} {outcome : Outcome}
    (h : Ends true ⟨file, .rejected f⟩ outcome) : outcome = refusal file f.toJson := by
  cases h with
  | rejected input hname =>
    subst hname
    rfl

/-! ## Agreement -/

/-- A result at a path is what every line finds there that tells the parser the same. -/
structure Agrees (w : World) (maxDepth : Nat) (path : String) (r : CheckResult) : Prop where
  alone : ∀ (line : Invocation) json, line.Asks w (.check [path]) json maxDepth →
    line.run w = report json [r]
  parses : ∀ (line : Invocation) json compact, line.Asks w (.parse path compact) json maxDepth →
    (r.isOk = true ↔ (line.run w).status = 0)
  prints : ∀ (line : Invocation) json minified, line.Asks w (.print path minified) json maxDepth →
    (r.isOk = true ↔ (line.run w).status = 0)
  error : ∀ input f, (readInput w w.standardInput path).1 = .ok input →
    parse input.text maxDepth = .error f →
    r.toJson = .object [("file", .string input.name), ("ok", .bool false), ("error", f.toJson)] ∧
    (∀ (line : Invocation) compact, line.Asks w (.parse path compact) true maxDepth →
      line.run w = refusal input.name f.toJson) ∧
    ∀ (line : Invocation) minified, line.Asks w (.print path minified) true maxDepth →
      line.run w = refusal input.name f.toJson

theorem checkPath_agrees (w : World) (maxDepth : Nat) (path : String) :
    Agrees w maxDepth path (checkPath w maxDepth path) where
  alone line json h := by
    obtain ⟨s, rfl, hrun⟩ := h.run_eq
    rw [hrun]
    rfl
  parses _ _ _ h := h.parse_ends.isOk_iff
  prints _ _ _ h := h.print_ends.isOk_iff
  error input f hread hparse := by
    have hcheck : checkPath w maxDepth path = ⟨input.name, .rejected f⟩ := by
      rw [checkPath, hread, checkInput, parseSpans_eq_error hparse]
    have refused {line : Invocation} (h : Ends true (checkPath w maxDepth path) (line.run w)) :
        line.run w = refusal input.name f.toJson := by
      rw [hcheck] at h
      exact h.eq_refusal
    exact ⟨by rw [hcheck]; rfl, fun _ _ h => refused h.parse_ends, fun _ _ h => refused h.print_ends⟩

/-- The commands agree about every path that a line checks, whatever the files and standard input hold.
Under any flags and settings that tell the parser the same, checking the path alone gives its result in
the report, parsing and printing it succeed just if that result is ok, and they write the error in it
if the script has one. The line fails just if it counts a failure. Standard input may stand among the
paths once: that is the dash, also with slashes and dots behind it, which is the same path. -/
theorem commands_agree {w : World} {line : Invocation} {paths : List String} {json : Bool}
    {maxDepth : Nat} (h : line.Asks w (.check paths) json maxDepth)
    (hdash : paths.countP isStandardInput ≤ 1) :
    ∃ results, line.run w = report json results ∧
      ((line.run w).status = 0 ↔ failures results = 0) ∧
      List.Forall₂ (Agrees w maxDepth) paths results := by
  obtain ⟨s, rfl, hrun⟩ := h.run_eq
  have hreport : line.run w = report json (paths.map (checkPath w s.maxDepth)) := by
    rw [hrun, ← checkFiles_eq_map hdash]
    rfl
  refine ⟨paths.map (checkPath w s.maxDepth), hreport, ?_, ?_⟩
  · rw [hreport]
    exact report_status json _
  · rw [List.forall₂_map_right_iff, List.forall₂_same]
    exact fun path _ => checkPath_agrees w s.maxDepth path

/-- One file, and a script on standard input that stops too early. -/
def oneFile : World where
  standardInput := "var".toUTF8
  file path := if path = "a" then .ok "b".toUTF8 else .error .missing
  configVariable := none

/-- The file, standard input and a file that is missing, under a limit that the words set. -/
def checkThree : Invocation := ⟨none, ["--json", "check", "a", "-", "c", "--max-depth=9"]⟩

theorem commands_agree_mixed :
    checkThree.Asks oneFile (.check ["a", "-", "c"]) true 9 ∧
      ["a", "-", "c"].countP isStandardInput ≤ 1 ∧
      ∃ results, checkThree.run oneFile = report true results ∧
        ((checkThree.run oneFile).status = 0 ↔ failures results = 0) ∧
        List.Forall₂ (Agrees oneFile 9) ["a", "-", "c"] results := by
  have hasks : checkThree.Asks oneFile (.check ["a", "-", "c"]) true 9 :=
    ⟨⟨0, true, none, some 9⟩, ⟨true, 0, 9, none⟩, by decide +kernel, rfl, rfl, rfl⟩
  have hdash : ["a", "-", "c"].countP isStandardInput ≤ 1 := by
    rw [List.countP_cons_of_neg (by decide), List.countP_cons, List.countP_cons_of_neg (by decide)]
    split <;> decide
  exact ⟨hasks, hdash, commands_agree hasks hdash⟩

end Command
end ScriptTree
