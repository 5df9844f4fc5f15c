import KarelKit.Command.Run
import KarelKit.Proofs.Grammar.Expectations
import KarelKit.Proofs.Json.Printing
import KarelKit.Proofs.Pendant.Bounds

namespace KarelKit.Command

/-- What a task comes to, in whatever mode it is told. -/
inductive Verdict
  | complaint (message : String)
  | refusal (file : String) (d : Diagnostic)
  | tree (t : Tree)
  | hover (h : Option Pendant.Hover)

namespace Verdict

/-- The verdict as a run tells it in its mode. -/
def report (v : Verdict) (i : Invocation) : Report :=
  match v with
  | complaint message => i.complain message
  | refusal file d => i.refuse file d
  | tree t =>
    .success <|
      match i.output with
      | .text => t.print
      | .json => t.toJson.pretty "" ++ "\n"
  | hover h => i.showHover h

variable (v : Verdict) (i i' : Invocation)

theorem code_report : (v.report i).code = (v.report i').code := by cases v <;> rfl

theorem stdout_report (h : i.output = i'.output) : (v.report i).stdout = (v.report i').stdout := by
  cases v with
  | complaint message => rfl
  | refusal file d => rfl
  | tree t => simp only [report, h]
  | hover hover => simp only [report, Invocation.showHover, h]

theorem streams_report : (v.report i).code = 0 ∧ (v.report i).stderr = "" ∨
    (v.report i).code = 1 ∧ (v.report i).stdout = "" := by
  cases v with
  | complaint message => exact Or.inr ⟨rfl, rfl⟩
  | refusal file d => exact Or.inr ⟨rfl, rfl⟩
  | tree t => exact Or.inl ⟨rfl, rfl⟩
  | hover hover => exact Or.inl ⟨rfl, rfl⟩

end Verdict

/-- The run of a task in one of its modes. -/
def Task.runIn (task : Task) (content : Except String String) (output : OutputFormat)
    (quiet : Bool) : Report :=
  Invocation.run ⟨task, output, quiet⟩ content

/-- There is no text, or it has to be a program and is none. -/
def Task.Unreadable (task : Task) (content : Except String String) : Prop :=
  (∃ reason, content = .error reason) ∨ ∃ file cursor source, task = .hover file cursor ∧
    content = .ok source ∧ Pendant.Program.ofJson? =<< Json.read source = none

section Runs

variable {task : Task} {content : Except String String} {file source : String}

theorem exists_complaint (h : task.Unreadable content) : ∃ message, ∀ output quiet,
    task.runIn content output quiet = Invocation.complain ⟨task, output, quiet⟩ message := by
  rcases h with ⟨reason, rfl⟩ | ⟨file, cursor, source, rfl, rfl, hnone⟩
  · exact ⟨s!"error reading file '{task.file}': {reason}", fun _ _ => rfl⟩
  · refine ⟨s!"error parsing TP program JSON in '{file}': not a teach pendant program",
      fun output quiet => ?_⟩
    simp only [Task.runIn, Invocation.run, Invocation.hoverText, hnone]

theorem runIn_refused {e : ParseError} (h : parse .declarations source = .error e)
    (output : OutputFormat) (quiet : Bool) : (Task.parse file).runIn (.ok source) output quiet =
      Invocation.refuse ⟨.parse file, output, quiet⟩ file e.diagnostic := by
  simp only [Task.runIn, Invocation.run, Invocation.parseText, h]

theorem runIn_program {cursor : EditorPosition} {program : Pendant.Program}
    (h : Pendant.Program.ofJson? =<< Json.read source = some program) (output : OutputFormat)
    (quiet : Bool) : (Task.hover file cursor).runIn (.ok source) output quiet =
      Invocation.showHover ⟨.hover file cursor, output, quiet⟩ (program.hover? cursor) := by
  simp only [Task.runIn, Invocation.run, Invocation.hoverText, h]

/-- A run is a verdict on the file, told in the run's mode. -/
theorem exists_verdict (task : Task) (content : Except String String) : ∃ v : Verdict,
    ∀ output quiet, task.runIn content output quiet = v.report ⟨task, output, quiet⟩ := by
  by_cases hunreadable : task.Unreadable content
  · obtain ⟨message, hrun⟩ := exists_complaint hunreadable
    exact ⟨.complaint message, hrun⟩
  · -- what is left is decided by the task and by the text
    cases content with
    | error reason => exact absurd (Or.inl ⟨reason, rfl⟩) hunreadable
    | ok source =>
      cases task with
      | parse file =>
        cases h : parse .declarations source with
        | error e => exact ⟨.refusal file e.diagnostic, runIn_refused h⟩
        | ok t =>
          refine ⟨.tree t, fun output quiet => ?_⟩
          simp only [Task.runIn, Invocation.run, Invocation.parseText, h]
          rfl
      | hover file cursor =>
        cases h : Pendant.Program.ofJson? =<< Json.read source with
        | none => exact absurd (Or.inr ⟨file, cursor, source, rfl, rfl, h⟩) hunreadable
        | some program => exact ⟨.hover (program.hover? cursor), runIn_program h⟩

end Runs

theorem plain_diagnostic {d : Diagnostic} (file : Option String)
    (hline : d.position.line < 0x10000000000000000)
    (hcolumn : d.position.column < 0x10000000000000000) : (d.toJson file).Plain := by
  cases file <;> simp [Diagnostic.toJson, hline, hcolumn]

theorem read_diagnostic {source : String} {e : ParseError}
    (h : parse .declarations source = .error e) (hlength : source.length < 0xffffffff)
    (file : Option String) :
    Json.read ((e.diagnostic.toJson file).pretty "" ++ "\n") = some (e.diagnostic.toJson file) := by
  obtain ⟨offset, hoffset, hposition⟩ := exists_offset_of_parse_error h
  have hle := Position.atOffset_le source.toList offset
  rw [← hposition] at hle
  apply Json.read_pretty
  exact plain_diagnostic (d := e.diagnostic) file (by change e.position.line < _; omega)
    (by change e.position.column < _; omega)

theorem plain_hover {h : Pendant.Hover} {range : Range} (hrange : range.Fits)
    (heq : h.range = range.toEditor) : h.toJson.Plain := by
  obtain ⟨⟨hstartLine, hstartColumn⟩, hstopLine, hstopColumn⟩ := hrange
  simp [Pendant.Hover.toJson, EditorRange.toJson, EditorPosition.toJson, heq, Range.toEditor,
    Position.toEditor]
  omega

/-- The error of a refused text is told as one object in JSON, and its message also as text. The
object is read back wherever the places of the text are numbers of 32 bits. -/
def TellsParseError (run : OutputFormat → Bool → Report) (file source : String) (e : ParseError) :
    Prop :=
  ∃ j message, (∀ quiet, (run .json quiet).stderr = j.pretty "" ++ "\n") ∧
    (source.length < 0xffffffff → Json.read (j.pretty "" ++ "\n") = some j) ∧
    j.field? "message" = some (.string message) ∧
    (run .text false).stderr = file ++ ":" ++ message ++ "\n" ∧
    j.field? "line" = some (.integer e.position.line) ∧
    j.field? "column" = some (.integer e.position.column) ∧
    j.field? "expected" = some (.array (e.expected.map fun x => .string x.describe)) ∧
    j.field? "found" = some (.string e.found.describe)

/-- One error is told in both formats. -/
def TellsComplaint (run : OutputFormat → Bool → Report) : Prop :=
  ∃ j message, Json.read (run .json false).stderr = some j ∧
    j.field? "error" = some (.string message) ∧ (run .text false).stderr = message ++ "\n"

/-- What is printed as text is told in the JSON, and `null` stands for nothing. -/
def TellsHover (run : OutputFormat → Bool → Report) (quiet : Bool) : Prop :=
  ∃ j, Json.read (run .json quiet).stdout = some j ∧
    ((run .text quiet).stdout = "" ↔ j = .null) ∧
    (j ≠ .null → ∃ contents value, j.field? "contents" = some contents ∧
      contents.field? "value" = some (.string value) ∧
      (run .text quiet).stdout = value ++ "\n")

/-- How the modes of a task agree on one file. -/
structure Agreement (task : Task) (content : Except String String) : Prop where
  /-- The exit code is the same in all modes. -/
  code : ∀ output output' quiet quiet', (task.runIn content output quiet).code =
    (task.runIn content output' quiet').code
  /-- A quiet run prints what another one prints. -/
  quiet : ∀ output, (task.runIn content output true).stdout =
    (task.runIn content output false).stdout
  /-- Only a run that fails reports an error, and it prints nothing. -/
  streams : ∀ output quiet,
    (task.runIn content output quiet).code = 0 ∧ (task.runIn content output quiet).stderr = "" ∨
    (task.runIn content output quiet).code = 1 ∧ (task.runIn content output quiet).stdout = ""
  parseError : ∀ file source e, task = .parse file → content = .ok source →
    parse .declarations source = .error e →
    TellsParseError (task.runIn content) file source e
  complaint : task.Unreadable content → TellsComplaint (task.runIn content)
  hover : ∀ file cursor, task = .hover file cursor → ∀ quiet,
    (task.runIn content .json quiet).code = 0 → TellsHover (task.runIn content) quiet

theorem fields_diagnostic (d : Diagnostic) (file : String) :
    (d.toJson file).field? "message" = some (.string d.message) ∧
    (d.toJson file).field? "line" = some (.integer d.position.line) ∧
    (d.toJson file).field? "column" = some (.integer d.position.column) ∧
    (d.toJson file).field? "expected" = some (.array (d.expected.map .string)) ∧
    (d.toJson file).field? "found" = some (.string d.found) := by
  refine ⟨?_, ?_, ?_, ?_, ?_⟩
  all_goals simp [Diagnostic.toJson, Json.field?, Json.fieldsNamed]

theorem append_newline_ne (text : String) : text ++ "\n" ≠ "" := by
  simp

section Agreement

variable {task : Task} {content : Except String String} {file source : String}

theorem tells_parse_error {e : ParseError} (h : parse .declarations source = .error e) :
    TellsParseError ((Task.parse file).runIn (.ok source)) file source e := by
  obtain ⟨hmessage, hline, hcolumn, hexpected, hfound⟩ := fields_diagnostic e.diagnostic file
  refine ⟨e.diagnostic.toJson file, e.diagnostic.message, ?_, ?_, hmessage, ?_, hline, hcolumn,
    ?_, hfound⟩
  · intro quiet
    rw [runIn_refused h]
    rfl
  · intro hlength
    exact read_diagnostic h hlength file
  · rw [runIn_refused h]
    rfl
  · rw [hexpected]
    simp [ParseError.diagnostic, Function.comp_def]

theorem tells_complaint (h : task.Unreadable content) : TellsComplaint (task.runIn content) := by
  obtain ⟨message, hrun⟩ := exists_complaint h
  refine ⟨.object [("error", .string message)], message, ?_, ?_, ?_⟩
  · rw [hrun]
    exact Json.read_compact (by simp)
  · simp [Json.field?, Json.fieldsNamed]
  · rw [hrun]
    rfl

theorem exists_program {cursor : EditorPosition} {output : OutputFormat} {quiet : Bool}
    (h : ((Task.hover file cursor).runIn content output quiet).code = 0) :
    ∃ source program, content = .ok source ∧
      Pendant.Program.ofJson? =<< Json.read source = some program := by
  -- a run that succeeds has made no complaint
  have hreadable : ¬(Task.hover file cursor).Unreadable content := by
    intro hunreadable
    obtain ⟨message, hrun⟩ := exists_complaint hunreadable
    rw [hrun] at h
    contradiction
  cases content with
  | error reason => exact absurd (Or.inl ⟨reason, rfl⟩) hreadable
  | ok source =>
    cases hprogram : Pendant.Program.ofJson? =<< Json.read source with
    | none => exact absurd (Or.inr ⟨file, cursor, source, rfl, rfl, hprogram⟩) hreadable
    | some program => exact ⟨source, program, rfl, hprogram⟩

theorem tells_hover {cursor : EditorPosition} {quiet : Bool}
    (h : ((Task.hover file cursor).runIn content .json quiet).code = 0) :
    TellsHover ((Task.hover file cursor).runIn content) quiet := by
  obtain ⟨source, program, rfl, hprogram⟩ := exists_program h
  simp only [TellsHover, runIn_program hprogram]
  cases hhover : program.hover? cursor with
  | none =>
    refine ⟨.null, Json.read_pretty .null, ?_, fun hnull => absurd rfl hnull⟩
    exact ⟨fun _ => rfl, fun _ => rfl⟩
  | some hover =>
    obtain ⟨j, -, hdecoded⟩ := Option.bind_eq_some_iff.mp hprogram
    obtain ⟨range, hrange, heq⟩ := Pendant.Program.exists_range_of_hover? hdecoded hhover
    refine ⟨hover.toJson, Json.read_pretty (plain_hover hrange heq), ?_, fun _ => ?_⟩
    · constructor
      · exact fun hempty => absurd hempty (append_newline_ne hover.text)
      · exact fun hnull => by contradiction
    · refine ⟨.object [("kind", .string "plaintext"), ("value", .string hover.text)], hover.text,
        ?_, ?_, rfl⟩
      · simp [Pendant.Hover.toJson, Json.field?, Json.fieldsNamed]
      · simp [Json.field?, Json.fieldsNamed]

end Agreement

/-- The modes of a task agree, whatever the file holds and also if it cannot be read. -/
theorem modes_agree (task : Task) (bytes : Except String ByteArray) :
    Agreement task (decodeText =<< bytes) := by
  obtain ⟨v, hv⟩ := exists_verdict task (decodeText =<< bytes)
  refine ⟨?code, ?quiet, ?streams, ?parseError, tells_complaint, ?hover⟩
  case code =>
    intro output output' quiet quiet'
    rw [hv, hv]
    exact v.code_report _ _
  case quiet =>
    intro output
    rw [hv, hv]
    exact v.stdout_report _ _ rfl
  case streams =>
    intro output quiet
    rw [hv]
    exact v.streams_report _
  case parseError =>
    intro file source e htask hcontent herror
    rw [hcontent, htask]
    exact tells_parse_error herror
  case hover =>
    intro file cursor htask quiet hcode
    rw [htask] at hcode ⊢
    exact tells_hover hcode

end KarelKit.Command
