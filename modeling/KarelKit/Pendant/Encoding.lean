import KarelKit.Pendant.Hover
import KarelKit.Source.Encoding

namespace KarelKit

open Json

namespace Pendant

def LabelNumber.toJson : LabelNumber → Json
  | direct number comment => .object [("kind", .string "direct"), ("number", .integer number),
      ("comment", .ofOption .string comment)]
  | indirect register => .object [("kind", .string "indirect"), ("register", .integer register)]

/-- The field `kind` tells which kind it is. Fields that a kind does not know are passed over. -/
def LabelNumber.ofJson? (j : Json) : Option LabelNumber := do
  match ← (← j.field? "kind").string? with
  | "direct" =>
    return .direct (← (← j.field? "number").word?)
      (← (← j.fieldOrNull? "comment").nullable string?)
  | "indirect" => return .indirect (← (← j.field? "register").word?)
  | _ => none

def Label.toJson (l : Label) : Json :=
  .object [("number", l.number.toJson), ("range", l.range.toJson)]

def Label.ofJson? (j : Json) : Option Label := do
  return ⟨← LabelNumber.ofJson? (← j.field? "number"), ← Range.ofJson? (← j.field? "range")⟩

def MotionType.name : MotionType → String
  | joint => "joint"
  | linear => "linear"
  | circular => "circular"
  | circularArc => "circular_arc"

def MotionType.ofName? : String → Option MotionType
  | "joint" => some joint
  | "linear" => some linear
  | "circular" => some circular
  | "circular_arc" => some circularArc
  | _ => none

/-- A motion type is its name, or an object whose only field has that name and holds nothing. -/
def MotionType.ofJson? : Json → Option MotionType
  | .string name => ofName? name
  | .object [(name, .null)] => ofName? name
  | .object [(name, .object [])] => ofName? name
  | _ => none

def MotionOption.toJson : MotionOption → Json
  | skip label => .object [("kind", .string "skip"), ("label", label.toJson)]
  | skipJump label register => .object [("kind", .string "skip_jump"), ("label", label.toJson),
      ("register", .string register)]
  | acceleration percent => .object [("kind", .string "acceleration"),
      ("percent", .integer percent)]
  | offset register => .object [("kind", .string "offset"),
      ("register", .ofOption .string register)]
  | toolOffset register => .object [("kind", .string "tool_offset"),
      ("register", .ofOption .string register)]
  | other text => .object [("kind", .string "other"), ("text", .string text)]

def MotionOption.ofJson? (j : Json) : Option MotionOption := do
  match ← (← j.field? "kind").string? with
  | "skip" => return .skip (← Label.ofJson? (← j.field? "label"))
  | "skip_jump" =>
    return .skipJump (← Label.ofJson? (← j.field? "label")) (← (← j.field? "register").string?)
  | "acceleration" => return .acceleration (← (← j.field? "percent").word?)
  | "offset" => return .offset (← (← j.fieldOrNull? "register").nullable string?)
  | "tool_offset" => return .toolOffset (← (← j.fieldOrNull? "register").nullable string?)
  | "other" => return .other (← (← j.field? "text").string?)
  | _ => none

/-- The fields of a motion, apart from its kind. -/
def Motion.fields (m : Motion) : List (String × Json) :=
  [("motion_type", .string m.motionType.name), ("position", .string m.position),
    ("speed", .string m.speed), ("termination", .string m.termination),
    ("options", .array (m.options.map MotionOption.toJson))]

def Motion.ofJson? (j : Json) : Option Motion := do
  return {
    motionType := ← MotionType.ofJson? (← j.field? "motion_type")
    position := ← (← j.field? "position").string?
    speed := ← (← j.field? "speed").string?
    termination := ← (← j.field? "termination").string?
    options := ← (← (← j.field? "options").array?).mapM MotionOption.ofJson? }

def Wait.toJson : Wait → Json
  | time seconds => .object [("kind", .string "time"), ("seconds", .string seconds)]
  | condition test timeoutLabel => .object [("kind", .string "condition"),
      ("condition", .string test), ("timeout_label", .ofOption Label.toJson timeoutLabel)]

def Wait.ofJson? (j : Json) : Option Wait := do
  match ← (← j.field? "kind").string? with
  | "time" => return .time (← (← j.field? "seconds").string?)
  | "condition" =>
    return .condition (← (← j.field? "condition").string?)
      (← (← j.fieldOrNull? "timeout_label").nullable Label.ofJson?)
  | _ => none

def Action.toJson : Action → Json
  | jump label => .object [("kind", .string "jump_label"), ("label", label.toJson)]
  | motion m => .object (("kind", .string "motion") :: m.fields)
  | conditional condition action => .object [("kind", .string "if"),
      ("condition", .string condition), ("action", action.toJson)]
  | wait w => .object [("kind", .string "wait"), ("wait", w.toJson)]
  | mixedLogicWait condition timeoutLabel => .object [("kind", .string "mixed_logic_wait"),
      ("condition", .string condition), ("timeout_label", timeoutLabel.toJson)]
  | defineLabel label => .object [("kind", .string "label_definition"), ("label", label.toJson)]
  | call program => .object [("kind", .string "call"), ("program", .string program)]
  | assignment text => .object [("kind", .string "assignment"), ("text", .string text)]
  | comment text => .object [("kind", .string "comment"), ("text", .string text)]
  | stop => .object [("kind", .string "end")]

/-- The whole of an action must have a value, also where it is passed over. -/
def Action.ofJson? (j : Json) : Option Action :=
  if j.hasValue then do
    match ← (← j.field? "kind").string? with
    | "jump_label" => return .jump (← Label.ofJson? (← j.field? "label"))
    | "motion" => return .motion (← Motion.ofJson? j)
    | "if" =>
      let condition ← (← j.field? "condition").string?
      match _h : j.field? "action" with
      | none => none
      | some action => return .conditional condition (← ofJson? action)
    | "wait" => return .wait (← Wait.ofJson? (← j.field? "wait"))
    | "mixed_logic_wait" =>
      return .mixedLogicWait (← (← j.field? "condition").string?)
        (← Label.ofJson? (← j.field? "timeout_label"))
    | "label_definition" => return .defineLabel (← Label.ofJson? (← j.field? "label"))
    | "call" => return .call (← (← j.field? "program").string?)
    | "assignment" => return .assignment (← (← j.field? "text").string?)
    | "comment" => return .comment (← (← j.field? "text").string?)
    | "end" => return .stop
    | _ => none
  else none
termination_by sizeOf j
decreasing_by exact sizeOf_lt_of_field? _h

def Instruction.toJson (i : Instruction) : Json :=
  .object [("line_number", .integer i.lineNumber), ("kind", i.action.toJson)]

def Instruction.ofJson? (j : Json) : Option Instruction := do
  return ⟨← (← j.field? "line_number").word?, ← Action.ofJson? (← j.field? "kind")⟩

def Program.toJson (p : Program) : Json :=
  .object [("name", .string p.name), ("instructions", .array (p.instructions.map (·.toJson)))]

def Program.ofJson? (j : Json) : Option Program := do
  return ⟨← (← j.field? "name").string?,
    ← (← (← j.field? "instructions").array?).mapM Instruction.ofJson?⟩

/-- The text is told to be plain. -/
def Hover.toJson (h : Hover) : Json :=
  .object [
    ("contents", .object [("kind", .string "plaintext"), ("value", .string h.text)]),
    ("range", h.range.toJson)]

end Pendant

end KarelKit
