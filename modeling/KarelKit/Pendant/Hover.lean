import KarelKit.Source.EditorPosition
import KarelKit.Pendant.Program

namespace KarelKit.Pendant

def MotionOption.skipLabel? : MotionOption → Option Label
  | skip label => some label
  | skipJump label _ => some label
  | _ => none

/-- The label that an action refers to. Of a conditional action only a plain jump counts. -/
def Action.reference? : Action → Option Label
  | jump label => some label
  | motion m => m.options.findSome? MotionOption.skipLabel?
  | conditional _ (jump label) => some label
  | wait (.condition _ timeoutLabel) => timeoutLabel
  | mixedLogicWait _ timeoutLabel => some timeoutLabel
  | _ => none

def Action.definition? : Action → Option Label
  | defineLabel label => some label
  | _ => none

def LabelNumber.direct? : LabelNumber → Option Nat
  | direct number _ => some number
  | indirect _ => none

/-- What an editor shows for a place of the program, and the part of the program it tells of. -/
structure Hover where
  text : String
  range : EditorRange
deriving DecidableEq

namespace Program

/-- Of several instructions on a line the first counts. -/
def instructionAt? (p : Program) (line : Nat) : Option Instruction :=
  p.instructions.find? (·.lineNumber == line)

/-- The first definition of a label by its number. -/
def definition? (p : Program) (number : Nat) : Option Label :=
  (p.instructions.filterMap (·.action.definition?)).find? (·.number.direct? == some number)

end Program

/-- The comment of a definition stands for the label; without one its number does. -/
def Label.describe (label : Label) : String :=
  let line := label.range.start.line
  match label.number with
  | .direct _ (some comment) => s!"{comment} (line {line})"
  | .direct number none => s!"LBL[{number}] (line {line})"
  | .indirect register => s!"LBL[R[{register}]] (line {line})"

/-- Where the instruction at the cursor refers to a label by number, tells of its definition. -/
def Program.hover? (p : Program) (cursor : EditorPosition) : Option Hover := do
  let instruction ← p.instructionAt? cursor.toSource.line
  let number ← (← instruction.action.reference?).number.direct?
  let definition ← p.definition? number
  return ⟨definition.describe, definition.range.toEditor⟩

end KarelKit.Pendant
