import KarelKit.Source.Range

namespace KarelKit.Pendant

/-- The number of a label: given directly, perhaps with a comment, or held by a register. -/
inductive LabelNumber
  | direct (number : Nat) (comment : Option String)
  | indirect (register : Nat)
deriving DecidableEq

/-- A label where it is defined or referred to. -/
structure Label where
  number : LabelNumber
  range : Range
deriving DecidableEq

inductive MotionType
  | joint
  | linear
  | circular
  | circularArc
deriving DecidableEq

inductive MotionOption
  | skip (label : Label)
  | skipJump (label : Label) (register : String)
  | acceleration (percent : Nat)
  | offset (register : Option String)
  | toolOffset (register : Option String)
  | other (text : String)
deriving DecidableEq

structure Motion where
  motionType : MotionType
  position : String
  speed : String
  termination : String
  options : List MotionOption
deriving DecidableEq

inductive Wait
  | time (seconds : String)
  | condition (condition : String) (timeoutLabel : Option Label)
deriving DecidableEq

/-- What an instruction does. -/
inductive Action
  | jump (label : Label)
  | motion (motion : Motion)
  | conditional (condition : String) (action : Action)
  | wait (wait : Wait)
  | mixedLogicWait (condition : String) (timeoutLabel : Label)
  | defineLabel (label : Label)
  | call (program : String)
  | assignment (text : String)
  | comment (text : String)
  | stop
deriving DecidableEq

/-- An instruction and the line of the program that it begins on. -/
structure Instruction where
  lineNumber : Nat
  action : Action
deriving DecidableEq

/-- A program written at the teach pendant, as far as its labels matter. Conditions, speeds and the
like are kept as text. -/
structure Program where
  name : String
  instructions : List Instruction
deriving DecidableEq

end KarelKit.Pendant
