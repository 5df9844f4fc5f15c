import KarelKit.Source.EditorPosition

namespace KarelKit.Command

inductive OutputFormat
  | text
  | json
deriving DecidableEq

def OutputFormat.ofName? : String → Option OutputFormat
  | "text" => some text
  | "json" => some json
  | _ => none

/-- What is to be done, and the file to do it to. -/
inductive Task
  | parse (file : String)
  | hover (file : String) (cursor : EditorPosition)
deriving DecidableEq

def Task.file : Task → String
  | parse file => file
  | hover file _ => file

structure Invocation where
  task : Task
  output : OutputFormat
  quiet : Bool
deriving DecidableEq

/-- Why arguments ask for no task. -/
inductive Refusal
  | misuse
  | version
  | help
deriving DecidableEq

/-- The form of one argument. -/
inductive Argument
  /-- Neither an option nor the divider; a single dash and the empty text are plain too. -/
  | plain (text : String)
  /-- As in `--name`, or in `--name=value`. -/
  | option (name : String) (value : Option String)
  /-- As in `-V`. -/
  | short (letter : Char)
  /-- `--`, after which all arguments are plain. -/
  | divider

def Argument.ofString (argument : String) : Argument :=
  match argument.toList with
  | ['-', '-'] => .divider
  | '-' :: '-' :: text =>
    let name := text.takeWhile (· != '=')
    let value := if name.length < text.length then some (text.drop (name.length + 1)) else none
    .option (String.ofList name) (value.map String.ofList)
  | '-' :: letter :: _ => .short letter
  | _ => .plain argument

/-- A number of 32 bits without sign in decimal digits; a sign may be written. -/
def word? (text : String) : Option Nat :=
  let (negative, digits) :=
    match text.toList with
    | '-' :: digits => (true, digits)
    | '+' :: digits => (false, digits)
    | digits => (false, digits)
  let value := Nat.ofDigitChars 10 digits 0
  if digits ≠ [] ∧ digits.all Char.isDigit ∧ value < 0x100000000 ∧ (negative → value = 0) then
    some value
  else none

/-- Where in the arguments an option stands: before the name of the task, or after it. -/
inductive Level
  | top
  | parse
  | hover
deriving DecidableEq

/-- What the arguments of one level have given so far. -/
structure Given where
  output : Option OutputFormat
  quiet : Bool
  line : Option Nat
  character : Option Nat
  file : Option String

def Given.nothing : Given := ⟨none, false, none, none, none⟩

/-- Gives a value that must not be given yet. -/
def setOnce {α : Type} (old new : Option α) : Except Refusal (Option α) :=
  match old, new with
  | none, some a => .ok (some a)
  | _, _ => .error .misuse

namespace Given

/-- An option with a value. -/
def set (g : Given) (level : Level) (name value : String) : Except Refusal Given := do
  match level, name with
  | _, "output" => return { g with output := ← setOnce g.output (OutputFormat.ofName? value) }
  | .hover, "line" => return { g with line := ← setOnce g.line (word? value) }
  | .hover, "character" => return { g with character := ← setOnce g.character (word? value) }
  | _, _ => .error .misuse

/-- Whether an option takes no value. -/
def isSwitch (name : String) : Bool := name == "quiet" || name == "version" || name == "help"

/-- An option without a value. -/
def switch (g : Given) (level : Level) (name : String) : Except Refusal Given :=
  match level, name with
  | .top, "version" => .error .version
  | _, "help" => .error .help
  | _, "quiet" => if g.quiet then .error .misuse else .ok { g with quiet := true }
  | _, _ => .error .misuse

def setFile (g : Given) (file : String) : Except Refusal Given := do
  return { g with file := ← setOnce g.file (if file = "" then none else some file) }

end Given

def readLetter {α : Type} (level : Level) (letter : Char) : Except Refusal α :=
  match level, letter with
  | .top, 'V' => .error .version
  | _, 'h' => .error .help
  | _, _ => .error .misuse

/-- The value of an option that stands in an argument of its own. -/
def separateValue (argument : String) : Except Refusal String :=
  match Argument.ofString argument with
  | .plain value => .ok value
  | _ => .error .misuse

/-- The arguments after the name of a task. -/
def readTask (level : Level) (g : Given) : List String → Except Refusal Given
  | [] => .ok g
  | argument :: rest => do
    match Argument.ofString argument with
    | .plain file => readTask level (← g.setFile file) rest
    | .divider => rest.foldlM Given.setFile g
    | .short letter => readLetter level letter
    | .option name (some value) => readTask level (← g.set level name value) rest
    | .option name none =>
      if Given.isSwitch name then readTask level (← g.switch level name) rest
      else
        match rest with
        | [] => .error .misuse
        | value :: rest => readTask level (← g.set level name (← separateValue value)) rest

/-- The task that the arguments after its name ask for. -/
def Given.task (g : Given) : Level → Except Refusal Task
  | .top => .error .misuse
  | .parse =>
    match g.file with
    | some file => .ok (.parse file)
    | none => .error .misuse
  | .hover =>
    match g.file, g.line with
    | some file, some line => .ok (.hover file ⟨line, g.character.getD 0⟩)
    | _, _ => .error .misuse

/-- An option after the name of the task counts for more than one before it. -/
def invocation (top : Given) (level : Level) (arguments : List String) :
    Except Refusal Invocation := do
  let g ← readTask level .nothing arguments
  return ⟨← g.task level, (g.output <|> top.output).getD .text, g.quiet || top.quiet⟩

/-- What help can be asked about. -/
def isTopic (name : String) : Bool := name == "parse" || name == "hover" || name == "help"

/-- The arguments after `help`: none, or one topic. -/
def readHelp {α : Type} : List String → Except Refusal α
  | [] => .error .help
  | [topic] => .error (if isTopic topic then .help else .misuse)
  | _ => .error .misuse

def readTop (g : Given) : List String → Except Refusal Invocation
  | [] => .error .misuse
  | argument :: rest => do
    match Argument.ofString argument with
    | .plain "parse" => invocation g .parse rest
    | .plain "hover" => invocation g .hover rest
    | .plain "help" => readHelp rest
    | .plain _ => .error .misuse
    | .divider => .error .misuse
    | .short letter => readLetter .top letter
    | .option name (some value) => readTop (← g.set .top name value) rest
    | .option name none =>
      if Given.isSwitch name then readTop (← g.switch .top name) rest
      else
        match rest with
        | [] => .error .misuse
        | value :: rest => readTop (← g.set .top name (← separateValue value)) rest

/-- Arguments are read from left to right, so that the first refusal wins. -/
def Invocation.ofArguments (arguments : List String) : Except Refusal Invocation :=
  readTop .nothing arguments

end KarelKit.Command
