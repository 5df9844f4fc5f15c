import KarelKit.Command.Arguments
import KarelKit.Grammar.Parse
import KarelKit.Json.Printer
import KarelKit.Json.Reader
import KarelKit.Pendant.Encoding

namespace KarelKit.Command

/-- What a run leaves behind. -/
structure Report where
  code : Nat
  stdout : String
  stderr : String
deriving DecidableEq

namespace Report

def success (stdout : String) : Report := ⟨0, stdout, ""⟩

def failure (stderr : String) : Report := ⟨1, "", stderr⟩

end Report

/-- A message on a failure, which a quiet run leaves out. -/
def Invocation.complain (i : Invocation) (message : String) : Report :=
  .failure <|
    if i.quiet then ""
    else
      match i.output with
      | .text => message ++ "\n"
      | .json => (Json.object [("error", .string message)]).compact ++ "\n"

/-- A refused text is told of in JSON even by a quiet run. -/
def Invocation.refuse (i : Invocation) (file : String) (d : Diagnostic) : Report :=
  .failure <|
    match i.output with
    | .text => if i.quiet then "" else s!"{file}:{d.message}\n"
    | .json => (d.toJson file).pretty "" ++ "\n"

def Invocation.parseText (i : Invocation) (file source : String) : Report :=
  match parse .declarations source with
  | .error e => i.refuse file e.diagnostic
  | .ok tree =>
    .success <|
      match i.output with
      | .text => tree.print
      | .json => tree.toJson.pretty "" ++ "\n"

/-- Nothing to show is no failure. -/
def Invocation.showHover (i : Invocation) (hover : Option Pendant.Hover) : Report :=
  .success <|
    match i.output with
    | .text => (hover.map (·.text ++ "\n")).getD ""
    | .json => (Json.ofOption Pendant.Hover.toJson hover).pretty "" ++ "\n"

def Invocation.hoverText (i : Invocation) (file source : String) (cursor : EditorPosition) :
    Report :=
  match Pendant.Program.ofJson? =<< Json.read source with
  | none =>
    i.complain s!"error parsing TP program JSON in '{file}': not a teach pendant program"
  | some program => i.showHover (program.hover? cursor)

/-- The run on a file with the given text, or with a reason why there is none. -/
def Invocation.run (i : Invocation) (content : Except String String) : Report :=
  match content, i.task with
  | .error reason, task => i.complain s!"error reading file '{task.file}': {reason}"
  | .ok source, .parse file => i.parseText file source
  | .ok source, .hover file cursor => i.hoverText file source cursor

def usage : String :=
  "usage: robolang [--output text|json] [--quiet] parse FILE\n" ++
  "       robolang [--output text|json] [--quiet] hover FILE --line N [--character N]\n" ++
  "       robolang --version\n"

def Refusal.report : Refusal → Report
  | misuse => ⟨2, "", usage⟩
  | version => .success "robolang 0.1.0\n"
  | help => .success usage

/-- The text of a file; its bytes must be UTF-8. -/
def decodeText (bytes : ByteArray) : Except String String :=
  match String.fromUTF8? bytes with
  | some text => .ok text
  | none => .error "stream did not contain valid UTF-8"

end KarelKit.Command
