import KarelKit.Declaration.Value
import KarelKit.Rule.Lexical

namespace KarelKit.Grammar
open Rule

def number : Rule Value :=
  accept .number fun
    | .integer value => some (.integer value)
    | .real literal => some (.real literal)
    | _ => none

def quoted : Rule Value :=
  accept .string fun
    | .string content => some (.string content)
    | _ => none

def boolean : Rule Value :=
  accept .boolean fun t =>
    if t.isKeyword .TRUE then some (.boolean true)
    else if t.isKeyword .FALSE then some (.boolean false)
    else none

def reference : Rule Value := do
  let first ← name
  return .reference (first :: (← many do mark .dot; name))

def value : Rule Value := number <|> quoted <|> boolean <|> reference

def constant : Rule Constant := do
  let name ← name
  mark .equals
  return ⟨name, ← located value⟩

end KarelKit.Grammar
