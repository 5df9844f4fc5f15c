import KarelKit.Declaration.DataType
import KarelKit.Rule.Lexical

namespace KarelKit.Grammar
open Rule

/-- A motion group, as in `IN GROUP[1]`. -/
def group : Rule Nat := do
  keyword .IN
  keyword .GROUP
  bracketed unsigned

def stringType : Rule DataType := do
  keyword .STRING
  return .string (← bracketed unsigned)

def arraySize : Rule ArraySize :=
  accept .arraySize fun
    | .integer value => some (.literal value)
    | t => t.name?.map .named

def arrayType (element : Rule DataType) : Rule DataType := do
  keyword .ARRAY
  let sizes ← optional (bracketed (separated (located arraySize) (mark .comma)))
  keyword .OF
  let element ← located element
  return .array (sizes.getD []) element.node element.range

/-- Whether a name with a motion group stands first, with no comment inside. -/
def namesPosition : List Lexeme → Bool
  | first :: second :: third :: _ =>
    first.node.name?.isSome && second.node.isKeyword .IN && third.node.isKeyword .GROUP
  | _ => false

def positionType : Rule DataType := do
  lookahead [.positionType] namesPosition
  let name ← name
  return .position name (← group)

def pathHeader : Rule String := do
  keyword .PATHHEADER
  mark .equals
  let header ← name
  mark .comma
  return header

def pathType : Rule DataType := do
  keyword .PATH
  let header ← optional pathHeader
  keyword .NODEDATA
  mark .equals
  return .path header (← name)

def namedType : Rule DataType := do
  let name ← typeName
  return .named name (← optional group)

/-- A position type is tried before a plain name, which begins in the same way. -/
def dataType : Rule DataType :=
  recursive fun dataType =>
    stringType <|> arrayType dataType <|> positionType <|> pathType <|> namedType

end KarelKit.Grammar
