import KarelKit.Declaration.Declarations
import KarelKit.Grammar.DataType
import KarelKit.Grammar.Value

namespace KarelKit.Grammar
open Rule

/-- An item that comments may follow. -/
def item {α : Type} (r : Rule α) : Rule (Located α) := do
  let item ← located r
  skipComments
  return item

def field : Rule Field := do
  let name ← name
  mark .colon
  return ⟨name, ← located dataType⟩

def recordType : Rule UserType := do
  keyword .STRUCTURE
  let fields ← atLeastOne (item field)
  keyword .ENDSTRUCTURE
  return .record fields

def userType : Rule UserType :=
  recordType <|> do return .data (← dataType)

def typeDeclaration : Rule TypeDeclaration := do
  let name ← name
  let fromProgram ← optional do keyword .FROM; Rule.name
  mark .equals
  return ⟨name, ← located userType, fromProgram⟩

def typeSection : Rule Declarations := do
  keyword .TYPE
  return ⟨← many (item typeDeclaration), []⟩

def constantSection : Rule Declarations := do
  keyword .CONST
  return ⟨[], ← many (item constant)⟩

/-- Sections in any order and number, up to the end of the text. -/
def declarations : Rule Declarations := do
  let sections ← many (typeSection <|> constantSection)
  lookahead [.keyword .TYPE, .keyword .CONST, .endOfInput] List.isEmpty
  return .join sections

end KarelKit.Grammar
