import KarelKit.Error.Diagnostic
import KarelKit.Token.Word

namespace KarelKit

/-- What a text should have held where reading it stopped. The last three are expectations on
characters, all others on tokens. -/
inductive Expectation
  | keyword (k : Keyword)
  | mark (m : Mark)
  | name
  | typeName
  | positionType
  | arraySize
  | unsignedInteger
  | number
  | string
  | boolean
  | endOfInput
  | token
  | closingQuote
  | integerInRange
deriving DecidableEq

def Expectation.describe : Expectation → String
  | keyword k => s!"'{k.spelling}'"
  | mark m => m.describe
  | name => "identifier"
  | typeName => "type name"
  | positionType => "position type"
  | arraySize => "array size"
  | unsignedInteger => "unsigned integer"
  | number => "number"
  | string => "string"
  | boolean => "boolean"
  | endOfInput => "end of input"
  | token => "token"
  | closingQuote => "closing quote"
  | integerInRange => "integer in range"

/-- What a text held instead. -/
inductive Found
  | token (t : Token)
  | endOfInput
  | endOfLine
  | character (c : Char)
  | literal (text : String)
deriving DecidableEq

def Found.describe : Found → String
  | token t => t.describe
  | endOfInput => "end of input"
  | endOfLine => "end of line"
  | character c => s!"'{c}'"
  | literal text => s!"'{text}'"

/-- Why a text is refused. Several expectations are listed in the order they were tried. -/
structure ParseError where
  position : Position
  expected : List Expectation
  found : Found
deriving DecidableEq

def ParseError.diagnostic (e : ParseError) : Diagnostic :=
  ⟨e.position, e.expected.map Expectation.describe, e.found.describe⟩

end KarelKit
