import KarelKit.Source.Range

namespace KarelKit

/-- A value as written; a real keeps its literal. A reference names a constant, or a field of one
by the names along its path. -/
inductive Value
  | integer (value : Int)
  | real (literal : String)
  | string (content : String)
  | boolean (value : Bool)
  | reference (path : List String)
deriving DecidableEq

def Value.print : Value → String
  | integer value => toString value
  | real literal => literal
  | string content => s!"'{content}'"
  | boolean true => "TRUE"
  | boolean false => "FALSE"
  | reference path => ".".intercalate path

structure Constant where
  name : String
  value : Located Value
deriving DecidableEq

def Constant.print (c : Constant) : String := s!"{c.name} = {c.value.node.print}"

end KarelKit
