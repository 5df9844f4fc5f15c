import KarelKit.Source.Range

namespace KarelKit

/-- The size of an array in one dimension: a number, or the name of a constant. -/
inductive ArraySize
  | literal (value : Int)
  | named (name : String)
deriving DecidableEq

def ArraySize.print : ArraySize → String
  | literal value => toString value
  | named name => name

/-- The type of a field or of a declared name. An array without sizes is open. A motion group goes
with a predefined type's name, and with a position type of the program's own. -/
inductive DataType
  | named (name : String) (group : Option Nat)
  | string (size : Nat)
  | array (sizes : List (Located ArraySize)) (element : DataType) (elementRange : Range)
  | position (name : String) (group : Nat)
  | path (header : Option String) (nodeData : String)
deriving DecidableEq

namespace DataType

def print : DataType → String
  | named name none => name
  | named name (some group) => s!"{name} IN GROUP[{group}]"
  | string size => s!"STRING[{size}]"
  | array sizes element _ =>
    "ARRAY[" ++ ",".intercalate (sizes.map (·.node.print)) ++ "] OF " ++ element.print
  | position name group => s!"{name} IN GROUP[{group}]"
  | path none nodeData => s!"PATH NODEDATA = {nodeData}"
  | path (some header) nodeData => s!"PATH PATHHEADER = {header}, NODEDATA = {nodeData}"

end DataType

end KarelKit
