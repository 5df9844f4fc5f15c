import KarelKit.Declaration.DataType

namespace KarelKit

structure Field where
  name : String
  dataType : Located DataType
deriving DecidableEq

def Field.print (f : Field) : String := s!"{f.name} : {f.dataType.node.print}"

/-- What a declared type stands for. -/
inductive UserType
  | data (dataType : DataType)
  | record (fields : List (Located Field))
deriving DecidableEq

namespace UserType

/-- Fields are indented by four places wherever the structure itself stands. -/
def print : UserType → String
  | data dataType => dataType.print
  | record fields =>
    "STRUCTURE\n" ++ String.join (fields.map fun f => s!"    {f.node.print}\n") ++ "ENDSTRUCTURE"

end UserType

/-- A declared type; it may come from another program. -/
structure TypeDeclaration where
  name : String
  userType : Located UserType
  fromProgram : Option String
deriving DecidableEq

def TypeDeclaration.print (d : TypeDeclaration) : String :=
  match d.fromProgram with
  | none => s!"{d.name} = {d.userType.node.print}"
  | some program => s!"{d.name} FROM {program} = {d.userType.node.print}"

end KarelKit
