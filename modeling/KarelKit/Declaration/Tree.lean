import KarelKit.Declaration.Bare
import KarelKit.Declaration.Encoding

namespace KarelKit

/-- The rules by which a whole text can be read. -/
inductive Entry
  | declarations
  | typeDeclaration
  | userType
  | dataType
  | constant
  | value
deriving DecidableEq

/-- What a whole text can be read as. -/
inductive Tree
  | declarations (tree : Declarations)
  | typeDeclaration (tree : Located TypeDeclaration)
  | userType (tree : Located UserType)
  | dataType (tree : Located DataType)
  | constant (tree : Located Constant)
  | value (tree : Located Value)
deriving DecidableEq

namespace Tree

def entry : Tree → Entry
  | declarations _ => .declarations
  | typeDeclaration _ => .typeDeclaration
  | userType _ => .userType
  | dataType _ => .dataType
  | constant _ => .constant
  | value _ => .value

/-- The canonical text. -/
def print : Tree → String
  | declarations tree => tree.print
  | typeDeclaration tree => tree.node.print
  | userType tree => tree.node.print
  | dataType tree => tree.node.print
  | constant tree => tree.node.print
  | value tree => tree.node.print

def toJson : Tree → Json
  | declarations tree => tree.toJson
  | typeDeclaration tree => tree.toJson TypeDeclaration.toJson
  | userType tree => tree.toJson UserType.toJson
  | dataType tree => tree.toJson DataType.toJson
  | constant tree => tree.toJson Constant.toJson
  | value tree => tree.toJson Value.toJson

def bare : Tree → Tree
  | declarations tree => .declarations tree.bare
  | typeDeclaration tree => .typeDeclaration (tree.bare TypeDeclaration.bare)
  | userType tree => .userType (tree.bare UserType.bare)
  | dataType tree => .dataType (tree.bare DataType.bare)
  | constant tree => .constant (tree.bare Constant.bare)
  | value tree => .value (tree.bare id)

/-- Equality apart from ranges. -/
def same (t u : Tree) : Bool := t.bare = u.bare

end Tree

end KarelKit
