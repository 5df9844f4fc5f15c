import KarelKit.Declaration.Tree
import KarelKit.Token.Basic

namespace KarelKit

def Value.tokens : Value → List Token
  | integer value => [.integer value]
  | real literal => [.real literal]
  | string content => [.string content]
  | boolean true => [.word "TRUE"]
  | boolean false => [.word "FALSE"]
  | reference [] => []
  | reference (name :: path) => .word name :: path.flatMap fun n => [.mark .dot, .word n]

def Constant.tokens (c : Constant) : List Token :=
  .word c.name :: .mark .equals :: c.value.node.tokens

def ArraySize.token : ArraySize → Token
  | literal value => .integer value
  | named name => .word name

/-- What stands between the brackets of an array. -/
def ArraySize.listTokens : List ArraySize → List Token
  | [] => []
  | size :: sizes => size.token :: sizes.flatMap fun s => [.mark .comma, s.token]

def groupTokens (group : Nat) : List Token :=
  [.word "IN", .word "GROUP", .mark .leftBracket, .integer group, .mark .rightBracket]

def DataType.tokens : DataType → List Token
  | named name none => [.word name]
  | named name (some group) => .word name :: groupTokens group
  | string size => [.word "STRING", .mark .leftBracket, .integer size, .mark .rightBracket]
  | array sizes element _ =>
    .word "ARRAY" :: .mark .leftBracket :: (ArraySize.listTokens (sizes.map (·.node)) ++
      .mark .rightBracket :: .word "OF" :: element.tokens)
  | position name group => .word name :: groupTokens group
  | path none nodeData => [.word "PATH", .word "NODEDATA", .mark .equals, .word nodeData]
  | path (some header) nodeData => [.word "PATH", .word "PATHHEADER", .mark .equals, .word header,
      .mark .comma, .word "NODEDATA", .mark .equals, .word nodeData]

def Field.tokens (f : Field) : List Token :=
  .word f.name :: .mark .colon :: f.dataType.node.tokens

def UserType.tokens : UserType → List Token
  | data dataType => dataType.tokens
  | record fields =>
    .word "STRUCTURE" :: (fields.flatMap (·.node.tokens) ++ [.word "ENDSTRUCTURE"])

def TypeDeclaration.tokens (d : TypeDeclaration) : List Token :=
  match d.fromProgram with
  | none => .word d.name :: .mark .equals :: d.userType.node.tokens
  | some program =>
    .word d.name :: .word "FROM" :: .word program :: .mark .equals :: d.userType.node.tokens

/-- A header and what follows it, if there is anything to follow. -/
def sectionTokens {α : Type} (header : String) (items : List α) (tokens : α → List Token) :
    List Token :=
  if items.isEmpty then [] else .word header :: items.flatMap tokens

def Declarations.tokens (d : Declarations) : List Token :=
  sectionTokens "CONST" d.constants (·.node.tokens) ++ sectionTokens "TYPE" d.types (·.node.tokens)

def Tree.tokens : Tree → List Token
  | declarations tree => tree.tokens
  | typeDeclaration tree => tree.node.tokens
  | userType tree => tree.node.tokens
  | dataType tree => tree.node.tokens
  | constant tree => tree.node.tokens
  | value tree => tree.node.tokens

end KarelKit
