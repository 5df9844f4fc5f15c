import KarelKit.Declaration.Declarations
import KarelKit.Source.Encoding

namespace KarelKit

def Value.toJson : Value → Json
  | integer value => .object [("kind", .string "integer"), ("value", .integer value)]
  | real literal => .object [("kind", .string "real"), ("value", .string literal)]
  | string content => .object [("kind", .string "string"), ("value", .string content)]
  | boolean value => .object [("kind", .string "boolean"), ("value", .bool value)]
  | reference path => .object [("kind", .string "reference"), ("value", .array (path.map .string))]

def Constant.toJson (c : Constant) : Json :=
  .object [("identifier", .string c.name), ("value", c.value.toJson Value.toJson)]

def ArraySize.toJson : ArraySize → Json
  | literal value => .object [("kind", .string "literal"), ("value", .integer value)]
  | named name => .object [("kind", .string "named"), ("value", .string name)]

def DataType.toJson : DataType → Json
  | named name group => .object [("kind", .string "name"), ("identifier", .string name),
      ("group", .ofOption (fun group : Nat => .integer group) group)]
  | string size => .object [("kind", .string "string"), ("size", .integer size)]
  | array sizes element elementRange => .object [("kind", .string "array"),
      ("sizes", .array (sizes.map (·.toJson ArraySize.toJson))),
      ("element", .object [("node", element.toJson), ("range", elementRange.toJson)])]
  | position name group => .object [("kind", .string "position"), ("pos_type", .string name),
      ("group", .integer group)]
  | path header nodeData => .object [("kind", .string "path"),
      ("header", .ofOption .string header), ("node_data", .string nodeData)]

def Field.toJson (f : Field) : Json :=
  .object [("identifier", .string f.name), ("data_type", f.dataType.toJson DataType.toJson)]

def UserType.toJson : UserType → Json
  | data dataType => .object [("kind", .string "data"), ("data_type", dataType.toJson)]
  | record fields => .object [("kind", .string "structure"),
      ("fields", .array (fields.map (·.toJson Field.toJson)))]

def TypeDeclaration.toJson (d : TypeDeclaration) : Json :=
  .object [("identifier", .string d.name), ("user_type", d.userType.toJson UserType.toJson),
    ("from_program", .ofOption .string d.fromProgram)]

def Declarations.toJson (d : Declarations) : Json :=
  .object [("types", .array (d.types.map (·.toJson TypeDeclaration.toJson))),
    ("constants", .array (d.constants.map (·.toJson Constant.toJson)))]

end KarelKit
