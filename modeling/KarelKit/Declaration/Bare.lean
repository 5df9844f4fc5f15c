import KarelKit.Declaration.Declarations

namespace KarelKit

/-- The range that stands for no range. -/
def Range.erased : Range := ⟨⟨0, 0⟩, ⟨0, 0⟩⟩

def Located.bare {α : Type} (f : α → α) (x : Located α) : Located α := ⟨f x.node, .erased⟩

def Constant.bare (c : Constant) : Constant := { c with value := c.value.bare id }

def DataType.bare : DataType → DataType
  | array sizes element _ => .array (sizes.map (·.bare id)) element.bare .erased
  | t => t

def Field.bare (f : Field) : Field := { f with dataType := f.dataType.bare DataType.bare }

def UserType.bare : UserType → UserType
  | data dataType => .data dataType.bare
  | record fields => .record (fields.map (·.bare Field.bare))

def TypeDeclaration.bare (d : TypeDeclaration) : TypeDeclaration :=
  { d with userType := d.userType.bare UserType.bare }

def Declarations.bare (d : Declarations) : Declarations :=
  ⟨d.types.map (·.bare TypeDeclaration.bare), d.constants.map (·.bare Constant.bare)⟩

end KarelKit
