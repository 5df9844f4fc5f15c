import KarelKit.Declaration.Tree
import KarelKit.Token.Word

namespace KarelKit

variable {α : Type}

/-- `{ x }`, where `x` is derived by `item`. -/
inductive Repeats (item : List Token → α → Prop) : List Token → List α → Prop
  | nil : Repeats item [] []
  | cons {tokens rest : List Token} {a : α} {items : List α} (head : item tokens a)
    (tail : Repeats item rest items) : Repeats item (tokens ++ rest) (a :: items)

/-- A tree that has no range. -/
def Located.unplaced (a : α) : Located α := ⟨a, .erased⟩

/-- `'.' id` -/
inductive DerivesComponent : List Token → String → Prop
  | mk {name : String} (hname : isReserved name = false) :
    DerivesComponent [.mark .dot, .word name] name

inductive Value.Derives : List Token → Value → Prop
  | integer (value : Int) : Derives [.integer value] (.integer value)
  | real (literal : String) : Derives [.real literal] (.real literal)
  | string (content : String) : Derives [.string content] (.string content)
  | true {w : String} (hw : isKeyword .TRUE w = true) : Derives [.word w] (.boolean true)
  | false {w : String} (hw : isKeyword .FALSE w = true) : Derives [.word w] (.boolean false)
  | reference {name : String} {tokens : List Token} {path : List String}
    (hname : isReserved name = false) (hpath : Repeats DerivesComponent tokens path) :
    Derives (.word name :: tokens) (.reference (name :: path))

/-- `id '=' value` -/
inductive Constant.Derives : List Token → Constant → Prop
  | mk {name : String} {tokens : List Token} {value : Value} (hname : isReserved name = false)
    (hvalue : value.Derives tokens) :
    Derives (.word name :: .mark .equals :: tokens) ⟨name, .unplaced value⟩

/-- `IN GROUP '[' u32 ']'` -/
inductive DerivesGroup : List Token → Nat → Prop
  | mk {w w' : String} {n : Nat} (hw : isKeyword .IN w = true) (hw' : isKeyword .GROUP w' = true)
    (hn : n < 0x100000000) : DerivesGroup
      [.word w, .word w', .mark .leftBracket, .integer n, .mark .rightBracket] n

inductive ArraySize.Derives : Token → ArraySize → Prop
  | literal (value : Int) : Derives (.integer value) (.literal value)
  | named {name : String} (hname : isReserved name = false) : Derives (.word name) (.named name)

/-- `',' size` -/
inductive DerivesNextSize : List Token → ArraySize → Prop
  | mk {t : Token} {size : ArraySize} (hsize : size.Derives t) :
    DerivesNextSize [.mark .comma, t] size

/-- `['[' [size {',' size}] ']']` -/
inductive DerivesSizes : List Token → List ArraySize → Prop
  | omitted : DerivesSizes [] []
  | empty : DerivesSizes [.mark .leftBracket, .mark .rightBracket] []
  | listed {t : Token} {size : ArraySize} {tokens : List Token} {sizes : List ArraySize}
    (hsize : size.Derives t) (hsizes : Repeats DerivesNextSize tokens sizes) :
    DerivesSizes (.mark .leftBracket :: t :: (tokens ++ [.mark .rightBracket]))
      (size :: sizes)

/-- `[PATHHEADER '=' id ',']` -/
inductive DerivesHeader : List Token → Option String → Prop
  | none : DerivesHeader [] none
  | some {w name : String} (hw : isKeyword .PATHHEADER w = true)
    (hname : isReserved name = false) :
    DerivesHeader [.word w, .mark .equals, .word name, .mark .comma] (some name)

inductive DataType.Derives : List Token → DataType → Prop
  | string {w : String} {n : Nat} (hw : isKeyword .STRING w = true) (hn : n < 0x100000000) :
    Derives [.word w, .mark .leftBracket, .integer n, .mark .rightBracket] (.string n)
  | array {w w' : String} {tokens rest : List Token} {sizes : List ArraySize}
    {element : DataType} (hw : isKeyword .ARRAY w = true) (hsizes : DerivesSizes tokens sizes)
    (hw' : isKeyword .OF w' = true) (helement : Derives rest element) :
    Derives (.word w :: (tokens ++ .word w' :: rest)) (.array (sizes.map .unplaced) element .erased)
  | position {name : String} {tokens : List Token} {group : Nat}
    (hname : isReserved name = false) (hgroup : DerivesGroup tokens group) :
    Derives (.word name :: tokens) (.position name group)
  | path {w w' name : String} {tokens : List Token} {header : Option String}
    (hw : isKeyword .PATH w = true) (hheader : DerivesHeader tokens header)
    (hw' : isKeyword .NODEDATA w' = true) (hname : isReserved name = false) :
    Derives (.word w :: (tokens ++ [.word w', .mark .equals, .word name])) (.path header name)
  | named {name : String} (hname : isReserved name = false ∨ isBuiltinType name = true) :
    Derives [.word name] (.named name none)
  | predefined {name : String} {tokens : List Token} {group : Nat}
    (hname : isBuiltinType name = true) (hgroup : DerivesGroup tokens group) :
    Derives (.word name :: tokens) (.named name (some group))

/-- `id ':' data_type` -/
inductive Field.Derives : List Token → Field → Prop
  | mk {name : String} {tokens : List Token} {dataType : DataType}
    (hname : isReserved name = false) (htype : dataType.Derives tokens) :
    Derives (.word name :: .mark .colon :: tokens) ⟨name, .unplaced dataType⟩

inductive UserType.Derives : List Token → UserType → Prop
  | record {w w' : String} {tokens : List Token} {fields : List Field}
    (hw : isKeyword .STRUCTURE w = true) (hfields : Repeats Field.Derives tokens fields)
    (hne : fields ≠ []) (hw' : isKeyword .ENDSTRUCTURE w' = true) :
    Derives (.word w :: (tokens ++ [.word w'])) (.record (fields.map .unplaced))
  | data {tokens : List Token} {dataType : DataType} (htype : dataType.Derives tokens) :
    Derives tokens (.data dataType)

/-- `[FROM id]` -/
inductive DerivesFrom : List Token → Option String → Prop
  | none : DerivesFrom [] none
  | some {w name : String} (hw : isKeyword .FROM w = true) (hname : isReserved name = false) :
    DerivesFrom [.word w, .word name] (some name)

/-- `id [FROM id] '=' user_type` -/
inductive TypeDeclaration.Derives : List Token → TypeDeclaration → Prop
  | mk {name : String} {tokens rest : List Token} {fromProgram : Option String}
    {userType : UserType} (hname : isReserved name = false)
    (hfrom : DerivesFrom tokens fromProgram) (htype : userType.Derives rest) :
    Derives (.word name :: (tokens ++ .mark .equals :: rest))
      ⟨name, .unplaced userType, fromProgram⟩

/-- `{ TYPE { type_declaration } | CONST { constant } }` -/
inductive Declarations.Derives : List Token → Declarations → Prop
  | nil : Derives [] ∅
  | types {w : String} {tokens rest : List Token} {types : List TypeDeclaration}
    {d : Declarations} (hw : isKeyword .TYPE w = true)
    (htypes : Repeats TypeDeclaration.Derives tokens types)
    (tail : Derives rest d) :
    Derives (.word w :: (tokens ++ rest)) (⟨types.map .unplaced, []⟩ ++ d)
  | constants {w : String} {tokens rest : List Token} {constants : List Constant}
    {d : Declarations} (hw : isKeyword .CONST w = true)
    (hconstants : Repeats Constant.Derives tokens constants)
    (tail : Derives rest d) :
    Derives (.word w :: (tokens ++ rest)) (⟨[], constants.map .unplaced⟩ ++ d)

/-- What an entry derives by the documented grammar, the whole text. Comments and ranges have no
part in it. -/
inductive Entry.Derives : Entry → List Token → Tree → Prop
  | declarations {tokens : List Token} {tree : Declarations} (h : tree.Derives tokens) :
    Derives .declarations tokens (.declarations tree)
  | typeDeclaration {tokens : List Token} {tree : TypeDeclaration} (h : tree.Derives tokens) :
    Derives .typeDeclaration tokens (.typeDeclaration (.unplaced tree))
  | userType {tokens : List Token} {tree : UserType} (h : tree.Derives tokens) :
    Derives .userType tokens (.userType (.unplaced tree))
  | dataType {tokens : List Token} {tree : DataType} (h : tree.Derives tokens) :
    Derives .dataType tokens (.dataType (.unplaced tree))
  | constant {tokens : List Token} {tree : Constant} (h : tree.Derives tokens) :
    Derives .constant tokens (.constant (.unplaced tree))
  | value {tokens : List Token} {tree : Value} (h : tree.Derives tokens) :
    Derives .value tokens (.value (.unplaced tree))

end KarelKit
