import KarelKit.Grammar.Parse
import KarelKit.Proofs.Walk.Basic

namespace KarelKit

namespace Walk

def name : Walk String := accept .name Token.name?

def typeName : Walk String := accept .typeName Token.typeName?

def unsigned : Walk Nat :=
  accept .unsignedInteger fun
    | .integer (.ofNat n) => if n < 0x100000000 then some n else none
    | _ => none

def number : Walk Value :=
  accept .number fun
    | .integer value => some (.integer value)
    | .real literal => some (.real literal)
    | _ => none

def quoted : Walk Value :=
  accept .string fun
    | .string content => some (.string content)
    | _ => none

def boolean : Walk Value :=
  accept .boolean fun t =>
    if t.isKeyword .TRUE then some (.boolean true)
    else if t.isKeyword .FALSE then some (.boolean false)
    else none

def reference : Walk Value := do
  let first ← name
  return .reference (← continued .dot name [first])

def value : Walk Value := choice [number, quoted, boolean, reference]

def constant : Walk Constant := do
  let name ← name
  mark .equals
  return ⟨name, ← located value⟩

def group : Walk Nat := do
  keyword .IN
  keyword .GROUP
  bracketed unsigned

def stringType : Walk DataType := do
  keyword .STRING
  return .string (← bracketed unsigned)

def arraySize : Walk ArraySize :=
  accept .arraySize fun
    | .integer value => some (.literal value)
    | t => t.name?.map .named

def arrayType (element : Walk DataType) : Walk DataType := do
  keyword .ARRAY
  let sizes ← optional (bracketed (separated (located arraySize) .comma))
  keyword .OF
  let element ← located element
  return .array (sizes.getD []) element.node element.range

/-- The only rule that looks further than to the next token. -/
def positionType : Walk DataType := do
  let first ← look
  let second ← ahead 1
  let third ← ahead 2
  if (first.node.bind Token.name?).isSome && second.any (·.isKeyword .IN) &&
      third.any (·.isKeyword .GROUP) then
    let name ← name
    return .position name (← group)
  else unexpected [.positionType]

def pathHeader : Walk String := do
  keyword .PATHHEADER
  mark .equals
  let header ← name
  mark .comma
  return header

def pathType : Walk DataType := do
  keyword .PATH
  let header ← optional pathHeader
  keyword .NODEDATA
  mark .equals
  return .path header (← name)

def namedType : Walk DataType := do
  let name ← typeName
  return .named name (← optional group)

/-- Data types with elements of an array read in a way of their own. -/
def dataTypeOf (element : Walk DataType) : Walk DataType :=
  choice [stringType, arrayType element, positionType, pathType, namedType]

/-- The runs in which the rule refers to itself fewer than `depth` times. -/
def dataTypeTo : Nat → Walk DataType
  | 0 => fun _ _ _ => False
  | depth + 1 => dataTypeOf (dataTypeTo depth)

def dataType : Walk DataType := fun text w run => ∃ depth, dataTypeTo depth text w run

def field : Walk Field := do
  let name ← name
  mark .colon
  return ⟨name, ← located dataType⟩

def recordType : Walk UserType := do
  keyword .STRUCTURE
  let fields ← atLeastOne (amidComments (located field))
  keyword .ENDSTRUCTURE
  return .record fields

def userType : Walk UserType :=
  choice [recordType, do return .data (← dataType)]

def typeDeclaration : Walk TypeDeclaration := do
  let name ← name
  let fromProgram ← optional do keyword .FROM; Walk.name
  mark .equals
  return ⟨name, ← located userType, fromProgram⟩

def declarations : Walk Declarations :=
  loop (fun d => do
    passComments
    let next := (← look).node
    if next.any (·.isKeyword .TYPE) then
      keyword .TYPE
      let types ← many (amidComments (located typeDeclaration))
      return .inl (d ++ ⟨types, []⟩)
    else if next.any (·.isKeyword .CONST) then
      keyword .CONST
      let constants ← many (amidComments (located constant))
      return .inl (d ++ ⟨[], constants⟩)
    else if next = none then return .inr d
    else unexpected [.keyword .TYPE, .keyword .CONST, .endOfInput]) ∅

end Walk

open Walk in
def Entry.walk : Entry → Walk Tree
  | declarations => do return .declarations (← Walk.declarations)
  | typeDeclaration => do return .typeDeclaration (← located Walk.typeDeclaration)
  | userType => do return .userType (← located Walk.userType)
  | dataType => do return .dataType (← located Walk.dataType)
  | constant => do return .constant (← located Walk.constant)
  | value => do return .value (← located Walk.value)

end KarelKit
