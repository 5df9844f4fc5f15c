namespace KarelKit

/-- A JSON value; an object keeps its fields in the order written, also two of one name. A number
that is written with a fraction or an exponent, or as `-0`, keeps its literal. -/
inductive Json
  | null
  | bool (value : Bool)
  | integer (value : Int)
  | decimal (literal : String)
  | string (value : String)
  | array (items : List Json)
  | object (fields : List (String × Json))
  /-- What is written by the rules and has no value: text with half of a surrogate pair, or a
  number beyond the range of binary64. -/
  | valueless

namespace Json

/-- All fields of a name. -/
def fieldsNamed (name : String) : Json → List Json
  | object fields => (fields.filter (·.1 == name)).map (·.2)
  | _ => []

/-- The only field of a name. -/
def field? (name : String) (j : Json) : Option Json :=
  match j.fieldsNamed name with
  | [value] => some value
  | _ => none

/-- The only field of a name, or `null` if there is none. -/
def fieldOrNull? (name : String) (j : Json) : Option Json :=
  match j.fieldsNamed name with
  | [] => some null
  | [value] => some value
  | _ => none

def string? : Json → Option String
  | string value => some value
  | _ => none

/-- A number of 32 bits without sign. -/
def word? : Json → Option Nat
  | integer (.ofNat n) => if n < 0x100000000 then some n else none
  | _ => none

def array? : Json → Option (List Json)
  | array items => some items
  | _ => none

def nullable {α : Type} (read : Json → Option α) : Json → Option (Option α)
  | null => some none
  | j => some <$> read j

def ofOption {α : Type} (write : α → Json) : Option α → Json
  | none => null
  | some a => write a

theorem sizeOf_lt_of_field? {name : String} {j value : Json} (h : j.field? name = some value) :
    sizeOf value < sizeOf j := by
  have hmem : value ∈ j.fieldsNamed name := by
    simp only [field?] at h
    split at h
    · simp_all
    · simp at h
  cases j <;> simp only [fieldsNamed, List.not_mem_nil] at hmem
  obtain ⟨⟨key, _⟩, hfield, rfl⟩ := List.mem_map.mp hmem
  have := List.sizeOf_lt_of_mem (List.mem_filter.mp hfield).1
  simp only [Prod.mk.sizeOf_spec, object.sizeOf_spec] at *
  omega

mutual

/-- Whether every part has a value. -/
def hasValue : Json → Bool
  | valueless => false
  | array items => allHaveValue items
  | object fields => fieldsHaveValue fields
  | _ => true

def allHaveValue : List Json → Bool
  | [] => true
  | item :: items => item.hasValue && allHaveValue items

def fieldsHaveValue : List (String × Json) → Bool
  | [] => true
  | (_, value) :: fields => value.hasValue && fieldsHaveValue fields

end

end Json

end KarelKit
