import KarelKit.Rule.Basic

namespace KarelKit.Rule

variable {α : Type}

/-- A keyword, and comments after it. -/
def keyword (k : Keyword) : Rule Unit := do
  accept (.keyword k) fun t => if t.isKeyword k then some () else none
  skipComments

/-- A punctuation mark, and comments after it. -/
def mark (m : Mark) : Rule Unit := do
  accept (.mark m) fun t => if t = .mark m then some () else none
  skipComments

def name : Rule String := accept .name Token.name?

def typeName : Rule String := accept .typeName Token.typeName?

/-- An integer of 32 bits without sign. -/
def unsigned : Rule Nat :=
  accept .unsignedInteger fun
    | .integer (.ofNat n) => if n < 0x100000000 then some n else none
    | _ => none

def bracketed (r : Rule α) : Rule α := do
  mark .leftBracket
  let a ← r
  mark .rightBracket
  return a

end KarelKit.Rule
