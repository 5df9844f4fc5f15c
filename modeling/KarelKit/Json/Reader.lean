import KarelKit.Json.Basic
import KarelKit.Json.Binary64

namespace KarelKit.Json

def isBlank (c : Char) : Bool := c == ' ' || c == '\t' || c == '\n' || c == '\r'

def skipBlank (text : List Char) : List Char := text.dropWhile isBlank

/-- A character of a string as written: itself, or a code unit of UTF-16 written in hexadecimal. -/
inductive Piece
  | char (c : Char)
  | unit (code : Nat)

def hexDigit? (c : Char) : Option Nat :=
  if c.isDigit then some (c.toNat - '0'.toNat)
  else if 'a' ≤ c ∧ c ≤ 'f' then some (c.toNat - 'a'.toNat + 10)
  else if 'A' ≤ c ∧ c ≤ 'F' then some (c.toNat - 'A'.toNat + 10)
  else none

def hexUnit? (a b c d : Char) : Option Nat := do
  return (((← hexDigit? a) * 16 + (← hexDigit? b)) * 16 + (← hexDigit? c)) * 16 + (← hexDigit? d)

/-- The character that stands for itself, or for a control character, after a backslash. -/
def unescape? (c : Char) : Option Char :=
  match c with
  | '"' => some '"'
  | '\\' => some '\\'
  | '/' => some '/'
  | 'b' => some '\x08'
  | 'f' => some '\x0c'
  | 'n' => some '\n'
  | 'r' => some '\r'
  | 't' => some '\t'
  | _ => none

/-- The rest of a string whose opening quote is read, up to its closing quote. -/
def readPieces : List Char → Option (List Piece × List Char)
  | [] => none
  | '"' :: text => some ([], text)
  | '\\' :: 'u' :: a :: b :: c :: d :: text => do
    let code ← hexUnit? a b c d
    let (pieces, rest) ← readPieces text
    return (.unit code :: pieces, rest)
  | '\\' :: c :: text => do
    let c ← unescape? c
    let (pieces, rest) ← readPieces text
    return (.char c :: pieces, rest)
  | c :: text => do
    if c.toNat < 0x20 then none
    let (pieces, rest) ← readPieces text
    return (.char c :: pieces, rest)

def isHighSurrogate (code : Nat) : Bool := 0xd800 ≤ code && code < 0xdc00

def isLowSurrogate (code : Nat) : Bool := 0xdc00 ≤ code && code < 0xe000

/-- The text that pieces stand for. Half of a surrogate pair stands for nothing. -/
def joinPieces? : List Piece → Option (List Char)
  | [] => some []
  | .char c :: pieces => (c :: ·) <$> joinPieces? pieces
  | .unit high :: .unit low :: pieces =>
    if isHighSurrogate high then
      if isLowSurrogate low then
        (Char.ofNat (0x10000 + (high - 0xd800) * 0x400 + (low - 0xdc00)) :: ·) <$>
          joinPieces? pieces
      else none
    else if isLowSurrogate high then none
    else (Char.ofNat high :: ·) <$> joinPieces? (.unit low :: pieces)
  | .unit code :: pieces =>
    if isHighSurrogate code || isLowSurrogate code then none
    else (Char.ofNat code :: ·) <$> joinPieces? pieces

/-- The rest of a string whose opening quote is read; it may have no value. -/
def readString (text : List Char) : Option (Option String × List Char) := do
  let (pieces, rest) ← readPieces text
  return (String.ofList <$> joinPieces? pieces, rest)

def ofNumeral (n : Numeral) : Json :=
  if !Binary64.inRange n.scaled then .valueless
  else if n.fraction = [] ∧ n.exponent = [] ∧ (n.sign = [] ∨ n.whole ≠ ['0']) then
    .integer n.wholeValue
  else .decimal (String.ofList n.spelling)

/-- A number has no zero before its other digits. -/
def readNumber (text : List Char) : Option (Json × List Char) :=
  let n := Numeral.leading text
  match n.whole with
  | [] => none
  | ['0'] => some (ofNumeral n, text.drop n.spelling.length)
  | '0' :: _ => none
  | _ => some (ofNumeral n, text.drop n.spelling.length)

/-- An object with a name that has no value has none either. -/
def ofFields (fields : List (Option String × Json)) : Json :=
  match fields.mapM fun (name, value) => (·, value) <$> name with
  | some fields => .object fields
  | none => .valueless

mutual

/-- A value at the front of a text, with what follows it. Each nested list, object, item and field
takes one unit of `fuel`. -/
def readValue : Nat → List Char → Option (Json × List Char)
  | 0, _ => none
  | fuel + 1, text =>
    match skipBlank text with
    | 'n' :: 'u' :: 'l' :: 'l' :: rest => some (.null, rest)
    | 't' :: 'r' :: 'u' :: 'e' :: rest => some (.bool true, rest)
    | 'f' :: 'a' :: 'l' :: 's' :: 'e' :: rest => some (.bool false, rest)
    | '"' :: rest => do
      let (value, rest) ← readString rest
      return ((value.map .string).getD .valueless, rest)
    | '[' :: rest =>
      match skipBlank rest with
      | ']' :: rest => some (.array [], rest)
      | rest => do
        let (items, rest) ← readItems fuel rest
        return (.array items, rest)
    | '{' :: rest =>
      match skipBlank rest with
      | '}' :: rest => some (.object [], rest)
      | rest => do
        let (fields, rest) ← readFields fuel rest
        return (ofFields fields, rest)
    | text => readNumber text

/-- The items of a list up to its closing bracket. -/
def readItems : Nat → List Char → Option (List Json × List Char)
  | 0, _ => none
  | fuel + 1, text => do
    let (item, rest) ← readValue fuel text
    match skipBlank rest with
    | ']' :: rest => return ([item], rest)
    | ',' :: rest =>
      let (items, rest) ← readItems fuel rest
      return (item :: items, rest)
    | _ => none

/-- The fields of an object up to its closing bracket. -/
def readFields : Nat → List Char → Option (List (Option String × Json) × List Char)
  | 0, _ => none
  | fuel + 1, text => do
    let '"' :: rest := skipBlank text | none
    let (name, rest) ← readString rest
    let ':' :: rest := skipBlank rest | none
    let (value, rest) ← readValue fuel rest
    match skipBlank rest with
    | '}' :: rest => return ([(name, value)], rest)
    | ',' :: rest =>
      let (fields, rest) ← readFields fuel rest
      return ((name, value) :: fields, rest)
    | _ => none

end

/-- Reads a text that is one JSON value, with nothing but blanks around it. -/
def read (text : String) : Option Json := do
  let text := text.toList
  let (value, rest) ← readValue (2 * text.length + 2) text
  if (skipBlank rest).isEmpty then some value else none

end KarelKit.Json
