import KarelKit.Json.Basic

namespace KarelKit.Json

/-- Quotes, backslashes and control characters are escaped; all else stands as it is. -/
def escape (c : Char) : List Char :=
  if c = '"' then ['\\', '"']
  else if c = '\\' then ['\\', '\\']
  else if c = '\x08' then ['\\', 'b']
  else if c = '\t' then ['\\', 't']
  else if c = '\n' then ['\\', 'n']
  else if c = '\x0c' then ['\\', 'f']
  else if c = '\r' then ['\\', 'r']
  else if c.toNat < 0x20 then
    ['\\', 'u', '0', '0', (c.toNat / 16).digitChar, (c.toNat % 16).digitChar]
  else [c]

def quote (s : String) : String := String.ofList ('"' :: s.toList.flatMap escape ++ ['"'])

mutual

/-- The text without white space. -/
def compact : Json → String
  | null => "null"
  | bool value => toString value
  | integer value => toString value
  | decimal literal => literal
  | string value => quote value
  | array items => "[" ++ ",".intercalate (compactItems items) ++ "]"
  | object fields => "\x7b" ++ ",".intercalate (compactFields fields) ++ "\x7d"
  | valueless => "null"

def compactItems : List Json → List String
  | [] => []
  | item :: items => item.compact :: compactItems items

def compactFields : List (String × Json) → List String
  | [] => []
  | (name, value) :: fields => s!"{quote name}:{value.compact}" :: compactFields fields

end

/-- The lines of a nonempty list or object, between its brackets. -/
def block (indent opening closing : String) (entries : List String) : String :=
  opening ++ "\n" ++ ",\n".intercalate (entries.map fun entry => s!"{indent}  {entry}") ++ "\n" ++
    indent ++ closing

mutual

/-- The text with one line for each item and field, two places deeper than the list or object. -/
def pretty (indent : String) : Json → String
  | null => "null"
  | bool value => toString value
  | integer value => toString value
  | decimal literal => literal
  | string value => quote value
  | array [] => "[]"
  | array (item :: items) => block indent "[" "]" (prettyItems (indent ++ "  ") (item :: items))
  | object [] => "\x7b\x7d"
  | object (field :: fields) =>
    block indent "\x7b" "\x7d" (prettyFields (indent ++ "  ") (field :: fields))
  | valueless => "null"

def prettyItems (indent : String) : List Json → List String
  | [] => []
  | item :: items => item.pretty indent :: prettyItems indent items

def prettyFields (indent : String) : List (String × Json) → List String
  | [] => []
  | (name, value) :: fields =>
    s!"{quote name}: {value.pretty indent}" :: prettyFields indent fields

end

end KarelKit.Json
