import KarelKit.Source.Range

namespace KarelKit

/-- The punctuation marks. -/
inductive Mark
  | leftBracket
  | rightBracket
  | leftParenthesis
  | rightParenthesis
  | colon
  | comma
  | dot
  | equals
deriving DecidableEq

namespace Mark

def char : Mark → Char
  | leftBracket => '['
  | rightBracket => ']'
  | leftParenthesis => '('
  | rightParenthesis => ')'
  | colon => ':'
  | comma => ','
  | dot => '.'
  | equals => '='

def all : List Mark :=
  [leftBracket, rightBracket, leftParenthesis, rightParenthesis, colon, comma, dot, equals]

def ofChar? (c : Char) : Option Mark := all.find? (·.char == c)

def describe (m : Mark) : String := s!"'{m.char}'"

theorem ofChar?_char (m : Mark) : ofChar? m.char = some m := by
  cases m <;> rfl

theorem char_of_ofChar? {c : Char} {m : Mark} (h : ofChar? c = some m) : m.char = c := by
  simpa using List.find?_some h

end Mark

/-- A token's kind and value. A real keeps its literal, with `E` before an exponent; a string and a
comment keep what stands inside the quotes and after the dashes. -/
inductive Token
  | word (text : String)
  | integer (value : Int)
  | real (literal : String)
  | string (content : String)
  | comment (text : String)
  | mark (mark : Mark)
deriving DecidableEq

namespace Token

def isComment : Token → Bool
  | comment _ => true
  | _ => false

/-- The wording of an error message for a token that was not wanted. -/
def describe : Token → String
  | word text => s!"'{text}'"
  | integer value => s!"integer {value}"
  | real literal => s!"real {literal}"
  | string content => s!"string '{content}'"
  | comment _ => "comment"
  | mark m => m.describe

end Token

/-- A token and where it stands. -/
abbrev Lexeme := Located Token

/-- The tokens of a text, comments among them, and the place where the text ends. -/
structure Lexed where
  lexemes : List Lexeme
  stop : Position
deriving DecidableEq

end KarelKit
