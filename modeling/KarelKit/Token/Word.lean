import KarelKit.Text.Case
import KarelKit.Token.Basic

namespace KarelKit

/-- The words that steer the grammar of declarations. -/
inductive Keyword
  | TYPE
  | CONST
  | FROM
  | STRUCTURE
  | ENDSTRUCTURE
  | STRING
  | ARRAY
  | OF
  | PATH
  | PATHHEADER
  | NODEDATA
  | IN
  | GROUP
  | TRUE
  | FALSE
deriving DecidableEq

def Keyword.spelling : Keyword → String
  | TYPE => "TYPE"
  | CONST => "CONST"
  | FROM => "FROM"
  | STRUCTURE => "STRUCTURE"
  | ENDSTRUCTURE => "ENDSTRUCTURE"
  | STRING => "STRING"
  | ARRAY => "ARRAY"
  | OF => "OF"
  | PATH => "PATH"
  | PATHHEADER => "PATHHEADER"
  | NODEDATA => "NODEDATA"
  | IN => "IN"
  | GROUP => "GROUP"
  | TRUE => "TRUE"
  | FALSE => "FALSE"

/-- Words that never name anything of the program's own. -/
def reservedWords : List String :=
  ["ABORT", "AND", "ARRAY", "BEGIN", "BY", "CASE", "CONDITION", "CONST", "DELAY", "DIV", "DO",
   "DOWNTO", "ELSE", "END", "ENDCONDITION", "ENDFOR", "ENDIF", "ENDSELECT", "ENDSTRUCTURE",
   "ENDWHILE", "FALSE", "FOR", "FROM", "GO", "GOTO", "GROUP", "HOLD", "IF", "IN", "MOD",
   "NODEDATA", "NOT", "OF", "OFF", "ON", "OR", "PATH", "PATHHEADER", "PROGRAM", "REPEAT",
   "RETURN", "ROUTINE", "SELECT", "STRING", "STRUCTURE", "THEN", "TO", "TRUE", "TYPE", "UNTIL",
   "USING", "VAR", "WHEN", "WHILE", "WITH"]

/-- Predefined type names. They are reserved too, but stand wherever a type name may. -/
def builtinTypes : List String :=
  ["BOOLEAN", "BYTE", "CAM_SETUP", "CONFIG", "DISP_DAT_T", "FILE", "INTEGER", "JOINTPOS",
   "JOINTPOS1", "JOINTPOS2", "JOINTPOS3", "JOINTPOS4", "JOINTPOS5", "JOINTPOS6", "JOINTPOS7",
   "JOINTPOS8", "JOINTPOS9", "MODEL", "POSITION", "REAL", "SHORT", "VECTOR", "VIS_PROCESS",
   "XYZWPR", "XYZWPREXT"]

def isBuiltinType (word : String) : Bool := builtinTypes.contains (Text.upcase word)

def isReserved (word : String) : Bool :=
  reservedWords.contains (Text.upcase word) || isBuiltinType word

def isKeyword (k : Keyword) (word : String) : Bool := Text.upcase word == k.spelling

theorem spelling_mem_reservedWords (k : Keyword) : k.spelling ∈ reservedWords := by
  cases k <;> decide

theorem isReserved_of_isKeyword {k : Keyword} {word : String} (h : isKeyword k word = true) :
    isReserved word = true := by
  have hword : Text.upcase word = k.spelling := by simpa [isKeyword] using h
  simp [isReserved, hword, spelling_mem_reservedWords]

namespace Token

def isKeyword (k : Keyword) : Token → Bool
  | word text => KarelKit.isKeyword k text
  | _ => false

/-- A name of the program's own: a word that is not reserved. -/
def name? : Token → Option String
  | word text => if isReserved text then none else some text
  | _ => none

/-- A name, or the name of a predefined type. -/
def typeName? : Token → Option String
  | word text => if isReserved text && !isBuiltinType text then none else some text
  | _ => none

end Token

end KarelKit
