import KarelKit.Declaration.Tree
import KarelKit.Grammar.Declarations
import KarelKit.Token.Lexer

namespace KarelKit

open Rule in
def Entry.rule : Entry → Rule Tree
  | declarations => do return .declarations (← Grammar.declarations)
  | typeDeclaration => do return .typeDeclaration (← located Grammar.typeDeclaration)
  | userType => do return .userType (← located Grammar.userType)
  | dataType => do return .dataType (← located Grammar.dataType)
  | constant => do return .constant (← located Grammar.constant)
  | value => do return .value (← located Grammar.value)

def parse (entry : Entry) (source : String) : Except ParseError Tree := do
  Rule.readAll entry.rule (← lex source)

end KarelKit
