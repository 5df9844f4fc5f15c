import KarelKit.Text.Alphabetic
import KarelKit.Text.Blank
import KarelKit.Text.Numeric
import KarelKit.Token.Numeral

namespace KarelKit
namespace Token

def isLineBreak (c : Char) : Bool := c == '\n' || c == '\r'

def isQuotable (c : Char) : Bool := c != '\'' && !isLineBreak c

def startsWord (c : Char) : Bool := Text.isAlphabetic c || c == '_'

def continuesWord (c : Char) : Bool := startsWord c || Text.isNumeric c

/-- The longest token that begins with `c`, and the characters of `text` that it takes after `c`. -/
def munch (here : Position) (c : Char) (text : List Char) :
    Except ParseError (Token × List Char) :=
  let numeral := Numeral.leading (c :: text)
  if c = '-' ∧ text.head? = some '-' then
    let content := text.tail.takeWhile (!isLineBreak ·)
    .ok (.comment (String.ofList content), '-' :: content)
  else if c = '\'' then
    let content := text.takeWhile isQuotable
    match text.drop content.length with
    | [] => .error ⟨here.after (c :: content), [.closingQuote], .endOfInput⟩
    | '\'' :: _ => .ok (.string (String.ofList content), content ++ ['\''])
    | _ :: _ => .error ⟨here.after (c :: content), [.closingQuote], .endOfLine⟩
  else if numeral.whole ≠ [] then
    match numeral.token? with
    | some token => .ok (token, numeral.spelling.tail)
    | none => .error ⟨here, [.integerInRange], .literal (String.ofList numeral.spelling)⟩
  else if startsWord c then
    let letters := text.takeWhile continuesWord
    .ok (.word (String.ofList (c :: letters)), letters)
  else
    match Mark.ofChar? c with
    | some m => .ok (.mark m, [])
    | none => .error ⟨here, [.token], .character c⟩

/-- The tokens of a text whose first character stands at `here`. -/
def lexFrom (here : Position) (text : List Char) : Except ParseError (List Lexeme) :=
  match text with
  | [] => .ok []
  | c :: text =>
    if Text.isBlank c then lexFrom (here.next c) text
    else
      match munch here c text with
      | .error e => .error e
      | .ok (token, letters) =>
        let stop := here.after (c :: letters)
        (⟨token, here, stop⟩ :: ·) <$> lexFrom stop (text.drop letters.length)
termination_by text.length

end Token

def lex (source : String) : Except ParseError Lexed :=
  (⟨·, Position.first.after source.toList⟩) <$> Token.lexFrom .first source.toList

end KarelKit
