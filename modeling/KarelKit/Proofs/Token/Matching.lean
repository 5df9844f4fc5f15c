import KarelKit.Token.Word

namespace KarelKit

/-- Tokens of one kind and value. Words may differ in the case of their letters, as long as `names`
matches them. -/
inductive Token.Matches (names : String → String → Prop) : Token → Token → Prop
  | word {text text' : String} (hcase : Text.upcase text' = Text.upcase text)
    (h : names text text') : Matches names (.word text) (.word text')
  | integer (value : Int) : Matches names (.integer value) (.integer value)
  | real (literal : String) : Matches names (.real literal) (.real literal)
  | string (content : String) : Matches names (.string content) (.string content)
  | comment (text : String) : Matches names (.comment text) (.comment text)
  | mark (m : Mark) : Matches names (.mark m) (.mark m)

theorem isReserved_congr {word word' : String} (h : Text.upcase word' = Text.upcase word) :
    isReserved word' = isReserved word ∧ isBuiltinType word' = isBuiltinType word := by
  simp [isReserved, isBuiltinType, h]

namespace Token

theorem matches_self {names : String → String → Prop} (h : ∀ name, names name name)
    (t : Token) : t.Matches names t := by
  cases t with
  | word text => exact .word rfl (h text)
  | _ => constructor

namespace Matches

variable {names : String → String → Prop} {t t' : Token}

theorem eq (h : t.Matches Eq t') : t' = t := by
  cases h with
  | word _ h => rw [h]
  | _ => rfl

theorem isComment (h : t.Matches names t') : t'.isComment = t.isComment := by
  cases h <;> rfl

theorem isKeyword (h : t.Matches names t') (k : Keyword) : t'.isKeyword k = t.isKeyword k := by
  cases h with
  | word hcase => simp [Token.isKeyword, KarelKit.isKeyword, hcase]
  | _ => rfl

theorem eq_mark_iff (h : t.Matches names t') (m : Mark) : t' = .mark m ↔ t = .mark m := by
  cases h <;> simp

theorem name? (h : t.Matches names t') : Option.Rel names t.name? t'.name? := by
  cases h with
  | word hcase h =>
    simp only [Token.name?, (isReserved_congr hcase).1]
    split
    · exact .none
    · exact .some h
  | _ => exact .none

theorem typeName? (h : t.Matches names t') : Option.Rel names t.typeName? t'.typeName? := by
  cases h with
  | word hcase h =>
    simp only [Token.typeName?, (isReserved_congr hcase).1, (isReserved_congr hcase).2]
    split
    · exact .none
    · exact .some h
  | _ => exact .none

end Matches

end Token

end KarelKit
