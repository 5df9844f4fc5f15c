namespace KarelKit.Text

/-- The letters `a` to `z` become `A` to `Z`; all other characters stay. -/
def upcase (s : String) : String := String.ofList (s.toList.map Char.toUpper)

end KarelKit.Text
