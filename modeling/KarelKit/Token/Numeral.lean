import KarelKit.Error.ParseError

namespace KarelKit

/-- The parts of a number's literal, each as written: the minus sign, the digits before the point,
the point with its digits, and the exponent with its letter and sign. All but the digits before the
point may be empty. -/
structure Numeral where
  sign : List Char
  whole : List Char
  fraction : List Char
  exponent : List Char
deriving DecidableEq

namespace Numeral

def leadingDigits (text : List Char) : List Char := text.takeWhile Char.isDigit

def leadingSign : List Char → List Char
  | [] => []
  | c :: _ => if c = '-' then [c] else []

/-- A point counts only with a digit after it. -/
def leadingFraction : List Char → List Char
  | [] => []
  | c :: text => if c = '.' ∧ leadingDigits text ≠ [] then c :: leadingDigits text else []

def leadingExponentSign : List Char → List Char
  | [] => []
  | c :: _ => if c = '+' ∨ c = '-' then [c] else []

/-- An exponent's letter counts only with a digit after it, or after its sign. -/
def leadingExponent : List Char → List Char
  | [] => []
  | c :: text =>
    let sign := leadingExponentSign text
    let digits := leadingDigits (text.drop sign.length)
    if (c = 'e' ∨ c = 'E') ∧ digits ≠ [] then c :: (sign ++ digits) else []

/-- The longest number at the front of a text. There is none if `whole` is empty. -/
def leading (text : List Char) : Numeral :=
  let sign := leadingSign text
  let afterSign := text.drop sign.length
  let whole := leadingDigits afterSign
  let afterWhole := afterSign.drop whole.length
  let fraction := leadingFraction afterWhole
  ⟨sign, whole, fraction, leadingExponent (afterWhole.drop fraction.length)⟩

def spelling (n : Numeral) : List Char := n.sign ++ n.whole ++ n.fraction ++ n.exponent

/-- The value of the part before the point, without its sign. -/
def magnitude (n : Numeral) : Nat := Nat.ofDigitChars 10 n.whole 0

def wholeValue (n : Numeral) : Int := if n.sign = [] then n.magnitude else -n.magnitude

/-- The number that the exponent part stands for; none is zero. -/
def exponentValue (n : Numeral) : Int :=
  match n.exponent.tail with
  | '-' :: digits => -Nat.ofDigitChars 10 digits 0
  | '+' :: digits => Nat.ofDigitChars 10 digits 0
  | digits => Nat.ofDigitChars 10 digits 0

/-- Whether the part before the point is a number of 64 bits with sign. -/
def isInRange (n : Numeral) : Bool :=
  if n.sign = [] then n.magnitude < 0x8000000000000000 else n.magnitude ≤ 0x8000000000000000

/-- A number with a fraction or an exponent is a real and keeps its literal, the exponent's letter
in upper case. Any other is an integer. -/
def token? (n : Numeral) : Option Token :=
  if n.fraction = [] ∧ n.exponent = [] then
    if n.isInRange then some (.integer n.wholeValue) else none
  else
    some (.real (String.ofList (n.sign ++ n.whole ++ n.fraction ++ n.exponent.map Char.toUpper)))

theorem isInRange_iff (n : Numeral) (h : n.sign = [] ∨ n.sign = ['-']) :
    n.isInRange = true ↔
      -0x8000000000000000 ≤ n.wholeValue ∧ n.wholeValue < 0x8000000000000000 := by
  rcases h with h | h <;> simp only [isInRange, wholeValue, h] <;> simp <;> omega

end Numeral

end KarelKit
