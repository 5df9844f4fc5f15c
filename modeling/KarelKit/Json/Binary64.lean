import KarelKit.Token.Numeral

namespace KarelKit

/-- The number that `digits` make behind those of `n`, taken as long as it has 64 bits, with the
digits left over. -/
def appendDigits (n : Nat) : List Char → Nat × List Char
  | [] => (n, [])
  | c :: digits =>
    let longer := 10 * n + (c.toNat - '0'.toNat)
    if longer < 0x10000000000000000 then appendDigits longer digits else (n, c :: digits)

theorem appendDigits_lt (n : Nat) (digits : List Char) (h : n < 0x10000000000000000) :
    (appendDigits n digits).1 < 0x10000000000000000 := by
  induction digits generalizing n with
  | nil => exact h
  | cons c digits ih =>
    simp only [appendDigits]
    split
    · exact ih _ ‹_›
    · exact h

/-- A number without sign, as a significand times ten to an exponent. -/
structure Scaled where
  significand : Nat
  exponent : Int
deriving DecidableEq

/-- Digits are taken from the front until the significand is full. One that is left over before the
point still counts for the exponent, one behind the point for nothing. -/
def Numeral.scaled (n : Numeral) : Scaled :=
  let (whole, above) := appendDigits 0 n.whole
  let places := n.fraction.tail
  let (significand, below) := appendDigits whole places
  ⟨significand, n.exponentValue + above.length - (places.length - below.length)⟩

theorem Numeral.significand_scaled_lt (n : Numeral) : n.scaled.significand < 0x10000000000000000 :=
  appendDigits_lt _ _ (appendDigits_lt _ _ (by decide))

namespace Binary64

/-- The nearest number to `n` with 53 binary digits before its zeros, the even one of two. -/
def nearest (n : Nat) : Nat :=
  let unit := Nat.pow 2 (n.log2 - 52)
  let below := n / unit
  let rest := n % unit
  if 2 * rest < unit ∨ 2 * rest = unit ∧ below % 2 = 0 then below * unit else (below + 1) * unit

theorem nearest_eq_self (n : Nat) (h : n < 0x20000000000000) : nearest n = n := by
  have : n.log2 - 52 = 0 := by
    by_cases hn : n = 0
    · simp [hn]
    · have : n.log2 < 53 := (Nat.log2_lt hn).2 h
      omega
  simp [nearest, this, Nat.mod_one]

/-- Half a unit above the largest number: from here on a number is rounded to infinity. -/
def limit : Nat := Nat.pow 2 1024 - Nat.pow 2 970

/-- Significand and power of ten are rounded before they are multiplied, so near the end of the
range a number can count as out of it although its exact value does not (`1.7976931348623158e308`).
Exponents below zero make a number smaller, and ten to more than 308 is out of range itself. -/
def inRange (s : Scaled) : Bool :=
  s.significand = 0 || s.exponent < 0 ||
    s.exponent ≤ 308 && nearest s.significand * nearest (Nat.pow 10 s.exponent.toNat) < limit

end Binary64

end KarelKit
