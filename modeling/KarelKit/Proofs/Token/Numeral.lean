import KarelKit.Token.Numeral
import Mathlib.Data.List.TakeWhile

namespace KarelKit
namespace Numeral

/-- One digit or more. -/
def Digits (text : List Char) : Prop := text ≠ [] ∧ ∀ c ∈ text, c.isDigit = true

/-- A numeral whose exponent, if there is one, has the letter `letter`. -/
structure Written (letter : Char) (n : Numeral) : Prop where
  sign : n.sign = [] ∨ n.sign = ['-']
  whole : Digits n.whole
  fraction : n.fraction = [] ∨ ∃ digits, Digits digits ∧ n.fraction = '.' :: digits
  exponent : n.exponent = [] ∨ ∃ sign digits, (sign = [] ∨ sign = ['+'] ∨ sign = ['-']) ∧
    Digits digits ∧ n.exponent = letter :: (sign ++ digits)

/-- The form that tokens keep: an exponent has an upper-case letter. -/
def Normal (n : Numeral) : Prop := n.Written 'E'

/-- A number as a text may have it, with either letter. -/
def IsLiteral (n : Numeral) : Prop := ∃ letter, (letter = 'e' ∨ letter = 'E') ∧ n.Written letter

theorem Normal.isLiteral {n : Numeral} (h : n.Normal) : n.IsLiteral := ⟨'E', Or.inr rfl, h⟩

/-- Nothing at the front of `text` makes a number before it longer. -/
def Closes (text : List Char) : Prop :=
  ∀ c ∈ text.head?, c.isDigit = false ∧ c ≠ '.' ∧ c ≠ 'e' ∧ c ≠ 'E'

theorem leadingDigits_append {digits text : List Char} (h : ∀ c ∈ digits, c.isDigit = true)
    (htext : ∀ c ∈ text.head?, c.isDigit = false) : leadingDigits (digits ++ text) = digits := by
  unfold leadingDigits
  rw [List.takeWhile_append_of_pos h]
  cases text with
  | nil => simp
  | cons c text => simp [htext c rfl]

theorem Digits.head {digits : List Char} (h : Digits digits) :
    ∃ c tail, digits = c :: tail ∧ c.isDigit = true := by
  obtain ⟨hne, hall⟩ := h
  cases digits with
  | nil => exact absurd rfl hne
  | cons c tail => exact ⟨c, tail, rfl, hall c (List.mem_cons_self ..)⟩

theorem leadingSign_digits {digits text : List Char} (h : Digits digits) :
    leadingSign (digits ++ text) = [] := by
  obtain ⟨c, tail, rfl, hc⟩ := h.head
  have hne : c ≠ '-' := by rintro rfl; contradiction
  simp [leadingSign, hne]

theorem leadingFraction_nil {text : List Char} (h : ∀ c ∈ text.head?, c ≠ '.') :
    leadingFraction text = [] := by
  cases text with
  | nil => rfl
  | cons c text => simp [leadingFraction, h c rfl]

theorem leadingFraction_point {digits text : List Char} (h : Digits digits)
    (htext : ∀ c ∈ text.head?, c.isDigit = false) :
    leadingFraction ('.' :: digits ++ text) = '.' :: digits := by
  have hlead := leadingDigits_append h.2 htext
  simp [leadingFraction, hlead, h.1]

theorem leadingExponent_nil {text : List Char} (h : ∀ c ∈ text.head?, c ≠ 'e' ∧ c ≠ 'E') :
    leadingExponent text = [] := by
  cases text with
  | nil => rfl
  | cons c text => simp [leadingExponent, h c rfl]

theorem leadingExponent_letter {letter : Char} {sign digits text : List Char}
    (hletter : letter = 'e' ∨ letter = 'E') (hsign : sign = [] ∨ sign = ['+'] ∨ sign = ['-'])
    (h : Digits digits) (htext : ∀ c ∈ text.head?, c.isDigit = false) :
    leadingExponent (letter :: (sign ++ digits) ++ text) = letter :: (sign ++ digits) := by
  have hlead := leadingDigits_append h.2 htext
  have hs : leadingExponentSign (sign ++ (digits ++ text)) = sign := by
    rcases hsign with rfl | rfl | rfl
    · obtain ⟨c, tail, rfl, hc⟩ := h.head
      have hne : c ≠ '+' ∧ c ≠ '-' := by constructor <;> rintro rfl <;> contradiction
      simp [leadingExponentSign, hne]
    · rfl
    · rfl
  simp [leadingExponent, List.append_assoc, hs, hlead, hletter, h.1]

theorem Written.head?_exponent {letter : Char} {n : Numeral} (h : n.Written letter)
    {text : List Char} (htext : Closes text) {c : Char} (hc : c ∈ (n.exponent ++ text).head?) :
    c = letter ∨ c.isDigit = false ∧ c ≠ '.' ∧ c ≠ 'e' ∧ c ≠ 'E' := by
  rcases h.exponent with he | ⟨sign, digits, -, -, he⟩
  · rw [he, List.nil_append] at hc
    exact Or.inr (htext c hc)
  · rw [he] at hc
    cases hc
    exact Or.inl rfl

/-- A numeral is the longest number at the front of itself with `text` after it. -/
theorem leading_spelling {n : Numeral} (h : n.IsLiteral) {text : List Char} (htext : Closes text) :
    leading (n.spelling ++ text) = n := by
  obtain ⟨letter, hletter, h⟩ := h
  -- each part ends where the next one, or `text`, begins
  have hexp : leadingExponent (n.exponent ++ text) = n.exponent := by
    rcases h.exponent with he | ⟨sign, digits, hsign, hdigits, he⟩
    · rw [he, List.nil_append]
      exact leadingExponent_nil fun c hc => (htext c hc).2.2
    · rw [he]
      exact leadingExponent_letter hletter hsign hdigits fun c hc => (htext c hc).1
  have hexpHead : ∀ c ∈ (n.exponent ++ text).head?, c.isDigit = false ∧ c ≠ '.' := by
    intro c hc
    rcases h.head?_exponent htext hc with rfl | hc
    · rcases hletter with rfl | rfl <;> decide
    · exact ⟨hc.1, hc.2.1⟩
  have hfrac : leadingFraction (n.fraction ++ (n.exponent ++ text)) = n.fraction := by
    rcases h.fraction with hf | ⟨digits, hdigits, hf⟩
    · rw [hf, List.nil_append]
      exact leadingFraction_nil fun c hc => (hexpHead c hc).2
    · rw [hf]
      exact leadingFraction_point hdigits fun c hc => (hexpHead c hc).1
  have hwhole : leadingDigits (n.whole ++ (n.fraction ++ (n.exponent ++ text))) = n.whole := by
    apply leadingDigits_append h.whole.2
    intro c hc
    rcases h.fraction with hf | ⟨digits, -, hf⟩
    · rw [hf, List.nil_append] at hc
      exact (hexpHead c hc).1
    · rw [hf] at hc
      cases hc
      decide
  have hsign : leadingSign (n.sign ++ (n.whole ++ (n.fraction ++ (n.exponent ++ text)))) =
      n.sign := by
    rcases h.sign with hs | hs
    · rw [hs, List.nil_append]
      exact leadingSign_digits h.whole
    · rw [hs]
      rfl
  simp only [leading, spelling, List.append_assoc, hsign, List.drop_left, hwhole, hfrac, hexp]

theorem leadingDigits_isDigit {text : List Char} {c : Char} (h : c ∈ leadingDigits text) :
    c.isDigit = true := List.mem_takeWhile_imp h

theorem digits_leadingDigits {text : List Char} (h : leadingDigits text ≠ []) :
    Digits (leadingDigits text) := ⟨h, fun _ => leadingDigits_isDigit⟩

theorem leadingSign_cases (text : List Char) :
    leadingSign text = [] ∨ leadingSign text = ['-'] := by
  cases text with
  | nil => exact Or.inl rfl
  | cons c text =>
    by_cases hc : c = '-'
    · exact Or.inr (by simp [leadingSign, hc])
    · exact Or.inl (by simp [leadingSign, hc])

theorem leadingFraction_cases (text : List Char) :
    leadingFraction text = [] ∨ ∃ digits, Digits digits ∧ leadingFraction text = '.' :: digits := by
  cases text with
  | nil => exact Or.inl rfl
  | cons c text =>
    by_cases hc : c = '.' ∧ leadingDigits text ≠ []
    · exact Or.inr ⟨leadingDigits text, digits_leadingDigits hc.2, by simp [leadingFraction, hc]⟩
    · exact Or.inl (if_neg hc)

theorem leadingExponentSign_cases (text : List Char) : leadingExponentSign text = [] ∨
    leadingExponentSign text = ['+'] ∨ leadingExponentSign text = ['-'] := by
  cases text with
  | nil => exact Or.inl rfl
  | cons c text =>
    by_cases hc : c = '+' ∨ c = '-'
    · rcases hc with rfl | rfl
      · exact Or.inr (Or.inl rfl)
      · exact Or.inr (Or.inr rfl)
    · exact Or.inl (if_neg hc)

theorem leadingExponent_cases (text : List Char) : leadingExponent text = [] ∨
    ∃ letter sign digits, (letter = 'e' ∨ letter = 'E') ∧
      (sign = [] ∨ sign = ['+'] ∨ sign = ['-']) ∧ Digits digits ∧
      leadingExponent text = letter :: (sign ++ digits) := by
  cases text with
  | nil => exact Or.inl rfl
  | cons c text =>
    by_cases hc : (c = 'e' ∨ c = 'E') ∧
        leadingDigits (text.drop (leadingExponentSign text).length) ≠ []
    · exact Or.inr ⟨c, leadingExponentSign text, _, hc.1, leadingExponentSign_cases text,
        digits_leadingDigits hc.2, by simp [leadingExponent, hc]⟩
    · exact Or.inl (if_neg hc)

/-- The numeral with the letter of its exponent in upper case. -/
def normalize (n : Numeral) : Numeral := { n with exponent := n.exponent.map Char.toUpper }

theorem toUpper_eq_self {c : Char} (h : ¬('a'.val ≤ c.val ∧ c.val ≤ 'z'.val)) : c.toUpper = c :=
  dif_neg h

theorem Digits.map_toUpper {digits : List Char} (h : Digits digits) :
    digits.map Char.toUpper = digits := by
  conv => rhs; rw [← List.map_id digits]
  apply List.map_congr_left
  intro c hc
  have hdigit := h.2 c hc
  simp only [Char.isDigit, Bool.and_eq_true, decide_eq_true_eq] at hdigit
  apply toUpper_eq_self
  intro hlower
  have := UInt32.le_trans hlower.1 hdigit.2
  exact absurd this (by decide)

theorem isLiteral_leading {text : List Char} (h : (leading text).whole ≠ []) :
    (leading text).IsLiteral := by
  have hsign := leadingSign_cases text
  have hdigits := digits_leadingDigits h
  obtain ⟨rest, hfraction⟩ : ∃ rest, (leading text).fraction = leadingFraction rest := ⟨_, rfl⟩
  have hpoint := leadingFraction_cases rest
  rw [← hfraction] at hpoint
  obtain ⟨rest, hexponent⟩ : ∃ rest, (leading text).exponent = leadingExponent rest := ⟨_, rfl⟩
  rcases leadingExponent_cases rest with he | ⟨letter, sign, digits, hletter, hs, hd, he⟩
  · exact ⟨'e', Or.inl rfl, hsign, hdigits, hpoint, Or.inl (hexponent.trans he)⟩
  · exact ⟨letter, hletter, hsign, hdigits, hpoint,
      Or.inr ⟨sign, digits, hs, hd, hexponent.trans he⟩⟩

theorem IsLiteral.normalize {n : Numeral} (h : n.IsLiteral) : n.normalize.Normal := by
  obtain ⟨letter, hletter, h⟩ := h
  refine ⟨h.sign, h.whole, h.fraction, ?_⟩
  simp only [Numeral.normalize]
  rcases h.exponent with he | ⟨sign, digits, hsign, hdigits, he⟩
  · left
    rw [he, List.map_nil]
  · right
    refine ⟨sign, digits, hsign, hdigits, ?_⟩
    rw [he, List.map_cons, List.map_append, hdigits.map_toUpper]
    rcases hletter with rfl | rfl <;> rcases hsign with rfl | rfl | rfl <;> rfl

theorem normal_leading {text : List Char} (h : (leading text).whole ≠ []) :
    (leading text).normalize.Normal := (isLiteral_leading h).normalize

/-- The numeral of a whole number. -/
def ofInt (value : Int) : Numeral :=
  ⟨if 0 ≤ value then [] else ['-'], Nat.toDigits 10 value.natAbs, [], []⟩

theorem normal_ofInt (value : Int) : (ofInt value).Normal where
  sign := by
    simp only [ofInt]
    split <;> simp
  whole := ⟨Nat.toDigits_ne_nil, fun _ hc => Nat.isDigit_of_mem_toDigits (by decide) (by decide) hc⟩
  fraction := Or.inl rfl
  exponent := Or.inl rfl

theorem spelling_ofInt (value : Int) : (ofInt value).spelling = (toString value).toList := by
  rw [Int.toString_eq_repr, Int.repr_eq_if]
  by_cases h : 0 ≤ value
  · have habs : value.toNat = value.natAbs := by omega
    simp [spelling, ofInt, h, Nat.toList_repr, habs]
  · have habs : (-value).toNat = value.natAbs := by omega
    simp [spelling, ofInt, h, Nat.toList_repr, habs]

theorem wholeValue_ofInt (value : Int) : (ofInt value).wholeValue = value := by
  by_cases h : 0 ≤ value
  · simp only [wholeValue, magnitude, ofInt, if_pos h, Nat.ofDigitChars_ten_toDigits]
    simp only [if_true]
    omega
  · simp only [wholeValue, magnitude, ofInt, if_neg h, Nat.ofDigitChars_ten_toDigits]
    simp only [reduceCtorEq, if_false]
    omega

end Numeral

end KarelKit
