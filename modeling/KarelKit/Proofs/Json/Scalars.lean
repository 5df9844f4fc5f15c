import KarelKit.Json.Printer
import KarelKit.Json.Reader
import KarelKit.Proofs.Token.Numeral
import Mathlib.Data.List.Forall2

namespace KarelKit

theorem le_ofDigitChars (digits : List Char) (n : Nat) : n ≤ Nat.ofDigitChars 10 digits n := by
  induction digits generalizing n with
  | nil => simp
  | cons c digits ih =>
    rw [Nat.ofDigitChars_cons]
    have hdigits := ih (10 * n + (c.toNat - '0'.toNat))
    omega

theorem appendDigits_eq {digits : List Char} {n : Nat}
    (h : Nat.ofDigitChars 10 digits n < 0x10000000000000000) :
    appendDigits n digits = (Nat.ofDigitChars 10 digits n, []) := by
  induction digits generalizing n with
  | nil => simp [appendDigits]
  | cons c digits ih =>
    rw [Nat.ofDigitChars_cons] at h ⊢
    -- the number so far is at most the whole one
    have hlonger := Nat.lt_of_le_of_lt (le_ofDigitChars digits _) h
    rw [appendDigits, if_pos hlonger, ih h]

theorem Binary64.nearest_le (n : Nat) : nearest n ≤ 2 * n := by
  by_cases hn : n = 0
  · subst hn
    decide
  · have hunit : Nat.pow 2 (n.log2 - 52) ≤ n :=
      Nat.le_trans (Nat.pow_le_pow_right (by decide) (Nat.sub_le ..)) (Nat.log2_self_le hn)
    have hbelow := Nat.div_mul_le_self n (Nat.pow 2 (n.log2 - 52))
    simp only [nearest, Nat.add_mul]
    split <;> omega

theorem two_mul_pow_le {a b : Nat} (h : a < b) : 2 * Nat.pow 2 a ≤ Nat.pow 2 b := by
  have hle : Nat.pow 2 (a + 1) ≤ Nat.pow 2 b := Nat.pow_le_pow_right (n := 2) (by decide) h
  have hsucc : Nat.pow 2 (a + 1) = Nat.pow 2 a * 2 := Nat.pow_succ 2 a
  omega

theorem lt_pow_sub_pow {n a b c : Nat} (hab : a < b) (hbc : b < c) (h : n ≤ Nat.pow 2 a) :
    n < Nat.pow 2 c - Nat.pow 2 b := by
  have hpos : 0 < Nat.pow 2 a := Nat.two_pow_pos a
  have hlow := two_mul_pow_le hab
  have hhigh := two_mul_pow_le hbc
  omega

theorem Binary64.lt_limit {n : Nat} (h : n ≤ Nat.pow 2 65) : n < limit := by
  have hlow : 65 < 970 := by decide
  have hhigh : 970 < 1024 := by decide
  rw [limit]
  -- with variables for exponents nothing tries to compute the powers
  generalize 970 = low at *
  generalize 1024 = high at *
  exact lt_pow_sub_pow hlow hhigh h

theorem Binary64.inRange_of_lt {n : Nat} (h : n < 0x10000000000000000) : inRange ⟨n, 0⟩ = true := by
  have hnearest := nearest_le n
  have hone : nearest (Nat.pow 10 (Int.toNat 0)) = 1 := nearest_eq_self 1 (by decide)
  have htwo : nearest n ≤ Nat.pow 2 65 := by
    change nearest n ≤ 0x20000000000000000
    omega
  simp only [inRange, hone, Nat.mul_one, Bool.or_eq_true, Bool.and_eq_true, decide_eq_true_eq]
  exact Or.inr ⟨by decide, lt_limit htwo⟩

/-- Only the number zero begins with a zero. -/
theorem head?_toDigits {n : Nat} (hn : n ≠ 0) : (Nat.toDigits 10 n).head? ≠ some '0' := by
  induction n using Nat.strongRecOn with
  | ind n ih =>
    by_cases h : n < 10
    · rw [Nat.toDigits_of_lt_base h]
      have hall : ∀ k < 10, k ≠ 0 → [k.digitChar].head? ≠ some '0' := by decide
      exact hall n h hn
    · have hrest := ih (n / 10) (by omega) (by omega)
      obtain ⟨c, digits, hdigits⟩ :=
        List.exists_cons_of_ne_nil (Nat.toDigits_ne_nil (n := n / 10) (b := 10))
      rw [Nat.toDigits_of_base_le (by decide) (by omega), hdigits]
      rw [hdigits] at hrest
      exact hrest

namespace Json

theorem ofNumeral_ofInt {value : Int} (h : value.natAbs < 0x10000000000000000) :
    ofNumeral (.ofInt value) = .integer value := by
  have hdigits : Nat.ofDigitChars 10 (Numeral.ofInt value).whole 0 = value.natAbs :=
    Nat.ofDigitChars_ten_toDigits
  have hscaled : (Numeral.ofInt value).scaled = ⟨value.natAbs, 0⟩ := by
    have happend := appendDigits_eq (n := 0) (by rwa [hdigits])
    rw [hdigits] at happend
    simp only [Numeral.scaled, happend]
    rfl
  -- a minus sign stands before no zero, which would be kept as it is written
  have hsign : (Numeral.ofInt value).sign = [] ∨ (Numeral.ofInt value).whole ≠ ['0'] := by
    by_cases hvalue : 0 ≤ value
    · exact Or.inl (if_pos hvalue)
    · right
      intro hzero
      have hhead := head?_toDigits (n := value.natAbs) (by omega)
      simp only [Numeral.ofInt] at hzero
      rw [hzero] at hhead
      exact hhead rfl
  have hinteger : (Numeral.ofInt value).fraction = [] ∧ (Numeral.ofInt value).exponent = [] ∧
      ((Numeral.ofInt value).sign = [] ∨ (Numeral.ofInt value).whole ≠ ['0']) := ⟨rfl, rfl, hsign⟩
  rw [ofNumeral, hscaled, Binary64.inRange_of_lt h, if_neg (by decide), if_pos hinteger,
    Numeral.wholeValue_ofInt]

theorem whole_ofInt_cases (value : Int) : (Numeral.ofInt value).whole = ['0'] ∨
    ∃ c digits, c ≠ '0' ∧ (Numeral.ofInt value).whole = c :: digits := by
  by_cases hvalue : value.natAbs = 0
  · left
    simp [Numeral.ofInt, hvalue]
  · right
    obtain ⟨c, digits, hdigits⟩ :=
      List.exists_cons_of_ne_nil (Nat.toDigits_ne_nil (n := value.natAbs) (b := 10))
    refine ⟨c, digits, ?_, hdigits⟩
    rintro rfl
    exact head?_toDigits hvalue (by rw [hdigits]; rfl)

theorem head_integer (value : Int) :
    ∃ c text, (toString value).toList = c :: text ∧ (c = '-' ∨ c.isDigit = true) := by
  have hnormal := Numeral.normal_ofInt value
  obtain ⟨c, digits, hwhole, hc⟩ := hnormal.whole.head
  rw [← Numeral.spelling_ofInt, Numeral.spelling, hwhole]
  rcases hnormal.sign with hsign | hsign
  · exact ⟨c, _, by rw [hsign]; rfl, Or.inr hc⟩
  · exact ⟨'-', _, by rw [hsign]; rfl, Or.inl rfl⟩

theorem readNumber_integer {value : Int} (h : value.natAbs < 0x10000000000000000)
    {rest : List Char} (hrest : Numeral.Closes rest) :
    readNumber ((toString value).toList ++ rest) = some (.integer value, rest) := by
  have hlead : Numeral.leading ((toString value).toList ++ rest) = .ofInt value := by
    rw [← Numeral.spelling_ofInt]
    exact Numeral.leading_spelling (Numeral.normal_ofInt value).isLiteral hrest
  have hdrop : ((toString value).toList ++ rest).drop (Numeral.ofInt value).spelling.length =
      rest := by
    rw [Numeral.spelling_ofInt, List.drop_left]
  rcases whole_ofInt_cases value with hwhole | ⟨c, digits, hc, hwhole⟩
  · simp only [readNumber, hlead, hwhole, hdrop, ofNumeral_ofInt h]
  · simp only [readNumber, hlead, hwhole, hdrop, ofNumeral_ofInt h]
    split <;> simp_all

/-- What a piece of a string stands for, other than half of a surrogate pair. -/
inductive Piece.Stands : Piece → Char → Prop
  | char (c : Char) : Stands (char c) c
  | unit (c : Char) (h : c.toNat < 0xd800) : Stands (unit c.toNat) c

theorem joinPieces?_unit {code : Nat} (h : code < 0xd800) (pieces : List Piece) :
    joinPieces? (.unit code :: pieces) = (Char.ofNat code :: ·) <$> joinPieces? pieces := by
  have hhigh : isHighSurrogate code = false := by
    simp only [isHighSurrogate, Bool.and_eq_false_iff, decide_eq_false_iff_not]
    omega
  have hlow : isLowSurrogate code = false := by
    simp only [isLowSurrogate, Bool.and_eq_false_iff, decide_eq_false_iff_not]
    omega
  cases pieces with
  | nil => simp [joinPieces?, hhigh, hlow]
  | cons piece pieces => cases piece <;> simp [joinPieces?, hhigh, hlow]

theorem joinPieces?_of_stands {pieces : List Piece} {text : List Char}
    (h : List.Forall₂ Piece.Stands pieces text) : joinPieces? pieces = some text := by
  induction h with
  | nil => rfl
  | cons hpiece hpieces ih =>
    cases hpiece with
    | char c => simp [joinPieces?, ih]
    | unit c hc => rw [joinPieces?_unit hc, ih, Char.ofNat_toNat]; rfl

theorem hexUnit?_control {n : Nat} (h : n < 0x20) :
    hexUnit? '0' '0' (n / 16).digitChar (n % 16).digitChar = some n := by
  have hall : ∀ n < 0x20, hexUnit? '0' '0' (n / 16).digitChar (n % 16).digitChar = some n := by
    decide
  exact hall n h

/-- A character stands for itself, or has a letter of its own behind a backslash, or is written in
hexadecimal. -/
theorem escape_cases (c : Char) :
    (escape c = [c] ∧ c ≠ '"' ∧ c ≠ '\\' ∧ 0x20 ≤ c.toNat) ∨
    (∃ letter, unescape? letter = some c ∧ escape c = ['\\', letter]) ∨
    (c.toNat < 0x20 ∧
      escape c = ['\\', 'u', '0', '0', (c.toNat / 16).digitChar, (c.toNat % 16).digitChar]) := by
  by_cases hnamed : c = '"' ∨ c = '\\' ∨ c = '\x08' ∨ c = '\t' ∨ c = '\n' ∨ c = '\x0c' ∨ c = '\r'
  · right; left
    rcases hnamed with rfl | rfl | rfl | rfl | rfl | rfl | rfl
    · exact ⟨'"', rfl, rfl⟩
    · exact ⟨'\\', rfl, rfl⟩
    · exact ⟨'b', rfl, rfl⟩
    · exact ⟨'t', rfl, rfl⟩
    · exact ⟨'n', rfl, rfl⟩
    · exact ⟨'f', rfl, rfl⟩
    · exact ⟨'r', rfl, rfl⟩
  · simp only [not_or] at hnamed
    obtain ⟨hquote, hslash, hb, ht, hn, hf, hr⟩ := hnamed
    simp only [escape, if_neg hquote, if_neg hslash, if_neg hb, if_neg ht, if_neg hn, if_neg hf,
      if_neg hr]
    by_cases hcontrol : c.toNat < 0x20
    · exact Or.inr (Or.inr ⟨hcontrol, if_pos hcontrol⟩)
    · exact Or.inl ⟨if_neg hcontrol, hquote, hslash, by omega⟩

theorem readPieces_letter {letter c : Char} (h : unescape? letter = some c) (text : List Char) :
    readPieces ('\\' :: letter :: text) =
      (readPieces text).bind fun p => some (.char c :: p.1, p.2) := by
  have hu : letter ≠ 'u' := by rintro rfl; simp [unescape?] at h
  simp [readPieces, hu, h]

theorem readPieces_escape (c : Char) : ∃ piece, Piece.Stands piece c ∧ ∀ text,
    readPieces (escape c ++ text) =
      (readPieces text).bind fun p => some (piece :: p.1, p.2) := by
  rcases escape_cases c with ⟨hescape, hquote, hslash, hcontrol⟩ | ⟨letter, hletter, hescape⟩ |
      ⟨hcontrol, hescape⟩
  · refine ⟨.char c, .char c, fun text => ?_⟩
    have hplain : ¬c.toNat < 0x20 := by omega
    simp [hescape, readPieces, hslash, hplain]
  · refine ⟨.char c, .char c, fun text => ?_⟩
    rw [hescape]
    exact readPieces_letter hletter text
  · refine ⟨.unit c.toNat, .unit c (by omega), fun text => ?_⟩
    simp [hescape, readPieces, hexUnit?_control hcontrol]

theorem readPieces_quote (text rest : List Char) : ∃ pieces, List.Forall₂ Piece.Stands pieces text ∧
    readPieces (text.flatMap escape ++ '"' :: rest) = some (pieces, rest) := by
  induction text with
  | nil => exact ⟨[], .nil, by simp [readPieces]⟩
  | cons c text ih =>
    obtain ⟨piece, hpiece, hread⟩ := readPieces_escape c
    obtain ⟨pieces, hpieces, htext⟩ := ih
    refine ⟨piece :: pieces, .cons hpiece hpieces, ?_⟩
    rw [List.flatMap_cons, List.append_assoc, hread, htext]
    rfl

/-- A quoted string, behind its opening quote. -/
theorem readString_quote (s : String) (rest : List Char) :
    readString (s.toList.flatMap escape ++ '"' :: rest) = some (some s, rest) := by
  obtain ⟨pieces, hpieces, hread⟩ := readPieces_quote s.toList rest
  have hjoin := joinPieces?_of_stands hpieces
  simp [readString, hread, hjoin]

end Json
end KarelKit
