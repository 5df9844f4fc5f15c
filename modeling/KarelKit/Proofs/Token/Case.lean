import KarelKit.Proofs.Token.Spelling

namespace KarelKit

theorem toNat_toUpper {c : Char} (h : 'a'.val ≤ c.val ∧ c.val ≤ 'z'.val) :
    c.toUpper.toNat + 32 = c.toNat ∧ 97 ≤ c.toNat ∧ c.toNat ≤ 122 := by
  have hlow : 97 ≤ c.toNat := UInt32.le_iff_toNat_le.mp h.1
  have hhigh : c.toNat ≤ 122 := UInt32.le_iff_toNat_le.mp h.2
  -- the letters are looked up one by one
  have hletters : ∀ n ∈ List.range' 97 26, (Char.ofNat n).toUpper.toNat + 32 = n := by decide
  have hc := hletters c.toNat (by rw [List.mem_range'_1]; omega)
  rw [Char.ofNat_toNat] at hc
  exact ⟨hc, hlow, hhigh⟩

/-- Only letters change. -/
theorem toUpper_cases (c : Char) : c.toUpper = c ∨
    Token.startsWord c = true ∧ Token.startsWord c.toUpper = true := by
  by_cases hlower : 'a'.val ≤ c.val ∧ c.val ≤ 'z'.val
  · obtain ⟨hval, hlow, hhigh⟩ := toNat_toUpper hlower
    have hrange {d : Char} {r : Nat × Nat} (hr : r ∈ Text.alphabeticRanges)
        (hd : r.1 ≤ d.toNat ∧ d.toNat ≤ r.2) : Token.startsWord d = true := by
      have halphabetic : Text.isAlphabetic d = true := (Text.isAlphabetic_iff d).mpr ⟨r, hr, hd⟩
      rw [Token.startsWord, halphabetic, Bool.true_or]
    exact Or.inr ⟨hrange (.tail _ (.head _)) ⟨by omega, by omega⟩,
      hrange (.head _) ⟨by omega, by omega⟩⟩
  · exact Or.inl (Numeral.toUpper_eq_self hlower)

theorem toUpper_eq_iff {c d : Char} (hd : Token.startsWord d = false) : c.toUpper = d ↔ c = d := by
  rcases toUpper_cases c with hc | ⟨hc, hc'⟩
  · rw [hc]
  · constructor
    · rintro rfl
      rw [hc'] at hd
      contradiction
    · rintro rfl
      rw [hc] at hd
      contradiction

/-- The letter of an exponent. -/
theorem toUpper_eq_E_iff (c : Char) : c.toUpper = 'e' ∨ c.toUpper = 'E' ↔ c = 'e' ∨ c = 'E' := by
  by_cases hlower : 'a'.val ≤ c.val ∧ c.val ≤ 'z'.val
  · obtain ⟨hval, hlow, hhigh⟩ := toNat_toUpper hlower
    simp only [← Char.toNat_inj]
    change c.toUpper.toNat = 101 ∨ c.toUpper.toNat = 69 ↔ c.toNat = 101 ∨ c.toNat = 69
    omega
  · rw [Numeral.toUpper_eq_self hlower]

theorem startsWord_eq_false_of_mem {c : Char} (h : c ∈ Token.punctuation ++ ['+', '\n']) :
    Token.startsWord c = false := by
  have hall : (Token.punctuation ++ ['+', '\n']).all (!Token.startsWord ·) = true := by
    decide +kernel
  simpa using List.all_eq_true.mp hall c h

/-- A class of characters that all letters belong to, or none. -/
def CaseBlind (p : Char → Bool) : Prop := ∃ b, ∀ c, Token.startsWord c = true → p c = b

namespace CaseBlind

variable {p : Char → Bool}

theorem toUpper (h : CaseBlind p) (c : Char) : p c.toUpper = p c := by
  obtain ⟨b, hp⟩ := h
  rcases toUpper_cases c with hc | ⟨hc, hc'⟩
  · rw [hc]
  · rw [hp c hc, hp _ hc']

theorem congr (h : CaseBlind p) {c c' : Char} (hc : c'.toUpper = c.toUpper) : p c' = p c := by
  rw [← h.toUpper c', hc, h.toUpper c]

theorem startsWord : CaseBlind Token.startsWord := ⟨true, fun _ => id⟩

theorem continuesWord : CaseBlind Token.continuesWord :=
  ⟨true, fun c hc => by rw [Token.continuesWord, hc, Bool.true_or]⟩

theorem isDigit : CaseBlind Char.isDigit :=
  ⟨false, fun _ => Token.isDigit_eq_false_of_startsWord⟩

theorem isBlank : CaseBlind Text.isBlank :=
  ⟨false, fun _ => Token.isBlank_eq_false_of_startsWord⟩

theorem not_isLineBreak : CaseBlind (!Token.isLineBreak ·) := by
  refine ⟨true, fun c hc => ?_⟩
  have hblank := Token.isBlank_eq_false_of_startsWord hc
  have hne : c ≠ '\n' ∧ c ≠ '\r' := by
    constructor <;> rintro rfl <;> revert hblank <;> decide
  simp [Token.isLineBreak, hne]

theorem isQuotable : CaseBlind Token.isQuotable := by
  obtain ⟨b, hb⟩ := not_isLineBreak
  refine ⟨b, fun c hc => ?_⟩
  have hquote : c ≠ '\'' := by
    rintro rfl
    exact Token.not_mem_punctuation_of_startsWord hc (by decide)
  rw [← hb c hc, Token.isQuotable, bne_iff_ne.mpr hquote, Bool.true_and]

end CaseBlind

end KarelKit
