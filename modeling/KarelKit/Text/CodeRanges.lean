namespace KarelKit.Text

/-- Membership in a list of closed ranges in rising order: the search stops at the first range
that begins beyond the point. -/
def withinRanges : List (Nat × Nat) → Nat → Bool
  | [], _ => false
  | (low, high) :: ranges, n => low ≤ n && (n ≤ high || withinRanges ranges n)

/-- Each range is nonempty, begins after `floor`, and ends before the next one begins. -/
def RisesFrom : Nat → List (Nat × Nat) → Prop
  | _, [] => True
  | floor, (low, high) :: ranges => floor ≤ low ∧ low ≤ high ∧ RisesFrom (high + 1) ranges

instance decidableRisesFrom : (floor : Nat) → (ranges : List (Nat × Nat)) →
    Decidable (RisesFrom floor ranges)
  | _, [] => inferInstanceAs (Decidable True)
  | _, (_, high) :: ranges =>
    have := decidableRisesFrom (high + 1) ranges
    inferInstanceAs (Decidable (_ ∧ _ ∧ _))

theorem le_of_mem_of_risesFrom {floor : Nat} {ranges : List (Nat × Nat)}
    (h : RisesFrom floor ranges) {r : Nat × Nat} (hr : r ∈ ranges) : floor ≤ r.1 := by
  induction ranges generalizing floor with
  | nil => simp at hr
  | cons head tail ih =>
    obtain ⟨hfloor, hhead, htail⟩ := h
    rcases List.mem_cons.mp hr with rfl | hr
    · exact hfloor
    · have := ih htail hr
      omega

theorem withinRanges_iff {floor : Nat} {ranges : List (Nat × Nat)} (h : RisesFrom floor ranges)
    (n : Nat) : withinRanges ranges n = true ↔ ∃ r ∈ ranges, r.1 ≤ n ∧ n ≤ r.2 := by
  induction ranges generalizing floor with
  | nil => simp [withinRanges]
  | cons head tail ih =>
    obtain ⟨hfloor, hhead, htail⟩ := h
    simp only [withinRanges, Bool.and_eq_true, Bool.or_eq_true, decide_eq_true_eq, ih htail,
      List.mem_cons, exists_eq_or_imp]
    constructor
    · rintro ⟨hlow, hhigh | hmem⟩
      · exact Or.inl ⟨hlow, hhigh⟩
      · exact Or.inr hmem
    · rintro (⟨hlow, hhigh⟩ | ⟨r, hr, hlow, hhigh⟩)
      · exact ⟨hlow, Or.inl hhigh⟩
      · have := le_of_mem_of_risesFrom htail hr
        exact ⟨by omega, Or.inr ⟨r, hr, hlow, hhigh⟩⟩

end KarelKit.Text
