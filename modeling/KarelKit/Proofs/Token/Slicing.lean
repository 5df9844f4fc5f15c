import KarelKit.Proofs.Token.Tiling

namespace KarelKit

/-- The characters that stand in the range, of a text that begins at `here`. -/
def Range.slice (range : Range) (here : Position) : List Char → List Char
  | [] => []
  | c :: text =>
    if range.start ≤ here ∧ ¬range.stop ≤ here then c :: range.slice (here.next c) text
    else range.slice (here.next c) text

/-- The part of a text that stands in the range. -/
def Range.cut (range : Range) (source : String) : String :=
  String.ofList (range.slice .first source.toList)

namespace Range

variable {range : Range} {here : Position} {front text : List Char}

theorem slice_before (h : here.after front ≤ range.start) :
    range.slice here (front ++ text) = range.slice (here.after front) text := by
  induction front generalizing here with
  | nil => rfl
  | cons c front ih =>
    have hlt : here < range.start :=
      Position.lt_of_lt_of_le (Position.lt_after_cons here c front) h
    rw [List.cons_append, slice, if_neg, ih h]
    · rfl
    · exact fun hin => Position.not_lt_of_le hin.1 hlt

theorem slice_inside (hstart : range.start ≤ here) (hstop : here.after front ≤ range.stop) :
    range.slice here (front ++ text) = front ++ range.slice (here.after front) text := by
  induction front generalizing here with
  | nil => rfl
  | cons c front ih =>
    have hlt : here < range.stop :=
      Position.lt_of_lt_of_le (Position.lt_after_cons here c front) hstop
    have hnext : range.start ≤ here.next c :=
      Position.le_trans hstart (Position.le_next here c)
    rw [List.cons_append, slice, if_pos, ih hnext hstop]
    · rfl
    · exact ⟨hstart, fun hle => Position.not_lt_of_le hle hlt⟩

theorem slice_after (h : range.stop ≤ here) : range.slice here text = [] := by
  induction text generalizing here with
  | nil => rfl
  | cons c text ih =>
    rw [slice, if_neg fun hin => hin.2 h]
    exact ih (Position.le_trans h (Position.le_next here c))

theorem slice_eq {back : List Char} :
    Range.slice ⟨here.after front, (here.after front).after text⟩ here (front ++ (text ++ back)) =
      text := by
  rw [slice_before (Position.le_refl _),
    slice_inside (Position.le_refl _) (Position.le_refl _), slice_after (Position.le_refl _),
    List.append_nil]

theorem slice_front (here : Position) (front text : List Char) :
    Range.slice ⟨here, here.after front⟩ here (front ++ text) = front := by
  have hslice := @slice_eq here [] front text
  exact hslice

end Range

namespace Token.Lexes

variable {here : Position} {text : List Char} {u v : List Lexeme}

/-- The same characters are the same tokens wherever they stand. -/
theorem moved (h : Lexes here text u) (there : Position) :
    ∃ v, Lexes there text v ∧ v.map (·.node) = u.map (·.node) := by
  induction h generalizing there with
  | nil => exact ⟨[], .nil, rfl⟩
  | @blank here c text u hc h ih =>
    obtain ⟨v, hv, hnodes⟩ := ih (there.next c)
    exact ⟨v, .blank hc hv, hnodes⟩
  | @token here c letters text t u hc ht h ih =>
    obtain ⟨v, hv, hnodes⟩ := ih (there.after (c :: letters))
    exact ⟨_, .token hc ht hv, by rw [List.map_cons, List.map_cons, hnodes]⟩

theorem lexFrom_eq (h : Lexes here text u) : lexFrom here text = .ok u := by
  induction h with
  | nil => rw [lexFrom]
  | blank hc h ih => rw [lexFrom, if_pos hc, ih]
  | @token here c letters text t u hc ht h ih =>
    rw [lexFrom, if_neg (by simp [hc]), ht.munch here]
    simp only [List.drop_left, ih]
    rfl

/-- The text from where a lexeme starts. -/
theorem drop {l : Lexeme} (h : Lexes here text (u ++ l :: v)) : ∃ front back,
    text = front ++ back ∧ l.range.start = here.after front ∧
      Lexes (here.after front) back (l :: v) := by
  generalize heq : u ++ l :: v = w at h
  induction h generalizing u with
  | nil => simp at heq
  | @blank here c text w hc h ih =>
    obtain ⟨front, back, rfl, hstart, hlexes⟩ := ih heq
    exact ⟨c :: front, back, rfl, hstart, hlexes⟩
  | @token here c letters text t w hc ht h ih =>
    cases u with
    | nil =>
      cases heq
      exact ⟨[], c :: (letters ++ text), rfl, rfl, .token hc ht h⟩
    | cons m u =>
      obtain ⟨rfl, htail⟩ := List.cons.inj heq
      obtain ⟨front, back, rfl, hstart, hlexes⟩ := ih htail
      have happend : here.after (c :: (letters ++ front)) =
          (here.after (c :: letters)).after front := Position.after_append here (c :: letters) front
      refine ⟨c :: (letters ++ front), back, by rw [List.cons_append, List.append_assoc], ?_, ?_⟩
      · rw [happend, hstart]
      · rw [happend]
        exact hlexes

/-- The text up to where a lexeme stops. -/
theorem take {l : Lexeme} (h : Lexes here text (u ++ l :: v)) : ∃ front back,
    text = front ++ back ∧ l.range.stop = here.after front ∧ Lexes here front (u ++ [l]) := by
  generalize heq : u ++ l :: v = w at h
  induction h generalizing u with
  | nil => simp at heq
  | @blank here c text w hc h ih =>
    obtain ⟨front, back, rfl, hstop, hlexes⟩ := ih heq
    exact ⟨c :: front, back, rfl, hstop, .blank hc hlexes⟩
  | @token here c letters text t w hc ht h ih =>
    cases u with
    | nil =>
      cases heq
      have hcut : Munches c (letters ++ []) t letters := ht.stable (by rw [List.nil_append])
      exact ⟨c :: (letters ++ []), text, by simp, by simp, .token hc hcut .nil⟩
    | cons m u =>
      obtain ⟨rfl, htail⟩ := List.cons.inj heq
      obtain ⟨front, back, rfl, hstop, hlexes⟩ := ih htail
      have hcut : Munches c (letters ++ front) t letters := ht.stable rfl
      refine ⟨c :: (letters ++ front), back, by simp, ?_, .token hc hcut hlexes⟩
      rw [hstop]
      exact (Position.after_append here (c :: letters) front).symm

/-- What stands in the place of a word is that word. -/
theorem slice_word (h : Lexes here text u) {l : Lexeme} (hl : l ∈ u) {w : String}
    (hw : l.node = .word w) : l.range.slice here text = w.toList := by
  induction h with
  | nil => contradiction
  | @blank here c text u _ h ih =>
    have hslice : l.range.slice here ([c] ++ text) = l.range.slice (here.next c) text :=
      Range.slice_before (h.rising.2 l hl)
    rw [← ih hl, ← hslice, List.singleton_append]
  | @token here c letters text t u _ ht h ih =>
    rw [← List.cons_append]
    rcases List.mem_cons.mp hl with rfl | hl
    · obtain rfl : t = .word w := hw
      have hletters : c :: letters = w.toList := ht.writtenAs
      rw [Range.slice_front, hletters]
    · rw [Range.slice_before (h.rising.2 l hl), ih hl]

end Token.Lexes

theorem cut_word {source : String} {text : Lexed} (hlex : lex source = .ok text) {l : Lexeme}
    (hl : l ∈ text.lexemes) {w : String} (hw : l.node = .word w) : l.range.cut source = w := by
  rw [Range.cut, (Token.lexes_of_lex hlex).slice_word hl hw, String.ofList_toList]

theorem lex_of_lexes {source : String} {u : List Lexeme}
    (h : Token.Lexes .first source.toList u) :
    lex source = .ok ⟨u, Position.first.after source.toList⟩ := by
  rw [lex, h.lexFrom_eq]
  rfl

/-- What is cut out of a text from the start of its lexeme `f` to the stop of `l` is read as the
lexemes from `f` to `l`. -/
theorem lex_cut {source : String} {text : Lexed} {x v y : List Lexeme} {f l : Lexeme}
    (hlex : lex source = .ok text) (htext : text.lexemes = x ++ (v ++ y)) (hf : v.head? = some f)
    (hl : v.getLast? = some l) : ∃ slice,
      lex (Range.cut ⟨f.range.start, l.range.stop⟩ source) = .ok slice ∧
        slice.lexemes.map (·.node) = v.map (·.node) := by
  have hlexes := Token.lexes_of_lex hlex
  obtain ⟨v', rfl⟩ := List.head?_eq_some_iff.mp hf
  rw [htext, List.cons_append] at hlexes
  obtain ⟨front, rest, hsource, hstart, hrest⟩ := hlexes.drop
  obtain ⟨v'', hlast⟩ := List.getLast?_eq_some_iff.mp hl
  rw [← List.cons_append, hlast, List.append_assoc] at hrest
  obtain ⟨middle, back, rfl, hstop, hmiddle⟩ := hrest.take
  obtain ⟨w, hw, hnodes⟩ := hmiddle.moved .first
  have hcut : Range.cut ⟨f.range.start, l.range.stop⟩ source = String.ofList middle := by
    rw [Range.cut, hsource, hstart, hstop, Range.slice_eq]
  refine ⟨⟨w, Position.first.after middle⟩, ?_, ?_⟩
  · rw [hcut, lex, String.toList_ofList, hw.lexFrom_eq]
    rfl
  · rw [hnodes, hlast]

end KarelKit
