import KarelKit.Proofs.Walk.Basic

namespace KarelKit

/-- The cursor of a rule that stands where the walk does. -/
def Lexed.cursor (text : Lexed) (w : Walker) : Cursor :=
  { ahead := text.lexemes.drop w.index
    size := text.lexemes.length - w.index
    lastEnd := w.lastEnd
    stop := text.stop
    size_eq := by simp }

namespace Lexed

variable {text : Lexed} {w w' : Walker} {index : Nat}

theorem look_lexeme {l : Lexeme} (h : text.lexemes[index]? = some l) :
    text.look index = ⟨some l.node, l.range⟩ := by
  obtain ⟨hindex, hl⟩ := List.getElem?_eq_some_iff.mp h
  have hmin : min index text.last = index := Nat.min_eq_left (Nat.le_of_lt hindex)
  simp only [look, List.get_eq_getElem, hmin, row]
  rw [List.getElem_append_left (by simpa using hindex), List.getElem_map, hl]

theorem look_end (h : text.lexemes[index]? = none) :
    text.look index = ⟨none, ⟨text.stop, text.stop⟩⟩ := by
  have hmin : min index text.last = text.last := Nat.min_eq_right (List.getElem?_eq_none_iff.mp h)
  simp only [look, List.get_eq_getElem, hmin, row]
  rw [List.getElem_append_right (by simp [last])]
  simp [last]

theorem node_look (text : Lexed) (index : Nat) :
    (text.look index).node = (text.lexemes[index]?).map (·.node) := by
  cases h : text.lexemes[index]? with
  | none => rw [look_end h]; rfl
  | some l => rw [look_lexeme h]; rfl

theorem getElem?_ahead (text : Lexed) (w : Walker) (n : Nat) :
    (text.cursor w).ahead[n]? = text.lexemes[w.index + n]? := List.getElem?_drop

theorem head?_ahead (text : Lexed) (w : Walker) :
    (text.cursor w).ahead.head? = text.lexemes[w.index]? := by
  rw [List.head?_eq_getElem?, getElem?_ahead, Nat.add_zero]

theorem node_look_eq (text : Lexed) (w : Walker) :
    (text.look w.index).node = (text.cursor w).ahead.head?.map (·.node) := by
  rw [node_look, head?_ahead]

theorem start_look (text : Lexed) (w : Walker) :
    (text.look w.index).range.start = (text.cursor w).here := by
  have hhead := text.head?_ahead w
  unfold Cursor.here
  cases hahead : (text.cursor w).ahead with
  | nil =>
    rw [hahead] at hhead
    rw [look_end hhead.symm]
    rfl
  | cons l tail =>
    rw [hahead] at hhead
    rw [look_lexeme hhead.symm]

theorem foundAt_look (text : Lexed) (w : Walker) :
    Walk.foundAt (text.look w.index).node = (text.cursor w).found := by
  rw [node_look_eq]
  unfold Cursor.found
  cases (text.cursor w).ahead <;> rfl

theorem cursor_start (text : Lexed) : text.cursor .start = .start text := rfl

theorem take_cursor {l : Lexeme} (hl : text.lexemes[w.index]? = some l) :
    (text.cursor w).take = text.cursor ⟨w.index + 1, l.range.stop⟩ := by
  have hhead := (text.head?_ahead w).trans hl
  apply Cursor.ext
  · exact List.tail_drop
  · simp only [Cursor.take, hhead]
    rfl
  · rfl

theorem skipComments_comment {l : Lexeme} (hl : text.lexemes[w.index]? = some l)
    (hcomment : l.node.isComment = true) :
    (text.cursor w).skipComments = (text.cursor ⟨w.index + 1, w.lastEnd⟩).skipComments := by
  have hahead : (text.cursor w).ahead = l :: (text.cursor ⟨w.index + 1, w.lastEnd⟩).ahead := by
    obtain ⟨hindex, rfl⟩ := List.getElem?_eq_some_iff.mp hl
    exact List.drop_eq_getElem_cons hindex
  apply Cursor.ext
  · rw [Cursor.ahead_skipComments, Cursor.ahead_skipComments, hahead]
    exact List.dropWhile_cons_of_pos hcomment
  · rfl
  · rfl

theorem skipComments_clear (h : (text.look w.index).node.any Token.isComment = false) :
    (text.cursor w).skipComments = text.cursor w := by
  rw [node_look_eq] at h
  apply Cursor.ext
  · rw [Cursor.ahead_skipComments]
    cases hahead : (text.cursor w).ahead with
    | nil => rfl
    | cons l tail =>
      rw [hahead] at h
      exact List.dropWhile_cons_of_neg (Bool.eq_false_iff.mp h)
  · rfl
  · rfl

theorem lt_last_of_lexeme {l : Lexeme} (h : text.lexemes[index]? = some l) : index < text.last :=
  (List.getElem?_eq_some_iff.mp h).1

theorem eq_of_cursor_eq (hw : w.index ≤ text.last) (hw' : w'.index ≤ text.last)
    (h : text.cursor w = text.cursor w') : w = w' := by
  have hsize : text.lexemes.length - w.index = text.lexemes.length - w'.index :=
    congrArg Cursor.size h
  have hend : w.lastEnd = w'.lastEnd := congrArg Cursor.lastEnd h
  unfold last at hw hw'
  obtain ⟨index, lastEnd⟩ := w
  obtain ⟨index', lastEnd'⟩ := w'
  simp only at hsize hend hw hw'
  rw [hend, Walker.mk.injEq]
  exact ⟨by omega, rfl⟩

theorem index_lt_of_size_lt (h : (text.cursor w').size < (text.cursor w).size) :
    w.index < w'.index := by
  simp only [cursor] at h
  omega

theorem size_le_of_index_le (h : w.index ≤ w'.index) :
    (text.cursor w').size ≤ (text.cursor w).size :=
  Nat.sub_le_sub_left h _

end Lexed

namespace Event

/-- Where the walk is at the event. -/
def index : Event → Nat
  | look index => index
  | take index => index
  | pass index => index
  | round _ after => after
  | failed _ after _ => after.index
  | resumed _ after => after.index

/-- Where the walk was at the earliest that the event tells of. -/
def since : Event → Nat
  | look index => index
  | take index => index
  | pass index => index
  | round before _ => before
  | failed before _ _ => before.index
  | resumed before _ => before.index

/-- The index of the token that is taken or passed over. -/
def moved? : Event → Option Nat
  | take index => some index
  | pass index => some index
  | _ => none

end Event

/-- Between two places on a walk a token stands that is no comment. -/
def Walker.Commits (text : Lexed) (w w' : Walker) : Prop :=
  ∃ index l, w.index ≤ index ∧ index < w'.index ∧ text.lexemes[index]? = some l ∧
    l.node.isComment = false

/-- No look and no step goes beyond the end, only comments are passed over, a loop goes round again
only further on, and a failure is told where the walk is, either with a token taken or with nothing
changed. -/
def Event.Sound (text : Lexed) : Event → Prop
  | look index => index ≤ text.last
  | take index => index < text.last
  | pass index => ∃ l, text.lexemes[index]? = some l ∧ l.node.isComment = true
  | round before after => before < after
  | failed before after e => e.position = (text.look after.index).range.start ∧
      (after = before ∨ before.Commits text after)
  | resumed before after => after = before

/-- The log of a walk between two indices. It tells of nothing before the first one. -/
inductive Orderly (text : Lexed) (i : Nat) : List Event → Nat → Prop
  | nil : Orderly text i [] i
  | stay {j : Nat} {e : Event} {log : List Event} (before : Orderly text i log j)
    (sound : e.Sound text) (here : e.index = j) (since : i ≤ e.since) (still : e.moved? = none) :
    Orderly text i (log ++ [e]) j
  | move {j : Nat} {e : Event} {log : List Event} (before : Orderly text i log j)
    (sound : e.Sound text) (moved : e.moved? = some j) : Orderly text i (log ++ [e]) (j + 1)

namespace Event

variable {text : Lexed} {e : Event} {i : Nat}

theorem index_of_moved? (h : e.moved? = some i) : e.index = i := by
  cases e with
  | take index => exact Option.some.inj h
  | pass index => exact Option.some.inj h
  | _ => contradiction

theorem since_of_moved? (h : e.moved? = some i) : e.since = i := by
  cases e with
  | take index => exact Option.some.inj h
  | pass index => exact Option.some.inj h
  | _ => contradiction

theorem Sound.lt_last (h : e.Sound text) (hi : e.moved? = some i) : i < text.last := by
  cases e with
  | take index =>
    obtain rfl := Option.some.inj hi
    exact h
  | pass index =>
    obtain rfl := Option.some.inj hi
    obtain ⟨l, hl, -⟩ := h
    exact Lexed.lt_last_of_lexeme hl
  | _ => contradiction

end Event

namespace Orderly

variable {text : Lexed} {i j k : Nat} {log log' : List Event} {e : Event}

theorem single (sound : e.Sound text) (here : e.index = i) (since : i ≤ e.since)
    (still : e.moved? = none) : Orderly text i [e] i :=
  .stay .nil sound here since still

theorem single_move (sound : e.Sound text) (moved : e.moved? = some i) :
    Orderly text i [e] (i + 1) :=
  .move .nil sound moved

theorem le (h : Orderly text i log j) : i ≤ j := by
  induction h with
  | nil => exact Nat.le_refl i
  | stay _ _ _ _ _ ih => exact ih
  | move _ _ _ ih => exact Nat.le_succ_of_le ih

theorem append (h : Orderly text i log j) (h' : Orderly text j log' k) :
    Orderly text i (log ++ log') k := by
  have hle := h.le
  induction h' with
  | nil => rwa [List.append_nil]
  | stay _ sound here since still ih =>
    rw [← List.append_assoc]
    exact .stay ih sound here (Nat.le_trans hle since) still
  | move _ sound moved ih =>
    rw [← List.append_assoc]
    exact .move ih sound moved

theorem le_last (h : Orderly text i log j) (hi : i ≤ text.last) : j ≤ text.last := by
  induction h with
  | nil => exact hi
  | stay _ _ _ _ _ ih => exact ih
  | move _ sound moved _ => exact sound.lt_last moved

theorem sound (h : Orderly text i log j) (he : e ∈ log) : e.Sound text := by
  induction h with
  | nil => contradiction
  | stay _ sound _ _ _ ih =>
    rcases List.mem_append.mp he with he | he
    · exact ih he
    · rwa [List.mem_singleton.mp he]
  | move _ sound _ ih =>
    rcases List.mem_append.mp he with he | he
    · exact ih he
    · rwa [List.mem_singleton.mp he]

theorem since_le (h : Orderly text i log j) (he : e ∈ log) : i ≤ e.since := by
  induction h with
  | nil => contradiction
  | stay _ _ _ since _ ih =>
    rcases List.mem_append.mp he with he | he
    · exact ih he
    · rwa [List.mem_singleton.mp he]
  | move before _ moved ih =>
    rcases List.mem_append.mp he with he | he
    · exact ih he
    · rw [List.mem_singleton.mp he, Event.since_of_moved? moved]
      exact before.le

theorem index_le (h : Orderly text i log j) (he : e ∈ log) : e.index ≤ j := by
  induction h with
  | nil => contradiction
  | stay _ _ here _ _ ih =>
    rcases List.mem_append.mp he with he | he
    · exact ih he
    · rw [List.mem_singleton.mp he]
      exact Nat.le_of_eq here
  | move _ _ moved ih =>
    rcases List.mem_append.mp he with he | he
    · exact Nat.le_succ_of_le (ih he)
    · rw [List.mem_singleton.mp he, Event.index_of_moved? moved]
      exact Nat.le_succ _

theorem pairwise (h : Orderly text i log j) : log.Pairwise fun e e' => e.index ≤ e'.index := by
  induction h with
  | nil => exact .nil
  | stay before _ here _ _ ih =>
    refine List.pairwise_append.mpr ⟨ih, List.pairwise_singleton _ _, fun e he e' he' => ?_⟩
    rw [List.mem_singleton.mp he', here]
    exact before.index_le he
  | move before _ moved ih =>
    refine List.pairwise_append.mpr ⟨ih, List.pairwise_singleton _ _, fun e he e' he' => ?_⟩
    rw [List.mem_singleton.mp he', Event.index_of_moved? moved]
    exact before.index_le he

/-- Each token on the way is taken or passed over once. -/
theorem moves (h : Orderly text i log j) :
    log.filterMap Event.moved? = List.range' i (j - i) := by
  induction h with
  | nil => simp
  | stay _ _ _ _ still ih =>
    rw [List.filterMap_append, ih, List.filterMap_cons_none still, List.filterMap_nil,
      List.append_nil]
  | @move j e log before _ moved ih =>
    have hle := before.le
    have hlength : j + 1 - i = j - i + 1 := by omega
    have hlast : i + (j - i) = j := by omega
    rw [List.filterMap_append, ih, List.filterMap_cons_some moved, List.filterMap_nil, hlength,
      List.range'_1_concat, hlast]

/-- A token that is no comment is not passed over but taken. -/
theorem take_mem {l : Lexeme} {index : Nat} (h : Orderly text i log j) (hi : i ≤ index)
    (hj : index < j) (hl : text.lexemes[index]? = some l) (hcomment : l.node.isComment = false) :
    .take index ∈ log := by
  have hmoved : index ∈ log.filterMap Event.moved? := by
    rw [h.moves, List.mem_range'_1]
    omega
  obtain ⟨e, he, hindex⟩ := List.mem_filterMap.mp hmoved
  cases e with
  | take index' =>
    obtain rfl := Option.some.inj hindex
    exact he
  | pass index' =>
    obtain rfl := Option.some.inj hindex
    obtain ⟨m, hm, hmcomment⟩ := h.sound he
    rw [hl] at hm
    obtain rfl := Option.some.inj hm
    rw [hcomment] at hmcomment
    contradiction
  | _ => contradiction

end Orderly

end KarelKit
