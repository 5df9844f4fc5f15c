import KarelKit.Grammar.DataType
import KarelKit.Proofs.Grammar.Lexical

namespace KarelKit

/-- A motion group after a name makes it a position type. -/
def DataType.asPosition : DataType → DataType
  | .named name (some group) => .position name group
  | t => t

namespace Language

def group : Language Nat := do
  keyword .IN
  keyword .GROUP
  bracketed unsigned

def namedType : Language DataType := do
  let name ← typeName
  return .named name (← optional group)

def positionType : Language DataType := do
  let name ← name
  return .position name (← group)

def nameOrPosition : Language DataType := fun u t =>
  ∃ s, namedType u s ∧ t = if Grammar.namesPosition u then s.asPosition else s

end Language

namespace Grammar

open Rule
open KarelKit.Language (Outlined)

variable {n : Nat}

theorem group_parses :
    group.Parses Language.group ⟨false, [.keyword .IN], [.comment]⟩ n := by
  have hsize := Parses.unsigned.bracketed (n := n) (by decide) (by decide)
  have hgroup := (Parses.keyword .GROUP).bind (fun _ => hsize) (by decide)
  exact ((Parses.keyword .IN).bind (fun _ => hgroup) (by decide)).mono (by decide)

theorem namedType_parses : namedType.Parses Language.namedType
    ⟨false, [.name, .predefined], [.comment, .keyword .IN]⟩ n := by
  have hgroup := fun name : String =>
    (group_parses.optional (n := n) rfl (by decide)).map (DataType.named name)
  exact (Parses.typeName.bind hgroup (by decide)).mono (by decide)

theorem namedPosition_parses :
    (name >>= fun name => group >>= fun g => pure (.position name g)).Parses
      Language.positionType ⟨false, [.name], [.comment]⟩ n := by
  have hgroup := fun name : String => (group_parses (n := n)).map (DataType.position name)
  exact (Parses.name.bind hgroup (by decide)).mono (by decide)

theorem namesPosition_append {u v : List Lexeme} (h : namesPosition u = true) :
    namesPosition (u ++ v) = true := by
  match u, h with
  | _ :: _ :: _ :: _, h => exact h

theorem namesPosition_append_comment {u : List Lexeme} {l : Lexeme}
    (hl : l.node.isComment = true) : namesPosition (u ++ [l]) = namesPosition u := by
  have hgroup : l.node.isKeyword .GROUP = false := Token.isKeyword_of_isComment hl
  match u with
  | [] => rfl
  | [_] => rfl
  | [_, _] => simp [namesPosition, hgroup]
  | _ :: _ :: _ :: _ => rfl

theorem nameOrPosition_outlined : Language.nameOrPosition.Outlined
    ⟨false, [.name, .predefined], [.comment, .keyword .IN]⟩ := by
  apply (namedType_parses (n := 0)).outlined.refine
    (f := fun u s => if namesPosition u then s.asPosition else s)
  intro u a l hl
  rw [namesPosition_append_comment hl]

theorem namedType_begins {u : List Lexeme} (h : Language.nameOrPosition.Begins u) :
    Language.namedType.Begins u := by
  obtain ⟨v, t, s, hs, -⟩ := h
  exact ⟨v, s, hs⟩

theorem namedType_of_positionType {u : List Lexeme} {t : DataType}
    (h : Language.positionType u t) : ∃ s, Language.namedType u s ∧ s.asPosition = t := by
  obtain ⟨v, w, name, rfl, ⟨l, rfl, hl⟩, hw⟩ := h
  obtain ⟨g, hg, rfl⟩ := Language.bind_pure_iff.mp hw
  obtain ⟨hword, hreserved⟩ := Token.name?_eq_some hl
  have htypeName : l.node.typeName? = some name := by
    rw [hword, Token.typeName?_word (Or.inl hreserved)]
  refine ⟨.named name (some g), ?_, rfl⟩
  exact Language.bind_intro ⟨l, rfl, htypeName⟩ (Language.bind_pure (a := some g) hg)

theorem positionType_of_namedType {l : Lexeme} {u : List Lexeme} {s : DataType}
    (hl : l.node.name?.isSome = true) (hu : u ≠ []) (h : Language.namedType (l :: u) s) :
    Language.positionType (l :: u) s.asPosition := by
  obtain ⟨v, w, name, heq, ⟨m, rfl, hm⟩, hw⟩ := h
  obtain ⟨g, hg, rfl⟩ := Language.bind_pure_iff.mp hw
  obtain ⟨rfl, hu'⟩ := List.cons.inj heq
  obtain rfl : w = u := hu'.symm
  cases g with
  | none =>
    have hnil : w = [] := hg
    contradiction
  | some g =>
    obtain ⟨name', hname⟩ := Option.isSome_iff_exists.mp hl
    have hname' : name' = name := by
      have hword := (Token.name?_eq_some hname).1
      rw [(Token.typeName?_eq_some hm).1] at hword
      exact (Token.word.inj hword).symm
    subst hname'
    exact ⟨[l], w, _, rfl, ⟨l, rfl, hname⟩, Language.bind_pure hg⟩

theorem positionType_begins {first second third : Lexeme}
    (h : namesPosition [first, second, third] = true) :
    Language.positionType.Begins [first, second, third] := by
  simp only [namesPosition, Bool.and_eq_true] at h
  obtain ⟨name, hname⟩ := Option.isSome_iff_exists.mp h.1.1
  have hsize := Parses.unsigned.bracketed (n := 0) (by decide) (by decide)
  obtain ⟨w, g, hw, -⟩ := hsize.outlined.viable
  have hgroup : Language.group ([second] ++ ([third] ++ w)) g :=
    Language.bind_intro (Language.keyword_of_isKeyword h.1.2)
      (Language.bind_intro (Language.keyword_of_isKeyword h.2) hw)
  exact ⟨w, .position name g, [first], _, name, rfl, ⟨first, rfl, hname⟩,
    Language.bind_pure hgroup⟩

variable {r : Rule DataType} {L : Language DataType} {o : Outline} {c : Cursor}

theorem follows_of_namesPosition_eq_false (h : namesPosition c.ahead = false)
    {rc : Outcome DataType} (hrc : rc.Follows (L <|> Language.namedType) c) :
    rc.Follows (L <|> Language.nameOrPosition) c := by
  -- what begins a position type begins a type known by name as well
  have hhalts : ∀ {u c'}, (L <|> Language.namedType).Halts u c' →
      (L <|> Language.nameOrPosition).Halts u c' := by
    intro u c' halts l hl hbegins
    apply halts l hl
    rcases Language.begins_orElse hbegins with ⟨v, t, hv⟩ | hbegins
    · exact ⟨v, t, Or.inl hv⟩
    · obtain ⟨v, s, hs⟩ := namedType_begins hbegins
      exact ⟨v, s, Or.inr hs⟩
  cases hrc with
  | @ok u t c' past halts sentence =>
    apply Outcome.Follows.ok past (hhalts halts)
    apply sentence.imp_right
    intro hs
    refine ⟨t, hs, ?_⟩
    rw [if_neg]
    intro hu
    rw [past.ahead, namesPosition_append hu] at h
    contradiction
  | error past halts viable rejects =>
    apply Outcome.Follows.error past (hhalts halts)
    · obtain ⟨v, t, hv, hvl⟩ := viable
      rcases hv with hv | hv
      · exact ⟨v, t, Or.inl hv, hvl⟩
      · exact ⟨v, _, Or.inr ⟨t, hv, rfl⟩, hvl⟩
    · intro t ht
      rcases ht with ht | ⟨s, hs, -⟩
      · exact rejects t (Or.inl ht)
      · exact rejects s (Or.inr hs)

theorem follows_of_namesPosition (hL : L.Outlined o) (hname : .name ∉ o.first)
    (h : namesPosition c.ahead = true) {rc : Outcome DataType}
    (hrc : rc.Follows Language.positionType c) :
    rc.Follows (L <|> Language.nameOrPosition) c ∧
      ∀ e c', rc = .error e c' → c'.size ≠ c.size := by
  -- three lexemes are known to be ahead, and whatever is read takes them in
  obtain ⟨first, second, third, rest, hahead⟩ : ∃ first second third rest,
      c.ahead = first :: second :: third :: rest := by
    generalize c.ahead = ahead at h
    match ahead, h with
    | first :: second :: third :: rest, _ => exact ⟨first, second, third, rest, rfl⟩
  rw [hahead] at h
  have htaken : ∀ {u c'}, c.Past u c' → Language.positionType.Halts u c' →
      ∃ w, u = first :: second :: third :: w := fun past halts =>
    past.begins_of_halts halts (positionType_begins h) hahead.symm
  have hfirst : first.node.name?.isSome = true := by
    simp only [namesPosition, Bool.and_eq_true] at h
    exact h.1.1
  have hnone : ∀ w, ¬L.Begins (first :: w) := by
    intro w hbegins
    obtain ⟨name, hname'⟩ := Option.isSome_iff_exists.mp hfirst
    have hterminal := hL.first (Language.Begins.of_append (u := [first]) hbegins)
    rw [Token.terminal_of_name? hname'] at hterminal
    exact hname hterminal
  -- with two lexemes read, types known by name go on no further than position types
  have hhalts : ∀ {w c'}, Language.positionType.Halts (first :: second :: w) c' →
      (L <|> Language.nameOrPosition).Halts (first :: second :: w) c' := by
    intro w c' halts l hl hbegins
    rcases Language.begins_orElse hbegins with hbegins | hbegins
    · exact hnone _ hbegins
    · obtain ⟨v, s, hs⟩ := namedType_begins hbegins
      exact halts l hl ⟨v, _, positionType_of_namedType hfirst (by simp) hs⟩
  cases hrc with
  | @ok u t c' past halts sentence =>
    refine ⟨?_, fun e c' h => by contradiction⟩
    obtain ⟨w, rfl⟩ := htaken past halts
    apply Outcome.Follows.ok past (hhalts halts)
    obtain ⟨s, hs, rfl⟩ := namedType_of_positionType sentence
    exact Or.inr ⟨s, hs, (if_pos h).symm⟩
  | @error u expected c' past halts viable rejects =>
    obtain ⟨w, rfl⟩ := htaken past halts
    constructor
    · apply Outcome.Follows.error past (hhalts halts)
      · obtain ⟨v, t, hv, hvl⟩ := viable
        obtain ⟨s, hs, -⟩ := namedType_of_positionType hv
        exact ⟨v, _, Or.inr ⟨s, hs, rfl⟩, hvl⟩
      · intro t ht
        rcases ht with ht | ⟨s, hs, -⟩
        · exact hnone _ (Language.viable_of_sentence ht).begins
        · exact rejects _ (positionType_of_namedType hfirst (by simp) hs)
    · intro e c'' heq
      cases heq
      rw [Ne, past.size_eq_iff]
      exact List.cons_ne_nil _ _

/-- A position type is tried before a name. -/
theorem nameOrPosition_parses (hr : r.Parses L o n) (ho : o.empty = false)
    (hname : .name ∉ o.first) (hpredefined : .predefined ∉ o.first) :
    (positionType <|> r <|> namedType).Parses (L <|> Language.nameOrPosition)
      (o.either ⟨false, [.name, .predefined], [.comment, .keyword .IN]⟩) n := by
  have hfirst : ∀ x ∈ o.first, x ∉ [.name, .predefined] := by
    intro x hx hx'
    simp only [List.mem_cons, List.not_mem_nil, or_false] at hx'
    rcases hx' with rfl | rfl
    · exact hname hx
    · exact hpredefined hx
  refine ⟨hr.outlined.orElse nameOrPosition_outlined ho rfl hfirst, fun {c} hc => ?_⟩
  by_cases h : namesPosition c.ahead = true
  · -- past the look ahead the position type is committed to
    have hposition : positionType c =
        (name >>= fun name => group >>= fun g => pure (.position name g)) c := by
      rw [positionType, bind_apply, lookahead, if_pos h]
    obtain ⟨hfollows, hmoved⟩ := follows_of_namesPosition hr.outlined hname h
      (namedPosition_parses.follows hc)
    rw [← hposition] at hfollows hmoved
    exact Parses.orElse_of_moved hfollows hmoved
  · -- refused without a token taken, so the other two rules decide
    have hrefused : positionType c = .error (c.unexpected [.positionType]) c := by
      rw [positionType, bind_apply, lookahead, if_neg h]
      rfl
    apply Parses.orElse_of_refused hrefused
    apply follows_of_namesPosition_eq_false (Bool.eq_false_iff.mpr h)
    exact (hr.orElse namedType_parses ho rfl hfirst).follows hc

end Grammar
end KarelKit
