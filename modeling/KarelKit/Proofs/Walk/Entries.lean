import KarelKit.Proofs.Grammar.Parsing
import KarelKit.Proofs.Walk.Declarations

namespace KarelKit

open Walk

variable {α : Type} {text : Lexed}

/-- No look and no step is made at an index beyond the end, the index never goes back, each token up
to where reading ends is taken or passed over once, and each round of a loop begins further on. -/
structure Run.Steady (text : Lexed) (run : Run α) : Prop where
  within : ∀ e ∈ run.log, e.index ≤ text.last
  taken {index : Nat} (h : .take index ∈ run.log) : index < text.last
  passed {index : Nat} (h : .pass index ∈ run.log) :
    ∃ l, text.lexemes[index]? = some l ∧ l.node.isComment = true
  ordered : run.log.Pairwise fun e e' => e.index ≤ e'.index
  once : run.log.filterMap Event.moved? = List.range run.walker.index
  ends : run.walker.index ≤ text.last
  further {before after : Nat} (h : .round before after ∈ run.log) : before < after

/-- A failure of a rule that was given to another names the place it has come to. Either it has left
everything as it was, or a token was taken that is no comment. What is tried next begins where the
rule that has failed began. -/
structure Run.Accountable (text : Lexed) (run : Run α) : Prop where
  position {before after : Walker} {e : ParseError} (h : .failed before after e ∈ run.log) :
    e.position = (text.look after.index).range.start
  committed {before after : Walker} {e : ParseError} (h : .failed before after e ∈ run.log) :
    after = before ∨ ∃ index l, before.index ≤ index ∧ index < after.index ∧
      .take index ∈ run.log ∧ text.lexemes[index]? = some l ∧ l.node.isComment = false
  resumed {before after : Walker} (h : .resumed before after ∈ run.log) : after = before

theorem Run.steady_of_orderly {run : Run α} (h : Orderly text 0 run.log run.walker.index) :
    run.Steady text := by
  have hlast := h.le_last (Nat.zero_le _)
  constructor
  case within => exact fun e he => Nat.le_trans (h.index_le he) hlast
  case taken => exact fun he => h.sound he
  case passed => exact fun he => h.sound he
  case ordered => exact h.pairwise
  case once =>
    rw [h.moves, List.range_eq_range']
    rfl
  case ends => exact hlast
  case further => exact fun he => h.sound he

theorem Run.accountable_of_orderly {run : Run α} {i : Nat}
    (h : Orderly text i run.log run.walker.index) : run.Accountable text := by
  constructor
  case position => exact fun he => (h.sound he).1
  case committed =>
    intro before after e he
    refine (h.sound he).2.imp_right fun ⟨index, l, hbefore, hafter, hl, hcomment⟩ => ?_
    have hi : i ≤ before.index := h.since_le he
    have hj : after.index ≤ run.walker.index := h.index_le he
    have htake := h.take_mem (Nat.le_trans hi hbefore) (Nat.lt_of_lt_of_le hafter hj) hl hcomment
    exact ⟨index, l, hbefore, hafter, htake, hl, hcomment⟩
  case resumed => exact fun he => h.sound he

namespace Walk

variable {n : Nat}

theorem amidComments_performs {r : Walk α} {s : Rule α} (hr : r.Performs s n) :
    (amidComments r).Performs
      (Rule.skipComments >>= fun _ => s >>= fun a => Rule.skipComments >>= fun _ => pure a) n :=
  Performs.passComments.bind fun _ => hr.trailing

theorem entry_performs (entry : Entry) :
    (amidComments entry.walk).Performs (Rule.skipComments >>= fun _ => entry.rule >>= fun a =>
      Rule.skipComments >>= fun _ => pure a) n := by
  cases entry with
  | declarations =>
    refine (amidComments_performs (declarations_performs.map Tree.declarations)).congr
      fun {c} _ => ?_
    simp only [Rule.bind_apply, Rule.skipComments_apply, Rule.skipComments_skipComments]
    rfl
  | typeDeclaration =>
    exact amidComments_performs (typeDeclaration_performs.located.map Tree.typeDeclaration)
  | userType => exact amidComments_performs (userType_performs.located.map Tree.userType)
  | dataType => exact amidComments_performs (dataType_performs.located.map Tree.dataType)
  | constant => exact amidComments_performs (constant_performs.located.map Tree.constant)
  | value => exact amidComments_performs (value_performs.located.map Tree.value)

/-- Only the end of the text may be ahead at last. -/
theorem whole_gives (entry : Entry) (text : Lexed) :
    ∃ run, (∀ run', whole entry.walk text .start run' ↔ run' = run) ∧
      Orderly text 0 run.log run.walker.index ∧ run.result = Rule.readAll entry.rule text := by
  have hgives : (amidComments entry.walk).Gives text .start _ :=
    (entry_performs entry).gives (Nat.zero_le _) (Nat.lt_succ_self _)
  rw [Rule.readAll_eq]
  rw [text.cursor_start] at hgives
  -- the end of the text is looked for only where the entry has been read
  cases hout : (Rule.skipComments >>= fun _ => entry.rule >>= fun a =>
      Rule.skipComments >>= fun _ => pure a) (.start text) with
  | error e c =>
    rw [hout] at hgives
    obtain ⟨log, w', -, horder, hunique⟩ := hgives.bind_error.exists_error
    exact ⟨_, hunique, horder, rfl⟩
  | ok a c =>
    rw [hout] at hgives
    by_cases hempty : c.ahead.isEmpty = true
    · have hwhole : (whole entry.walk).Gives text .start (.ok a c) := by
        refine hgives.bind_ok fun {w'} hc _ hlast => Gives.look_bind (hlast (Nat.zero_le _)) ?_
        subst hc
        rw [if_pos (by rw [text.node_look_eq, List.isEmpty_iff.mp hempty]; rfl)]
        exact Gives.pure a
      obtain ⟨log, w', -, horder, hunique⟩ := hwhole.exists_ok
      exact ⟨_, hunique, horder, by rw [Outcome.finish, if_pos hempty]⟩
    · have hwhole : (whole entry.walk).Gives text .start (.error (c.unexpected [.endOfInput]) c) := by
        refine hgives.bind_ok fun {w'} hc _ hlast => Gives.look_bind (hlast (Nat.zero_le _)) ?_
        subst hc
        rw [if_neg]
        · exact (Performs.unexpected _).gives (hlast (Nat.zero_le _)) (Nat.lt_succ_self _)
        · rwa [text.node_look_eq, Option.map_eq_none_iff, List.head?_eq_none_iff,
            ← List.isEmpty_iff]
      obtain ⟨log, w', -, horder, hunique⟩ := hwhole.exists_error
      exact ⟨_, hunique, horder, by rw [Outcome.finish, if_neg hempty]⟩

end Walk

variable {source : String}

/-- Reading any text by any entry ends, in one way only, with what parsing the text gives, and the
walk is steady all along. -/
theorem parse_steady (entry : Entry) (hlex : lex source = .ok text) :
    ∃ run, (∀ run', entry.walk.whole text .start run' ↔ run' = run) ∧
      run.result = parse entry source ∧ run.Steady text := by
  obtain ⟨run, hunique, horder, hresult⟩ := whole_gives entry text
  rw [parse_of_lex hlex, ← hresult]
  exact ⟨run, hunique, rfl, Run.steady_of_orderly horder⟩

/-- A text of two sections, with a comment inside of an open array's type. -/
theorem parse_steady_sections : ∃ text d run,
    lex "type t = array of -- c\nk\nconst a = 1" = .ok text ∧
    (∀ run', (Entry.declarations.walk).whole text .start run' ↔ run' = run) ∧
    run.result = .ok d ∧ run.Steady text := by
  obtain ⟨hlex, hparse, -⟩ := parse_sections
  obtain ⟨run, hunique, hresult, hsteady⟩ := parse_steady .declarations hlex
  exact ⟨_, _, run, hlex, hunique, hresult.trans hparse, hsteady⟩

/-- Wherever reading by any entry begins, every failure that is caught on the way can be accounted
for, at any depth of the grammar. -/
theorem walk_accountable (entry : Entry) {w : Walker} (hw : w.index ≤ text.last) :
    ∃ run, (∀ run', amidComments entry.walk text w run' ↔ run' = run) ∧
      run.outcome text = (Rule.skipComments >>= fun _ => entry.rule >>= fun a =>
        Rule.skipComments >>= fun _ => pure a) (text.cursor w) ∧
      run.Accountable text := by
  obtain ⟨run, hrun, horder, hunique⟩ := (entry_performs entry).gives hw (Nat.lt_succ_self _)
  exact ⟨run, hunique, hrun, Run.accountable_of_orderly horder⟩

/-- A bracket behind a comment begins none of the four kinds of values. -/
theorem walk_accountable_bracket : ∃ text : Lexed,
    text = ⟨[⟨.comment " c", ⟨⟨1, 1⟩, ⟨1, 5⟩⟩⟩, ⟨.mark .leftBracket, ⟨⟨2, 1⟩, ⟨2, 2⟩⟩⟩], ⟨2, 2⟩⟩ ∧
    Walker.start.index ≤ text.last ∧
    ∃ run, (∀ run', amidComments (Entry.walk .value) text .start run' ↔ run' = run) ∧
      run.result = .error
        ⟨⟨2, 1⟩, [.number, .string, .boolean, .name], .token (.mark .leftBracket)⟩ ∧
      run.Accountable text := by
  obtain ⟨text, htext⟩ : ∃ text : Lexed, text = ⟨[⟨.comment " c", ⟨⟨1, 1⟩, ⟨1, 5⟩⟩⟩,
    ⟨.mark .leftBracket, ⟨⟨2, 1⟩, ⟨2, 2⟩⟩⟩], ⟨2, 2⟩⟩ := ⟨_, rfl⟩
  have hstart : Walker.start.index ≤ text.last := Nat.zero_le _
  obtain ⟨⟨log, result, w'⟩, hunique, hout, haccountable⟩ := walk_accountable .value hstart
  have herror : ∃ c, (Rule.skipComments >>= fun _ => Entry.value.rule >>= fun a =>
      Rule.skipComments >>= fun _ => pure a) (text.cursor .start) =
        .error ⟨⟨2, 1⟩, [.number, .string, .boolean, .name], .token (.mark .leftBracket)⟩ c := by
    rw [htext]
    exact ⟨_, rfl⟩
  obtain ⟨c, hc⟩ := herror
  rw [hc] at hout
  refine ⟨text, htext, hstart, _, hunique, ?_, haccountable⟩
  cases result with
  | ok a => contradiction
  | error e =>
    cases hout
    rfl

end KarelKit
