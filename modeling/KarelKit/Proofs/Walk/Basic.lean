import KarelKit.Rule.Cursor

namespace KarelKit

namespace Lexed

/-- The tokens in a row, and the end of the text as one more place. -/
def row (text : Lexed) : List (Located (Option Token)) :=
  text.lexemes.map (fun l => ⟨some l.node, l.range⟩) ++ [⟨none, ⟨text.stop, text.stop⟩⟩]

/-- The index of the end. -/
def last (text : Lexed) : Nat := text.lexemes.length

theorem min_last_lt (text : Lexed) (index : Nat) : min index text.last < text.row.length := by
  rw [row, List.length_append, List.length_map, List.length_singleton]
  exact Nat.lt_succ_of_le (Nat.min_le_right ..)

/-- What stands at an index. One beyond the end is taken back to it. -/
def look (text : Lexed) (index : Nat) : Located (Option Token) :=
  text.row.get ⟨min index text.last, text.min_last_lt index⟩

end Lexed

/-- Where a walk has come to: an index, and where the last token taken ends. -/
structure Walker where
  index : Nat
  lastEnd : Position

def Walker.start : Walker := ⟨0, .first⟩

/-- What is put on record. A rule given to another may fail, and the other may go on after that. -/
inductive Event
  | look (index : Nat)
  | take (index : Nat)
  | pass (index : Nat)
  | round (before after : Nat)
  | failed (before after : Walker) (error : ParseError)
  | resumed (before after : Walker)

/-- A walk from its first step to its end. -/
structure Run (α : Type) where
  log : List Event
  result : Except ParseError α
  walker : Walker

/-- The runs of a walk along a text, by where they begin. No loop is bounded and no recursion is
guarded in a walk, so that it has a run only where it comes to an end by itself. -/
def Walk (α : Type) := Lexed → Walker → Run α → Prop

namespace Walk

variable {α β σ : Type}

/-- A single step. -/
def step (run : Lexed → Walker → Run α) : Walk α := fun text w r => r = run text w

/-- The second part is walked with the value of the first. -/
inductive Then (r : Walk α) (f : α → Walk β) (text : Lexed) (w : Walker) : Run β → Prop
  | ok {log : List Event} {a : α} {w' : Walker} {run : Run β} (first : r text w ⟨log, .ok a, w'⟩)
    (next : f a text w' run) : Then r f text w ⟨log ++ run.log, run.result, run.walker⟩
  | error {log : List Event} {e : ParseError} {w' : Walker}
    (first : r text w ⟨log, .error e, w'⟩) : Then r f text w ⟨log, .error e, w'⟩

instance : Monad Walk where
  pure a := step fun _ w => ⟨[], .ok a, w⟩
  bind := Then

def fail (e : ParseError) : Walk α := step fun _ w => ⟨[], .error e, w⟩

def walker : Walk Walker := step fun _ w => ⟨[], .ok w, w⟩

def note (e : Event) : Walk Unit := step fun _ w => ⟨[e], .ok (), w⟩

/-- What stands at the index. -/
def look : Walk (Located (Option Token)) := step fun text w =>
  ⟨[.look w.index], .ok (text.look w.index), w⟩

/-- The token `n` places further on. -/
def ahead (n : Nat) : Walk (Option Token) := step fun text w =>
  ⟨[.look w.index], .ok (text.look (w.index + n)).node, w⟩

/-- Takes the token at the index. The index stays at the end of the text. -/
def take : Walk Unit := step fun text w =>
  ⟨[.take w.index], .ok (), ⟨if w.index < text.last then w.index + 1 else w.index,
    (text.look w.index).range.stop⟩⟩

/-- Passes over whatever stands at the index. -/
def pass : Walk Unit := step fun _ w => ⟨[.pass w.index], .ok (), ⟨w.index + 1, w.lastEnd⟩⟩

/-- The runs of a loop: a round ends with a value for the next one, or with the value of all. -/
inductive Rounds (body : σ → Walk (σ ⊕ α)) (text : Lexed) : σ → Walker → Run α → Prop
  | done {x : σ} {w w' : Walker} {log : List Event} {a : α}
    (round : body x text w ⟨log, .ok (.inr a), w'⟩) : Rounds body text x w ⟨log, .ok a, w'⟩
  | failed {x : σ} {w w' : Walker} {log : List Event} {e : ParseError}
    (round : body x text w ⟨log, .error e, w'⟩) : Rounds body text x w ⟨log, .error e, w'⟩
  | again {x y : σ} {w w' : Walker} {log : List Event} {run : Run α}
    (round : body x text w ⟨log, .ok (.inl y), w'⟩) (rest : Rounds body text y w' run) :
    Rounds body text x w ⟨log ++ .round w.index w'.index :: run.log, run.result, run.walker⟩

def loop (body : σ → Walk (σ ⊕ α)) (x : σ) : Walk α := fun text => Rounds body text x

/-- The runs of a rule that was given to another. Its failure is caught and put on record. -/
inductive Heard (r : Walk α) (text : Lexed) (w : Walker) : Run (Except ParseError α) → Prop
  | ok {log : List Event} {a : α} {w' : Walker} (run : r text w ⟨log, .ok a, w'⟩) :
    Heard r text w ⟨log, .ok (.ok a), w'⟩
  | error {log : List Event} {e : ParseError} {w' : Walker} (run : r text w ⟨log, .error e, w'⟩) :
    Heard r text w ⟨log ++ [.failed w w' e], .ok (.error e), w'⟩

def heard (r : Walk α) : Walk (Except ParseError α) := Heard r

def foundAt : Option Token → Found
  | none => .endOfInput
  | some t => .token t

def unexpected (expected : List Expectation) : Walk α := do
  let l ← look
  fail ⟨l.range.start, expected, foundAt l.node⟩

/-- Fails where `r` fails. -/
def required (r : Walk α) : Walk α := do
  match ← heard r with
  | .ok a => return a
  | .error e => fail e

/-- Goes on after a failure that has left the index where it was. -/
def attempt (r : Walk α) : Walk (Except ParseError α) := do
  let before ← walker
  match ← heard r with
  | .ok a => return .ok a
  | .error e =>
    let after ← walker
    if after.index = before.index then
      note (.resumed before after)
      return .error e
    else fail e

/-- Tries rule after rule, and at last fails with all that any of them expected. -/
def alternatives (expected : List Expectation) : List (Walk α) → Walk α
  | [] => unexpected expected
  | r :: rules => do
    match ← attempt r with
    | .ok a => return a
    | .error e => alternatives (expected ++ e.expected) rules

def choice (rules : List (Walk α)) : Walk α := alternatives [] rules

def optional (r : Walk α) : Walk (Option α) := do
  match ← attempt r with
  | .ok a => return some a
  | .error _ => return none

def passComments : Walk Unit :=
  loop (fun _ => do
    if (← look).node.any Token.isComment then
      pass
      return .inl ()
    else return .inr ()) ()

/-- Comments may stand before each item and after the last one. -/
def many (r : Walk α) : Walk (List α) :=
  loop (fun items => do
    passComments
    match ← attempt r with
    | .ok a => return .inl (items ++ [a])
    | .error _ => return .inr items) []

def atLeastOne (r : Walk α) : Walk (List α) := do
  passComments
  let a ← required r
  return a :: (← many r)

/-- Comments may stand on both sides of `r`. -/
def amidComments (r : Walk α) : Walk α := do
  passComments
  let a ← r
  passComments
  return a

def located (r : Walk α) : Walk (Located α) := do
  let l ← look
  let a ← r
  let w ← walker
  return ⟨a, .between l.range.start w.lastEnd⟩

def accept (expected : Expectation) (read : Token → Option α) : Walk α := do
  match (← look).node.bind read with
  | none => unexpected [expected]
  | some a =>
    take
    return a

def keyword (k : Keyword) : Walk Unit := do
  accept (.keyword k) fun t => if t.isKeyword k then some () else none
  passComments

def mark (m : Mark) : Walk Unit := do
  accept (.mark m) fun t => if t = .mark m then some () else none
  passComments

/-- Items go on as long as marks do. -/
def continued (m : Mark) (r : Walk α) (items : List α) : Walk (List α) :=
  loop (fun items => do
    if (← look).node = some (.mark m) then
      mark m
      let a ← r
      return .inl (items ++ [a])
    else return .inr items) items

def separated (r : Walk α) (m : Mark) : Walk (List α) := do
  match ← optional r with
  | none => return []
  | some a => continued m (required r) [a]

def bracketed (r : Walk α) : Walk α := do
  mark .leftBracket
  let a ← r
  mark .rightBracket
  return a

/-- Reads a whole text. -/
def whole (r : Walk α) : Walk α := do
  let a ← amidComments r
  if (← look).node = none then return a
  else unexpected [.endOfInput]

end Walk

end KarelKit
