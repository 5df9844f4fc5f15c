import KarelKit.Rule.Cursor

namespace KarelKit

/-- What reading comes to: a value or an error, and the cursor then. -/
inductive Outcome (α : Type)
  | ok (value : α) (cursor : Cursor)
  | error (error : ParseError) (cursor : Cursor)

/-- A rule of the grammar reads a value at a cursor. A rule that fails with the cursor where it was
has refused, and another may be tried in its place; any other failure is final. -/
def Rule (α : Type) := Cursor → Outcome α

namespace Rule

variable {α β : Type}

instance : Monad Rule where
  pure a := fun c => .ok a c
  bind r f := fun c =>
    match r c with
    | .ok a c' => f a c'
    | .error e c' => .error e c'

theorem pure_apply (a : α) (c : Cursor) : (pure a : Rule α) c = .ok a c := rfl

theorem bind_apply (r : Rule α) (f : α → Rule β) (c : Cursor) :
    (r >>= f) c = match r c with
      | .ok a c' => f a c'
      | .error e c' => .error e c' := rfl

def fail (expected : List Expectation) : Rule α := fun c => .error (c.unexpected expected) c

/-- Takes one token. -/
def accept (expected : Expectation) (read : Token → Option α) : Rule α := fun c =>
  match c.ahead.head?.bind fun l => read l.node with
  | none => fail [expected] c
  | some a => .ok a c.take

def skipComments : Rule Unit := fun c => .ok () c.skipComments

def here : Rule Position := fun c => .ok c.here c

def lastEnd : Rule Position := fun c => .ok c.lastEnd c

/-- The value with the range from the first token ahead to the last one taken. -/
def located (r : Rule α) : Rule (Located α) := do
  let start ← here
  let node ← r
  return ⟨node, .between start (← lastEnd)⟩

/-- Takes no token: only looks whether those ahead satisfy `p`. -/
def lookahead (expected : List Expectation) (p : List Lexeme → Bool) : Rule Unit := fun c =>
  if p c.ahead then .ok () c else fail expected c

/-- Tries `s` if `r` refuses. If `s` refuses too, both are named as expected. -/
def orElse (r s : Rule α) : Rule α := fun c =>
  match r c with
  | .ok a c' => .ok a c'
  | .error e c' =>
    if c'.size = c.size then
      match s c' with
      | .ok a c'' => .ok a c''
      | .error e' c'' =>
        if c''.size = c.size then .error { e' with expected := e.expected ++ e'.expected } c''
        else .error e' c''
    else .error e c'

instance : OrElse (Rule α) where
  orElse r s := orElse r (s ())

/-- Nothing if `r` refuses. -/
def optional (r : Rule α) : Rule (Option α) := fun c =>
  match r c with
  | .ok a c' => .ok (some a) c'
  | .error e c' => if c'.size = c.size then .ok none c' else .error e c'

/-- Reads by `r` again and again until it refuses, or has taken no token. -/
def repeatFrom (r : Rule α) (c : Cursor) : Outcome (List α) :=
  match r c with
  | .error e c' => if c'.size = c.size then .ok [] c' else .error e c'
  | .ok a c' =>
    if c'.size < c.size then
      match repeatFrom r c' with
      | .ok items c'' => .ok (a :: items) c''
      | .error e c'' => .error e c''
    else .ok [a] c'
termination_by c.size

def many (r : Rule α) : Rule (List α) := repeatFrom r

def atLeastOne (r : Rule α) : Rule (List α) := do
  return (← r) :: (← many r)

/-- No item, or items with `separator` between each two. A separator is followed by an item. -/
def separated (r : Rule α) (separator : Rule Unit) : Rule (List α) := do
  match ← optional r with
  | none => return []
  | some item => return item :: (← many do separator; r)

/-- A rule that refers to itself. It reads by itself only where fewer tokens are ahead than at the
start. -/
def recursiveFrom (f : Rule α → Rule α) (c : Cursor) : Outcome α :=
  f (fun c' => if c'.size < c.size then recursiveFrom f c' else fail [] c') c
termination_by c.size

def recursive (f : Rule α → Rule α) : Rule α := recursiveFrom f

/-- Reads a whole text. Comments may stand before and after. -/
def readAll (r : Rule α) (text : Lexed) : Except ParseError α :=
  let whole : Rule α := do
    skipComments
    let a ← r
    skipComments
    lookahead [.endOfInput] List.isEmpty
    return a
  match whole (.start text) with
  | .ok a _ => .ok a
  | .error e _ => .error e

end Rule

end KarelKit
