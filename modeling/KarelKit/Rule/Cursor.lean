import KarelKit.Error.ParseError

namespace KarelKit

/-- Where reading stands in a text: the tokens ahead and their number, where the last token behind
ends that is no comment, and where the text ends. -/
structure Cursor where
  ahead : List Lexeme
  size : Nat
  lastEnd : Position
  stop : Position
  size_eq : size = ahead.length

namespace Cursor

def start (text : Lexed) : Cursor :=
  { ahead := text.lexemes
    size := text.lexemes.length
    lastEnd := .first
    stop := text.stop
    size_eq := rfl }

def here (c : Cursor) : Position :=
  match c.ahead with
  | [] => c.stop
  | l :: _ => l.range.start

def found (c : Cursor) : Found :=
  match c.ahead with
  | [] => .endOfInput
  | l :: _ => .token l.node

def unexpected (c : Cursor) (expected : List Expectation) : ParseError :=
  ⟨c.here, expected, c.found⟩

/-- Takes the token ahead, if there is one. -/
def take (c : Cursor) : Cursor :=
  { c with
    ahead := c.ahead.tail
    size := c.size - 1
    lastEnd := (c.ahead.head?.map (·.range.stop)).getD c.lastEnd
    size_eq := by simp [c.size_eq] }

def skipComments (c : Cursor) : Cursor :=
  let comments := c.ahead.takeWhile (·.node.isComment)
  { c with
    ahead := c.ahead.drop comments.length
    size := c.size - comments.length
    size_eq := by simp [c.size_eq] }

theorem ext {c c' : Cursor} (ahead : c.ahead = c'.ahead) (lastEnd : c.lastEnd = c'.lastEnd)
    (stop : c.stop = c'.stop) : c = c' := by
  obtain ⟨_, _, _, _, rfl⟩ := c
  obtain ⟨_, _, _, _, rfl⟩ := c'
  simp_all

theorem ahead_skipComments (c : Cursor) :
    c.skipComments.ahead = c.ahead.dropWhile (·.node.isComment) := by
  have h : c.ahead.takeWhile (·.node.isComment) ++ c.ahead.dropWhile (·.node.isComment) =
    c.ahead := List.takeWhile_append_dropWhile
  have hdrop := congrArg (List.drop (c.ahead.takeWhile (·.node.isComment)).length) h
  rw [List.drop_left] at hdrop
  exact hdrop.symm

end Cursor

end KarelKit
