import LoxExpr.Position
import LoxExpr.Quoted

/-!
A text in the course of being read: the whole text, what is left of it, and the place between.

Two cursors over one text cut out the part between them by their byte offsets (`textUpTo?`).
-/

set_option autoImplicit false
set_option relaxedAutoImplicit false

namespace LoxExpr

/-- A place in a text together with the text that follows it. -/
structure Cursor where
  source : String
  rest : List Char
  position : Position

namespace Cursor

def ofString (source : String) : Cursor := ⟨source, source.toList, {}⟩

def line (c : Cursor) : Nat := c.position.line

def offset (c : Cursor) : Nat := c.position.offset

def atEnd (c : Cursor) : Bool := c.rest.isEmpty

/-- The next character, which stays unread. -/
def peek? (c : Cursor) : Option Char := c.rest.head?

/-- The character behind the next one; both stay unread. -/
def peekSecond? (c : Cursor) : Option Char := c.rest.tail.head?

def next (c : Cursor) : Option Char × Cursor :=
  match c.rest with
  | [] => (none, c)
  | x :: rest => (some x, { c with rest := rest, position := c.position.step x })

/-- Reads the next character if it is the expected one, and tells whether it was. -/
def accept (c : Cursor) (expected : Char) : Bool × Cursor :=
  if c.peek? = some expected then (true, c.next.2) else (false, c)

/-- Reads the longest run of characters that satisfy a test. -/
def skipWhile (c : Cursor) (test : Char → Bool) : Cursor :=
  { c with
    rest := c.rest.dropWhile test
    position := c.position.after (c.rest.takeWhile test) }

def readAll (c : Cursor) : String × Cursor :=
  (String.ofList c.rest, { c with rest := [], position := c.position.after c.rest })

/-- Two cursors agree when their texts and what is left of them are equal; lines are not compared. -/
def agrees (a b : Cursor) : Bool := a.source == b.source && a.rest == b.rest

/-- The text from one cursor up to another, cut out of the source by byte offsets.

There is none between cursors over different texts, none backwards, and none that would split a
character. -/
def textUpTo? (start stop : Cursor) : Option String :=
  if start.source = stop.source ∧ start.offset ≤ stop.offset then
    String.fromUTF8? (start.source.toUTF8.extract start.offset stop.offset)
  else
    none

def describe (c : Cursor) : String :=
  "Cursor \x7b line: Line(" ++ c.line.repr ++ "), offset: " ++ c.offset.repr ++ " \x7d"

/-- A description over several lines, with the whole text quoted. -/
def describeFully (c : Cursor) : String :=
  "Cursor \x7b\n    line: Line(\n        " ++ c.line.repr ++ ",\n    ),\n    offset: " ++
    c.offset.repr ++ ",\n    source: " ++ Quoted.encode c.source ++ ",\n\x7d"

end Cursor

end LoxExpr
