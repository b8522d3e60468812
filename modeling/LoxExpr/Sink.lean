/-!
Receivers of output that may have room for a limited number of bytes only.
-/

set_option autoImplicit false
set_option relaxedAutoImplicit false

namespace LoxExpr

/-- A receiver of output: how many bytes it takes in all, if limited, and the bytes so far. -/
structure Sink where
  capacity? : Option Nat := none
  received : ByteArray := .empty

namespace Sink

/-- The bytes that still fit, of a text about to be written. -/
def room (s : Sink) (text : String) : Nat :=
  match s.capacity? with
  | none => text.utf8ByteSize
  | some capacity => capacity - s.received.size

/-- Writes as much of a text as fits, and tells whether that was all of it. -/
def write (s : Sink) (text : String) : Sink × Bool :=
  ({ s with received := s.received ++ text.toUTF8.extract 0 (s.room text) },
    text.utf8ByteSize ≤ s.room text)

/-- Nothing is cut off where there is no limit. -/
theorem write_of_capacity_none (s : Sink) (text : String) (h : s.capacity? = none) :
    s.write text = ({ s with received := s.received ++ text.toUTF8 }, true) := by
  have whole : text.toByteArray.extract 0 text.utf8ByteSize = text.toByteArray :=
    ByteArray.extract_zero_size
  simp [write, room, h, whole]

/-- Writes texts one after the other, up to the first that does not fit. -/
def writeAll (s : Sink) : List String → Sink × Bool
  | [] => (s, true)
  | text :: texts =>
    match s.write text with
    | (s, true) => s.writeAll texts
    | (s, false) => (s, false)

/-- The message of a write that was cut off. -/
def fullMessage : String := "sink full"

end Sink

end LoxExpr
