/-!
Texts and lines in the bytes of an input.

The lines of an input, one after the other, are the input (`Input.flatten_lines`).
-/

set_option autoImplicit false
set_option relaxedAutoImplicit false

namespace LoxExpr

inductive ReadError where
  | notFound
  | isDirectory
  | notADirectory
  | notUtf8
  deriving DecidableEq

def ReadError.message : ReadError → String
  | .notFound => "No such file or directory (os error 2)"
  | .isDirectory => "Is a directory (os error 21)"
  | .notADirectory => "Not a directory (os error 20)"
  | .notUtf8 => "stream did not contain valid UTF-8"

namespace Input

/-- The text that has the given UTF-8 form. -/
def decode (bytes : ByteArray) : Except ReadError String :=
  match String.fromUTF8? bytes with
  | some text => .ok text
  | none => .error .notUtf8

/-- A text without the line feeds and carriage returns at its end. -/
def trimLineEnd (text : String) : String :=
  String.ofList (text.toList.reverse.dropWhile fun c => c == '\n' || c == '\r').reverse

/-- The lines of an input, behind those already found, latest first; `line` holds the bytes of the
current line, latest first. -/
def collectLines (found : List (List UInt8)) (line : List UInt8) : List UInt8 → List (List UInt8)
  | [] => (if line.isEmpty then found else line.reverse :: found).reverse
  | b :: bytes =>
    if b = 10 then collectLines ((b :: line).reverse :: found) [] bytes
    else collectLines found (b :: line) bytes

/-- An input cut behind each line feed. -/
def lines (bytes : List UInt8) : List (List UInt8) := collectLines [] [] bytes

private theorem flatten_collectLines (found : List (List UInt8)) (line bytes : List UInt8) :
    (collectLines found line bytes).flatten = found.reverse.flatten ++ line.reverse ++ bytes := by
  induction bytes generalizing found line with
  | nil =>
    unfold collectLines
    split <;> simp_all
  | cons b bytes ih =>
    unfold collectLines
    split <;> simp [ih]

theorem flatten_lines (bytes : List UInt8) : (lines bytes).flatten = bytes := by
  simp [lines, flatten_collectLines]

end Input

end LoxExpr
