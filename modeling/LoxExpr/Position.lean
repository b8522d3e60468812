/-!
Places in a text: the number of the line and the offset in UTF-8 bytes.

Passing over a text adds its line feeds to the line and its UTF-8 length to the offset
(`Position.line_after`, `Position.offset_after`).
-/

set_option autoImplicit false
set_option relaxedAutoImplicit false

namespace LoxExpr

def utf8Length (text : List Char) : Nat := (String.ofList text).utf8ByteSize

@[simp] theorem utf8Length_nil : utf8Length [] = 0 := by
  simp [utf8Length]

@[simp] theorem utf8Length_append (s t : List Char) :
    utf8Length (s ++ t) = utf8Length s + utf8Length t := by
  simp [utf8Length]

@[simp] theorem utf8Length_cons (c : Char) (text : List Char) :
    utf8Length (c :: text) = c.utf8Size + utf8Length text := by
  have single : utf8Length [c] = c.utf8Size := by
    simp [utf8Length]
  rw [← single, ← utf8Length_append, List.singleton_append]

@[simp] theorem utf8Length_toList (s : String) : utf8Length s.toList = s.utf8ByteSize := by
  simp [utf8Length]

theorem utf8Length_pos {text : List Char} (h : text ≠ []) : 0 < utf8Length text := by
  obtain ⟨c, rest, rfl⟩ := List.exists_cons_of_ne_nil h
  have := c.utf8Size_pos
  rw [utf8Length_cons]
  omega

@[simp] theorem utf8Length_eq_zero_iff {text : List Char} : utf8Length text = 0 ↔ text = [] := by
  refine ⟨fun none => Decidable.byContradiction fun some => ?_, fun h => by simp [h]⟩
  exact absurd none (Nat.ne_of_gt (utf8Length_pos some))

/-- A place between two characters of a text; a text starts at line 1, offset 0. -/
structure Position where
  /-- The number of the line, counted from 1. -/
  line : Nat := 1
  offset : Nat := 0
  deriving DecidableEq

namespace Position

/-- The place behind the next character; a line feed ends a line. -/
def step (p : Position) (c : Char) : Position where
  line := if c = '\n' then p.line + 1 else p.line
  offset := p.offset + c.utf8Size

def after (p : Position) (text : List Char) : Position := text.foldl step p

@[simp] theorem after_nil (p : Position) : p.after [] = p := rfl

@[simp] theorem after_cons (p : Position) (c : Char) (text : List Char) :
    p.after (c :: text) = (p.step c).after text := rfl

theorem after_append (p : Position) (s t : List Char) :
    p.after (s ++ t) = (p.after s).after t := by
  simp [after, List.foldl_append]

theorem line_after (p : Position) (text : List Char) :
    (p.after text).line = p.line + text.count '\n' := by
  induction text generalizing p with
  | nil => rfl
  | cons c text ih =>
    rw [after_cons, ih, List.count_cons]
    by_cases h : c = '\n' <;> simp [step, h]
    omega

theorem offset_after (p : Position) (text : List Char) :
    (p.after text).offset = p.offset + utf8Length text := by
  induction text generalizing p with
  | nil => rfl
  | cons c text ih => simp [ih, step, Nat.add_assoc]

end Position

end LoxExpr
