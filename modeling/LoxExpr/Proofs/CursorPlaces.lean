import LoxExpr.Cursor

/-!
Where a cursor over a text can stand.

`Cursor.behind` is the cursor that has passed over the first part of a text. Whatever a cursor does
leads from there to a cursor of the same form, with more of the text passed over. Its offset stands
between two characters, so bytes cut out between two such offsets are characters
(`fromUTF8?_extract_of_split`).
-/

set_option autoImplicit false
set_option relaxedAutoImplicit false

namespace LoxExpr

theorem exists_part_between {passed left passed' left' : List Char}
    (same : passed ++ left = passed' ++ left') (le : utf8Length passed ≤ utf8Length passed') :
    ∃ part, passed' = passed ++ part ∧ left = part ++ left' := by
  rcases List.append_eq_append_iff.mp same with longer | ⟨part, rfl, rest⟩
  · exact longer
  · -- what is passed beyond the longer part takes up no bytes
    have nothing : part = [] := by
      rw [utf8Length_append] at le
      exact utf8Length_eq_zero_iff.mp (by omega)
    subst nothing
    exact ⟨[], by simp, rest.symm⟩

theorem eq_of_utf8Length_eq {passed left passed' left' : List Char}
    (same : passed ++ left = passed' ++ left') (eq : utf8Length passed = utf8Length passed') :
    passed = passed' ∧ left = left' := by
  obtain ⟨part, rfl, rfl⟩ := exists_part_between same (Nat.le_of_eq eq)
  have nothing : part = [] := by
    rw [utf8Length_append] at eq
    exact utf8Length_eq_zero_iff.mp (by omega)
  subst nothing
  exact ⟨(List.append_nil passed).symm, rfl⟩

theorem fromUTF8?_extract_of_split {text : String} {before part after : List Char}
    (cut : text.toList = before ++ (part ++ after)) :
    String.fromUTF8?
        (text.toUTF8.extract (utf8Length before) (utf8Length before + utf8Length part)) =
      some (String.ofList part) := by
  have whole : text = String.ofList before ++ (String.ofList part ++ String.ofList after) := by
    rw [← String.ofList_append, ← String.ofList_append, ← cut, String.ofList_toList]
  have bytes : text.toUTF8.extract (utf8Length before) (utf8Length before + utf8Length part) =
      (String.ofList part).toUTF8 := by
    rw [whole]
    exact (ByteArray.extract_append_size_add' (i := 0) rfl).trans
      (ByteArray.extract_append_eq_left rfl)
  have valid : (String.ofList part).toUTF8.IsValidUTF8 := (String.ofList part).isValidUTF8
  rw [bytes, String.fromUTF8?, dif_pos valid]
  rfl

namespace Cursor

/-- The cursor over a text that has passed over one part of it and has another left. -/
def behind (source : String) (passed left : List Char) : Cursor :=
  ⟨source, left, Position.after {} passed⟩

variable {source : String} {passed left : List Char} {c : Char}

theorem ofString_eq_behind (source : String) : ofString source = behind source [] source.toList :=
  rfl

@[simp] theorem source_behind : (behind source passed left).source = source := rfl

@[simp] theorem position_behind :
    (behind source passed left).position = Position.after {} passed := rfl

@[simp] theorem offset_behind : (behind source passed left).offset = utf8Length passed := by
  rw [offset, position_behind, Position.offset_after, Nat.zero_add]

@[simp] theorem line_behind : (behind source passed left).line = 1 + passed.count '\n' := by
  rw [line, position_behind, Position.line_after]

@[simp] theorem next_behind_nil :
    (behind source passed []).next = (none, behind source passed []) := rfl

@[simp] theorem next_behind_cons :
    (behind source passed (c :: left)).next = (some c, behind source (passed ++ [c]) left) := by
  rw [behind, behind, Position.after_append]
  rfl

@[simp] theorem accept_behind_cons :
    (behind source passed (c :: left)).accept c = (true, behind source (passed ++ [c]) left) := by
  rw [accept, if_pos (show (behind source passed (c :: left)).peek? = some c from rfl),
    next_behind_cons]

theorem accept_behind_of_ne (other : left.head? ≠ some c) :
    (behind source passed left).accept c = (false, behind source passed left) :=
  if_neg other

theorem skipWhile_behind (test : Char → Bool) :
    (behind source passed left).skipWhile test =
      behind source (passed ++ left.takeWhile test) (left.dropWhile test) := by
  rw [behind, behind, Position.after_append]
  rfl

theorem readAll_behind :
    (behind source passed left).readAll =
      (String.ofList left, behind source (passed ++ left) []) := by
  rw [behind, behind, Position.after_append]
  rfl

end Cursor

end LoxExpr
