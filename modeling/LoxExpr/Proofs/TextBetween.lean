import LoxExpr.Proofs.CursorUse
import LoxExpr.Proofs.GuardedScan

/-!
The text between two cursors.

Two cursors over one text divide it into what is before both, the part between them and what is left
behind both (`Cursor.Reached.exists_part`). So their offsets never stand within a character, and the
bytes cut out between them are the part between (`Cursor.textUpTo?_behind`). There is nothing to cut
out only between cursors over different texts or backwards (`Cursor.textUpTo?_eq_none_iff`).
-/

set_option autoImplicit false
set_option relaxedAutoImplicit false

namespace LoxExpr.Cursor

variable {source s t : String} {passed part left : List Char} {a b c : Cursor}

theorem textUpTo?_behind (cut : source.toList = passed ++ (part ++ left)) :
    (behind source passed (part ++ left)).textUpTo? (behind source (passed ++ part) left) =
      some (String.ofList part) := by
  have stop : (behind source (passed ++ part) left).offset =
      utf8Length passed + utf8Length part := by
    rw [offset_behind, utf8Length_append]
  rw [textUpTo?, stop, offset_behind, source_behind, source_behind,
    if_pos ⟨rfl, Nat.le_add_right ..⟩, fromUTF8?_extract_of_split cut]

/-- Reading on up to the offset of a cursor further on reads the characters between, and no offset
on the way is the same. -/
theorem readUntil_offset :
    (behind source passed (part ++ left)).readUntil
        (·.offset == (behind source (passed ++ part) left).offset) =
      (part, behind source (passed ++ part) left) := by
  apply readUntil_behind_append
  · rintro before y after rfl
    have size := y.utf8Size_pos
    simp only [offset_behind, utf8Length_append, utf8Length_cons, beq_eq_false_iff_ne]
    omega
  · exact beq_self_eq_true _

theorem Reached.exists_part_behind (hb : Reached source b) (cut : source.toList = passed ++ left)
    (le : utf8Length passed ≤ b.offset) :
    ∃ part left', left = part ++ left' ∧ b = behind source (passed ++ part) left' := by
  obtain ⟨passed', left', cut', rfl⟩ := hb.exists_behind
  rw [offset_behind] at le
  obtain ⟨part, rfl, rfl⟩ := exists_part_between (cut.symm.trans cut') le
  exact ⟨part, left', rfl, rfl⟩

theorem Reached.exists_part (ha : Reached source a) (hb : Reached source b)
    (le : a.offset ≤ b.offset) :
    ∃ passed part left, source.toList = passed ++ (part ++ left) ∧
      a = behind source passed (part ++ left) ∧ b = behind source (passed ++ part) left := by
  obtain ⟨passed, left, cut, rfl⟩ := ha.exists_behind
  rw [offset_behind] at le
  obtain ⟨part, left', rfl, rfl⟩ := hb.exists_part_behind cut le
  exact ⟨passed, part, left', cut, rfl, rfl⟩

theorem Reached.source_eq (ha : Reached source a) : a.source = source := by
  obtain ⟨passed, left, -, rfl⟩ := ha.exists_behind
  rfl

theorem Reached.exists_textUpTo? (ha : Reached source a) (hb : Reached source b)
    (le : a.offset ≤ b.offset) : ∃ text, a.textUpTo? b = some text := by
  obtain ⟨passed, part, left, cut, rfl, rfl⟩ := ha.exists_part hb le
  exact ⟨_, textUpTo?_behind cut⟩

theorem textUpTo?_of_not (ha : Reached s a) (hb : Reached t b)
    (wrong : ¬(s = t ∧ a.offset ≤ b.offset)) : a.textUpTo? b = none := by
  rw [textUpTo?, ha.source_eq, hb.source_eq, if_neg wrong]

theorem textUpTo?_eq_none_iff (ha : Reached s a) (hb : Reached t b) :
    a.textUpTo? b = none ↔ s ≠ t ∨ b.offset < a.offset := by
  rw [← Nat.not_le, ← Decidable.not_and_iff_not_or_not]
  refine ⟨?_, textUpTo?_of_not ha hb⟩
  rintro none ⟨rfl, le⟩
  obtain ⟨text, some⟩ := ha.exists_textUpTo? hb le
  rw [none] at some
  cases some

theorem lexeme_eq_textUpTo? (ha : Reached s a) (hb : Reached t b) (tokens : List Token)
    (journal : Journal) :
    (Guarded.Scanner.mk a b tokens journal).lexeme =
      match a.textUpTo? b with
      | some text => .ok text
      | none => .error .slice := by
  by_cases fine : s = t ∧ a.offset ≤ b.offset
  · obtain ⟨rfl, le⟩ := fine
    obtain ⟨passed, part, left, cut, rfl, rfl⟩ := ha.exists_part hb le
    rw [textUpTo?_behind cut]
    exact Guarded.Scanner.lexeme_inside cut
  · rw [textUpTo?_of_not ha hb fine, Guarded.Scanner.lexeme, ha.source_eq, hb.source_eq]
    split
    · rename_i same
      exact if_neg fun checks => fine ⟨same, checks.1⟩
    · rfl

theorem exists_textUpTo?_append (ha : Reached source a) (hb : Reached source b)
    (hc : Reached source c) (ab : a.offset ≤ b.offset) (bc : b.offset ≤ c.offset) :
    ∃ first second, a.textUpTo? b = some first ∧ b.textUpTo? c = some second ∧
      a.textUpTo? c = some (first ++ second) := by
  obtain ⟨passed, part, left, cut, rfl, rfl⟩ := ha.exists_part hb ab
  have cut' : source.toList = passed ++ part ++ left := by rw [cut, List.append_assoc]
  rw [offset_behind] at bc
  obtain ⟨part', left', rfl, rfl⟩ := hc.exists_part_behind cut' bc
  refine ⟨_, _, textUpTo?_behind cut, textUpTo?_behind cut', ?_⟩
  rw [← String.ofList_append, List.append_assoc, ← List.append_assoc part]
  exact textUpTo?_behind (cut.trans (by rw [List.append_assoc]))

/-- The text between two cursors is what reading from one to the other gives, and there is one
wherever there can be.

Between any two cursors there is no text if and only if they are over different texts or the second
is before the first, also when both offsets are checked to lie between characters. Otherwise the
text is as long in bytes as the offsets are apart, it is what reading from the first cursor to the
offset of the second gives, which leads to the second, and the lines are apart by its line feeds. The
texts between three cursors in order make up the text from the first to the last. -/
theorem textUpTo?_reads_between (ha : Reached s a) (hb : Reached t b) :
    (a.textUpTo? b = none ↔ s ≠ t ∨ b.offset < a.offset) ∧
      (∀ tokens journal, (Guarded.Scanner.mk a b tokens journal).lexeme =
        match a.textUpTo? b with
        | some text => .ok text
        | none => .error .slice) ∧
      (∀ text, a.textUpTo? b = some text →
        a.offset + text.utf8ByteSize = b.offset ∧
        a.readUntil (·.offset == b.offset) = (text.toList, b) ∧
        a.line + text.toList.count '\n' = b.line) ∧
      ∀ u c, Reached u c → s = t → t = u → a.offset ≤ b.offset → b.offset ≤ c.offset →
        ∃ first second, a.textUpTo? b = some first ∧ b.textUpTo? c = some second ∧
          a.textUpTo? c = some (first ++ second) := by
  have nothing := textUpTo?_eq_none_iff ha hb
  refine ⟨nothing, lexeme_eq_textUpTo? ha hb, ?_, ?_⟩
  · intro text found
    obtain ⟨rfl, le⟩ : s = t ∧ a.offset ≤ b.offset := by
      simpa [found, not_or] using nothing
    obtain ⟨passed, part, left, cut, rfl, rfl⟩ := ha.exists_part hb le
    obtain rfl := Option.some.inj ((textUpTo?_behind cut).symm.trans found)
    refine ⟨?_, ?_, ?_⟩
    · rw [offset_behind, offset_behind, utf8Length_append]
      rfl
    · rw [readUntil_offset, String.toList_ofList]
    · rw [line_behind, line_behind, String.toList_ofList, List.count_append, Nat.add_assoc]
  · rintro u c hc rfl rfl ab bc
    exact exists_textUpTo?_append ha hb hc ab bc

theorem textUpTo?_reads_between_multibyte :
    let a := behind "aé\nb" ['a'] ['é', '\n', 'b']
    let b := behind "aé\nb" ['a', 'é', '\n'] ['b']
    let c := behind "aé\nb" ['a', 'é', '\n', 'b'] []
    Reached "aé\nb" a ∧ Reached "aé\nb" b ∧ Reached "aé\nb" c ∧
      a.textUpTo? b = some "é\n" ∧ b.textUpTo? a = none ∧
      a.readUntil (·.offset == b.offset) = (['é', '\n'], b) ∧ a.offset + 3 = b.offset ∧
      ∃ second, b.textUpTo? c = some second ∧ a.textUpTo? c = some ("é\n" ++ second) := by
  intro a b c
  have ha : Reached "aé\nb" a :=
    ⟨[.use 0 .next], ⟨['a'], a⟩, List.mem_singleton_self _, rfl⟩
  have hb : Reached "aé\nb" b := by
    have hand : atHand "aé\nb" [.use 0 (.skipWhile (· != 'b'))] = [⟨['a', 'é', '\n'], b⟩] := by
      simp [atHand, b, Step.perform, Tracked.use, Use.consumed, Use.perform, ofString_eq_behind,
        readUntil_behind_skipWhile, skipWhile_behind]
    exact ⟨_, ⟨['a', 'é', '\n'], b⟩, hand ▸ List.mem_singleton_self _, rfl⟩
  have hc : Reached "aé\nb" c :=
    ⟨[.use 0 .readAll], ⟨['a', 'é', '\n', 'b'], c⟩, List.mem_singleton_self _, rfl⟩
  have ab : a.offset < b.offset := by decide
  have bc : b.offset < c.offset := by decide
  have found : a.textUpTo? b = some "é\n" := textUpTo?_behind rfl
  obtain ⟨backwards, -⟩ := textUpTo?_reads_between hb ha
  obtain ⟨-, -, reads, append⟩ := textUpTo?_reads_between ha hb
  obtain ⟨size, read, -⟩ := reads _ found
  obtain ⟨first, second, upToB, fromB, whole⟩ :=
    append _ c hc rfl rfl (Nat.le_of_lt ab) (Nat.le_of_lt bc)
  obtain rfl := Option.some.inj (found.symm.trans upToB)
  exact ⟨ha, hb, hc, found, backwards.mpr (.inr ab), read, size, second, fromB, whole⟩

end LoxExpr.Cursor
