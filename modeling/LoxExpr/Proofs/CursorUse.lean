import LoxExpr.Proofs.CursorPlaces

/-!
Cursors in use: looked ahead with, read from and copied, in any order.

Every cursor is followed together with the text that has been consumed with it (`Cursor.Tracked`).
What one use consumes is the first part of what was left (`Cursor.Use.perform_behind`), so behind
any steps the text consumed and the text left make up the whole, and the place of the cursor is the
end of the former (`Cursor.stands_of_mem_atHand`). Two places in one text are then the same as soon
as their offsets are (`Cursor.agrees_behind_iff`).
-/

set_option autoImplicit false
set_option relaxedAutoImplicit false

namespace LoxExpr.Cursor

variable {source : String} {passed left run : List Char} {x : Char}

theorem length_rest_of_next {c d : Cursor} (step : c.next = (some x, d)) :
    d.rest.length < c.rest.length := by
  unfold next at step
  split at step
  · cases step
  · rename_i rest
    cases step
    simp [rest]

/-- Reads one character after the other up to the cursor asked for, or to the end of the text: the
characters read on the way, and the cursor there. -/
def readUntil (c : Cursor) (reached : Cursor → Bool) : List Char × Cursor :=
  if reached c then ([], c)
  else
    match _step : c.next with
    | (none, _) => ([], c)
    | (some x, d) => (x :: (d.readUntil reached).1, (d.readUntil reached).2)
termination_by c.rest.length
decreasing_by all_goals exact length_rest_of_next _step

section ReadUntil

variable {reached : Cursor → Bool}

theorem readUntil_of_reached {c : Cursor} (there : reached c = true) :
    c.readUntil reached = ([], c) := by
  rw [readUntil, if_pos there]

theorem readUntil_behind_nil :
    (behind source passed []).readUntil reached = ([], behind source passed []) := by
  rw [readUntil]
  split <;> rfl

theorem readUntil_behind_cons (away : reached (behind source passed (x :: left)) = false) :
    (behind source passed (x :: left)).readUntil reached =
      (x :: ((behind source (passed ++ [x]) left).readUntil reached).1,
        ((behind source (passed ++ [x]) left).readUntil reached).2) := by
  rw [readUntil, away, if_neg Bool.false_ne_true]
  split
  · rename_i step
    rw [next_behind_cons] at step
    cases step
  · rename_i step
    rw [next_behind_cons] at step
    cases step
    rfl

theorem readUntil_behind_append
    (away : ∀ before y after, run = before ++ y :: after →
      reached (behind source (passed ++ before) (y :: (after ++ left))) = false)
    (there : reached (behind source (passed ++ run) left) = true) :
    (behind source passed (run ++ left)).readUntil reached =
      (run, behind source (passed ++ run) left) := by
  induction run generalizing passed with
  | nil =>
    rw [List.append_nil] at there ⊢
    exact readUntil_of_reached there
  | cons x run ih =>
    have first : reached (behind source passed (x :: (run ++ left))) = false := by
      simpa using away [] x run rfl
    have rest : (behind source (passed ++ [x]) (run ++ left)).readUntil reached =
        (run, behind source (passed ++ [x] ++ run) left) := by
      apply ih
      · intro before y after split
        simpa using away (x :: before) y after (congrArg (x :: ·) split)
      · simpa using there
    rw [List.cons_append, readUntil_behind_cons first, rest, List.append_assoc, List.singleton_append]

theorem readUntil_behind_skipWhile (test : Char → Bool) :
    (behind source passed left).readUntil (fun c => !c.peek?.any test) =
      (left.takeWhile test, (behind source passed left).skipWhile test) := by
  induction left generalizing passed with
  | nil =>
    rw [readUntil_behind_nil]
    rfl
  | cons x left ih =>
    have next : (behind source passed (x :: left)).peek?.any test = test x := rfl
    cases h : test x with
    | true =>
      rw [readUntil_behind_cons (by rw [next, h]; rfl), ih]
      simp [skipWhile_behind, h]
    | false =>
      rw [readUntil_of_reached (by rw [next, h]; rfl)]
      simp [skipWhile_behind, h]

end ReadUntil

inductive Use where
  | next
  | peek
  | peekSecond
  | accept (expected : Char)
  | skipWhile (test : Char → Bool)
  | readAll

namespace Use

inductive Answer where
  | nothing
  | char (read? : Option Char)
  | accepted (matched : Bool)
  | text (read : String)

def perform (c : Cursor) : Use → Answer × Cursor
  | next => (.char c.next.1, c.next.2)
  | peek => (.char c.peek?, c)
  | peekSecond => (.char c.peekSecond?, c)
  | accept expected => (.accepted (c.accept expected).1, (c.accept expected).2)
  | skipWhile test => (.nothing, c.skipWhile test)
  | readAll => (.text c.readAll.1, c.readAll.2)

def consumed (c : Cursor) : Use → List Char
  | next => c.next.1.toList
  | peek => []
  | peekSecond => []
  | accept expected => if (c.accept expected).1 then [expected] else []
  | skipWhile test => (c.readUntil fun c => !c.peek?.any test).1
  | readAll => c.readAll.1.toList

/-- A use consumes the first part of what is left, and the cursor passes over just that. -/
theorem perform_behind (source : String) (passed left : List Char) (u : Use) :
    ∃ rest, left = u.consumed (behind source passed left) ++ rest ∧
      (u.perform (behind source passed left)).2 =
        behind source (passed ++ u.consumed (behind source passed left)) rest := by
  cases u with
  | next =>
    cases left with
    | nil => exact ⟨[], by simp [consumed], by simp [perform, consumed]⟩
    | cons x left => exact ⟨left, by simp [consumed], by simp [perform, consumed]⟩
  | peek => exact ⟨left, rfl, by rw [consumed, List.append_nil]; rfl⟩
  | peekSecond => exact ⟨left, rfl, by rw [consumed, List.append_nil]; rfl⟩
  | accept expected =>
    by_cases matched : left.head? = some expected
    · obtain ⟨rest, rfl⟩ := List.head?_eq_some_iff.mp matched
      exact ⟨rest, by simp [consumed], by simp [perform, consumed]⟩
    · exact ⟨left, by simp [consumed, accept_behind_of_ne matched],
        by simp [perform, consumed, accept_behind_of_ne matched]⟩
  | skipWhile test =>
    refine ⟨left.dropWhile test, ?_, ?_⟩
    · rw [consumed, readUntil_behind_skipWhile, List.takeWhile_append_dropWhile]
    · rw [consumed, readUntil_behind_skipWhile, ← skipWhile_behind]
      rfl
  | readAll =>
    have all : (behind source passed left).readAll =
        (String.ofList left, behind source (passed ++ left) []) := readAll_behind
    exact ⟨[], by simp [consumed, all], by simp [perform, consumed, all]⟩

theorem perform_peek (c : Cursor) : peek.perform c = ((next.perform c).1, c) := by
  rcases c with ⟨source, _ | ⟨x, rest⟩, position⟩ <;> rfl

theorem perform_peekSecond (c : Cursor) :
    peekSecond.perform c = ((next.perform (next.perform c).2).1, c) := by
  rcases c with ⟨source, _ | ⟨x, _ | ⟨y, rest⟩⟩, position⟩ <;> rfl

end Use

/-- A cursor in use, and the text that has been consumed with it from the start. -/
structure Tracked where
  consumed : List Char
  cursor : Cursor

def Tracked.use (t : Tracked) (u : Use) : Tracked where
  consumed := t.consumed ++ u.consumed t.cursor
  cursor := (u.perform t.cursor).2

inductive Step where
  | use (i : Nat) (u : Use)
  /-- The copy goes behind the cursors at hand, and is used apart from its original. -/
  | copy (i : Nat)

def Step.perform (hand : List Tracked) : Step → List Tracked
  | use i u => hand.modify i (·.use u)
  | copy i => hand ++ hand[i]?.toList

/-- The cursors at hand behind some steps, which begin with one cursor over a text. -/
def atHand (source : String) (steps : List Step) : List Tracked :=
  steps.foldl Step.perform [⟨[], ofString source⟩]

def Reached (source : String) (c : Cursor) : Prop :=
  ∃ steps, ∃ t ∈ atHand source steps, t.cursor = c

def Tracked.Stands (source : String) (t : Tracked) : Prop :=
  ∃ left, source.toList = t.consumed ++ left ∧ t.cursor = behind source t.consumed left

theorem Tracked.Stands.use {t : Tracked} (stands : t.Stands source) (u : Use) :
    (t.use u).Stands source := by
  obtain ⟨left, cut, place⟩ := stands
  obtain ⟨rest, split, moved⟩ := u.perform_behind source t.consumed left
  rw [← place] at split moved
  exact ⟨rest, by rw [Tracked.use, List.append_assoc, ← split, cut], moved⟩

theorem Step.stands {hand : List Tracked} (stand : ∀ t ∈ hand, t.Stands source) (step : Step) :
    ∀ t ∈ step.perform hand, t.Stands source := by
  intro t ht
  cases step with
  | use i u =>
    obtain ⟨j, found⟩ := List.mem_iff_getElem?.mp ht
    rw [Step.perform, List.getElem?_modify] at found
    obtain ⟨old, before, rfl⟩ := Option.map_eq_some_iff.mp found
    have stood := stand old (List.mem_of_getElem? before)
    split
    · exact stood.use u
    · exact stood
  | copy i =>
    rcases List.mem_append.mp ht with old | copied
    · exact stand t old
    · exact stand t (List.mem_of_getElem? (Option.mem_toList.mp copied))

theorem stands_of_mem_atHand (source : String) (steps : List Step) :
    ∀ t ∈ atHand source steps, t.Stands source := by
  refine List.foldlRecOn (motive := fun hand => ∀ t ∈ hand, t.Stands source) steps Step.perform ?_
    fun hand stand step _ => step.stands stand
  intro t ht
  obtain rfl := List.mem_singleton.mp ht
  exact ⟨source.toList, rfl, rfl⟩

theorem Reached.exists_behind {c : Cursor} (reached : Reached source c) :
    ∃ passed left, source.toList = passed ++ left ∧ c = behind source passed left := by
  obtain ⟨steps, t, ht, rfl⟩ := reached
  obtain ⟨left, cut, place⟩ := stands_of_mem_atHand source steps t ht
  exact ⟨t.consumed, left, cut, place⟩

theorem agrees_behind_iff {passed' left' : List Char} (cut : source.toList = passed ++ left)
    (cut' : source.toList = passed' ++ left') :
    (behind source passed left).agrees (behind source passed' left') = true ↔
      utf8Length passed = utf8Length passed' := by
  rw [cut] at cut'
  constructor
  · intro agree
    obtain rfl : left = left' := by simpa [agrees, behind] using agree
    rw [List.append_cancel_right cut']
  · intro eq
    obtain ⟨rfl, rfl⟩ := eq_of_utf8Length_eq cut' eq
    simp [agrees]

theorem length_le_length_takeWhile {test : Char → Bool} (before : run <+: left)
    (all : ∀ x ∈ run, test x = true) : run.length ≤ (left.takeWhile test).length := by
  obtain ⟨more, rfl⟩ := before
  rw [List.takeWhile_append_of_pos all, List.length_append]
  exact Nat.le_add_right _ _

/-- Cursors keep their places, whatever is done with them and with their copies.

Behind any steps, what has been consumed with a cursor and what is left make up the text; the offset
is the length of the former in bytes, or what the latter falls short of the whole; the line is one
more than the line feeds consumed. Looking ahead leaves the cursor as it is and gives what reading
once or twice would give. Passing over a run of characters reads one after the other as long as they
satisfy the test, and so takes the longest such run. Two cursors over one text agree if and only if
their offsets are the same; then so are their lines, which are not compared. -/
theorem atHand_keeps_place (source : String) (steps : List Step) :
    ∀ t ∈ atHand source steps,
      let c := t.cursor
      c.source = source ∧ t.consumed ++ c.rest = source.toList ∧
      c.offset = utf8Length t.consumed ∧ c.offset = source.utf8ByteSize - utf8Length c.rest ∧
      c.line = 1 + t.consumed.count '\n' ∧
      Use.peek.perform c = ((Use.next.perform c).1, c) ∧
      Use.peekSecond.perform c = ((Use.next.perform (Use.next.perform c).2).1, c) ∧
      (∀ test, ∃ run,
        t.use (.skipWhile test) = ⟨t.consumed ++ run, c.skipWhile test⟩ ∧
        c.readUntil (fun d => !d.peek?.any test) = (run, c.skipWhile test) ∧
        run <+: c.rest ∧ (∀ x ∈ run, test x = true) ∧
        ∀ other, other <+: c.rest → (∀ x ∈ other, test x = true) → other.length ≤ run.length) ∧
      ∀ d, Reached source d →
        (c.agrees d = true ↔ c.offset = d.offset) ∧ (c.agrees d = true → c.line = d.line) ∧
        ∀ n, agrees { c with position.line := n } d = c.agrees d := by
  intro t ht c
  obtain ⟨left, cut, place⟩ := stands_of_mem_atHand source steps t ht
  have here : c = behind source t.consumed left := place
  have bytes : source.utf8ByteSize = utf8Length t.consumed + utf8Length left := by
    rw [← utf8Length_toList, cut, utf8Length_append]
  have rest : c.rest = left := congrArg Cursor.rest here
  have offset : c.offset = utf8Length t.consumed := by rw [here, offset_behind]
  refine ⟨by rw [here]; rfl, by rw [rest, cut], offset, by rw [offset, rest]; omega,
    by rw [here, line_behind], Use.perform_peek c, Use.perform_peekSecond c, ?_, ?_⟩
  · intro test
    have read : c.readUntil (fun d => !d.peek?.any test) =
        (left.takeWhile test, c.skipWhile test) := by
      rw [here]
      exact readUntil_behind_skipWhile test
    refine ⟨left.takeWhile test, ?_, read, ?_, ?_, ?_⟩
    · show Tracked.mk (t.consumed ++ (c.readUntil _).1) (c.skipWhile test) = _
      rw [read]
    · rw [rest]
      exact List.takeWhile_prefix test
    · exact List.all_eq_true.mp List.all_takeWhile
    · rw [rest]
      exact fun other => length_le_length_takeWhile
  · intro d reached
    obtain ⟨passed, left', cut', rfl⟩ := reached.exists_behind
    have same := agrees_behind_iff cut cut'
    rw [← here] at same
    refine ⟨by rw [same, offset, offset_behind], ?_, fun n => rfl⟩
    intro agree
    obtain ⟨consumed, -⟩ := eq_of_utf8Length_eq (cut.symm.trans cut') (same.mp agree)
    rw [here, line_behind, line_behind, consumed]

theorem atHand_keeps_place_beside_copy :
    let steps : List Step :=
      [.use 0 (.skipWhile (· != '=')), .copy 0, .use 0 (.accept '='), .use 0 .next]
    let t : Tracked := ⟨['é', '=', '\n'], behind "é=\nx" ['é', '=', '\n'] ['x']⟩
    let copy : Cursor := behind "é=\nx" ['é'] ['=', '\n', 'x']
    t ∈ atHand "é=\nx" steps ∧ Reached "é=\nx" copy ∧ t.cursor.offset = 4 ∧ t.cursor.line = 2 ∧
      Use.peekSecond.perform t.cursor = (.char none, t.cursor) ∧ t.cursor.agrees copy = false ∧
      ∃ run, t.use (.skipWhile (· != '\n')) = ⟨t.consumed ++ run, behind "é=\nx" "é=\nx".toList []⟩ ∧
        1 ≤ run.length := by
  intro steps t copy
  have hand : atHand "é=\nx" steps = [t, ⟨['é'], copy⟩] := by
    simp [atHand, steps, t, copy, Step.perform, Tracked.use, Use.consumed, Use.perform,
      ofString_eq_behind, readUntil_behind_skipWhile, skipWhile_behind]
  have here : t ∈ atHand "é=\nx" steps := by
    rw [hand]
    exact List.mem_cons_self
  have beside : Reached "é=\nx" copy := by
    refine ⟨steps, ⟨['é'], copy⟩, ?_, rfl⟩
    rw [hand]
    exact List.mem_cons_of_mem _ List.mem_cons_self
  obtain ⟨-, -, offset, -, line, -, second, skips, others⟩ :=
    atHand_keeps_place "é=\nx" steps t here
  obtain ⟨run, used, -, -, -, longest⟩ := skips (· != '\n')
  obtain ⟨agree, -⟩ := others copy beside
  have apart : t.cursor.agrees copy = false := by
    rw [Bool.eq_false_iff, ne_eq, agree]
    decide
  exact ⟨here, beside, offset, line, second, apart, run, used,
    longest ['x'] (List.prefix_refl _) (by simp)⟩

end LoxExpr.Cursor
