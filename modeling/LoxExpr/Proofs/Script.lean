import LoxExpr.Proofs.Prompt
import LoxExpr.Proofs.TrailingBlanks

/-!
One script, and the same source at the prompt.

A script is run as a whole, with a journal of its own (`Shell.runScript_toUTF8`). At the prompt a
source of one line is run without the carriage returns at its end, and these make no difference
(`Shell.runPrompt_toUTF8`).
-/

set_option autoImplicit false
set_option relaxedAutoImplicit false

namespace LoxExpr

namespace Input

theorem toList_eq_data (bytes : ByteArray) : bytes.toList = bytes.data.toList := by
  have loop : ∀ i found, ByteArray.toList.loop bytes i found =
      found.reverse ++ bytes.data.toList.drop i := by
    intro i found
    induction i, found using ByteArray.toList.loop.induct bytes with
    | case1 i found more ih =>
      have inside : i < bytes.data.toList.length := more
      have byte : bytes.get! i = bytes.data.toList[i] := getElem!_pos bytes.data i inside
      rw [ByteArray.toList.loop, if_pos more, ih, List.drop_eq_getElem_cons inside, byte]
      simp
    | case2 i found done =>
      have beyond : bytes.data.toList.length ≤ i := Nat.le_of_not_lt done
      rw [ByteArray.toList.loop, if_neg done, List.drop_eq_nil_of_le beyond, List.append_nil]
  rw [ByteArray.toList, loop]
  rfl

theorem decode_of_ne_toUTF8 {content : ByteArray}
    (unreadable : ∀ text : String, text.toUTF8 ≠ content) : decode content = .error .notUtf8 := by
  have failed : decode content.data.toList.toByteArray = .error .notUtf8 :=
    decode_eq_error fun text same => unreadable text (ext_toList same)
  rwa [toByteArray_toList] at failed

end Input

theorem Run.ofSource_trimLineEnd {text : String} (free : '\n' ∉ text.toList) (listTokens : Bool)
    (j : Journal) (o : Sink) :
    ofSource (Input.trimLineEnd text) listTokens j o = ofSource text listTokens j o := by
  obtain ⟨⟨tail, whole, feeds⟩, -⟩ := Input.strips_trimLineEnd text
  have blanks : ∀ c ∈ tail, IsBlank c ∧ c ≠ '\n' := by
    intro c hc
    have other : c ≠ '\n' := by
      rintro rfl
      exact free (whole ▸ List.mem_append_right _ hc)
    obtain rfl := (feeds c hc).resolve_left other
    exact ⟨by simp [IsBlank], other⟩
  exact (ofSource_append_blanks whole blanks listTokens j o).symm

theorem ReadError.newline_not_mem_message (e : ReadError) : '\n' ∉ e.message.toList := by
  cases e <;> decide +kernel

namespace Shell

open Input

variable (listTokens : Bool)

theorem fail_start (e : ReadError) :
    start.fail e = ⟨1, .empty, ("Error: " ++ e.message ++ "\n").toUTF8⟩ := by
  show (⟨1, .empty, .empty ++ _⟩ : Outcome) = _
  rw [ByteArray.empty_append]

theorem runScript_toUTF8 (text : String) :
    runScript listTokens (.ok text.toUTF8) =
      ⟨if (Run.alone text listTokens).journal.toList = [] then 0 else dataError,
        (Run.alone text listTokens).output.received, (Run.alone text listTokens).echoed⟩ := by
  have code : (if (Run.alone text listTokens).journal.hasErrors then dataError else 0) =
      if (Run.alone text listTokens).journal.toList = [] then 0 else dataError := by
    have agrees : _ ↔ _ := Run.agrees_journal_alone text listTokens
    simp only [agrees, ne_eq, ite_not]
  have decoded : (.ok text.toUTF8 >>= decode) = .ok text := decode_toUTF8 text
  rw [← code, runScript, decoded]
  rfl

theorem runPrompt_toUTF8 {text : String} (nonempty : text ≠ "") (free : '\n' ∉ text.toList) :
    runPrompt listTokens text.toUTF8 =
      ⟨0, promptText.toUTF8 ++ (Run.alone text listTokens).output.received ++ promptText.toUTF8,
        (Run.alone text listTokens).echoed⟩ := by
  have bytes : utf8 text ≠ [] := by
    intro none
    exact nonempty (String.toByteArray_inj.mp (ext_toList none))
  have line : lines text.toUTF8.toList = [text].map utf8 ++ [] := by
    rw [toList_eq_data]
    exact lines_of_feed_not_mem bytes (feed_not_mem_utf8 free)
  have same : Run.alone (trimLineEnd text) listTokens = Run.alone text listTokens :=
    Run.ofSource_trimLineEnd free listTokens _ _
  show (between .empty .empty).runLines listTokens (lines text.toUTF8.toList) = _
  rw [line, runLines_between, runLines_of_unreadable _ _ _ (by simp), if_pos rfl]
  simp only [prompted, List.map_cons, List.map_nil, joined_cons, joined_nil, same,
    ByteArray.append_empty, ByteArray.empty_append]

end Shell

end LoxExpr
