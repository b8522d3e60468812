import LoxExpr.Input
import LoxExpr.Proofs.LineNumbers
import LoxExpr.Proofs.Transcript

/-!
The lines of an input, and sources of one line.

An input is cut behind each line feed (`Input.cut_lines`). What is left of a line without its line
end has no line feed then (`Input.Strips.newline_not_mem`), so everything that is reported of it
stands on its first line (`Scan.line_of_mem_reports`).
-/

set_option autoImplicit false
set_option relaxedAutoImplicit false

namespace LoxExpr

namespace Input

/-- The lines of an input: each reaches up to the first line feed that is left, and with it; the
last line may have none. -/
inductive Cut : List UInt8 → List (List UInt8) → Prop
  | nil : Cut [] []
  | last {line : List UInt8} : line ≠ [] → 10 ∉ line → Cut line [line]
  | feed {line bytes : List UInt8} {lines : List (List UInt8)} :
      10 ∉ line → Cut bytes lines → Cut (line ++ 10 :: bytes) ((line ++ [10]) :: lines)

private theorem exists_cut_collectLines (found : List (List UInt8)) {line : List UInt8}
    (free : 10 ∉ line) (bytes : List UInt8) :
    ∃ lines, collectLines found line bytes = found.reverse ++ lines ∧
      Cut (line.reverse ++ bytes) lines := by
  induction bytes generalizing found line with
  | nil =>
    cases line with
    | nil => exact ⟨[], by simp [collectLines], .nil⟩
    | cons b line =>
      refine ⟨[(b :: line).reverse], by simp [collectLines], ?_⟩
      rw [List.append_nil]
      exact .last (by simp) (by rwa [List.mem_reverse])
  | cons b bytes ih =>
    unfold collectLines
    by_cases feed : b = 10
    · obtain ⟨lines, collected, cut⟩ := ih ((b :: line).reverse :: found) List.not_mem_nil
      refine ⟨(line.reverse ++ [10]) :: lines, ?_, ?_⟩
      · rw [if_pos feed, collected, feed]
        simp
      · rw [feed]
        exact .feed (by rwa [List.mem_reverse]) cut
    · have more : 10 ∉ b :: line := by simp [Ne.symm feed, free]
      obtain ⟨lines, collected, cut⟩ := ih found more
      exact ⟨lines, by rw [if_neg feed, collected], by simpa using cut⟩

theorem cut_lines (bytes : List UInt8) : Cut bytes (lines bytes) := by
  obtain ⟨found, collected, cut⟩ := exists_cut_collectLines [] List.not_mem_nil bytes
  rw [lines, collected]
  exact cut

theorem lines_of_feed_not_mem {bytes : List UInt8} (nonempty : bytes ≠ []) (free : 10 ∉ bytes) :
    lines bytes = [bytes] := by
  have cut := cut_lines bytes
  generalize lines bytes = found at cut
  cases cut with
  | nil => contradiction
  | last => rfl
  | feed => simp at free

theorem Cut.feed_not_mem_dropLast {bytes line : List UInt8} {lines : List (List UInt8)}
    (cut : Cut bytes lines) (hl : line ∈ lines) : 10 ∉ line.dropLast := by
  induction cut with
  | nil => contradiction
  | last _ free =>
    obtain rfl := List.mem_singleton.mp hl
    exact fun within => free (List.dropLast_subset line within)
  | feed free _ ih =>
    rcases List.mem_cons.mp hl with rfl | hl
    · rwa [List.dropLast_concat]
    · exact ih hl

/-- The text is the source with a line end behind it, of all the line feeds and carriage returns
that there are. -/
structure Strips (text source : String) : Prop where
  lineEnd : ∃ tail, text.toList = source.toList ++ tail ∧ ∀ c ∈ tail, c = '\n' ∨ c = '\r'
  stop : ∀ c ∈ source.toList.getLast?, c ≠ '\n' ∧ c ≠ '\r'

theorem strips_trimLineEnd (text : String) : Strips text (trimLineEnd text) := by
  unfold trimLineEnd
  generalize ends : (fun c : Char => c == '\n' || c == '\r') = p
  have parts := List.takeWhile_append_dropWhile (p := p) (l := text.toList.reverse)
  have feeds : (text.toList.reverse.takeWhile p).all p = true := List.all_takeWhile
  have first := List.head?_dropWhile_not p text.toList.reverse
  constructor
  · refine ⟨(text.toList.reverse.takeWhile p).reverse, ?_, ?_⟩
    · rw [String.toList_ofList, ← List.reverse_append, parts, List.reverse_reverse]
    · intro c hc
      have feed := List.all_eq_true.mp feeds c (List.mem_reverse.mp hc)
      simpa [← ends] using feed
  · rw [String.toList_ofList, List.getLast?_reverse]
    intro c hc
    rw [Option.mem_def.mp hc] at first
    simpa [← ends] using first

def utf8 (text : String) : List UInt8 := text.toUTF8.data.toList

theorem utf8_eq_flatMap (text : String) :
    utf8 text = text.toList.flatMap String.utf8EncodeChar := by
  have bytes : text.toByteArray = text.toList.utf8Encode := by
    rw [← String.toByteArray_ofList, String.ofList_toList]
  show text.toByteArray.data.toList = _
  rw [bytes, List.utf8Encode, List.toList_data_toByteArray]

private theorem toNat_eq_of_mem_utf8EncodeChar {c : Char} {b : UInt8} (low : b.toNat < 128)
    (within : b ∈ String.utf8EncodeChar c) : c.val.toNat = b.toNat := by
  simp only [String.utf8EncodeChar] at within
  split at within
  · obtain rfl := List.mem_singleton.mp within
    rw [UInt8.toNat_ofNat']
    omega
  · -- all bytes of a longer code are 128 or more
    exfalso
    have high : ∀ n, 128 ≤ n % 256 → b ≠ UInt8.ofNat n := by
      rintro n high rfl
      rw [UInt8.toNat_ofNat'] at low
      omega
    split at within
    · simp only [List.mem_cons, List.not_mem_nil, or_false] at within
      rcases within with same | same <;> exact high _ (by omega) same
    split at within
    · simp only [List.mem_cons, List.not_mem_nil, or_false] at within
      rcases within with same | same | same <;> exact high _ (by omega) same
    · simp only [List.mem_cons, List.not_mem_nil, or_false] at within
      rcases within with same | same | same | same <;> exact high _ (by omega) same

theorem feed_not_mem_utf8 {text : String} (free : '\n' ∉ text.toList) : 10 ∉ utf8 text := by
  rw [utf8_eq_flatMap, List.mem_flatMap]
  rintro ⟨c, within, feed⟩
  have value := toNat_eq_of_mem_utf8EncodeChar (by decide) feed
  obtain rfl : c = '\n' := Char.ext (UInt32.toNat_inj.mp value)
  exact free within

theorem ext_toList {a b : ByteArray} (same : a.data.toList = b.data.toList) : a = b :=
  ByteArray.ext (Array.toList_inj.mp same)

theorem toByteArray_toList (bytes : ByteArray) : bytes.data.toList.toByteArray = bytes :=
  ext_toList List.toList_data_toByteArray

theorem decode_eq_ok_iff {line : List UInt8} {text : String} :
    decode line.toByteArray = .ok text ↔ utf8 text = line := by
  unfold decode String.fromUTF8?
  constructor
  · intro decoded
    split at decoded
    · rename_i valid
      split at valid
      · obtain rfl := Option.some.inj valid
        obtain rfl := Except.ok.inj decoded
        exact List.toList_data_toByteArray
      · contradiction
    · contradiction
  · rintro rfl
    have bytes : (utf8 text).toByteArray = text.toByteArray := toByteArray_toList text.toByteArray
    have valid : (utf8 text).toByteArray.IsValidUTF8 := bytes ▸ text.isValidUTF8
    rw [dif_pos valid]
    exact congrArg Except.ok (String.toByteArray_inj.mp bytes)

theorem decode_toUTF8 (text : String) : decode text.toUTF8 = .ok text := by
  have decoded : decode (utf8 text).toByteArray = .ok text := decode_eq_ok_iff.mpr rfl
  rwa [utf8, toByteArray_toList] at decoded

theorem Strips.newline_not_mem {text source : String} (strips : Strips text source)
    (free : 10 ∉ (utf8 text).dropLast) : '\n' ∉ source.toList := by
  intro within
  obtain ⟨before, after, cut⟩ := List.append_of_mem within
  obtain ⟨tail, whole, -⟩ := strips.lineEnd
  cases rest : after ++ tail with
  | nil =>
    obtain ⟨rfl, -⟩ := List.append_eq_nil_iff.mp rest
    have feed : '\n' ∈ source.toList.getLast? := by simp [cut]
    exact (strips.stop _ feed).1 rfl
  | cons c rest' =>
    have bytes : utf8 text = before.flatMap String.utf8EncodeChar ++
        10 :: (c :: rest').flatMap String.utf8EncodeChar := by
      rw [utf8_eq_flatMap, whole, cut, List.append_assoc, List.cons_append, rest,
        List.flatMap_append]
      rfl
    have more : (c :: rest').flatMap String.utf8EncodeChar ≠ [] := by
      intro none
      obtain ⟨empty, -⟩ := List.append_eq_nil_iff.mp none
      have size := String.length_utf8EncodeChar c
      rw [empty] at size
      exact absurd size (Nat.ne_of_lt c.utf8Size_pos)
    apply free
    rw [bytes, List.dropLast_append_of_ne_nil (List.cons_ne_nil _ _),
      List.dropLast_cons_of_ne_nil more]
    simp

end Input

theorem lineAt_of_newline_not_mem {source : String} (free : '\n' ∉ source.toList) (n : Nat) :
    lineAt source n = 1 := by
  have none : '\n' ∉ leading n source.toList := fun within =>
    free ((leading_sublist n source.toList).subset within)
  rw [lineAt, List.count_eq_zero.mpr none]

theorem ReportsAt.line_of_newline_not_mem {source : String} {d : Diagnostic} {n : Nat}
    (reports : ReportsAt source d n) (free : '\n' ∉ source.toList) : d.line = 1 := by
  cases reports with
  | rejected => exact lineAt_of_newline_not_mem free _
  | unterminated => exact congrArg (1 + ·) (List.count_eq_zero.mpr free)

namespace Scan

variable {s : Scan} {source : String}

theorem exists_token_of_syntaxError? {error : SyntaxError} (h : s.syntaxError? = some error) :
    ∃ fault, ∃ t ∈ s.tokens, error = .atToken fault t := by
  have failed : (Parser.ofScan s).parse = .error error := by
    unfold syntaxError? outcome? at h
    by_cases empty : s.words.isEmpty = true
    · rw [if_pos empty] at h
      contradiction
    · rw [if_neg empty] at h
      cases result : (Parser.ofScan s).parse with
      | ok e => simp [result] at h
      | error _ => simpa [result] using h
  obtain ⟨taken, rest, r, cut, ht, stuck⟩ :=
    Reading.exists_takeAll?_stuck (some nestingLimit) .start (Parser.ofScan s).ahead
  obtain ⟨shown, -⟩ := Parser.parseWithin_eq_error rfl cut ht stuck failed
  have words : s.words = taken ++ rest := cut
  refine ⟨_, _, ?_, shown⟩
  rw [tokens, words]
  cases rest <;> simp [Parser.ofScan]

theorem line_of_mem_reports (free : '\n' ∉ source.toList) {d : Diagnostic}
    (hd : d ∈ (ofSource source).reports) : d.line = 1 := by
  rcases List.mem_append.mp hd with piece | whole
  · obtain ⟨f, hf, error⟩ := List.mem_filterMap.mp piece
    exact (reportsAt_of_mem hf error).line_of_newline_not_mem free
  · obtain ⟨error, shown, rfl⟩ := Option.map_eq_some_iff.mp (Option.mem_toList.mp whole)
    obtain ⟨fault, t, ht, rfl⟩ := exists_token_of_syntaxError? shown
    exact (line_of_mem_tokens ht).trans (lineAt_of_newline_not_mem free _)

end Scan

end LoxExpr
