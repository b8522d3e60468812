import LoxExpr.Proofs.Tiling
import LoxExpr.Proofs.ViablePrefix
import Mathlib.Data.List.Forall2

/-!
The lines of tokens and messages.

`lineAt` counts the line feeds before a byte of a source, apart from any scan. A fragment starts on
the line of its first byte (`Scan.start_line_eq`), and no fragment starts on an earlier line than
the one before it stops on (`Fragment.Tiles.line_le_start`). So tokens, lexical errors and syntax
errors are all reported on the lines where they are.
-/

set_option autoImplicit false
set_option relaxedAutoImplicit false

namespace LoxExpr

def leading : Nat → List Char → List Char
  | _, [] => []
  | n, c :: text => if c.utf8Size ≤ n then c :: leading (n - c.utf8Size) text else []

/-- The number of the line of a byte: one more than there are line feeds before it. -/
def lineAt (source : String) (offset : Nat) : Nat :=
  1 + (leading offset source.toList).count '\n'

theorem leading_append (before after : List Char) :
    leading (utf8Length before) (before ++ after) = before := by
  induction before with
  | nil =>
    cases after with
    | nil => rfl
    | cons c after =>
      have wide := c.utf8Size_pos
      rw [utf8Length_nil, List.nil_append, leading, if_neg (by omega)]
  | cons c before ih =>
    rw [utf8Length_cons, List.cons_append, leading, if_pos (Nat.le_add_right ..),
      Nat.add_sub_cancel_left, ih]

theorem leading_sublist (n : Nat) (text : List Char) : (leading n text).Sublist text := by
  fun_induction leading n text with
  | case1 => exact .slnil
  | case2 n c text _ ih => exact ih.cons_cons c
  | case3 => exact List.nil_sublist _

theorem line_after_eq_lineAt {source : String} {before after : List Char}
    (cut : source.toList = before ++ after) :
    (Position.after {} before).line = lineAt source (utf8Length before) := by
  rw [Position.line_after, lineAt, cut, leading_append]

namespace Fragment

variable {p : Position} {text : List Char} {fragments : List Fragment} {f : Fragment}

theorem line_start_le_stop (f : Fragment) : f.start.line ≤ f.stop.line := by
  rw [stop, Position.line_after]
  exact Nat.le_add_right ..

theorem Tiles.line_le_start (tiles : Tiles p text fragments) (hf : f ∈ fragments) :
    p.line ≤ f.start.line := by
  obtain ⟨before, _, -, start, -⟩ := tiles.exists_split_of_mem hf
  rw [start, Position.line_after]
  exact Nat.le_add_right ..

theorem line_of_diagnostic? {d : Diagnostic} (h : f.diagnostic? = some d) :
    d.line = f.stop.line := by
  obtain ⟨_, -, rfl⟩ := Option.map_eq_some_iff.mp h
  rfl

theorem Tiles.pairwise_line (tiles : Tiles p text fragments) :
    (fragments.filterMap diagnostic?).Pairwise fun d d' => d.line ≤ d'.line := by
  induction tiles with
  | nil => exact .nil
  | @cons p piece rest fragments _ tiles ih =>
    cases h : diagnostic? ⟨p, piece⟩ with
    | none => rwa [List.filterMap_cons_none h]
    | some d =>
      rw [List.filterMap_cons_some h, List.pairwise_cons]
      refine ⟨?_, ih⟩
      intro d' hd'
      obtain ⟨f, hf, error⟩ := List.mem_filterMap.mp hd'
      rw [line_of_diagnostic? h, line_of_diagnostic? error]
      exact Nat.le_trans (tiles.line_le_start hf) f.line_start_le_stop

end Fragment

/-- The message is about a wrong piece of the source, which starts at the given byte, and names its
true line: for a character that starts nothing the line of that character, and for a string without
an end the last line of the source. -/
inductive ReportsAt (source : String) : Diagnostic → Nat → Prop
  | rejected {before after : List Char} {c : Char} :
      source.toList = before ++ c :: after → (Piece.rejected c).Fits after →
      ReportsAt source ⟨lineAt source (utf8Length before), .nowhere, "Unexpected character."⟩
        (utf8Length before)
  | unterminated {before body : List Char} :
      source.toList = before ++ '"' :: body → '"' ∉ body →
      ReportsAt source ⟨1 + source.toList.count '\n', .nowhere, "Unterminated string"⟩
        (utf8Length before)

namespace Scan

variable {source : String} {f : Fragment} {t : Token}

theorem start_line_eq (hf : f ∈ (ofSource source).fragments) :
    f.start.line = lineAt source f.start.offset := by
  obtain ⟨before, after, cut, start, -⟩ :=
    (Fragment.tiles_listFrom {} source.toList).exists_split_of_mem hf
  rw [List.append_assoc] at cut
  rw [start, Position.offset_after, Nat.zero_add, line_after_eq_lineAt cut]

theorem line_of_mem_words (ht : t ∈ (ofSource source).words) :
    t.position.line = lineAt source t.position.offset := by
  obtain ⟨f, hf, token⟩ := List.mem_filterMap.mp ht
  rw [Fragment.position_of_token? token, start_line_eq hf]

theorem line_eof (source : String) :
    (ofSource source).eof.position.line = 1 + source.toList.count '\n' :=
  Position.line_after {} source.toList

theorem line_eof_eq_lineAt (source : String) :
    (ofSource source).eof.position.line = lineAt source (ofSource source).eof.position.offset := by
  have cut : source.toList = source.toList ++ [] := (List.append_nil _).symm
  show (Position.after {} source.toList).line =
    lineAt source (Position.after {} source.toList).offset
  rw [Position.offset_after, Nat.zero_add, line_after_eq_lineAt cut]

theorem line_of_mem_tokens (ht : t ∈ (ofSource source).tokens) :
    t.position.line = lineAt source t.position.offset := by
  rcases List.mem_append.mp ht with word | eof
  · exact line_of_mem_words word
  · obtain rfl := List.mem_singleton.mp eof
    exact line_eof_eq_lineAt source

theorem reportsAt_of_mem (hf : f ∈ (ofSource source).fragments) {d : Diagnostic}
    (hd : f.diagnostic? = some d) : ReportsAt source d f.start.offset := by
  obtain ⟨before, after, cut, start, fits⟩ :=
    (Fragment.tiles_listFrom {} source.toList).exists_split_of_mem hf
  obtain ⟨p, piece⟩ := f
  obtain rfl : p = Position.after {} before := start
  have offset : (Position.after {} before).offset = utf8Length before := by
    rw [Position.offset_after, Nat.zero_add]
  rw [offset]
  cases piece with
  | rejected c =>
    obtain rfl := Option.some.inj hd
    have notFeed : c ≠ '\n' := by
      rintro rfl
      exact fits.1 (by decide)
    have line : ((Position.after {} before).step c).line = lineAt source (utf8Length before) := by
      rw [Position.step, if_neg notFeed]
      exact line_after_eq_lineAt (cut.trans (List.append_assoc ..))
    show ReportsAt source ⟨((Position.after {} before).step c).line, _, _⟩ _
    rw [line]
    exact .rejected (cut.trans (List.append_assoc ..)) fits
  | unterminated body =>
    obtain rfl := Option.some.inj hd
    obtain ⟨noQuote, rfl⟩ := fits
    rw [List.append_nil] at cut
    have line : ((Position.after {} before).after ('"' :: body)).line =
        1 + source.toList.count '\n' := by
      rw [← Position.after_append, show before ++ '"' :: body = source.toList from cut.symm,
        Position.line_after]
    show ReportsAt source ⟨((Position.after {} before).after ('"' :: body)).line, _, _⟩ _
    rw [line]
    exact .unterminated cut noQuote
  | _ => contradiction

theorem forall₂_reportsAt (source : String) :
    List.Forall₂ (ReportsAt source) (ofSource source).diagnostics
      (((ofSource source).fragments.filter (·.piece.error?.isSome)).map (·.start.offset)) := by
  have each : ∀ f ∈ (ofSource source).fragments, ∀ d, f.diagnostic? = some d →
      ReportsAt source d f.start.offset := fun f hf d hd => reportsAt_of_mem hf hd
  unfold diagnostics
  generalize (ofSource source).fragments = fragments at each ⊢
  induction fragments with
  | nil => exact .nil
  | cons f fragments ih =>
    obtain ⟨first, others⟩ := List.forall_mem_cons.mp each
    cases h : f.piece.error? with
    | none =>
      have none : f.diagnostic? = none := by rw [Fragment.diagnostic?, h, Option.map_none]
      rw [List.filterMap_cons_none none, List.filter_cons_of_neg (by simp [h])]
      exact ih others
    | some e =>
      have some : f.diagnostic? = some (e.onLine f.stop.line) := by
        rw [Fragment.diagnostic?, h, Option.map_some]
      rw [List.filterMap_cons_some some, List.filter_cons_of_pos (by simp [h]), List.map_cons]
      exact .cons (first _ some) (ih others)

/-- The tokens of a source stand on the lines of their first bytes, and so do the messages about
them.

A message about a piece of the source is on the line of that piece, or on the last line if the piece
is a string without an end, and these messages come in the order of lines. A syntax error is on the
line of the first token that no expression goes on with. -/
theorem lines_true (source : String) :
    (∀ t ∈ (ofSource source).tokens, t.position.line = lineAt source t.position.offset) ∧
      (ofSource source).eof.position.line = 1 + source.toList.count '\n' ∧
      List.Forall₂ (ReportsAt source) (ofSource source).diagnostics
        (((ofSource source).fragments.filter (·.piece.error?.isSome)).map (·.start.offset)) ∧
      (ofSource source).diagnostics.Pairwise (fun d d' => d.line ≤ d'.line) ∧
      ∀ error, parseTokens? (ofSource source).tokens = some (.error error) →
        ∃ fault before t after, error = .atToken fault t ∧
          (ofSource source).tokens = before ++ t :: after ∧
          Viable before ∧ ¬ Viable (before ++ [t]) ∧
          error.diagnostic.line = lineAt source t.position.offset := by
  refine ⟨fun t ht => line_of_mem_tokens ht, line_eof source, forall₂_reportsAt source,
    (Fragment.tiles_listFrom {} source.toList).pairwise_line, ?_⟩
  intro error failed
  have ends : (ofSource source).tokens.getLast?.any Token.isEof = true := by
    rw [tokens, List.getLast?_concat]
    rfl
  obtain ⟨p, start, failure⟩ := Parser.exists_first_unviable ends
  rw [parseTokens?, start, Option.map_some, Option.some.injEq] at failed
  obtain ⟨fault, before, t, after, rfl, cut, viable, unviable⟩ := failure error failed
  have ht : t ∈ (ofSource source).tokens := by
    rw [cut]
    exact List.mem_append_right _ List.mem_cons_self
  exact ⟨fault, before, t, after, rfl, cut, viable, unviable, line_of_mem_tokens ht⟩

end Scan

end LoxExpr
