import LoxExpr.Proofs.Gaps
import LoxExpr.Proofs.Layout
import LoxExpr.Proofs.Relocation

/-!
Layout between tokens makes no difference.

A source can be cut where a token starts or ends (`Scan.exists_cutAt_token`). Layout that starts with
a blank can be put in there: the fragments in front of it stay, those behind it are moved
(`Scan.CutAt.insert_layout`), and what a run makes of moved tokens is the same but for the lines of
its messages (`Run.ofSource_relocated`).
-/

set_option autoImplicit false
set_option relaxedAutoImplicit false

namespace LoxExpr

def Token.placeFrom (offset lines bytes : Nat) (t : Token) : Position :=
  if offset ≤ t.position.offset then t.position.shift lines bytes else t.position

def Diagnostic.MovesDown (lines : Nat) (d d' : Diagnostic) : Prop :=
  d'.message = d.message ∧ d'.location = d.location ∧ (d'.line = d.line ∨ d'.line = d.line + lines)

namespace Fragment

variable {p : Position} {u v : List Char} {fs : List Fragment} {f : Fragment}

theorem Leads.stopsAt (leads : Leads v p u fs) {d : Char} (hd : v.head? = some d)
    (other : d ≠ '\n') (c : Char) : ∀ f ∈ fs.getLast?, f.piece.StopsAt c := by
  induction leads with
  | nil => simp
  | @cons p piece rest fs fits tail ih =>
    cases tail with
    | cons => rwa [List.getLast?_cons_cons]
    | nil =>
      intro f hf
      obtain rfl := Option.some.inj hf
      obtain ⟨more, rfl⟩ := List.head?_eq_some_iff.mp hd
      exact fits.stopsAt other c

theorem Leads.after_eq_stop (leads : Leads v p u (fs ++ [f])) : p.after u = f.stop := by
  induction fs generalizing p u with
  | nil =>
    cases leads with
    | @cons _ piece rest _ fits tail =>
      cases tail
      rw [List.append_nil]
      rfl
  | cons g fs ih =>
    cases leads with
    | @cons _ piece rest _ fits tail =>
      rw [Position.after_append]
      exact ih tail

end Fragment

namespace Scan

variable {source : String} {t : Token} {n : Nat} {u v : List Char} {fs gs : List Fragment}

/-- The source is cut behind so many bytes, and its fragments there as well: no piece in front of
the cut goes on behind it. -/
structure CutAt (source : String) (n : Nat) (u v : List Char) (fs gs : List Fragment) : Prop where
  fragments : (ofSource source).fragments = fs ++ gs
  text : source.toList = u ++ v
  size : utf8Length u = n
  leads : Fragment.Leads v {} u fs
  tiles : Fragment.Tiles (Position.after {} u) v gs
  stops : ∀ c, ∀ f ∈ fs.getLast?, f.piece.StopsAt c

section Lexeme

variable {p : Position} {l : Lexeme}

private theorem exists_cutAt_start
    (fragments : (ofSource source).fragments = fs ++ ⟨p, .lexeme l⟩ :: gs) :
    ∃ u v, CutAt source (l.tokenAt p).position.offset u v fs (⟨p, .lexeme l⟩ :: gs) := by
  have tiles := Fragment.tiles_listFrom {} source.toList
  rw [show Fragment.listFrom {} source.toList = _ from fragments] at tiles
  obtain ⟨u, v, cut, leads, behind⟩ := tiles.exists_cut
  cases behind with
  | @cons _ _ rest _ fits tail =>
    obtain ⟨c, w, head, other⟩ := Piece.head_ne_newline_of_fits fits
    have size : utf8Length u = (Position.after {} u).offset := by
      rw [Position.offset_after, Nat.zero_add]
    have first : ((Piece.lexeme l).text ++ rest).head? = some c := by
      rw [Piece.text, head]
      rfl
    exact ⟨u, _, fragments, cut, size, leads, .cons fits tail, leads.stopsAt first other⟩

private theorem exists_cutAt_stop
    (fragments : (ofSource source).fragments = fs ++ ⟨p, .lexeme l⟩ :: gs) :
    ∃ u v, CutAt source (l.tokenAt p).stop u v (fs ++ [⟨p, .lexeme l⟩]) gs := by
  rw [List.append_cons] at fragments
  have tiles := Fragment.tiles_listFrom {} source.toList
  rw [show Fragment.listFrom {} source.toList = _ from fragments] at tiles
  obtain ⟨u, v, cut, leads, behind⟩ := tiles.exists_cut
  have size : utf8Length u = (l.tokenAt p).stop := by
    have offset := congrArg Position.offset leads.after_eq_stop
    rw [Position.offset_after, Fragment.stop, Position.offset_after, Nat.zero_add] at offset
    rw [offset, Token.stop, ← utf8Length_toList, Lexeme.tokenAt, String.toList_ofList]
    rfl
  refine ⟨u, v, fragments, cut, size, leads, behind, ?_⟩
  intro c f hf
  rw [List.getLast?_concat] at hf
  obtain rfl := Option.some.inj hf
  trivial

end Lexeme

theorem exists_cutAt_token (ht : t ∈ (ofSource source).words)
    (hn : n = t.position.offset ∨ n = t.stop) : ∃ u v fs gs, CutAt source n u v fs gs := by
  obtain ⟨⟨p, piece⟩, hf, token⟩ := List.mem_filterMap.mp ht
  obtain ⟨fs, gs, fragments⟩ := List.append_of_mem hf
  cases piece with
  | lexeme l =>
    obtain rfl := Option.some.inj token
    rcases hn with rfl | rfl
    · obtain ⟨u, v, cut⟩ := exists_cutAt_start fragments
      exact ⟨u, v, _, _, cut⟩
    · obtain ⟨u, v, cut⟩ := exists_cutAt_stop fragments
      exact ⟨u, v, _, _, cut⟩
  | _ => cases token

/-- The tokens of a second scan are those of a first at other places, and its errors are the same,
on the same lines or that many lines further down. -/
structure Relocated (place : Token → Position) (lines : Nat) (s s' : Scan) : Prop where
  words : s'.words = s.words.map (.relocate place)
  eof : s'.eof = s.eof.relocate place
  diagnostics : List.Forall₂ (Diagnostic.MovesDown lines) s.diagnostics s'.diagnostics

theorem relocate_of_lt {lines bytes : Nat} (h : t.position.offset < n) :
    t.relocate (Token.placeFrom n lines bytes) = t := by
  have before : ¬ n ≤ t.position.offset := by omega
  simp only [Token.relocate, Token.placeFrom, if_neg before]

theorem relocate_of_le {lines bytes : Nat} (h : n ≤ t.position.offset) :
    t.relocate (Token.placeFrom n lines bytes) = t.shift lines bytes := by
  simp only [Token.relocate, Token.placeFrom, if_pos h, Token.shift]

variable {s s' : Scan} {ws : List Fragment} {lines bytes : Nat}

private theorem words_of_fragments (old : s.fragments = fs ++ gs)
    (new : s'.fragments = fs ++ (ws ++ gs.map (·.shift lines bytes)))
    (before : ∀ f ∈ fs, f.start.offset < n) (behind : ∀ f ∈ gs, n ≤ f.start.offset)
    (layout : ∀ f ∈ ws, f.IsLayout) :
    s'.words = s.words.map (.relocate (Token.placeFrom n lines bytes)) := by
  have front : fs.filterMap Fragment.token? =
      fs.filterMap fun f => f.token?.map (.relocate (Token.placeFrom n lines bytes)) := by
    apply List.filterMap_congr
    intro f hf
    cases token : f.token? with
    | none => rfl
    | some t =>
      have lower := before f hf
      rw [← Fragment.position_of_token? token] at lower
      rw [Option.map_some, relocate_of_lt lower]
  have back : (gs.map (·.shift lines bytes)).filterMap Fragment.token? =
      gs.filterMap fun f => f.token?.map (.relocate (Token.placeFrom n lines bytes)) := by
    rw [List.filterMap_map]
    apply List.filterMap_congr
    intro f hf
    rw [Function.comp_apply, Fragment.token?_shift]
    cases token : f.token? with
    | none => rfl
    | some t =>
      have upper := behind f hf
      rw [← Fragment.position_of_token? token] at upper
      rw [Option.map_some, Option.map_some, relocate_of_le upper]
  rw [words, new, List.filterMap_append, (Fragment.filterMap_append_of_isLayout layout _).1, front,
    back, words, old, List.map_filterMap, List.filterMap_append]

private theorem diagnostics_of_fragments (old : s.fragments = fs ++ gs)
    (new : s'.fragments = fs ++ (ws ++ gs.map (·.shift lines bytes)))
    (layout : ∀ f ∈ ws, f.IsLayout) :
    List.Forall₂ (Diagnostic.MovesDown lines) s.diagnostics s'.diagnostics := by
  rw [diagnostics, diagnostics, new, List.filterMap_append,
    (Fragment.filterMap_append_of_isLayout layout _).2, Fragment.filterMap_diagnostic?_shift, old,
    List.filterMap_append]
  apply List.rel_append
  · exact List.forall₂_same.mpr fun d _ => ⟨rfl, rfl, .inl rfl⟩
  · exact List.forall₂_map_right_iff.mpr (List.forall₂_same.mpr fun d _ => ⟨rfl, rfl, .inr rfl⟩)

/-- Layout put in where the source is cut moves everything from there on, and adds neither a token
nor an error. -/
theorem CutAt.insert_layout (cut : CutAt source n u v fs gs) {w : String}
    (layout : Layout w.toList) (first : ∃ c ∈ w.toList.head?, IsBlank c) :
    Relocated (Token.placeFrom n (w.toList.count '\n') w.utf8ByteSize) (w.toList.count '\n')
      (ofSource source) (ofSource (String.ofList u ++ w ++ String.ofList v)) := by
  have whole : (String.ofList u ++ w ++ String.ofList v).toList = u ++ (w.toList ++ v) := by
    simp
  -- the fragments behind the cut move by what the layout takes up
  have moved := cut.tiles.shift (w.toList.count '\n') (utf8Length w.toList)
  rw [← Position.after_eq_shift] at moved
  obtain ⟨ws, behind, none⟩ := moved.prepend_layout layout
  have front : Fragment.Leads (w.toList ++ v) {} u fs := by
    obtain ⟨c, hc, blank⟩ := first
    obtain ⟨more, same⟩ := List.head?_eq_some_iff.mp hc
    rw [same, List.cons_append]
    exact cut.leads.before_blank blank (cut.stops c) (more ++ v)
  have new : fs ++ (ws ++ gs.map (·.shift (w.toList.count '\n') (utf8Length w.toList))) =
      (ofSource (String.ofList u ++ w ++ String.ofList v)).fragments := by
    rw [(front.append behind).eq_listFrom, ← whole]
    rfl
  have offset : (Position.after {} u).offset = n := by
    rw [Position.offset_after, Nat.zero_add, cut.size]
  have before : ∀ f ∈ fs, f.start.offset < n := fun f hf => offset ▸ cut.leads.start_lt hf
  have after : ∀ f ∈ gs, n ≤ f.start.offset := fun f hf => offset ▸ cut.tiles.le_start hf
  have last : n ≤ (ofSource source).eof.position.offset := by
    show n ≤ (Position.after {} source.toList).offset
    rw [cut.text, Position.after_append, Position.offset_after, offset]
    exact Nat.le_add_right ..
  have eof : (ofSource (String.ofList u ++ w ++ String.ofList v)).eof =
      (ofSource source).eof.shift (w.toList.count '\n') (utf8Length w.toList) := by
    apply eof_eq_shift
    rw [whole, cut.text, Position.after_insert]
  rw [← utf8Length_toList w]
  exact ⟨words_of_fragments cut.fragments new.symm before after none,
    eof.trans (relocate_of_le last).symm, diagnostics_of_fragments cut.fragments new.symm none⟩

theorem Relocated.tokens {place : Token → Position} (h : Relocated place lines s s') :
    s'.tokens = s.tokens.map (.relocate place) := by
  rw [Scan.tokens, Scan.tokens, h.words, h.eof, List.map_append]
  rfl

variable {place : Token → Position}

theorem Relocated.reports (h : Relocated place lines s s')
    (moves : ∀ t, (place t).line = t.position.line ∨ (place t).line = t.position.line + lines) :
    List.Forall₂ (Diagnostic.MovesDown lines) s.reports s'.reports := by
  unfold Scan.reports
  apply List.rel_append h.diagnostics
  rcases outcome?_relocate place h.words h.eof with
    ⟨here, there⟩ | ⟨e, here, there⟩ | ⟨fault, t, here, there⟩
  · rw [syntaxError?, here, syntaxError?, there]
    exact .nil
  · rw [syntaxError?, here, syntaxError?, there]
    exact .nil
  · rw [syntaxError?, here, syntaxError?, there]
    exact .cons ⟨rfl, rfl, moves t⟩ .nil

theorem Relocated.texts (h : Relocated place lines s s')
    (moves : ∀ t, (place t).line = t.position.line ∨ (place t).line = t.position.line + lines)
    (listTokens hadErrors : Bool) :
    s'.texts listTokens hadErrors = s.texts listTokens hadErrors := by
  have listing : s'.tokens.map Token.listing = s.tokens.map Token.listing := by
    rw [h.tokens, List.map_map]
    rfl
  have quiet : s'.reports.isEmpty = s.reports.isEmpty := by
    have length := (h.reports moves).length_eq
    cases here : s.reports <;> cases there : s'.reports <;> simp [here, there] at length ⊢
  have line : (s'.tree?.map fun e => e.text ++ "\n") = s.tree?.map fun e => e.text ++ "\n" := by
    unfold Scan.tree?
    rcases outcome?_relocate place h.words h.eof with
      ⟨here, there⟩ | ⟨e, here, there⟩ | ⟨fault, t, here, there⟩
    · rw [here, there]
    · rw [here, there, Option.map_some, Option.map_some, Tree.text_relocate]
    · rw [here, there]
  have answer : s'.answer = s.answer := by
    rw [Scan.answer, quiet, line]
    rfl
  rw [Scan.texts, Scan.listing, listing, answer]
  rfl

end Scan

namespace Run

theorem ofSource_relocated {source source' : String} {place : Token → Position} {lines : Nat}
    (h : Scan.Relocated place lines (Scan.ofSource source) (Scan.ofSource source'))
    (moves : ∀ t, (place t).line = t.position.line ∨ (place t).line = t.position.line + lines)
    (listTokens : Bool) (j : Journal) (o : Sink) :
    (ofSource source' listTokens j o).output = (ofSource source listTokens j o).output ∧
      (ofSource source' listTokens j o).completed = (ofSource source listTokens j o).completed ∧
      ∃ ds ds', (ofSource source listTokens j o).journal = j.recordAll ds ∧
        (ofSource source' listTokens j o).journal = j.recordAll ds' ∧
        List.Forall₂ (Diagnostic.MovesDown lines) ds ds' := by
  have listing : (Scan.ofSource source').listing listTokens =
      (Scan.ofSource source).listing listTokens := by
    simpa [Scan.texts] using h.texts moves listTokens true
  rw [ofSource_eq, ofSource_eq, h.texts moves, listing]
  refine ⟨rfl, rfl, _, _, rfl, rfl, ?_⟩
  split
  · exact h.reports moves
  · exact h.diagnostics

/-- Layout that starts with a blank may be put in wherever a token starts or ends.

The tokens stay the same, those from there on at places moved by the lines and bytes of the layout.
So a run writes the same, and reports the same messages at the same locations in the same order,
each on its line or as many lines further down as the layout has line feeds. -/
theorem ofSource_insert_layout (source : String) (t : Token)
    (ht : t ∈ (Scan.ofSource source).words) (n : Nat) (hn : n = t.position.offset ∨ n = t.stop) :
    ∃ before after : String, source = before ++ after ∧ before.utf8ByteSize = n ∧
      ∀ w : String, Layout w.toList → (∃ c ∈ w.toList.head?, IsBlank c) →
        (Scan.ofSource (before ++ w ++ after)).tokens = (Scan.ofSource source).tokens.map
          (.relocate (Token.placeFrom n (w.toList.count '\n') w.utf8ByteSize)) ∧
        ∀ (listTokens : Bool) (j : Journal) (o : Sink),
          let r := ofSource source listTokens j o
          let r' := ofSource (before ++ w ++ after) listTokens j o
          r'.output = r.output ∧ r'.completed = r.completed ∧
            ∃ ds ds', r.journal = j.recordAll ds ∧ r'.journal = j.recordAll ds' ∧
              List.Forall₂ (Diagnostic.MovesDown (w.toList.count '\n')) ds ds' := by
  obtain ⟨u, v, fs, gs, cut⟩ := Scan.exists_cutAt_token ht hn
  refine ⟨String.ofList u, String.ofList v, ?_, cut.size, ?_⟩
  · rw [← String.ofList_append, ← cut.text, String.ofList_toList]
  intro w layout blank
  have relocated := cut.insert_layout layout blank
  refine ⟨relocated.tokens, ?_⟩
  intro listTokens j o
  apply ofSource_relocated relocated
  intro t
  unfold Token.placeFrom
  split
  · exact .inr rfl
  · exact .inl rfl

theorem ofSource_insert_comment :
    ∃ t ∈ (Scan.ofSource "nil==").words, t.stop = 3 ∧ Layout " //\n".toList ∧
      ∃ before after : String, "nil==" = before ++ after ∧ before.utf8ByteSize = 3 ∧
        ∀ (j : Journal) (o : Sink), (ofSource (before ++ " //\n" ++ after) true j o).output =
          (ofSource "nil==" true j o).output := by
  have word : (⟨.keyword .nilWord, "nil", none, {}⟩ : Token) ∈ (Scan.ofSource "nil==").words := by
    decide +kernel
  have text : " //\n".toList = ' ' :: ('/' :: '/' :: [] ++ ['\n']) := rfl
  have layout : Layout " //\n".toList := by
    rw [text]
    exact .blank (.head _) (.comment (by simp) rfl (.blank (by simp [IsBlank]) .nil))
  obtain ⟨before, after, cut, size, inserted⟩ :=
    ofSource_insert_layout "nil==" _ word 3 (.inr rfl)
  refine ⟨_, word, rfl, layout, before, after, cut, size, ?_⟩
  intro j o
  exact ((inserted " //\n" layout ⟨' ', rfl, .head _⟩).2 true j o).1

end Run

end LoxExpr
