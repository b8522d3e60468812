import LoxExpr.Proofs.Splice

/-!
Texts of whitespace and comments only, apart from any way of reading them.

In such a text scanning finds neither a token nor an error, and in no other
(`Scan.words_eq_nil_and_diagnostics_eq_nil_iff`). A comment goes up to the next line feed; only the
last one of a source may be without it.
-/

set_option autoImplicit false
set_option relaxedAutoImplicit false

namespace LoxExpr

/-- Blanks and comments, each comment with a line feed behind it. -/
inductive Layout : List Char → Prop
  | nil : Layout []
  | blank {c : Char} {w : List Char} : IsBlank c → Layout w → Layout (c :: w)
  | comment {body w : List Char} :
      '\n' ∉ body → w.head? = some '\n' → Layout w → Layout ('/' :: '/' :: body ++ w)

/-- Blanks and comments, the last comment perhaps without a line feed behind it. -/
def OnlyLayout (text : List Char) : Prop :=
  Layout text ∨ ∃ w body, text = w ++ '/' :: '/' :: body ∧ Layout w ∧ '\n' ∉ body

namespace OnlyLayout

variable {text : List Char}

theorem blank {c : Char} (hc : IsBlank c) (h : OnlyLayout text) : OnlyLayout (c :: text) := by
  rcases h with h | ⟨w, body, rfl, hw, free⟩
  · exact .inl (.blank hc h)
  · exact .inr ⟨c :: w, body, rfl, .blank hc hw, free⟩

theorem comment {body : List Char} (free : '\n' ∉ body) (stop : ∀ c ∈ text.head?, c = '\n')
    (h : OnlyLayout text) : OnlyLayout ('/' :: '/' :: body ++ text) := by
  cases text with
  | nil => exact .inr ⟨[], body, by simp, .nil, free⟩
  | cons c rest =>
    obtain rfl := stop c rfl
    rcases h with h | ⟨w, other, same, hw, free'⟩
    · exact .inl (.comment free rfl h)
    · cases w with
      | nil => cases (List.cons.inj same).1
      | cons d w =>
        obtain ⟨rfl, -⟩ := List.cons.inj same
        exact .inr ⟨'/' :: '/' :: body ++ '\n' :: w, other, by rw [same]; simp,
          .comment free rfl hw, free'⟩

end OnlyLayout

namespace Fragment

variable {p : Position} {w v text : List Char} {fs gs : List Fragment}

def IsLayout (f : Fragment) : Prop := f.token? = none ∧ f.diagnostic? = none

theorem filterMap_append_of_isLayout {ws : List Fragment} (layout : ∀ f ∈ ws, f.IsLayout)
    (fs : List Fragment) :
    (ws ++ fs).filterMap token? = fs.filterMap token? ∧
      (ws ++ fs).filterMap diagnostic? = fs.filterMap diagnostic? := by
  have noToken : ws.filterMap token? = [] :=
    List.filterMap_eq_nil_iff.mpr fun f hf => (layout f hf).1
  have noError : ws.filterMap diagnostic? = [] :=
    List.filterMap_eq_nil_iff.mpr fun f hf => (layout f hf).2
  simp only [List.filterMap_append, noToken, noError, List.nil_append, and_self]

theorem Tiles.prepend_layout (tiles : Tiles (p.after w) v gs) (layout : Layout w) :
    ∃ ws, Tiles p (w ++ v) (ws ++ gs) ∧ ∀ f ∈ ws, f.IsLayout := by
  induction layout generalizing p with
  | nil => exact ⟨[], tiles, by simp⟩
  | @blank c w hc _ ih =>
    obtain ⟨ws, tiles, none⟩ := ih (p := p.step c) tiles
    exact ⟨⟨p, .blank c⟩ :: ws, @Tiles.cons p (.blank c) _ _ hc tiles,
      List.forall_mem_cons.mpr ⟨⟨rfl, rfl⟩, none⟩⟩
  | @comment body w free feed _ ih =>
    rw [Position.after_append] at tiles
    obtain ⟨ws, tiles, none⟩ := ih tiles
    have stop : ∀ c ∈ (w ++ v).head?, c = '\n' := by
      rw [List.head?_append, feed]
      simp
    refine ⟨⟨p, .comment body⟩ :: ws, ?_, List.forall_mem_cons.mpr ⟨⟨rfl, rfl⟩, none⟩⟩
    rw [List.append_assoc]
    exact @Tiles.cons p (.comment body) _ _ ⟨free, stop⟩ tiles

theorem exists_tiles_of_onlyLayout (p : Position) (h : OnlyLayout text) :
    ∃ ws, Tiles p text ws ∧ ∀ f ∈ ws, f.IsLayout := by
  rcases h with layout | ⟨w, body, rfl, layout, free⟩
  · obtain ⟨ws, tiles, none⟩ := Tiles.prepend_layout (p := p) .nil layout
    exact ⟨ws, by simpa using tiles, by simpa using none⟩
  · have last : Tiles (p.after w) ('/' :: '/' :: body) [⟨p.after w, .comment body⟩] := by
      have fits : (Piece.comment body).Fits [] := ⟨free, by simp⟩
      simpa [Piece.text] using Tiles.cons (p := p.after w) fits .nil
    obtain ⟨ws, tiles, none⟩ := last.prepend_layout layout
    refine ⟨_, tiles, ?_⟩
    intro f hf
    rcases List.mem_append.mp hf with hf | hf
    · exact none f hf
    · obtain rfl := List.mem_singleton.mp hf
      exact ⟨rfl, rfl⟩

theorem Tiles.onlyLayout (tiles : Tiles p text fs) (none : ∀ f ∈ fs, f.IsLayout) :
    OnlyLayout text := by
  induction tiles with
  | nil => exact .inl .nil
  | @cons p piece rest fs fits _ ih =>
    obtain ⟨⟨noToken, noError⟩, others⟩ := List.forall_mem_cons.mp none
    have rest := ih others
    cases piece with
    | lexeme l => cases noToken
    | blank c => exact rest.blank fits
    | comment body => exact rest.comment fits.1 fits.2
    | rejected c => cases noError
    | unterminated body => cases noError

end Fragment

namespace Scan

theorem words_eq_nil_and_diagnostics_eq_nil_iff (source : String) :
    (ofSource source).words = [] ∧ (ofSource source).diagnostics = [] ↔
      OnlyLayout source.toList := by
  have unfolded : (ofSource source).words = [] ∧ (ofSource source).diagnostics = [] ↔
      ∀ f ∈ Fragment.listFrom {} source.toList, f.IsLayout := by
    simp only [words, diagnostics, List.filterMap_eq_nil_iff, Fragment.IsLayout]
    constructor
    · rintro ⟨noToken, noError⟩ f hf
      exact ⟨noToken f hf, noError f hf⟩
    · intro none
      exact ⟨fun f hf => (none f hf).1, fun f hf => (none f hf).2⟩
  rw [unfolded]
  constructor
  · exact (Fragment.tiles_listFrom {} source.toList).onlyLayout
  · intro h
    obtain ⟨ws, tiles, none⟩ := Fragment.exists_tiles_of_onlyLayout {} h
    rwa [← tiles.eq_listFrom]

end Scan

end LoxExpr
