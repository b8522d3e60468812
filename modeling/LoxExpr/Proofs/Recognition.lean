import LoxExpr.Parser.Report
import LoxExpr.Proofs.Settle

/-!
The parser accepts the layered grammar of expressions and nothing else.

One direction is an invariant of reading token by token (`Reading.Reads`): the tokens taken so far
are those that have opened the frames, followed by those of a complete operand. The other direction
is by induction on how an expression is spelled: its tokens are taken from any place that asks for
at most its level, and afterwards settling gives what it would give for the expression itself.
-/

set_option autoImplicit false
set_option relaxedAutoImplicit false

namespace LoxExpr

namespace Reading

variable {limit : Option Nat} {r r' : Reading} {t : Token} {e : Tree} {w : List Token}

def Reads (limit : Option Nat) : Reading → List Token → Prop
  | operand frames, w => Frame.Opens limit frames w
  | operator e frames, w =>
    ∃ u v, w = u ++ v ∧ Frame.Opens limit frames u ∧ e.Fits limit 6 (Frame.depth frames) v

private theorem fits_operator {level : Nat} {frames : List Frame} {u v : List Token}
    (opens : Frame.Opens limit frames u) (hl : level ≤ 5)
    (fits : e.Fits limit 6 (Frame.depth frames) v) :
    e.Fits limit (max level (Frame.demand frames)) (Frame.depth frames) v := by
  have := opens.demand_le
  exact fits.mono (by omega)

theorem Step.reads (step : Step limit r t r') (h : r.Reads limit w) :
    r'.Reads limit (w ++ [t]) := by
  cases step with
  | @leaf frames t value hv =>
    refine ⟨w, [t], rfl, h, Token.leaf?_eq_some_iff.mp hv, ⟨6, Nat.le_refl 6, .leaf⟩, ?_⟩
    exact Frame.Opens.within_depth h
  | nest hf room => exact .nest hf room h
  | @binary e left frames outer t level hl hs =>
    -- the frames that bind more tightly than the operator become its left operand
    obtain ⟨u, v, rfl, opens, fits⟩ := h
    have four := Token.binaryLevel?_le hl
    have five : level ≤ 5 := by omega
    obtain ⟨u', v', same, opens', demand, fits'⟩ :=
      opens.settle five (fits_operator opens five fits)
    rw [hs] at opens' demand fits'
    rw [← same, List.append_assoc]
    exact .binary hl demand opens' fits'
  | @close e inner frames outer t hp hs =>
    obtain ⟨u, v, rfl, opens, fits⟩ := h
    obtain ⟨u', v', same, opens', -, fits'⟩ :=
      opens.settle (Nat.zero_le 5) (fits_operator opens (Nat.zero_le 5) fits)
    rw [hs] at opens' fits'
    cases opens' with
    -- only a group is left open by settling to the end, so `open?` is its parenthesis
    | @nest _ _ open? u' hf room opens' =>
      rcases Token.frame?_eq_some_iff.mp hf with ⟨left, -⟩ | ⟨-, other⟩
      · obtain ⟨k, -, hk⟩ := fits'.atLevel
        refine ⟨u', open? :: v' ++ [t], ?_, opens', ?_, ⟨6, Nat.le_refl 6, .group hk⟩, ?_⟩
        · rw [← same]
          simp
        · exact .group (Token.isLeftParen_iff.mp left) (Token.isRightParen_iff.mp hp) fits'.spells
        · have nesting : (Tree.group inner).nesting = inner.nesting + 1 := rfl
          have within : Within limit (Frame.depth (.group :: outer) + inner.nesting) :=
            fits'.within
          rw [Frame.depth_group] at within
          exact within.mono (by omega)
      · contradiction

theorem reads_of_takeAll? {taken : List Token} (h : r.Reads limit w)
    (ht : r.takeAll? limit taken = some r') : r'.Reads limit (w ++ taken) := by
  induction taken generalizing r w with
  | nil =>
    obtain rfl := Option.some.inj ht
    rwa [List.append_nil]
  | cons t ts ih =>
    obtain ⟨r₁, h₁, hr⟩ := Option.bind_eq_some_iff.mp ht
    have next := ih ((take?_eq_some_iff.mp h₁).reads h) hr
    rwa [List.append_assoc] at next

theorem fits_of_completes (ht : start.takeAll? limit w = some r) (hr : r.Completes e) :
    e.Fits limit 0 0 w := by
  obtain ⟨last, frames, rfl, hs⟩ := hr
  obtain ⟨u, v, rfl, opens, fits⟩ := reads_of_takeAll? (r := start) (w := []) Frame.Opens.nil ht
  obtain ⟨u', v', same, opens', -, fits'⟩ :=
    opens.settle (Nat.zero_le 5) (fits_operator opens (Nat.zero_le 5) fits)
  rw [hs] at opens' fits'
  cases opens'
  rw [← same]
  exact fits'

theorem Step.takeAll?_cons {ts : List Token} (step : Step limit r t r') :
    r.takeAll? limit (t :: ts) = r'.takeAll? limit ts := by
  rw [Reading.takeAll?_cons, take?_eq_some_iff.mpr step, Option.bind_some]

/-- Within some frames the given tokens are taken and amount to an expression of the given level.
What has been completed at their end may be one of its last operands only, but at no level above
that of the expression does settling tell the difference. -/
def Takes (limit : Option Nat) (frames : List Frame) (level : Nat) (w : List Token) (e : Tree) :
    Prop :=
  ∃ last inner, (operand frames).takeAll? limit w = some (operator last inner) ∧
    ∀ k ≤ level, Frame.settle k inner last = Frame.settle k frames e

namespace Takes

variable {frames : List Frame} {level : Nat}

theorem leaf {value : Literal} (h : (Tree.leaf value).Spells [t]) :
    Takes limit frames level [t] (.leaf value) :=
  ⟨_, _, (Step.leaf (Token.leaf?_eq_some_iff.mpr h)).takeAll?_cons, fun _ _ => rfl⟩

theorem group {left right : Token} {inner : Tree} (hl : left.isLeftParen = true)
    (hr : right.isRightParen = true) (room : Within limit (Frame.depth frames + 1))
    (h : Takes limit (.group :: frames) level w inner) :
    Takes limit frames 6 (left :: w ++ [right]) (.group inner) := by
  obtain ⟨last, pending, taken, settled⟩ := h
  have opening : left.frame? = some .group := Token.frame?_eq_some_iff.mpr (.inl ⟨hl, rfl⟩)
  have closing : Frame.settle 0 pending last = (inner, .group :: frames) := by
    rw [settled 0 (Nat.zero_le level)]
    simp [Frame.settle, Frame.holds]
  refine ⟨.group inner, frames, ?_, fun _ _ => rfl⟩
  rw [List.cons_append, (Step.nest opening room).takeAll?_cons, takeAll?_append, taken]
  exact (Step.close hr closing).takeAll?_cons

theorem unary {operand : Tree} (ht : t.isUnary = true)
    (room : Within limit (Frame.depth frames + 1)) (five : 5 ≤ level)
    (h : Takes limit (.unary t :: frames) level w operand) :
    Takes limit frames 5 (t :: w) (.unary t operand) := by
  obtain ⟨last, pending, taken, settled⟩ := h
  have opening : t.frame? = some (.unary t) := Token.frame?_eq_some_iff.mpr (.inr ⟨ht, rfl⟩)
  refine ⟨last, pending, ?_, ?_⟩
  · rw [(Step.nest opening room).takeAll?_cons, taken]
  · intro k hk
    rw [settled k (Nat.le_trans hk five)]
    simp [Frame.settle, Frame.holds, Frame.fill]

theorem binary {left right : Tree} {i j k : Nat} {v : List Token} (ht : t.binaryLevel? = some k)
    (hd : Frame.demand frames ≤ k) (hi : k ≤ i) (hj : k < j) (hl : Takes limit frames i v left)
    (hr : Takes limit (.binary left t :: frames) j w right) :
    Takes limit frames k (v ++ t :: w) (.binary left t right) := by
  obtain ⟨last, pending, taken, settled⟩ := hl
  obtain ⟨last', pending', taken', settled'⟩ := hr
  have stays : Frame.settle k pending last = (left, frames) := by
    rw [settled k hi]
    exact Frame.settle_of_demand_le hd (Token.binaryLevel?_le ht) left
  refine ⟨last', pending', ?_, ?_⟩
  · rw [takeAll?_append, taken, Option.bind_some, (Step.binary ht stays).takeAll?_cons, taken']
  · intro n hn
    rw [settled' n (by omega)]
    simp [Frame.settle, Frame.holds, Frame.fill, ht, hn]

end Takes

/-- The tokens of an expression are taken wherever its level is enough and there is room for its
groups and prefix operators. -/
theorem takes_of_spells {frames : List Frame} {level : Nat} (spells : e.Spells w)
    (he : e.AtLevel level) (hd : Frame.demand frames ≤ level)
    (room : Within limit (Frame.depth frames + e.nesting)) : Takes limit frames level w e := by
  induction spells generalizing frames level with
  | falseWord h => exact .leaf (.falseWord h)
  | trueWord h => exact .leaf (.trueWord h)
  | nilWord h => exact .leaf (.nilWord h)
  | literal h hv => exact .leaf (.literal h hv)
  | @group left right inner w hl hr _ ih =>
    cases he with
    | @group _ k hk =>
      have nesting : (Tree.group inner).nesting = inner.nesting + 1 := rfl
      have one : Within limit (Frame.depth frames + 1) := room.mono (by omega)
      have deeper : Within limit (Frame.depth (.group :: frames) + inner.nesting) := by
        rw [Frame.depth_group]
        exact room.mono (by omega)
      have taken : Takes limit (.group :: frames) k w inner := ih hk (Nat.zero_le k) deeper
      exact .group (Token.isLeftParen_iff.mpr hl) (Token.isRightParen_iff.mpr hr) one taken
  | @unary t operand w _ ih =>
    cases he with
    | @unary _ _ k ht hk five =>
      have nesting : (Tree.unary t operand).nesting = operand.nesting + 1 := rfl
      have one : Within limit (Frame.depth frames + 1) := room.mono (by omega)
      have deeper : Within limit (Frame.depth (.unary t :: frames) + operand.nesting) := by
        rw [Frame.depth_unary]
        exact room.mono (by omega)
      have taken : Takes limit (.unary t :: frames) k w operand := ih hk five deeper
      exact .unary (Token.isUnary_iff.mpr ht) one five taken
  | @binary t left right v w _ _ ihl ihr =>
    cases he with
    | @binary _ s _ _ i j _ hs hk hl hi hr hj =>
      -- the right operand is read within one more frame, which asks for more than `level`
      have ht : t.binaryLevel? = some level := Token.binaryLevel?_eq_some_iff.mpr ⟨s, hk, hs⟩
      have nesting : (Tree.binary left t right).nesting = max left.nesting right.nesting := rfl
      have inLeft : Within limit (Frame.depth frames + left.nesting) := room.mono (by omega)
      have inRight : Within limit (Frame.depth (.binary left t :: frames) + right.nesting) := by
        rw [Frame.depth_binary]
        exact room.mono (by omega)
      have demand : Frame.demand (.binary left t :: frames) ≤ j := by
        rw [Frame.demand_binary ht]
        exact hj
      have takenLeft := ihl hl (Nat.le_trans hd hi) inLeft
      have takenRight := ihr hr demand inRight
      exact .binary ht hd hi hj takenLeft takenRight

theorem exists_completes_iff :
    (∃ r, start.takeAll? limit w = some r ∧ r.Completes e) ↔
      e.Spells w ∧ e.Stratified ∧ Within limit e.nesting := by
  constructor
  · rintro ⟨r, ht, hr⟩
    have fits := fits_of_completes ht hr
    obtain ⟨k, -, hk⟩ := fits.atLevel
    exact ⟨fits.spells, ⟨k, hk⟩, by simpa using fits.within⟩
  · rintro ⟨spells, ⟨k, hk⟩, room⟩
    have demand : Frame.demand [] ≤ k := Nat.zero_le k
    have shallow : Within limit (Frame.depth [] + e.nesting) := by simpa using room
    obtain ⟨last, pending, taken, settled⟩ := takes_of_spells spells hk demand shallow
    exact ⟨_, taken, last, pending, rfl, settled 0 (Nat.zero_le k)⟩

end Reading

namespace Parser

theorem parseWithin_eq_ok_iff_spells {limit : Option Nat} {p : Parser} {e : Tree}
    (idle : p.reading = .start) :
    p.parseWithin limit = .ok e ↔ e.Spells p.ahead ∧ e.Stratified ∧ Within limit e.nesting := by
  rw [parseWithin_eq_ok_iff idle, Reading.exists_completes_iff]

theorem parseInto_fst_eq_some_iff {p : Parser} {j : Journal} {e : Tree} :
    (p.parseInto j).1 = some e ↔ p.parse = .ok e := by
  unfold parseInto
  cases p.parse <;> simp [Except.toOption]

/-- A list of tokens is accepted, with the expression as the result, exactly when the tokens before
the first end token are those of a layered expression with at most 255 levels of nesting. So there
is one expression at most that given tokens can be read as. -/
theorem parseInto_eq_some_iff_spells (tokens : List Token)
    (ends : tokens.getLast?.any Token.isEof = true) :
    ∃ p, ofTokens? tokens = some p ∧ ∀ (j : Journal) (e : Tree), (p.parseInto j).1 = some e ↔
      e.Spells (tokens.takeWhile (!·.isEof)) ∧ e.Stratified ∧ e.nesting ≤ 255 := by
  obtain ⟨finish, after, -, -, hp⟩ := exists_ofTokens? ends
  refine ⟨_, hp, ?_⟩
  intro j e
  rw [parseInto_fst_eq_some_iff, parse, parseWithin_eq_ok_iff_spells rfl, Within.some_iff,
    nestingLimit]

theorem parseInto_reads_equality :
    ∃ p, ofTokens? [.bare (.symbol .bang) "!", .bare (.keyword .trueWord) "true",
        .bare (.symbol .equalEqual) "==", .bare (.symbol .leftParen) "(",
        .bare (.keyword .nilWord) "nil", .bare (.symbol .rightParen) ")", .eof {}] = some p ∧
      ∀ j : Journal, (p.parseInto j).1 = some
        (.binary (.unary (.bare (.symbol .bang) "!") (.leaf (.boolean true)))
          (.bare (.symbol .equalEqual) "==") (.group (.leaf .nil))) := by
  obtain ⟨p, hp, accepts⟩ := parseInto_eq_some_iff_spells
    [.bare (.symbol .bang) "!", .bare (.keyword .trueWord) "true", .bare (.symbol .equalEqual) "==",
      .bare (.symbol .leftParen) "(", .bare (.keyword .nilWord) "nil",
      .bare (.symbol .rightParen) ")", .eof {}] rfl
  refine ⟨p, hp, ?_⟩
  intro j
  refine (accepts j _).mpr ⟨?_, ⟨1, ?_⟩, by decide⟩
  · exact .binary (v := [_, _]) (.unary (.trueWord rfl))
      (.group (w := [_]) rfl rfl (.nilWord rfl))
  · exact .binary rfl (by decide) (.unary (.inl rfl) .leaf (by omega)) (by omega) (.group .leaf)
      (by omega)

end Parser

end LoxExpr
