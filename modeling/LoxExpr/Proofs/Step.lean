import LoxExpr.Parser
import LoxExpr.Proofs.Stratified

/-!
What one token does to a reading, and what a list of tokens does.

`Reading.take?_eq_some_iff` lists the four ways of taking a token. A parser takes the longest list
of tokens that can be taken one after the other (`Parser.parseWithin_of_takeAll?`), and it
answers with an expression exactly when that list is all there is and the reading may end behind it
(`Parser.parseWithin_eq_ok_iff`).
-/

set_option autoImplicit false
set_option relaxedAutoImplicit false

namespace LoxExpr

def Within (limit : Option Nat) (n : Nat) : Prop := ∀ m ∈ limit, n ≤ m

namespace Within

variable {limit : Option Nat} {m n : Nat}

theorem mono (h : Within limit n) (hm : m ≤ n) : Within limit m := by
  intro l hl
  exact Nat.le_trans hm (h l hl)

theorem succ_iff_all : Within limit (n + 1) ↔ limit.all (n < ·) = true := by
  simp only [Within, Option.mem_def, Option.all_eq_true, decide_eq_true_eq, Nat.succ_le_iff]

theorem some_iff : Within (some m) n ↔ n ≤ m := by
  simp [Within]

end Within

namespace Token

variable {t : Token}

theorem frame?_eq_some_iff {f : Frame} :
    t.frame? = some f ↔ t.isLeftParen = true ∧ f = .group ∨ t.isUnary = true ∧ f = .unary t := by
  unfold Token.frame?
  split
  · rename_i h
    have notUnary : t.isUnary = false := by
      simp [isUnary, isLeftParen_iff.mp h]
    simp [h, notUnary, eq_comm (a := f)]
  · rename_i h
    simp [h, eq_comm (a := f)]

theorem isSome_frame?_iff : t.frame?.isSome = true ↔
    t.kind = .symbol .leftParen ∨ t.kind = .symbol .bang ∨ t.kind = .symbol .minus := by
  rw [← isLeftParen_iff, ← isUnary_iff]
  unfold Token.frame?
  cases t.isLeftParen <;> cases t.isUnary <;> simp

theorem leaf?_eq_none_of_frame? {f : Frame} (h : t.frame? = some f) : t.leaf? = none := by
  rcases frame?_eq_some_iff.mp h with ⟨hp, -⟩ | ⟨hu, -⟩
  · simp [Token.leaf?, isLeftParen_iff.mp hp]
  · rcases isUnary_iff.mp hu with hk | hk <;> simp [Token.leaf?, hk]

theorem binaryLevel?_eq_none_of_isRightParen (h : t.isRightParen = true) :
    t.binaryLevel? = none := by
  simp [Token.binaryLevel?, isRightParen_iff.mp h, Symbol.binaryLevel?]

end Token

namespace Reading

variable {limit : Option Nat}

/-- The ways in which a reading takes a token. -/
inductive Step (limit : Option Nat) : Reading → Token → Reading → Prop
  | leaf {frames : List Frame} {t : Token} {value : Literal} :
      t.leaf? = some value → Step limit (operand frames) t (operator (.leaf value) frames)
  | nest {frames : List Frame} {t : Token} {frame : Frame} :
      t.frame? = some frame → Within limit (Frame.depth frames + 1) →
      Step limit (operand frames) t (operand (frame :: frames))
  | binary {e left : Tree} {frames outer : List Frame} {t : Token} {level : Nat} :
      t.binaryLevel? = some level → Frame.settle level frames e = (left, outer) →
      Step limit (operator e frames) t (operand (.binary left t :: outer))
  | close {e inner : Tree} {frames outer : List Frame} {t : Token} :
      t.isRightParen = true → Frame.settle 0 frames e = (inner, .group :: outer) →
      Step limit (operator e frames) t (operator (.group inner) outer)

private theorem step_of_takeOperand? {frames : List Frame} {t : Token} {r : Reading}
    (h : takeOperand? limit frames t = some r) : Step limit (operand frames) t r := by
  unfold takeOperand? at h
  split at h
  · rename_i hv
    exact Option.some.inj h ▸ .leaf hv
  · rename_i hf
    split at h
    · rename_i room
      exact Option.some.inj h ▸ .nest hf (Within.succ_iff_all.mpr room)
    · contradiction
  · contradiction

private theorem step_of_takeOperator? {e : Tree} {frames : List Frame} {t : Token} {r : Reading}
    (h : takeOperator? e frames t = some r) : Step limit (operator e frames) t r := by
  unfold takeOperator? at h
  split at h
  · rename_i level hl
    exact Option.some.inj h ▸ .binary hl rfl
  · split at h
    · rename_i hp
      split at h
      · rename_i hs
        exact Option.some.inj h ▸ .close hp hs
      · contradiction
    · contradiction

/-- A reading takes a token in one of four ways, or not at all. -/
theorem take?_eq_some_iff {r r' : Reading} {t : Token} :
    r.take? limit t = some r' ↔ Step limit r t r' := by
  constructor
  · intro h
    cases r with
    | operand frames => exact step_of_takeOperand? h
    | operator e frames => exact step_of_takeOperator? h
  · intro h
    cases h with
    | leaf hv => simp [take?, takeOperand?, hv]
    | nest hf room =>
      simp [take?, takeOperand?, Token.leaf?_eq_none_of_frame? hf, hf, Within.succ_iff_all.mp room]
    | binary hl hs => simp [take?, takeOperator?, hl, hs]
    | close hp hs =>
      simp [take?, takeOperator?, Token.binaryLevel?_eq_none_of_isRightParen hp, hp, hs]

def takeAll? (limit : Option Nat) (r : Reading) (tokens : List Token) : Option Reading :=
  tokens.foldlM (take? limit) r

@[simp] theorem takeAll?_nil (r : Reading) : r.takeAll? limit [] = some r := rfl

theorem takeAll?_cons (r : Reading) (t : Token) (ts : List Token) :
    r.takeAll? limit (t :: ts) = (r.take? limit t).bind fun r' => r'.takeAll? limit ts := rfl

theorem takeAll?_append (r : Reading) (v w : List Token) :
    r.takeAll? limit (v ++ w) = (r.takeAll? limit v).bind fun r' => r'.takeAll? limit w := by
  simp [takeAll?, List.foldlM_append]

theorem takeAll?_concat {r r' : Reading} {t : Token} {w : List Token} :
    r.takeAll? limit (w ++ [t]) = some r' ↔
      ∃ r₁, r.takeAll? limit w = some r₁ ∧ Step limit r₁ t r' := by
  simp only [takeAll?_append, Option.bind_eq_some_iff, takeAll?_cons, takeAll?_nil,
    take?_eq_some_iff, Option.some.injEq, exists_eq_right]

theorem exists_takeAll?_stuck (limit : Option Nat) (r : Reading) (tokens : List Token) :
    ∃ taken rest r', tokens = taken ++ rest ∧ r.takeAll? limit taken = some r' ∧
      ∀ t ∈ rest.head?, r'.take? limit t = none := by
  induction tokens generalizing r with
  | nil => exact ⟨[], [], r, by simp⟩
  | cons t ts ih =>
    cases ht : r.take? limit t with
    | none => exact ⟨[], t :: ts, r, by simp [ht]⟩
    | some r₁ =>
      obtain ⟨taken, rest, r', rfl, hr, stuck⟩ := ih r₁
      exact ⟨t :: taken, rest, r', by simp, by simp [takeAll?_cons, ht, hr], stuck⟩

theorem advance_append_of_takeAll? {r r' : Reading} {taken : List Token}
    (h : r.takeAll? limit taken = some r') (rest : List Token) :
    r.advance limit (taken ++ rest) = r'.advance limit rest := by
  induction taken generalizing r with
  | nil => simp_all
  | cons t ts ih =>
    rw [takeAll?_cons, Option.bind_eq_some_iff] at h
    obtain ⟨r₁, ht, hr⟩ := h
    rw [List.cons_append, advance, ht]
    exact ih hr

theorem advance_of_stuck {r : Reading} {rest : List Token}
    (stuck : ∀ t ∈ rest.head?, r.take? limit t = none) : r.advance limit rest = (r, rest) := by
  cases rest with
  | nil => rfl
  | cons t ts => simp [advance, stuck t rfl]

/-- The reading may end here, and `e` is what has been read. -/
def Completes (r : Reading) (e : Tree) : Prop :=
  ∃ last frames, r = operator last frames ∧ Frame.settle 0 frames last = (e, [])

def faultAt (r : Reading) (t : Token) : SyntaxFault :=
  match r.result t with
  | .ok _ => .expectedEndOfExpression
  | .error fault => fault

theorem result_eq_ok_iff {r : Reading} {t : Token} {e : Tree} :
    r.result t = .ok e ↔ r.Completes e := by
  cases r with
  | operand frames =>
    simp only [result, Completes]
    split <;> simp
  | operator last frames =>
    simp only [result, Completes, operator.injEq]
    constructor
    · intro h
      split at h
      · rename_i hs
        exact ⟨last, frames, ⟨rfl, rfl⟩, by simp_all⟩
      · contradiction
    · rintro ⟨_, _, ⟨rfl, rfl⟩, hs⟩
      rw [hs]

end Reading

namespace Parser

variable {limit : Option Nat} {p : Parser} {e : Tree}

theorem exists_ofTokens? {tokens : List Token} (h : tokens.getLast?.any Token.isEof = true) :
    ∃ finish after, tokens = tokens.takeWhile (!·.isEof) ++ finish :: after ∧
      finish.isEof = true ∧
      ofTokens? tokens = some ⟨0, tokens.takeWhile (!·.isEof), finish, .start⟩ := by
  obtain ⟨last, hl, isEnd⟩ := (Option.any_eq_true _ _).mp h
  have found : (tokens.find? Token.isEof).isSome = true := by
    rw [List.find?_isSome]
    exact ⟨last, List.mem_of_getLast? hl, isEnd⟩
  obtain ⟨finish, hf⟩ := Option.isSome_iff_exists.mp found
  obtain ⟨first, before, after, cut, none⟩ := List.find?_eq_some_iff_append.mp hf
  have ahead : tokens.takeWhile (!·.isEof) = before := by
    rw [cut, List.takeWhile_append_of_pos none, List.takeWhile_cons_of_neg (by simp [first]),
      List.append_nil]
  refine ⟨finish, after, ?_, first, ?_⟩
  · rw [ahead, cut]
  · simp [ofTokens?, h, hf]

/-- What a parser answers when `taken` is all it can take of the tokens up to the end: an expression
if nothing is left and the reading may end, and otherwise an error at the token behind. -/
theorem parseWithin_of_takeAll? {taken rest : List Token} {r : Reading} (idle : p.reading = .start)
    (cut : p.ahead = taken ++ rest) (ht : Reading.start.takeAll? limit taken = some r)
    (stuck : ∀ t ∈ rest.head?, r.take? limit t = none) :
    p.parseWithin limit =
      match r.result (rest.head?.getD p.finish) with
      | .ok e =>
        if rest.isEmpty then .ok e
        else .error (.atToken .expectedEndOfExpression (rest.head?.getD p.finish))
      | .error fault => .error (.atToken fault (rest.head?.getD p.finish)) := by
  have moved : p.reading.advance limit p.ahead = (r, rest) := by
    rw [idle, cut, Reading.advance_append_of_takeAll? ht]
    exact Reading.advance_of_stuck stuck
  unfold parseWithin readWithin advance moveTo next
  simp only [moved]
  cases hr : r.result (rest.head?.getD p.finish) with
  | ok e => rfl
  | error fault => cases fault <;> rfl

theorem parseWithin_eq_error {taken rest : List Token} {r : Reading} {error : SyntaxError}
    (idle : p.reading = .start) (cut : p.ahead = taken ++ rest)
    (ht : Reading.start.takeAll? limit taken = some r)
    (stuck : ∀ t ∈ rest.head?, r.take? limit t = none)
    (failed : p.parseWithin limit = .error error) :
    error = .atToken (r.faultAt (rest.head?.getD p.finish)) (rest.head?.getD p.finish) ∧
      (rest = [] → ∀ e, ¬ r.Completes e) := by
  rw [parseWithin_of_takeAll? idle cut ht stuck] at failed
  unfold Reading.faultAt
  constructor
  · split at failed
    · split at failed
      · contradiction
      · exact (Except.error.inj failed).symm
    · exact (Except.error.inj failed).symm
  · rintro rfl e he
    rw [Reading.result_eq_ok_iff.mpr he] at failed
    contradiction

theorem parseWithin_eq_ok_iff (idle : p.reading = .start) :
    p.parseWithin limit = .ok e ↔
      ∃ r, Reading.start.takeAll? limit p.ahead = some r ∧ r.Completes e := by
  constructor
  · intro h
    -- the answer depends only on the longest list that can be taken
    obtain ⟨taken, rest, r, cut, ht, stuck⟩ :=
      Reading.exists_takeAll?_stuck limit .start p.ahead
    rw [parseWithin_of_takeAll? idle cut ht stuck] at h
    split at h
    · rename_i e' he
      split at h
      · rename_i empty
        obtain rfl := List.isEmpty_iff.mp empty
        obtain rfl := Except.ok.inj h
        exact ⟨r, by rw [cut, List.append_nil, ht], Reading.result_eq_ok_iff.mp he⟩
      · contradiction
    · contradiction
  · rintro ⟨r, ht, hr⟩
    rw [parseWithin_of_takeAll? idle (List.append_nil _).symm ht (by simp),
      Reading.result_eq_ok_iff.mpr hr]
    rfl

end Parser

end LoxExpr
