import LoxExpr.Proofs.Calls

/-!
Where reading token by token stops.

`Reading.Stops` says that taking given words one by one gets stuck at an error and which words are
passed over then; it grows at its front with the words taken before (`Reading.Stops.append`). Words
that are taken as an expression (`Reading.Takes`) and words at which a reading stops settle what a
parser answers and where it stands then (`Parser.readWithin_of_takes`,
`Parser.readWithin_of_stops`).
-/

set_option autoImplicit false
set_option relaxedAutoImplicit false

namespace LoxExpr

theorem Token.binaryLevel?_eq_none {t : Token}
    (below : ∀ level, t.binaryLevel? = some level → level < 1) : t.binaryLevel? = none := by
  cases found : t.binaryLevel? with
  | none => rfl
  | some level =>
    obtain rfl := Nat.lt_one_iff.mp (below level found)
    obtain ⟨s, none, -⟩ := Token.binaryLevel?_eq_some_iff.mp found
    contradiction

/-- What is passed over of the words that a fault shows at. Only a token that would nest too deeply
has been moved over by then. -/
def SyntaxFault.passed (fault : SyntaxFault) (w : List Token) : List Token :=
  if fault = .tooDeeplyNested then w.take 1 else []

theorem SyntaxFault.passed_of_ne {fault : SyntaxFault} (other : fault ≠ .tooDeeplyNested)
    (w : List Token) : fault.passed w = [] :=
  if_neg other

namespace Reading

variable {limit : Option Nat} {r r' : Reading} {finish t : Token} {frames : List Frame}
  {e : Tree} {v w passed : List Token} {error : SyntaxError}

def nextOf (finish : Token) (w : List Token) : Token := w.head?.getD finish

/-- Taking the first list of words one by one gets stuck at an error, with the second list passed
over. -/
inductive Stops (limit : Option Nat) (finish : Token) :
    Reading → List Token → List Token → SyntaxError → Prop
  | stuck {r : Reading} {w : List Token} {fault : SyntaxFault} :
      (∀ t ∈ w.head?, r.take? limit t = none) → r.result (nextOf finish w) = .error fault →
      Stops limit finish r w (fault.passed w) (.atToken fault (nextOf finish w))
  | take {r r' : Reading} {t : Token} {w passed : List Token} {error : SyntaxError} :
      Step limit r t r' → Stops limit finish r' w passed error →
      Stops limit finish r (t :: w) (t :: passed) error

theorem Stops.append (ht : r.takeAll? limit v = some r')
    (stops : Stops limit finish r' w passed error) :
    Stops limit finish r (v ++ w) (v ++ passed) error := by
  induction v generalizing r with
  | nil =>
    obtain rfl := Option.some.inj ht
    exact stops
  | cons t v ih =>
    obtain ⟨r₁, h₁, hr⟩ := Option.bind_eq_some_iff.mp ht
    exact .take (take?_eq_some_iff.mp h₁) (ih hr)

theorem Stops.exists_cut (stops : Stops limit finish r w passed error) :
    ∃ taken rest r' fault, w = taken ++ rest ∧ passed = taken ++ fault.passed rest ∧
      r.takeAll? limit taken = some r' ∧ (∀ t ∈ rest.head?, r'.take? limit t = none) ∧
      r'.result (nextOf finish rest) = .error fault ∧
      error = .atToken fault (nextOf finish rest) := by
  induction stops with
  | @stuck r w fault stuck result => exact ⟨[], w, r, fault, rfl, rfl, rfl, stuck, result, rfl⟩
  | @take r r' t w passed error step _ ih =>
    obtain ⟨taken, rest, r'', fault, rfl, rfl, ht, found⟩ := ih
    exact ⟨t :: taken, rest, r'', fault, rfl, rfl, step.takeAll?_cons.trans ht, found⟩

theorem Takes.mono {level level' : Nat} (takes : Takes limit frames level w e)
    (h : level' ≤ level) : Takes limit frames level' w e := by
  obtain ⟨last, inner, taken, settled⟩ := takes
  exact ⟨last, inner, taken, fun k hk => settled k (Nat.le_trans hk h)⟩

theorem Takes.takeAll?_binary {k : Nat} (takes : Takes limit frames k v e)
    (ht : t.binaryLevel? = some k) (hd : Frame.demand frames ≤ k) :
    (operand frames).takeAll? limit (v ++ [t]) = some (operand (.binary e t :: frames)) := by
  obtain ⟨last, pending, taken, settled⟩ := takes
  have stays : Frame.settle k pending last = (e, frames) := by
    rw [settled k (Nat.le_refl k)]
    exact Frame.settle_of_demand_le hd (Token.binaryLevel?_le ht) e
  rw [takeAll?_append, taken, Option.bind_some, (Step.binary ht stays).takeAll?_cons,
    takeAll?_nil]

theorem Takes.stops_open {k : Nat} {taken rest : List Token}
    (takes : Takes limit (.group :: frames) k taken e) (opening : t.frame? = some .group)
    (room : Within limit (Frame.depth frames + 1))
    (below : ∀ level, (nextOf finish rest).binaryLevel? = some level → level < 1)
    (other : ¬ (nextOf finish rest).isRightParen = true) :
    Stops limit finish (operand frames) (t :: (taken ++ rest)) (t :: taken)
      (.atToken .missingRightParen (nextOf finish rest)) := by
  obtain ⟨last, pending, taken', settled⟩ := takes
  have inner : Frame.settle 0 pending last = (e, .group :: frames) := by
    rw [settled 0 (Nat.zero_le k)]
    simp [Frame.settle, Frame.holds]
  have nothing : t :: taken = t :: (taken ++ SyntaxFault.missingRightParen.passed rest) := by
    rw [SyntaxFault.passed_of_ne (by decide), List.append_nil]
  rw [nothing]
  refine .take (.nest opening room) (.append taken' (.stuck ?_ ?_))
  · intro u hu
    obtain ⟨rest', rfl⟩ := List.head?_eq_some_iff.mp hu
    have level : u.binaryLevel? = none := Token.binaryLevel?_eq_none below
    have open' : u.isRightParen = false := Bool.eq_false_iff.mpr other
    simp [take?, takeOperator?, level, open']
  · simp only [result, inner]

end Reading

namespace Parser

open Reading

variable {limit : Option Nat} {p : Parser}

theorem readWithin_of_stops {passed : List Token} {error : SyntaxError} (idle : p.reading = .start)
    (stops : Stops limit p.finish .start p.ahead passed error) :
    ∃ q, p.readWithin limit = (.error error, q) ∧ Passes passed p q ∧ q.reading = .start ∧
      q.finish = p.finish := by
  obtain ⟨taken, rest, r, fault, cut, rfl, ht, stuck, result, rfl⟩ := stops.exists_cut
  rw [nextOf] at result
  rw [readWithin_of_takeAll? idle cut ht stuck, result]
  have passes : Passes taken p (p.moveTo rest) := moveTo_append cut
  cases fault with
  | tooDeeplyNested =>
    exact ⟨_, rfl, passes.trans (skip_passes (p.moveTo rest)), idle, rfl⟩
  | _ =>
    refine ⟨_, rfl, ?_, idle, rfl⟩
    rw [SyntaxFault.passed_of_ne (by decide), List.append_nil]
    exact passes

theorem parseWithin_of_stops {passed : List Token} {error : SyntaxError} (idle : p.reading = .start)
    (stops : Stops limit p.finish .start p.ahead passed error) :
    p.parseWithin limit = .error error := by
  obtain ⟨q, read, -⟩ := readWithin_of_stops idle stops
  rw [parseWithin, read]

theorem readWithin_of_takes {k : Nat} {e : Tree} {taken rest : List Token}
    (idle : p.reading = .start) (cut : p.ahead = taken ++ rest) (takes : Takes limit [] k taken e)
    (below : ∀ level, (nextOf p.finish rest).binaryLevel? = some level → level < 1) :
    p.readWithin limit = (.ok e, p.moveTo rest) := by
  obtain ⟨last, pending, taken', settled⟩ := takes
  have all : Frame.settle 0 pending last = (e, []) := settled 0 (Nat.zero_le k)
  have stuck : ∀ t ∈ rest.head?, (operator last pending).take? limit t = none := by
    intro t ht
    obtain ⟨rest', rfl⟩ := List.head?_eq_some_iff.mp ht
    have level : t.binaryLevel? = none := Token.binaryLevel?_eq_none below
    simp [take?, takeOperator?, level, all]
  rw [readWithin_of_takeAll? idle cut taken' stuck]
  simp only [result, all]

theorem parseWithin_of_takes {k : Nat} {e : Tree} {taken rest : List Token}
    (idle : p.reading = .start) (cut : p.ahead = taken ++ rest) (takes : Takes limit [] k taken e)
    (below : ∀ level, (nextOf p.finish rest).binaryLevel? = some level → level < 1) :
    p.parseWithin limit =
      if rest.isEmpty then .ok e
      else .error (.atToken .expectedEndOfExpression (nextOf p.finish rest)) := by
  rw [parseWithin, readWithin_of_takes idle cut takes below]
  rfl

end Parser

end LoxExpr
