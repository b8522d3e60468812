import LoxExpr.Proofs.Step

/-!
Frames and the tokens behind which they wait for an operand.

`Frame.Opens` says which tokens have opened some frames, `Tree.Fits` that an expression may stand in
such a place. Settling moves the boundary between the two and loses no token
(`Frame.Opens.settle`), and it stops at a frame that asks for more than is there
(`Frame.settle_of_demand_le`).
-/

set_option autoImplicit false
set_option relaxedAutoImplicit false

namespace LoxExpr

/-- An expression spelled by given tokens may stand at a level or above, that many groups and
prefix operators deep. -/
structure Tree.Fits (limit : Option Nat) (level depth : Nat) (e : Tree) (w : List Token) :
    Prop where
  spells : e.Spells w
  atLevel : ∃ k, level ≤ k ∧ e.AtLevel k
  within : Within limit (depth + e.nesting)

theorem Tree.Fits.mono {limit : Option Nat} {level level' depth : Nat} {e : Tree} {w : List Token}
    (h : e.Fits limit level depth w) (hl : level' ≤ level) : e.Fits limit level' depth w := by
  obtain ⟨k, hk, he⟩ := h.atLevel
  exact ⟨h.spells, ⟨k, Nat.le_trans hl hk, he⟩, h.within⟩

namespace Frame

variable {limit : Option Nat} {level : Nat} {frame : Frame} {frames : List Frame} {e : Tree}
  {t : Token} {v w : List Token}

/-- The least level of the operand that frames wait for. -/
def demand : List Frame → Nat
  | [] => 0
  | group :: _ => 0
  | unary _ :: _ => 5
  | binary _ operator :: _ => operator.binaryLevel?.getD 0 + 1

theorem demand_binary {left : Tree} (h : t.binaryLevel? = some level) :
    demand (binary left t :: frames) = level + 1 := by
  simp [demand, h]

/-- The tokens that have opened the given frames, from the start up to the operand awaited. -/
inductive Opens (limit : Option Nat) : List Frame → List Token → Prop
  | nil : Opens limit [] []
  | nest {frame : Frame} {frames : List Frame} {t : Token} {w : List Token} :
      t.frame? = some frame → Within limit (depth frames + 1) → Opens limit frames w →
      Opens limit (frame :: frames) (w ++ [t])
  | binary {left : Tree} {frames : List Frame} {t : Token} {level : Nat} {v w : List Token} :
      t.binaryLevel? = some level → demand frames ≤ level → Opens limit frames w →
      left.Fits limit level (depth frames) v →
      Opens limit (binary left t :: frames) (w ++ (v ++ [t]))

@[simp] theorem depth_nil : depth [] = 0 := rfl

@[simp] theorem depth_binary (left : Tree) (t : Token) (frames : List Frame) :
    depth (binary left t :: frames) = depth frames := by
  simp [depth, nests]

@[simp] theorem depth_group (frames : List Frame) : depth (group :: frames) = depth frames + 1 := by
  simp [depth, List.countP_cons, nests]

@[simp] theorem depth_unary (t : Token) (frames : List Frame) :
    depth (unary t :: frames) = depth frames + 1 := by
  simp [depth, List.countP_cons, nests]

theorem depth_cons_of_frame? (h : t.frame? = some frame) :
    depth (frame :: frames) = depth frames + 1 := by
  rcases Token.frame?_eq_some_iff.mp h with ⟨-, rfl⟩ | ⟨-, rfl⟩ <;> simp

theorem Opens.within_depth (h : Opens limit frames w) : Within limit (depth frames) := by
  induction h with
  | nil => intro m _; exact Nat.zero_le m
  | nest hf room => rwa [depth_cons_of_frame? hf]
  | binary _ _ _ _ ih => rwa [depth_binary]

theorem Opens.demand_le (h : Opens limit frames w) : demand frames ≤ 5 := by
  cases h with
  | nil => exact Nat.zero_le 5
  | nest hf => rcases Token.frame?_eq_some_iff.mp hf with ⟨-, rfl⟩ | ⟨-, rfl⟩ <;> simp [demand]
  | binary hl =>
    rw [demand_binary hl]
    exact Nat.succ_le_succ (Token.binaryLevel?_le hl)

theorem Opens.fill (opens : Opens limit (frame :: frames) w) (held : frame.holds level = true)
    (hl : level ≤ 5) (fits : e.Fits limit (demand (frame :: frames)) (depth (frame :: frames)) v) :
    ∃ w' v', w' ++ v' = w ++ v ∧ Opens limit frames w' ∧
      (frame.fill e).Fits limit (max level (demand frames)) (depth frames) v' := by
  obtain ⟨i, hi, he⟩ := fits.atLevel
  cases opens with
  | @nest _ _ t w hf room opens =>
    rcases Token.frame?_eq_some_iff.mp hf with ⟨-, rfl⟩ | ⟨hu, rfl⟩
    · simp [holds] at held
    · refine ⟨w, t :: v, by simp, opens, .unary fits.spells, ⟨5, ?_, ?_⟩, ?_⟩
      · exact Nat.max_le.mpr ⟨hl, opens.demand_le⟩
      · exact .unary (Token.isUnary_iff.mp hu) he hi
      · have nesting : (fill (.unary t) e).nesting = e.nesting + 1 := rfl
        have within := fits.within
        rw [depth_cons_of_frame? hf] at within
        exact within.mono (by omega)
  | @binary left _ t k u w ht hd opens hleft =>
    obtain ⟨s, hs, hk⟩ := Token.binaryLevel?_eq_some_iff.mp ht
    obtain ⟨j, hj, hlj⟩ := hleft.atLevel
    have level_le : level ≤ k := by simpa [holds, ht] using held
    have k_lt : k < i := by rwa [demand_binary ht] at hi
    refine ⟨w, u ++ t :: v, by simp, opens, .binary hleft.spells fits.spells, ⟨k, ?_, ?_⟩, ?_⟩
    · exact Nat.max_le.mpr ⟨level_le, hd⟩
    · exact .binary hk hs hlj hj he k_lt
    · intro m hm
      have nesting : (fill (.binary left t) e).nesting = max left.nesting e.nesting := rfl
      have inLeft := hleft.within m hm
      have inRight := fits.within m hm
      rw [depth_binary] at inRight
      omega

/-- Settling moves tokens from the frames into the expression; frames that are left do not hold
the expression any more. -/
theorem Opens.settle (opens : Opens limit frames w) (hl : level ≤ 5)
    (fits : e.Fits limit (max level (demand frames)) (depth frames) v) :
    ∃ w' v', w' ++ v' = w ++ v ∧ Opens limit (settle level frames e).2 w' ∧
      demand (Frame.settle level frames e).2 ≤ level ∧
      (Frame.settle level frames e).1.Fits limit level
        (depth (Frame.settle level frames e).2) v' := by
  induction frames generalizing e w v with
  | nil => exact ⟨w, v, rfl, opens, Nat.zero_le level, fits.mono (Nat.le_max_left ..)⟩
  | cons frame frames ih =>
    unfold Frame.settle
    split
    · rename_i held
      obtain ⟨w', v', same, opens', fits'⟩ := opens.fill held hl (fits.mono (Nat.le_max_right ..))
      obtain ⟨w'', v'', same', rest⟩ := ih opens' fits'
      exact ⟨w'', v'', same'.trans same, rest⟩
    · rename_i free
      refine ⟨w, v, rfl, opens, ?_, fits.mono (Nat.le_max_left ..)⟩
      cases opens with
      | nest hf =>
        rcases Token.frame?_eq_some_iff.mp hf with ⟨-, rfl⟩ | ⟨-, rfl⟩
        · exact Nat.zero_le level
        · simp [holds] at free
      | binary ht =>
        simp only [holds, ht, Option.getD_some, decide_eq_true_eq] at free
        simp only [demand, ht, Option.getD_some]
        omega

theorem settle_of_demand_le (hd : demand frames ≤ level) (hl : level ≤ 4) (e : Tree) :
    settle level frames e = (e, frames) := by
  match frames with
  | [] => rfl
  | group :: _ => simp [settle, holds]
  | unary _ :: _ => simp only [demand] at hd; omega
  | binary _ t :: _ =>
    simp only [demand] at hd
    have free : ¬ level ≤ t.binaryLevel?.getD 0 := by omega
    simp [settle, holds, free]

theorem settle_zero (frames : List Frame) (e : Tree) :
    (settle 0 frames e).2 = [] ∨
      ∃ outer, (settle 0 frames e).2 = .group :: outer ∧ outer.length < frames.length := by
  induction frames generalizing e with
  | nil => exact .inl rfl
  | cons frame frames ih =>
    unfold settle
    split
    · rcases ih (frame.fill e) with done | ⟨outer, hs, shorter⟩
      · exact .inl done
      · exact .inr ⟨outer, hs, Nat.lt_succ_of_lt shorter⟩
    · rename_i free
      cases frame with
      | group => exact .inr ⟨frames, rfl, Nat.lt_succ_self _⟩
      | unary t => simp [holds] at free
      | binary left t => simp [holds] at free

end Frame

end LoxExpr
