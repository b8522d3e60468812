import LoxExpr.Proofs.Descent
import LoxExpr.Proofs.ViablePrefix
import Mathlib.Data.List.Induction

/-!
What the limit on nesting changes.

Reading without a limit, a token may enter a level (`Reading.Enters`). Words are taken under a limit
when they are taken without one and none of them enters a level beyond it
(`Reading.takeAll?_some_iff`). So a parser with a limit answers as one without a limit, up to the
first token that enters such a level, and there it stops
(`Parser.parseWithin_some_eq_none_or_enters`).
-/

set_option autoImplicit false
set_option relaxedAutoImplicit false

namespace LoxExpr

theorem Within.unlimited (n : Nat) : Within none n := by
  intro m none
  contradiction

namespace Reading

variable {limit : Option Nat} {m n i k : Nat} {r r' : Reading} {t finish : Token}
  {tokens v w taken rest after : List Token}

/-- Reading without a limit, the token at an index opens a group or a prefix operator, and `n` of
these enclose one another behind it. -/
def Enters (tokens : List Token) (n i : Nat) : Prop :=
  ∃ t frame frames, tokens[i]? = some t ∧ t.frame? = some frame ∧
    start.takeAll? none (tokens.take i) = some (operand frames) ∧ Frame.depth (frame :: frames) = n

theorem within_depth_of_takeAll? (ht : start.takeAll? limit w = some r) :
    Within limit r.depth := by
  have reads : r.Reads limit ([] ++ w) := reads_of_takeAll? (r := start) Frame.Opens.nil ht
  cases r with
  | operand frames => exact Frame.Opens.within_depth reads
  | operator e frames =>
    obtain ⟨u, v, -, opens, -⟩ := reads
    exact opens.within_depth

theorem Step.unlimited (step : Step limit r t r') : Step none r t r' := by
  cases step with
  | leaf value => exact .leaf value
  | nest opening => exact .nest opening (.unlimited _)
  | binary level settled => exact .binary level settled
  | close paren settled => exact .close paren settled

theorem Step.limited_or_opens (step : Step none r t r') (room : r.depth ≤ m) :
    Step (some m) r t r' ∨ ∃ frame frames, r = operand frames ∧ t.frame? = some frame ∧
      Frame.depth (frame :: frames) = m + 1 := by
  cases step with
  | leaf value => exact .inl (.leaf value)
  | @nest frames t frame opening =>
    rcases Nat.lt_or_eq_of_le room with less | full
    · exact .inl (.nest opening (Within.some_iff.mpr less))
    · refine .inr ⟨frame, frames, rfl, opening, ?_⟩
      rw [Frame.depth_cons_of_frame? opening]
      exact congrArg (· + 1) full
  | binary level settled => exact .inl (.binary level settled)
  | close paren settled => exact .inl (.close paren settled)

theorem Step.not_opens {frame : Frame} {frames : List Frame}
    (step : Step (some m) (operand frames) t r') (opening : t.frame? = some frame) :
    Frame.depth (frame :: frames) ≠ m + 1 := by
  cases step with
  | leaf value => simp [Token.leaf?_eq_none_of_frame? opening] at value
  | nest _ room =>
    have := Within.some_iff.mp room
    rw [Frame.depth_cons_of_frame? opening]
    omega

namespace Enters

theorem lt_length (enters : Enters tokens n i) : i < tokens.length := by
  obtain ⟨t, -, -, found, -⟩ := enters
  exact (List.getElem?_eq_some_iff.mp found).1

theorem exists_takeAll? (enters : Enters tokens n i) :
    ∃ r, start.takeAll? none (tokens.take (i + 1)) = some r := by
  obtain ⟨t, frame, frames, found, opening, before, -⟩ := enters
  refine ⟨operand (frame :: frames), ?_⟩
  rw [List.take_add_one, found]
  exact takeAll?_concat.mpr ⟨_, before, .nest opening (.unlimited _)⟩

theorem append_iff (inside : i < v.length) : Enters (v ++ w) n i ↔ Enters v n i := by
  unfold Enters
  rw [List.getElem?_append_left inside, List.take_append_of_le_length (Nat.le_of_lt inside)]

theorem append_cons_iff :
    Enters (v ++ t :: w) n v.length ↔ ∃ frame frames, t.frame? = some frame ∧
      start.takeAll? none v = some (operand frames) ∧ Frame.depth (frame :: frames) = n := by
  unfold Enters
  rw [List.take_left, List.getElem?_append_right (Nat.le_refl _), Nat.sub_self,
    List.getElem?_cons_zero]
  simp only [Option.some.injEq, exists_and_left, exists_eq_left']

theorem append_isEof_iff (isEnd : finish.isEof = true) :
    Enters (w ++ finish :: after) n i ↔ Enters w n i := by
  by_cases inside : i < w.length
  · exact append_iff inside
  · constructor
    · intro enters
      obtain ⟨r, all⟩ := enters.exists_takeAll?
      obtain ⟨k, rfl⟩ := Nat.exists_eq_add_of_le (Nat.le_of_not_lt inside)
      rw [Nat.add_assoc, List.take_length_add_append] at all
      have word := not_isEof_of_takeAll? all finish (by simp)
      simp [isEnd] at word
    · intro enters
      exact absurd enters.lt_length inside

end Enters

theorem takeAll?_some_iff :
    start.takeAll? (some m) w = some r ↔
      start.takeAll? none w = some r ∧ ∀ i, ¬ Enters w (m + 1) i := by
  induction w using List.reverseRecOn generalizing r with
  | nil =>
    refine ⟨fun taken => ⟨taken, ?_⟩, And.left⟩
    intro i enters
    exact absurd enters.lt_length (Nat.not_lt_zero i)
  | append_singleton w t ih =>
    constructor
    · intro all
      obtain ⟨r₁, before, step⟩ := takeAll?_concat.mp all
      obtain ⟨before', shallow⟩ := ih.mp before
      refine ⟨takeAll?_concat.mpr ⟨r₁, before', step.unlimited⟩, ?_⟩
      intro i enters
      by_cases inside : i < w.length
      · exact shallow i ((Enters.append_iff inside).mp enters)
      · have last : i = w.length := by
          have := enters.lt_length
          rw [List.length_append, List.length_singleton] at this
          omega
        subst last
        obtain ⟨frame, frames, opening, here, deep⟩ := Enters.append_cons_iff.mp enters
        obtain rfl : r₁ = operand frames := Option.some.inj (before'.symm.trans here)
        exact step.not_opens opening deep
    · rintro ⟨all, shallow⟩
      obtain ⟨r₁, before, step⟩ := takeAll?_concat.mp all
      have inside : ∀ i, ¬ Enters w (m + 1) i := by
        intro i enters
        exact shallow i ((Enters.append_iff enters.lt_length).mpr enters)
      have before' := ih.mpr ⟨before, inside⟩
      have room : r₁.depth ≤ m := Within.some_iff.mp (within_depth_of_takeAll? before')
      rcases step.limited_or_opens room with step | ⟨frame, frames, rfl, opening, deep⟩
      · exact takeAll?_concat.mpr ⟨r₁, before', step⟩
      · exact absurd (Enters.append_cons_iff.mpr ⟨frame, frames, opening, before, deep⟩)
          (shallow w.length)

theorem le_length_of_stuck (ht : start.takeAll? limit taken = some r)
    (stuck : ∀ t ∈ rest.head?, r.take? limit t = none) (within : k ≤ (taken ++ rest).length)
    (all : start.takeAll? limit ((taken ++ rest).take k) = some r') : k ≤ taken.length := by
  apply Nat.le_of_not_lt
  intro beyond
  obtain ⟨j, rfl⟩ := Nat.exists_eq_add_of_lt beyond
  cases rest with
  | nil =>
    rw [List.append_nil] at within
    omega
  | cons t rest =>
    rw [Nat.add_assoc, List.take_length_add_append, takeAll?_append, ht, Option.bind_some,
      List.take_succ_cons, takeAll?_cons, stuck t rfl] at all
    contradiction

theorem Enters.lt_length_of_stuck (enters : Enters (taken ++ rest) n i)
    (ht : start.takeAll? none taken = some r)
    (stuck : ∀ t ∈ rest.head?, r.take? none t = none) : i < taken.length := by
  obtain ⟨r', all⟩ := enters.exists_takeAll?
  exact le_length_of_stuck ht stuck enters.lt_length all

theorem stuck_none_or_enters (ht : start.takeAll? (some m) taken = some r)
    (stuck : ∀ t ∈ rest.head?, r.take? (some m) t = none) :
    ((∀ t ∈ rest.head?, r.take? none t = none) ∧ ∀ i, ¬ Enters (taken ++ rest) (m + 1) i) ∨
      ∃ t ts frame frames, rest = t :: ts ∧ r = operand frames ∧ t.frame? = some frame ∧
        Enters (taken ++ rest) (m + 1) taken.length ∧
        ∀ i < taken.length, ¬ Enters (taken ++ rest) (m + 1) i := by
  obtain ⟨ht', shallow⟩ := takeAll?_some_iff.mp ht
  have before : ∀ i < taken.length, ¬ Enters (taken ++ rest) (m + 1) i := by
    intro i inside enters
    exact shallow i ((Enters.append_iff inside).mp enters)
  by_cases stuck' : ∀ t ∈ rest.head?, r.take? none t = none
  · refine .inl ⟨stuck', ?_⟩
    intro i enters
    exact before i (enters.lt_length_of_stuck ht' stuck') enters
  · right
    obtain ⟨t, next, goes⟩ : ∃ t, t ∈ rest.head? ∧ r.take? none t ≠ none := by
      simpa using stuck'
    obtain ⟨ts, rfl⟩ := List.head?_eq_some_iff.mp next
    obtain ⟨r', goes⟩ := Option.ne_none_iff_exists'.mp goes
    have room : r.depth ≤ m := Within.some_iff.mp (within_depth_of_takeAll? ht)
    rcases (take?_eq_some_iff.mp goes).limited_or_opens room with
      step | ⟨frame, frames, rfl, opening, deep⟩
    · have goes' := take?_eq_some_iff.mpr step
      rw [stuck t next] at goes'
      contradiction
    · exact ⟨t, ts, frame, frames, rfl, rfl, opening,
        Enters.append_cons_iff.mpr ⟨frame, frames, opening, ht', deep⟩, before⟩

theorem result_ne_tooDeeplyNested (stuck : r.take? none t = none) :
    r.result t ≠ .error .tooDeeplyNested := by
  cases r with
  | operand frames =>
    have noFrame : t.frame? = none := by
      cases opening : t.frame? with
      | none => rfl
      | some frame =>
        rw [take?_eq_some_iff.mpr (.nest opening (.unlimited _))] at stuck
        contradiction
    simp [result, noFrame]
  | operator e frames =>
    simp only [result]
    split <;> simp

end Reading

namespace Parser

variable {p : Parser} {words : List Token} {finish : Token}

theorem Stands.readWithin_none (stands : Stands words finish p) (isEnd : finish.isEof = true)
    (after : List Token) :
    (∀ n i, Reading.Enters p.ahead n i → p.taken + i < (p.readWithin none).2.taken) ∧
      ∀ error, p.parseWithin none = .error error → error.fault ≠ .tooDeeplyNested ∧
        ∃ t, (words ++ finish :: after)[(p.readWithin none).2.taken]? = some t ∧
          error = .atToken error.fault t := by
  obtain ⟨taken, rest, r, cut, ht, stuck⟩ := Reading.exists_takeAll?_stuck none .start p.ahead
  have stuck' : r.take? none (rest.head?.getD p.finish) = none := by
    cases rest with
    | nil => exact Reading.take?_of_isEof (stands.finish_eq ▸ isEnd) r
    | cons t rest => exact stuck t rfl
  have shallow := Reading.result_ne_tooDeeplyNested stuck'
  have place : (p.readWithin none).2 = p.moveTo rest := by
    rw [readWithin_of_takeAll? stands.idle cut ht stuck]
    split
    · rfl
    · contradiction
    · rfl
  have passes : Passes taken p (p.moveTo rest) := moveTo_append cut
  have there := passes.stands stands stands.idle rfl
  rw [place]
  constructor
  · intro n i enters
    rw [cut] at enters
    rw [passes.taken]
    exact Nat.add_lt_add_left (enters.lt_length_of_stuck ht stuck) p.taken
  · intro error failed
    rw [parseWithin_of_takeAll? stands.idle cut ht stuck] at failed
    split at failed
    · split at failed
      · contradiction
      · obtain rfl := Except.error.inj failed
        exact ⟨nofun, _, there.getElem?_taken after, rfl⟩
    · rename_i fault result
      obtain rfl := Except.error.inj failed
      refine ⟨?_, _, there.getElem?_taken after, rfl⟩
      rintro rfl
      exact shallow result

theorem parseWithin_some_eq_none_or_enters (m : Nat) (idle : p.reading = .start) :
    p.parseWithin (some m) = p.parseWithin none ∧ p.readWithin (some m) = p.readWithin none ∧
        (∀ i, ¬ Reading.Enters p.ahead (m + 1) i) ∨
      ∃ i t, p.ahead[i]? = some t ∧ p.parseWithin (some m) = .error (.atToken .tooDeeplyNested t) ∧
        (p.readWithin (some m)).2.taken = p.taken + i + 1 ∧ t.frame?.isSome = true ∧
        Reading.Enters p.ahead (m + 1) i ∧ ∀ j < i, ¬ Reading.Enters p.ahead (m + 1) j := by
  obtain ⟨taken, rest, r, cut, ht, stuck⟩ :=
    Reading.exists_takeAll?_stuck (some m) .start p.ahead
  have parsed := parseWithin_of_takeAll? idle cut ht stuck
  have read := readWithin_of_takeAll? idle cut ht stuck
  rw [cut]
  rcases Reading.stuck_none_or_enters ht stuck with
    ⟨stuck', shallow⟩ | ⟨t, ts, frame, frames, rfl, rfl, opening, enters, first⟩
  · have ht' := (Reading.takeAll?_some_iff.mp ht).1
    left
    rw [parsed, read, parseWithin_of_takeAll? idle cut ht' stuck',
      readWithin_of_takeAll? idle cut ht' stuck']
    exact ⟨rfl, rfl, shallow⟩
  · have result : (Reading.operand frames).result t = .error .tooDeeplyNested := by
      simp [Reading.result, opening]
    rw [List.head?_cons, Option.getD_some, result] at parsed read
    have passes := (moveTo_append cut).trans (skip_passes (p.moveTo (t :: ts)))
    refine .inr ⟨taken.length, t, by simp, parsed, ?_, by simp [opening], enters, first⟩
    rw [read, passes.taken, List.length_append, ← Nat.add_assoc]
    rfl

/-- The limit on nesting changes nothing but this: a parser stops at the first token at which one
without a limit would enter a 256th level.

Here the levels are those of groups and prefix operators that enclose one another. As long as no
token enters a 256th level, both parsers give the same tree or the same fault, and stop at the same
token. The first token that does is a left parenthesis or a prefix operator, and the parser without
a limit moves over it before it stops itself, whether at the end or at a fault. -/
theorem parse_eq_none_or_enters (tokens : List Token)
    (ends : tokens.getLast?.any Token.isEof = true) :
    ∃ p, ofTokens? tokens = some p ∧
      (∀ (limit : Option Nat) (j : Journal), Guarded.parse limit tokens j =
        .ok ((p.parseWithin limit).toOption, j.recordResult (p.parseWithin limit))) ∧
      (∀ error, p.parseWithin none = .error error → error.fault ≠ .tooDeeplyNested ∧
        ∃ t, tokens[(p.readWithin none).2.taken]? = some t ∧ error = .atToken error.fault t) ∧
      ((∀ error, p.parse = .error error → error.fault ≠ .tooDeeplyNested) →
        p.parse = p.parseWithin none ∧ p.readExpression = p.readWithin none) ∧
      (∀ error, p.parse = .error error → error.fault = .tooDeeplyNested →
        ∃ i t, tokens[i]? = some t ∧ error = .atToken .tooDeeplyNested t ∧
          p.readExpression.2.taken = i + 1 ∧
          (t.kind = .symbol .leftParen ∨ t.kind = .symbol .bang ∨ t.kind = .symbol .minus) ∧
          Reading.Enters tokens 256 i ∧ (∀ j < i, ¬ Reading.Enters tokens 256 j) ∧
          i < (p.readWithin none).2.taken) ∧
      ((∃ i, Reading.Enters tokens 256 i) →
        ∃ error, p.parse = .error error ∧ error.fault = .tooDeeplyNested) := by
  obtain ⟨words, finish, after, rfl, isEnd, others⟩ := exists_append_isEof ends
  have start := ofTokens?_append after others isEnd ends
  have begins : Stands words finish ⟨0, words, finish, .start⟩ := ⟨rfl, rfl, [], rfl, rfl⟩
  obtain ⟨entered, fails⟩ := begins.readWithin_none isEnd after
  refine ⟨_, start, ?_, fails, ?_⟩
  · intro limit j
    obtain ⟨p, same, run⟩ := Guarded.parse_eq limit ends j
    obtain rfl := Option.some.inj (start.symm.trans same)
    exact run
  simp only [Reading.Enters.append_isEof_iff isEnd]
  rcases parseWithin_some_eq_none_or_enters nestingLimit begins.idle with
    ⟨same, sameRead, shallow⟩ | ⟨i, t, found, parsed, beyond, opens, enters, first⟩
  · refine ⟨fun _ => ⟨same, sameRead⟩, ?_, ?_⟩
    · intro error failed deep
      exact absurd deep (fails error (same ▸ failed)).1
    · rintro ⟨i, enters⟩
      exact absurd enters (shallow i)
  · refine ⟨fun other => absurd rfl (other _ parsed), ?_, fun _ => ⟨_, parsed, rfl⟩⟩
    intro error failed _
    obtain rfl := Except.error.inj (parsed.symm.trans failed)
    rw [Nat.zero_add] at beyond
    have passed := entered 256 i enters
    rw [Nat.zero_add] at passed
    refine ⟨i, t, ?_, rfl, beyond, Token.isSome_frame?_iff.mp opens, enters, first, passed⟩
    rw [List.getElem?_append_left enters.lt_length, found]

theorem parse_enters_parentheses :
    ∃ p, ofTokens? (List.replicate 256 (.bare (.symbol .leftParen) "(") ++ [.eof {}]) = some p ∧
      p.parse = .error (.atToken .tooDeeplyNested (.bare (.symbol .leftParen) "(")) := by
  have ends : (List.replicate 256 (Token.bare (.symbol .leftParen) "(") ++
      [Token.eof {}]).getLast?.any Token.isEof = true := by decide +kernel
  have enters : Reading.Enters (List.replicate 256 (.bare (.symbol .leftParen) "(") ++
      [.eof {}]) 256 255 :=
    ⟨.bare (.symbol .leftParen) "(", .group, List.replicate 255 .group, by decide +kernel, rfl,
      by decide +kernel, by decide +kernel⟩
  obtain ⟨p, start, -, -, -, stops, entering⟩ := parse_eq_none_or_enters _ ends
  obtain ⟨error, failed, deep⟩ := entering ⟨255, enters⟩
  obtain ⟨i, t, found, rfl, -, -, -, first, -⟩ := stops error failed deep
  have paren : i < 256 := Nat.lt_succ_of_le (Nat.le_of_not_lt fun later => first 255 later enters)
  rw [List.getElem?_append_left (by rwa [List.length_replicate]), List.getElem?_replicate,
    if_pos paren] at found
  obtain rfl := Option.some.inj found
  exact ⟨p, start, failed⟩

end Parser

end LoxExpr
