import LoxExpr.Proofs.Guarded
import LoxExpr.Proofs.Stops

/-!
Recursive descent meets no breach and reads what is read token by token.

A descent stands before some tokens with some frames around it (`Ahead`); the frames are nowhere
kept, but their number is what its counter shows. Reading an operand from there takes the tokens of
an operand of its level within these frames, or it stops at the token at which reading token by
token gets stuck (`Answers`). `Descends` says that of all descents with a number of rounds, and each
more round extends it (`Descends.succ`), so a list of tokens is read without a breach
(`parse_eq`).
-/

set_option autoImplicit false
set_option relaxedAutoImplicit false

namespace LoxExpr

theorem Within.iff_all {limit : Option Nat} {n : Nat} :
    Within limit n ↔ limit.all (n ≤ ·) = true := by
  simp only [Within, Option.mem_def, Option.all_eq_true, decide_eq_true_eq]

namespace Guarded

open Reading

variable {limit : Option Nat} {tokens v w taken rest passed : List Token} {finish t : Token}
  {frames : List Frame} {frame : Frame} {p : Place} {k n : Nat} {left : Tree}

def Place.beyond (p : Place) (w : List Token) : Place := { p with index := p.index + w.length }

theorem Place.beyond_append (p : Place) (v w : List Token) :
    p.beyond (v ++ w) = (p.beyond v).beyond w := by
  simp only [beyond, List.length_append, Nat.add_assoc]

def Place.noting (p : Place) (error : SyntaxError) : Place :=
  { p with journal := p.journal.record error.diagnostic }

/-- The words ahead of a place in a list of tokens, up to the end, and the frames around it. -/
structure Ahead (limit : Option Nat) (tokens : List Token) (finish : Token) (frames : List Frame)
    (w : List Token) (p : Place) : Prop where
  words : ∀ t ∈ w, t.isEof = false
  isEnd : finish.isEof = true
  behind : ∃ after, tokens.drop p.index = w ++ finish :: after
  depth : p.depth = Frame.depth frames
  room : Within limit (Frame.depth frames)

namespace Ahead

theorem peek (ahead : Ahead limit tokens finish frames w p) :
    p.peek limit tokens = .ok (nextOf finish w) := by
  obtain ⟨after, cut⟩ := ahead.behind
  have room := Within.iff_all.mp ahead.room
  have next : tokens[p.index]? = some (nextOf finish w) := by
    rw [← List.head?_drop, cut]
    cases w <;> rfl
  rw [Place.peek, ahead.depth, if_pos room, next]

theorem exists_cons (ahead : Ahead limit tokens finish frames w p)
    (word : ¬ (nextOf finish w).isEof = true) : ∃ rest, w = nextOf finish w :: rest := by
  cases w with
  | nil => exact absurd ahead.isEnd word
  | cons t rest => exact ⟨rest, rfl⟩

theorem pass_eq (ahead : Ahead limit tokens finish frames (t :: w) p) :
    p.pass t = p.beyond [t] := by
  rw [Place.pass, ahead.words t List.mem_cons_self]
  rfl

theorem append (ahead : Ahead limit tokens finish frames (v ++ w) p) :
    Ahead limit tokens finish frames w (p.beyond v) where
  words t ht := ahead.words t (List.mem_append_right v ht)
  isEnd := ahead.isEnd
  behind := by
    obtain ⟨after, cut⟩ := ahead.behind
    refine ⟨after, ?_⟩
    show tokens.drop (p.index + v.length) = _
    rw [← List.drop_drop, cut, List.append_assoc, List.drop_left]
  depth := ahead.depth
  room := ahead.room

theorem tail (ahead : Ahead limit tokens finish frames (t :: w) p) :
    Ahead limit tokens finish frames w (p.beyond [t]) :=
  append (v := [t]) ahead

theorem binary (left : Tree) (ahead : Ahead limit tokens finish frames w p) :
    Ahead limit tokens finish (.binary left t :: frames) w p where
  words := ahead.words
  isEnd := ahead.isEnd
  behind := ahead.behind
  depth := by rw [Frame.depth_binary, ahead.depth]
  room := by rw [Frame.depth_binary]; exact ahead.room

theorem nest (ahead : Ahead limit tokens finish frames w p) (opening : t.frame? = some frame)
    (room : Within limit (Frame.depth frames + 1)) :
    Ahead limit tokens finish (frame :: frames) w { p with depth := p.depth + 1 } where
  words := ahead.words
  isEnd := ahead.isEnd
  behind := ahead.behind
  depth := by rw [Frame.depth_cons_of_frame? opening, ahead.depth]
  room := by rw [Frame.depth_cons_of_frame? opening]; exact room

end Ahead

/-- What a descent can come to that is to read an operand of a level, of which it has read some
tokens. Either it reads the operand, and no operator of the level or above is next, or it stops at
an error, which is recorded, with the counter as it was and the index behind the tokens that are
passed over. -/
inductive Answers (limit : Option Nat) (finish : Token) (frames : List Frame) (k : Nat)
    (v w : List Token) (p : Place) : Except SyntaxError Tree × Place → Prop
  | ok {e : Tree} (taken rest : List Token) :
      w = taken ++ rest → Takes limit frames k (v ++ taken) e →
      (∀ level, (nextOf finish rest).binaryLevel? = some level → level < k) →
      Answers limit finish frames k v w p (.ok e, p.beyond taken)
  | error {error : SyntaxError} (passed : List Token) :
      Stops limit finish (operand frames) (v ++ w) (v ++ passed) error →
      Answers limit finish frames k v w p (.error error, (p.beyond passed).noting error)

theorem Answers.append {out : Except SyntaxError Tree × Place}
    (answers : Answers limit finish frames k (v ++ taken) rest (p.beyond taken) out) :
    Answers limit finish frames k v (taken ++ rest) p out := by
  cases answers with
  | @ok e taken' rest' same takes next =>
    rw [same, ← Place.beyond_append]
    rw [List.append_assoc] at takes
    exact .ok _ _ (List.append_assoc ..).symm takes next
  | error passed stops =>
    rw [← Place.beyond_append]
    rw [List.append_assoc, List.append_assoc] at stops
    exact .error _ stops

/-- What a descent can come to that is to read what a token encloses, behind that token. -/
inductive Encloses (limit : Option Nat) (finish : Token) (frame : Frame) (frames : List Frame)
    (k : Nat) (t : Token) (w : List Token) (p : Place) : Except SyntaxError Tree × Place → Prop
  | ok {e : Tree} {taken rest : List Token} :
      w = taken ++ rest → Within limit (Frame.depth frames + 1) →
      Takes limit (frame :: frames) k taken e →
      (∀ level, (nextOf finish rest).binaryLevel? = some level → level < k) →
      Encloses limit finish frame frames k t w p (.ok e, p.beyond (t :: taken))
  | error {error : SyntaxError} (passed : List Token) :
      Stops limit finish (operand frames) (t :: w) (t :: passed) error →
      Encloses limit finish frame frames k t w p
        (.error error, (p.beyond (t :: passed)).noting error)

theorem Answers.leave (opening : t.frame? = some frame)
    (room : Within limit (Frame.depth frames + 1)) {out : Except SyntaxError Tree × Place}
    (answers : Answers limit finish (frame :: frames) k [] w
      { p.beyond [t] with depth := p.depth + 1 } out) :
    ∃ out', Place.leave out = .ok out' ∧ Encloses limit finish frame frames k t w p out' := by
  cases answers with
  | @ok e taken rest same takes next =>
    refine ⟨(.ok e, (p.beyond [t]).beyond taken), rfl, ?_⟩
    rw [← Place.beyond_append]
    exact .ok same room takes next
  | @error error passed stops =>
    refine ⟨(.error error, ((p.beyond [t]).beyond passed).noting error), rfl, ?_⟩
    rw [← Place.beyond_append]
    exact .error passed (.take (.nest opening room) stops)

/-- Reading what a token encloses meets no breach, if reading it one level deeper does not. Without
room for one more level the descent stops at the token, and so does reading token by token. -/
theorem Ahead.nested (ahead : Ahead limit tokens finish frames (t :: w) p)
    (opening : t.frame? = some frame) {read : Place → Descent}
    (inner : ∀ {q}, Ahead limit tokens finish (frame :: frames) w q →
      ∃ out, read q = .ok out ∧ Answers limit finish (frame :: frames) k [] w q out) :
    ∃ out, (p.pass t).nested limit t read = .ok out ∧
      Encloses limit finish frame frames k t w p out := by
  have behind := ahead.tail
  have all : Within limit (Frame.depth frames + 1) ↔
      limit.all ((p.beyond [t]).depth < ·) = true := by
    rw [Within.succ_iff_all, behind.depth]
  rw [ahead.pass_eq, Place.nested]
  by_cases room : Within limit (Frame.depth frames + 1)
  · obtain ⟨out, run, answers⟩ := inner (behind.nest opening room)
    obtain ⟨out', back, encloses⟩ := answers.leave opening room
    refine ⟨out', ?_, encloses⟩
    rw [if_pos (all.mp room), run]
    exact back
  · have full : ¬ limit.all (Frame.depth frames < ·) = true :=
      fun h => room (Within.succ_iff_all.mpr h)
    have stuck : ∀ t' ∈ (t :: w).head?, (operand frames).take? limit t' = none := by
      intro t' ht'
      obtain rfl := Option.some.inj ht'
      simp [take?, takeOperand?, Token.leaf?_eq_none_of_frame? opening, opening, full]
    have fault : (operand frames).result (nextOf finish (t :: w)) = .error .tooDeeplyNested := by
      show (if t.frame?.isSome then _ else _) = _
      rw [opening]
      rfl
    exact ⟨_, if_neg fun h => room (all.mpr h), .error [] (.stuck stuck fault)⟩

theorem Ahead.close {e : Tree} (ahead : Ahead limit tokens finish frames (t :: (taken ++ rest)) p)
    (paren : t.isLeftParen = true) (room : Within limit (Frame.depth frames + 1))
    (takes : Takes limit (.group :: frames) k taken e)
    (below : ∀ level, (nextOf finish rest).binaryLevel? = some level → level < 1) :
    Answers limit finish frames (lastLevel + 1) [] (t :: (taken ++ rest)) p
      (if (nextOf finish rest).isRightParen then
        (.ok (.group e), (p.beyond (t :: taken)).pass (nextOf finish rest))
      else (p.beyond (t :: taken)).fail .missingRightParen (nextOf finish rest)) := by
  by_cases close : (nextOf finish rest).isRightParen = true
  · have behind := Ahead.append (v := t :: taken) ahead
    have word : ¬ (nextOf finish rest).isEof = true := by
      simp [Token.isEof, Token.isRightParen_iff.mp close]
    obtain ⟨rest', cut⟩ := behind.exists_cons word
    generalize nextOf finish rest = u at close cut ⊢
    subst cut
    have group : Takes limit frames 6 (t :: taken ++ [u]) (.group e) := takes.group paren close room
    rw [if_pos close, behind.pass_eq, ← Place.beyond_append]
    refine .ok (t :: taken ++ [u]) rest' (by simp) (group.mono (by decide)) ?_
    intro level found
    exact Nat.lt_succ_of_le (Token.binaryLevel?_le found)
  · have opening : t.frame? = some .group := Token.frame?_eq_some_iff.mpr (.inl ⟨paren, rfl⟩)
    rw [if_neg close]
    exact .error (t :: taken) (takes.stops_open opening room below close)

/-- With that many rounds a descent meets no breach, wherever it starts and with few enough tokens
ahead. From one token to the next it takes six rounds at most: down the levels to the next operand,
and one for the operator in front. -/
structure Descends (limit : Option Nat) (tokens : List Token) (finish : Token) (n : Nat) :
    Prop where
  operand {frames : List Frame} {k : Nat} {w : List Token} {p : Place} :
    Ahead limit tokens finish frames w p → Frame.demand frames ≤ k → k ≤ lastLevel + 1 →
    6 * w.length + 6 < n + k →
    ∃ out, read limit tokens n (.operand k) p = .ok out ∧ Answers limit finish frames k [] w p out
  chain {frames : List Frame} {k : Nat} {v w : List Token} {p : Place} {left : Tree} :
    Ahead limit tokens finish frames w p → Frame.demand frames ≤ k → k ≤ lastLevel →
    Takes limit frames k v left →
    (∀ level, (nextOf finish w).binaryLevel? = some level → level ≤ k) → 6 * w.length + 1 < n →
    ∃ out, read limit tokens n (.chain k left) p = .ok out ∧ Answers limit finish frames k v w p out

namespace Descends

theorem zero : Descends limit tokens finish 0 where
  operand _ _ last enough := by
    rw [lastLevel] at last
    omega
  chain _ _ _ _ _ enough := by contradiction

theorem chain_succ (descends : Descends limit tokens finish n)
    (ahead : Ahead limit tokens finish frames w p) (hd : Frame.demand frames ≤ k)
    (last : k ≤ lastLevel) (takes : Takes limit frames k v left)
    (next : ∀ level, (nextOf finish w).binaryLevel? = some level → level ≤ k)
    (enough : 6 * w.length + 1 < n + 1) :
    ∃ out, read limit tokens (n + 1) (.chain k left) p = .ok out ∧
      Answers limit finish frames k v w p out := by
  by_cases level : (nextOf finish w).binaryLevel? = some k
  · have word : ¬ (nextOf finish w).isEof = true := by
      intro isEnd
      rw [Parser.binaryLevel?_of_isEof isEnd] at level
      contradiction
    obtain ⟨rest, cut⟩ := ahead.exists_cons word
    have peek := ahead.peek
    generalize nextOf finish w = t at cut level word next peek
    subst cut
    have shorter : (t :: rest).length = rest.length + 1 := rfl
    -- The right operand is read within one more frame. The chain goes on with the two operands and
    -- the operator as the left operand of what comes next.
    have demand : Frame.demand (.binary left t :: frames) ≤ k + 1 :=
      Nat.le_of_eq (Frame.demand_binary level)
    have behind := ahead.tail
    obtain ⟨out, run, answers⟩ := descends.operand (behind.binary left) demand
      (Nat.succ_le_succ last) (by omega)
    have step : read limit tokens (n + 1) (.chain k left) p =
        Descent.andThen (.ok out) fun right q =>
          read limit tokens n (.chain k (.binary left t right)) q := by
      rw [read, peek, ← run, ← ahead.pass_eq]
      exact if_pos level
    cases answers with
    | @ok right taken rest same takes' next' =>
      subst same
      have longer : Takes limit frames k (v ++ t :: taken) (.binary left t right) :=
        takes.binary level hd (Nat.le_refl k) (Nat.lt_succ_self k) takes'
      rw [List.length_append] at shorter
      obtain ⟨out, run, answers⟩ := descends.chain behind.append hd last longer
        (fun level' same => Nat.le_of_lt_succ (next' level' same)) (by omega)
      refine ⟨out, step.trans run, ?_⟩
      rw [← Place.beyond_append] at answers
      exact Answers.append answers
    | error passed stops =>
      have stuck := stops.append (takes.takeAll?_binary level hd)
      rw [List.append_assoc, List.append_assoc] at stuck
      refine ⟨_, step, ?_⟩
      rw [← Place.beyond_append]
      exact .error (t :: passed) stuck
  · refine ⟨_, ?_, .ok [] w rfl (by rwa [List.append_nil]) ?_⟩
    · rw [read, ahead.peek]
      exact if_neg level
    · intro level' found
      have other : level' ≠ k := by
        rintro rfl
        exact level found
      exact Nat.lt_of_le_of_ne (next level' found) other

theorem operand_succ (descends : Descends limit tokens finish n)
    (ahead : Ahead limit tokens finish frames w p) (hd : Frame.demand frames ≤ k)
    (last : k ≤ lastLevel) (enough : 6 * w.length + 6 < n + 1 + k) :
    ∃ out, read limit tokens (n + 1) (.operand k) p = .ok out ∧
      Answers limit finish frames k [] w p out := by
  obtain ⟨out, run, answers⟩ := descends.operand ahead (Nat.le_succ_of_le hd)
    (Nat.succ_le_succ last) (by omega)
  have step : read limit tokens (n + 1) (.operand k) p =
      Descent.andThen (.ok out) fun left q => read limit tokens n (.chain k left) q := by
    rw [read, ← run]
    exact if_pos last
  cases answers with
  | @ok left taken rest same takes next =>
    subst same
    rw [List.length_append] at enough
    rw [lastLevel] at last
    obtain ⟨out, run, answers⟩ := descends.chain ahead.append hd last (takes.mono (Nat.le_succ k))
      (fun level same => Nat.le_of_lt_succ (next level same)) (by omega)
    exact ⟨out, step.trans run, answers.append⟩
  | error passed stops => exact ⟨_, step, .error passed stops⟩

theorem unary_succ (descends : Descends limit tokens finish n)
    (ahead : Ahead limit tokens finish frames (t :: w) p) (unary : t.isUnary = true)
    (enough : 6 * (t :: w).length < n) :
    ∃ out, read limit tokens (n + 1) (.operand (lastLevel + 1)) p = .ok out ∧
      Answers limit finish frames (lastLevel + 1) [] (t :: w) p out := by
  have opening : t.frame? = some (.unary t) := Token.frame?_eq_some_iff.mpr (.inr ⟨unary, rfl⟩)
  rw [List.length_cons] at enough
  obtain ⟨out, run, encloses⟩ := ahead.nested opening fun inner =>
    descends.operand (k := 5) inner (Nat.le_refl 5) (Nat.le_refl 5) (by omega)
  have step : read limit tokens (n + 1) (.operand (lastLevel + 1)) p =
      Descent.andThen (.ok out) fun e q => .ok (.ok (.unary t e), q) := by
    rw [read, if_neg (Nat.not_succ_le_self _), ahead.peek, ← run]
    exact if_pos unary
  cases encloses with
  | @ok e taken rest same room takes next =>
    subst same
    exact ⟨_, step, .ok (t :: taken) rest rfl (takes.unary unary room (Nat.le_refl 5)) next⟩
  | error passed stops => exact ⟨_, step, .error (t :: passed) stops⟩

theorem group_succ (descends : Descends limit tokens finish n)
    (ahead : Ahead limit tokens finish frames (t :: w) p) (paren : t.isLeftParen = true)
    (enough : 6 * (t :: w).length < n) :
    ∃ out, read limit tokens (n + 1) (.operand (lastLevel + 1)) p = .ok out ∧
      Answers limit finish frames (lastLevel + 1) [] (t :: w) p out := by
  have opening : t.frame? = some .group := Token.frame?_eq_some_iff.mpr (.inl ⟨paren, rfl⟩)
  have notUnary : ¬ t.isUnary = true := by
    rw [Token.isUnary_iff, Token.isLeftParen_iff.mp paren]
    simp
  rw [List.length_cons] at enough
  obtain ⟨out, run, encloses⟩ := ahead.nested opening fun inner =>
    descends.operand (k := 1) inner (Nat.zero_le 1) (by decide) (by omega)
  have step : read limit tokens (n + 1) (.operand (lastLevel + 1)) p =
      Descent.andThen (.ok out) fun e q => do
        let u ← q.peek limit tokens
        return if u.isRightParen then (.ok (.group e), q.pass u)
          else q.fail .missingRightParen u := by
    rw [read, if_neg (Nat.not_succ_le_self _), ahead.peek, ← run]
    exact (if_neg notUnary).trans (if_pos paren)
  cases encloses with
  | @ok e taken rest same room takes next =>
    subst same
    have behind := Ahead.append (v := t :: taken) ahead
    have answer : read limit tokens (n + 1) (.operand (lastLevel + 1)) p =
        .ok (if (nextOf finish rest).isRightParen then
            (.ok (.group e), (p.beyond (t :: taken)).pass (nextOf finish rest))
          else (p.beyond (t :: taken)).fail .missingRightParen (nextOf finish rest)) := by
      rw [step]
      show (do let u ← (p.beyond (t :: taken)).peek limit tokens; _) = _
      rw [behind.peek]
      rfl
    exact ⟨_, answer, ahead.close paren room takes next⟩
  | error passed stops => exact ⟨_, step, .error (t :: passed) stops⟩

theorem leaf_succ (ahead : Ahead limit tokens finish frames w p)
    (notUnary : ¬ (nextOf finish w).isUnary = true)
    (notParen : ¬ (nextOf finish w).isLeftParen = true) :
    ∃ out, read limit tokens (n + 1) (.operand (lastLevel + 1)) p = .ok out ∧
      Answers limit finish frames (lastLevel + 1) [] w p out := by
  cases leaf : (nextOf finish w).leaf? with
  | some value =>
    have step : read limit tokens (n + 1) (.operand (lastLevel + 1)) p =
        .ok (.ok (.leaf value), p.pass (nextOf finish w)) := by
      rw [read, if_neg (Nat.not_succ_le_self _), ahead.peek]
      refine (if_neg notUnary).trans ((if_neg notParen).trans ?_)
      rw [leaf]
      rfl
    have word : ¬ (nextOf finish w).isEof = true := by
      intro isEnd
      simp [Token.leaf?, Token.isEof_iff.mp isEnd] at leaf
    obtain ⟨rest, cut⟩ := ahead.exists_cons word
    generalize nextOf finish w = t at step leaf cut
    subst cut
    rw [ahead.pass_eq] at step
    refine ⟨_, step, .ok [t] rest rfl ?_ ?_⟩
    · exact .leaf (Token.leaf?_eq_some_iff.mp leaf)
    · intro level found
      exact Nat.lt_succ_of_le (Token.binaryLevel?_le found)
  | none =>
    have step : read limit tokens (n + 1) (.operand (lastLevel + 1)) p =
        .ok (p.fail .expectedExpression (nextOf finish w)) := by
      rw [read, if_neg (Nat.not_succ_le_self _), ahead.peek]
      refine (if_neg notUnary).trans ((if_neg notParen).trans ?_)
      rw [leaf]
      rfl
    have noFrame : (nextOf finish w).frame? = none := by
      rw [Token.frame?, if_neg notParen, if_neg notUnary]
    have stuck : ∀ t ∈ w.head?, (Reading.operand frames).take? limit t = none := by
      intro t ht
      obtain ⟨rest, rfl⟩ := List.head?_eq_some_iff.mp ht
      have leaf : t.leaf? = none := leaf
      have noFrame : t.frame? = none := noFrame
      simp [take?, takeOperand?, leaf, noFrame]
    have fault : (Reading.operand frames).result (nextOf finish w) = .error .expectedExpression := by
      show (if (nextOf finish w).frame?.isSome then _ else _) = _
      rw [noFrame]
      rfl
    exact ⟨_, step, .error [] (.stuck stuck fault)⟩

theorem succ (descends : Descends limit tokens finish n) :
    Descends limit tokens finish (n + 1) where
  chain := descends.chain_succ
  operand {frames k w p} ahead hd last enough := by
    rcases Nat.lt_or_eq_of_le last with lower | rfl
    · exact descends.operand_succ ahead hd (Nat.le_of_lt_succ lower) enough
    · -- Beyond the last level the next token is looked at, and it is not the end if it opens a frame.
      by_cases opens : (nextOf finish w).isUnary = true ∨ (nextOf finish w).isLeftParen = true
      · have word : ¬ (nextOf finish w).isEof = true := by
          rw [Token.isUnary_iff, Token.isLeftParen_iff] at opens
          rcases opens with (kind | kind) | kind <;> simp [Token.isEof, kind]
        obtain ⟨rest, cut⟩ := ahead.exists_cons word
        generalize nextOf finish w = t at opens cut
        subst cut
        rw [lastLevel] at enough
        rcases opens with unary | paren
        · exact descends.unary_succ ahead unary (by omega)
        · exact descends.group_succ ahead paren (by omega)
      · rw [not_or] at opens
        exact leaf_succ ahead opens.1 opens.2

end Descends

theorem descends (limit : Option Nat) (tokens : List Token) (finish : Token) (n : Nat) :
    Descends limit tokens finish n := by
  induction n with
  | zero => exact .zero
  | succ n ih => exact ih.succ

/-- Reading a list of tokens meets no breach if the list ends in an end token. It gives what reading
token by token gives, and records the same. -/
theorem parse_eq (limit : Option Nat) {tokens : List Token}
    (ends : tokens.getLast?.any Token.isEof = true) (j : Journal) :
    ∃ p, Parser.ofTokens? tokens = some p ∧
      parse limit tokens j =
        .ok ((p.parseWithin limit).toOption, j.recordResult (p.parseWithin limit)) := by
  obtain ⟨words, finish, after, rfl, isEnd, others⟩ := Parser.exists_append_isEof ends
  refine ⟨_, Parser.ofTokens?_append after others isEnd ends, ?_⟩
  have ahead : Ahead limit (words ++ finish :: after) finish [] words ⟨0, 0, j⟩ :=
    ⟨others, isEnd, ⟨after, rfl⟩, rfl, fun m _ => Nat.zero_le m⟩
  have enough : 6 * words.length + 6 < 6 * (words ++ finish :: after).length + 1 := by
    rw [List.length_append, List.length_cons]
    omega
  obtain ⟨out, run, answers⟩ :=
    (descends limit _ finish _).operand ahead (Nat.zero_le 1) (by decide) enough
  rw [parse, if_pos ends, run]
  cases answers with
  | @ok e taken rest same takes next =>
    subst same
    rw [Parser.parseWithin_of_takes rfl rfl takes next]
    show (do let t ← Place.peek limit _ _; _) = _
    rw [ahead.append.peek]
    cases rest with
    | nil => exact if_pos isEnd
    | cons t rest =>
      have word : ¬ t.isEof = true := by
        rw [others t (List.mem_append_right _ List.mem_cons_self)]
        exact Bool.false_ne_true
      exact if_neg word
  | @error error passed stops =>
    rw [Parser.parseWithin_of_stops rfl stops]
    rfl

end Guarded

end LoxExpr
