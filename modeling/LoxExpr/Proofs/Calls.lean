import LoxExpr.Proofs.Recognition

/-!
A parser between calls.

Whatever it was asked for, a parser stands at a place no further than the first end token and has
nothing begun (`Parser.Stands`). Each answer moves it over the tokens that it took
(`Parser.Stands.exists_passes_answer`), so it stands again behind any list of calls
(`Parser.Stands.answerAll`).
-/

set_option autoImplicit false
set_option relaxedAutoImplicit false

namespace LoxExpr

namespace Parser

variable {limit : Option Nat} {p q : Parser} {words rest : List Token} {finish : Token}

def answerAll (p : Parser) (j : Journal) (requests : List Request) : Parser × Journal :=
  requests.foldl (fun (p, j) request => (p.answer j request).2) (p, j)

/-- The parser has passed over some of the words, the others and the end are ahead, and it has
nothing begun. -/
structure Stands (words : List Token) (finish : Token) (p : Parser) : Prop where
  idle : p.reading = .start
  finish_eq : p.finish = finish
  split : ∃ passed, words = passed ++ p.ahead ∧ p.taken = passed.length

structure Passes (words : List Token) (p q : Parser) : Prop where
  ahead : p.ahead = words ++ q.ahead
  taken : q.taken = p.taken + words.length

theorem moveTo_append (h : p.ahead = words ++ rest) : Passes words p (p.moveTo rest) := by
  refine ⟨h, ?_⟩
  show p.taken + (p.ahead.length - rest.length) = _
  rw [h, List.length_append]
  omega

theorem Passes.trans {v w : List Token} {p' : Parser} (first : Passes v p q)
    (second : Passes w q p') : Passes (v ++ w) p p' where
  ahead := by rw [first.ahead, second.ahead, List.append_assoc]
  taken := by rw [second.taken, first.taken, List.length_append, Nat.add_assoc]

theorem Passes.taken_le (passes : Passes words p q) : p.taken ≤ q.taken := by
  rw [passes.taken]
  exact Nat.le_add_right ..

theorem Stands.depth_eq (stands : Stands words finish p) : p.depth = 0 := by
  show Frame.depth p.reading.frames = 0
  rw [stands.idle]
  rfl

theorem Passes.stands {w : List Token} (passes : Passes w p q) (stands : Stands words finish p)
    (idle : q.reading = .start) (same : q.finish = p.finish) : Stands words finish q := by
  obtain ⟨passed, split, taken⟩ := stands.split
  refine ⟨idle, same.trans stands.finish_eq, passed ++ w, ?_, ?_⟩
  · rw [split, passes.ahead, List.append_assoc]
  · rw [passes.taken, taken, List.length_append]

theorem readWithin_of_takeAll? {taken : List Token} {r : Reading} (idle : p.reading = .start)
    (cut : p.ahead = taken ++ rest) (ht : Reading.start.takeAll? limit taken = some r)
    (stuck : ∀ t ∈ rest.head?, r.take? limit t = none) :
    p.readWithin limit =
      match r.result (rest.head?.getD p.finish) with
      | .ok e => (.ok e, p.moveTo rest)
      | .error .tooDeeplyNested =>
        (.error (.atToken .tooDeeplyNested (rest.head?.getD p.finish)), (p.moveTo rest).skip)
      | .error fault => (.error (.atToken fault (rest.head?.getD p.finish)), p.moveTo rest) := by
  have moved : p.reading.advance limit p.ahead = (r, rest) := by
    rw [idle, cut, Reading.advance_append_of_takeAll? ht]
    exact Reading.advance_of_stuck stuck
  obtain ⟨position, ahead, finish, reading⟩ := p
  obtain rfl : reading = .start := idle
  have still : ∀ t, (⟨position, t, finish, .start⟩ : Parser).moveTo rest =
      ⟨position + (t.length - rest.length), rest, finish, .start⟩ := fun _ => rfl
  unfold readWithin advance
  simp only [moved, still]
  rfl

theorem skip_passes (p : Parser) : Passes (p.ahead.take 1) p p.skip := by
  apply moveTo_append
  cases p.ahead <;> rfl

theorem binaryLevel?_of_stuck {e : Tree} {frames : List Frame} {t : Token}
    (stuck : (Reading.operator e frames).take? limit t = none) : t.binaryLevel? = none := by
  cases level : t.binaryLevel? with
  | none => rfl
  | some k =>
    rw [Reading.take?_eq_some_iff.mpr (.binary level rfl)] at stuck
    contradiction

theorem kind_ne_of_binaryLevel? {t : Token} (h : t.binaryLevel? = none) (k : Nat) :
    ∀ s ∈ binaryOperators k, t.kind ≠ .symbol s := by
  intro s hs kind
  have level := Token.binaryLevel?_eq_some_iff.mpr ⟨s, hs, kind⟩
  rw [h] at level
  contradiction

theorem binaryLevel?_of_isEof {t : Token} (isEnd : t.isEof = true) : t.binaryLevel? = none := by
  simp [Token.binaryLevel?, Token.isEof_iff.mp isEnd]

theorem Stands.exists_passes_readExpression (stands : Stands words finish p)
    (isEnd : finish.isEof = true) :
    ∃ taken, Passes taken p p.readExpression.2 ∧ Stands words finish p.readExpression.2 ∧
      ∀ e, p.readExpression.1 = .ok e →
        e.IsReadFrom taken ∧ p.readExpression.2.next.binaryLevel? = none := by
  obtain ⟨taken, rest, r, cut, ht, stuck⟩ :=
    Reading.exists_takeAll?_stuck (some nestingLimit) .start p.ahead
  have passes : Passes taken p (p.moveTo rest) := moveTo_append cut
  have there : Stands words finish (p.moveTo rest) := passes.stands stands stands.idle rfl
  have answer : p.readExpression = _ := readWithin_of_takeAll? stands.idle cut ht stuck
  cases result : r.result (rest.head?.getD p.finish) with
  | ok e =>
    rw [answer, result]
    refine ⟨taken, passes, there, ?_⟩
    intro e' same
    obtain rfl := Except.ok.inj same
    have completes := Reading.result_eq_ok_iff.mp result
    have fits := Reading.fits_of_completes ht completes
    obtain ⟨k, -, hk⟩ := fits.atLevel
    have within : Within (some nestingLimit) e.nesting := by simpa using fits.within
    refine ⟨⟨fits.spells, ⟨k, hk⟩, Within.some_iff.mp within⟩, ?_⟩
    obtain ⟨last, frames, rfl, -⟩ := completes
    show (rest.head?.getD p.finish).binaryLevel? = none
    cases rest with
    | nil => exact binaryLevel?_of_isEof (stands.finish_eq ▸ isEnd)
    | cons t ts => exact binaryLevel?_of_stuck (stuck t rfl)
  | error fault =>
    rw [answer, result]
    cases fault with
    | tooDeeplyNested =>
      have skipped := skip_passes (p.moveTo rest)
      refine ⟨_, passes.trans skipped, skipped.stands there stands.idle rfl, ?_⟩
      intro e' failed
      contradiction
    | _ =>
      refine ⟨taken, passes, there, ?_⟩
      intro e' failed
      contradiction

theorem exists_append_nextStatement (tokens : List Token) :
    ∃ passed, tokens = passed ++ nextStatement tokens := by
  induction tokens with
  | nil => exact ⟨[], rfl⟩
  | cons t ts ih =>
    unfold nextStatement
    split
    · exact ⟨[t], rfl⟩
    · obtain ⟨passed, same⟩ := ih
      exact ⟨t :: passed, congrArg (t :: ·) same⟩

theorem Stands.exists_passes_recover (stands : Stands words finish p) :
    ∃ passed, Passes passed p p.recover ∧ Stands words finish p.recover := by
  obtain ⟨passed, cut⟩ := exists_append_nextStatement p.ahead
  have passes : Passes passed p p.recover := moveTo_append cut
  exact ⟨passed, passes, passes.stands stands stands.idle rfl⟩

theorem Stands.exists_passes_answer (stands : Stands words finish p) (isEnd : finish.isEof = true)
    (j : Journal) (request : Request) :
    ∃ passed, Passes passed p (p.answer j request).2.1 ∧
      Stands words finish (p.answer j request).2.1 := by
  cases request with
  | readExpression =>
    obtain ⟨taken, passes, there, -⟩ := stands.exists_passes_readExpression isEnd
    exact ⟨taken, passes, there⟩
  | recover => exact stands.exists_passes_recover

theorem Stands.answerAll (stands : Stands words finish p) (isEnd : finish.isEof = true)
    (j : Journal) (requests : List Request) :
    Stands words finish (p.answerAll j requests).1 := by
  induction requests generalizing p j with
  | nil => exact stands
  | cons request requests ih =>
    obtain ⟨-, -, there⟩ := stands.exists_passes_answer isEnd j request
    exact ih there (p.answer j request).2.2

section Tokens

variable (after : List Token)

theorem exists_append_isEof {tokens : List Token}
    (ends : tokens.getLast?.any Token.isEof = true) :
    ∃ words finish after, tokens = words ++ finish :: after ∧ finish.isEof = true ∧
      ∀ t ∈ words, t.isEof = false := by
  obtain ⟨finish, after, whole, isEnd, -⟩ := exists_ofTokens? ends
  refine ⟨_, finish, after, whole, isEnd, ?_⟩
  intro t ht
  simpa using (List.all_eq_true.mp List.all_takeWhile) t ht

theorem ofTokens?_append (others : ∀ t ∈ words, t.isEof = false) (isEnd : finish.isEof = true)
    (ends : (words ++ finish :: after).getLast?.any Token.isEof = true) :
    ofTokens? (words ++ finish :: after) = some ⟨0, words, finish, .start⟩ := by
  have found : (words ++ finish :: after).find? Token.isEof = some finish := by
    rw [List.find?_eq_some_iff_append]
    exact ⟨isEnd, words, after, rfl, by simpa using others⟩
  have ahead : (words ++ finish :: after).takeWhile (!·.isEof) = words := by
    rw [List.takeWhile_append_of_pos (by simpa using others),
      List.takeWhile_cons_of_neg (by simp [isEnd]), List.append_nil]
  rw [ofTokens?, if_pos ends, found, ahead]
  rfl

theorem findIdx_isEof (others : ∀ t ∈ words, t.isEof = false) (isEnd : finish.isEof = true) :
    (words ++ finish :: after).findIdx Token.isEof = words.length := by
  have none : words.findIdx Token.isEof = words.length := List.findIdx_eq_length.mpr others
  rw [List.findIdx_append, none, if_neg (Nat.lt_irrefl _), List.findIdx_cons, isEnd]
  simp

theorem Stands.taken_le (stands : Stands words finish p) : p.taken ≤ words.length := by
  obtain ⟨passed, split, taken⟩ := stands.split
  rw [split, taken, List.length_append]
  exact Nat.le_add_right ..

theorem Stands.length_ahead_lt (stands : Stands words finish p) :
    p.ahead.length < (words ++ finish :: after).length := by
  obtain ⟨passed, split, -⟩ := stands.split
  rw [split]
  simp only [List.length_append, List.length_cons]
  omega

theorem Stands.getElem?_taken (stands : Stands words finish p) :
    (words ++ finish :: after)[p.taken]? = some p.next := by
  obtain ⟨passed, split, taken⟩ := stands.split
  rw [split, taken, List.append_assoc, List.getElem?_append_right (Nat.le_refl _), Nat.sub_self,
    next, stands.finish_eq]
  cases p.ahead <;> rfl

theorem Passes.take_drop {w : List Token} (passes : Passes w p q) (stands : Stands words finish p) :
    ((words ++ finish :: after).drop p.taken).take (q.taken - p.taken) = w := by
  obtain ⟨passed, split, taken⟩ := stands.split
  have more : q.taken - p.taken = w.length := by
    rw [passes.taken]
    omega
  rw [more, split, taken, List.append_assoc, List.drop_left, passes.ahead, List.append_assoc,
    List.take_left]

end Tokens

end Parser

end LoxExpr
