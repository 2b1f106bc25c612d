import Lexis.Proofs.Segments

/-!
# All tokens of a text

The tokens of a text, one pull at a time: none at the end of the input, the error where a pull hands out
one, and otherwise a token in front of the tokens behind it.
-/

namespace Lexis.Lexer

theorem done_nextToken (lexer : Lexer) : lexer.nextToken.2.done = lexer.done := by
  unfold nextToken
  dsimp only
  split <;> rfl

theorem next_of_isEnd {lexer : Lexer} (hdone : lexer.done = false)
    (h : isEnd lexer.nextToken.1 = true) :
    lexer.next = (none, ⟨lexer.nextToken.2.config, lexer.nextToken.2.cursor, true⟩) := by
  rcases hpull : lexer.nextToken with ⟨error | token, after⟩
  · rw [hpull] at h
    cases h
  · rw [hpull] at h
    have hend : token.isEndOfInput = true := h
    simp [next, hdone, hpull, hend]

theorem next_of_error {lexer : Lexer} {error : LexError} (hdone : lexer.done = false)
    (h : lexer.nextToken.1 = .error error) :
    lexer.next = (some (.error error), ⟨lexer.nextToken.2.config, lexer.nextToken.2.cursor, true⟩) := by
  rcases hpull : lexer.nextToken with ⟨item, after⟩
  rw [hpull] at h
  cases h
  simp [next, hdone, hpull]

theorem next_of_token {lexer : Lexer} {token : Token} (hdone : lexer.done = false)
    (h : lexer.nextToken.1 = .ok token) (hend : token.isEndOfInput = false) :
    lexer.next = (some (.ok token), lexer.nextToken.2) := by
  rcases hpull : lexer.nextToken with ⟨item, after⟩
  rw [hpull] at h
  cases h
  simp [next, hdone, hpull, hend]

theorem drain_of_none {lexer after : Lexer} (h : lexer.next = (none, after)) :
    lexer.drain = ([], after) := by
  unfold drain
  split
  · rename_i heq
    rw [h] at heq
    cases heq
    rfl
  · rename_i heq
    rw [h] at heq
    cases heq

theorem drain_of_some {lexer after : Lexer} {item : Item} (h : lexer.next = (some item, after)) :
    lexer.drain = (item :: after.drain.1, after.drain.2) := by
  rw [drain]
  split
  · rename_i heq
    rw [h] at heq
    cases heq
  · rename_i heq
    rw [h] at heq
    cases heq
    rfl

theorem tokens_of_isEnd {lexer : Lexer} (hdone : lexer.done = false)
    (h : isEnd lexer.nextToken.1 = true) : lexer.tokens = .ok [] := by
  rw [tokens, drain_of_none (next_of_isEnd hdone h)]
  rfl

theorem tokens_of_error {lexer : Lexer} {error : LexError} (hdone : lexer.done = false)
    (h : lexer.nextToken.1 = .error error) : lexer.tokens = .error error := by
  rw [tokens, drain_of_some (next_of_error hdone h)]
  rfl

theorem tokens_of_token {lexer : Lexer} {token : Token} (hdone : lexer.done = false)
    (h : lexer.nextToken.1 = .ok token) (hend : token.isEndOfInput = false) :
    lexer.tokens = lexer.nextToken.2.tokens.map (token :: ·) := by
  rw [tokens, tokens, drain_of_some (next_of_token hdone h hend), List.mapM_cons]
  cases lexer.nextToken.2.drain.1.mapM id <;> rfl

/-- A property of lexers holds of every one where each kind of pull keeps it. -/
theorem pull_induction {motive : Lexer → Prop}
    (stop : ∀ lexer : Lexer, isEnd lexer.nextToken.1 = true → motive lexer)
    (error : ∀ (lexer : Lexer) (error : LexError), lexer.nextToken.1 = .error error →
      motive lexer.nextToken.2 → motive lexer)
    (token : ∀ (lexer : Lexer) (token : Token), lexer.nextToken.1 = .ok token →
      token.isEndOfInput = false → motive lexer.nextToken.2 → motive lexer)
    (lexer : Lexer) : motive lexer := by
  induction lexer using segments.induct with
  | case1 lexer hend => exact stop lexer hend
  | case2 lexer hend hlt ih =>
    rw [Bool.not_eq_true] at hend
    rcases hitem : lexer.nextToken.1 with e | t
    · exact error lexer e hitem ih
    · rw [hitem] at hend
      exact token lexer t hitem hend ih

/-- The tokens are what the pulls hand out before the end of the input, up to the first error. -/
theorem tokens_eq_mapM_steps {lexer : Lexer} (hdone : lexer.done = false) :
    lexer.tokens = lexer.steps.dropLast.mapM id := by
  have hne : ∀ other : Lexer, other.steps ≠ [] := by
    intro other
    rw [← map_item_segments, Ne, List.map_eq_nil_iff]
    exact segments_ne_nil other
  induction lexer using pull_induction with
  | stop lexer hend =>
    rw [tokens_of_isEnd hdone hend, steps_of_isEnd hend]
    rfl
  | error lexer error hitem _ =>
    have hpull : isEnd lexer.nextToken.1 = false := by rw [hitem]; rfl
    rw [tokens_of_error hdone hitem, steps_of_not_isEnd hpull, hitem,
      List.dropLast_cons_of_ne_nil (hne _), List.mapM_cons]
    rfl
  | token lexer token hitem hend ih =>
    have hpull : isEnd lexer.nextToken.1 = false := by rw [hitem]; exact hend
    rw [steps_of_not_isEnd hpull, tokens_of_token hdone hitem hend, hitem,
      ih ((done_nextToken lexer).trans hdone), List.dropLast_cons_of_ne_nil (hne _), List.mapM_cons]
    cases lexer.nextToken.2.steps.dropLast.mapM id <;> rfl

/-- A text is read without an error only where each pull up to the end hands out a token. -/
theorem token_of_tokens {lexer : Lexer} (hdone : lexer.done = false) {tokens : List Token}
    (h : lexer.tokens = .ok tokens) :
    (isEnd lexer.nextToken.1 = true ∧ tokens = []) ∨
    ∃ token later, lexer.nextToken.1 = .ok token ∧ token.isEndOfInput = false ∧
      lexer.nextToken.2.tokens = .ok later ∧ tokens = token :: later := by
  rcases hitem : lexer.nextToken.1 with error | token
  · rw [tokens_of_error hdone hitem] at h
    cases h
  · cases hend : token.isEndOfInput with
    | true =>
      rw [tokens_of_isEnd hdone (by rw [hitem]; exact hend)] at h
      cases h
      exact Or.inl ⟨hend, rfl⟩
    | false =>
      rw [tokens_of_token hdone hitem hend] at h
      cases hlater : lexer.nextToken.2.tokens with
      | error error =>
        rw [hlater] at h
        cases h
      | ok later =>
        rw [hlater] at h
        cases h
        exact Or.inr ⟨token, later, rfl, hend, rfl, rfl⟩

/-- A token that a pull hands out carries a well-formed lexeme. -/
theorem wellFormed_nextToken {lexer : Lexer} {token : Token} (hitem : lexer.nextToken.1 = .ok token)
    (hend : token.isEndOfInput = false) : token.toLexeme.WellFormed := by
  obtain ⟨reading, hreading⟩ := @reading_of_not_isEnd lexer (by rw [hitem]; exact hend)
  exact Upcoming.wellFormed hreading (result_of_nextToken hreading hitem)

/-- Every token of a text carries a well-formed lexeme. -/
theorem wellFormed_tokens {lexer : Lexer} (hdone : lexer.done = false) {tokens : List Token}
    (h : lexer.tokens = .ok tokens) : ∀ token ∈ tokens, token.toLexeme.WellFormed := by
  induction tokens generalizing lexer with
  | nil => simp
  | cons token later ih =>
    rcases token_of_tokens hdone h with ⟨-, hnil⟩ | ⟨_, _, hitem, hend, hlater, heq⟩
    · cases hnil
    · obtain ⟨rfl, rfl⟩ := List.cons.inj heq
      intro other hother
      rcases List.mem_cons.1 hother with rfl | hother
      · exact wellFormed_nextToken hitem hend
      · exact ih ((done_nextToken lexer).trans hdone) hlater other hother

/-- The tokens hang on the next pull alone. -/
theorem tokens_congr {lexer other : Lexer} (hdone : lexer.done = false) (hother : other.done = false)
    (h : lexer.nextToken = other.nextToken) : lexer.tokens = other.tokens := by
  rcases hitem : other.nextToken.1 with error | token
  · rw [tokens_of_error hother hitem, tokens_of_error hdone (by rw [h, hitem])]
  · cases hend : token.isEndOfInput with
    | true =>
      have hstop : isEnd other.nextToken.1 = true := by rw [hitem]; exact hend
      rw [tokens_of_isEnd hother hstop, tokens_of_isEnd hdone (by rw [h, hstop])]
    | false =>
      rw [tokens_of_token hother hitem hend, tokens_of_token hdone (by rw [h, hitem]) hend, h]

end Lexis.Lexer
