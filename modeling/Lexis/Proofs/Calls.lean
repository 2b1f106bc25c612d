import Lexis.Proofs.Places
import Lexis.Proofs.Tokens

/-!
# Calls in any order

A lexer can be pulled, run as an iterator, and asked for a bound on what is left, in any order. All answers are
told by the stream of items that pulls alone hand out: each call that moves the cursor takes the next item of
the stream, also behind an error and behind the end of the input, and only the iterator stops for good. Reading
a whole text takes the stream up to its end or to its first error. Main statement:
`Lexer.answer_of_history`.
-/

namespace Lexis

/-- The calls that a lexer is used by: a pull, the next item of the iterator, and the bound on the items that
are left. -/
inductive Call where
  | pull | next | bound
  deriving DecidableEq, Repr

/-- What a call answers. -/
inductive Answer where
  | pulled (item : Item)
  | yielded (item : Option Item)
  | bounded (most : Option Nat)

/-- A call with its answer, and the lexers in front of it and behind it. -/
structure Event where
  call : Call
  answer : Answer
  before : Lexer
  after : Lexer

namespace Event

/-- Tells whether the iterator answered with no item or with an error. -/
def ends (event : Event) : Bool :=
  match event.answer with
  | .yielded none => true
  | .yielded (some (.error _)) => true
  | _ => false

/-- Tells whether a call moves the cursor, given whether the iterator has ended in front of it. -/
def moves (ended : Bool) (event : Event) : Bool :=
  match event.call with
  | .pull => true
  | .next => !ended
  | .bound => false

/-- The number of calls that move the cursor, given whether the iterator has ended in front of them. -/
def countMoves (ended : Bool) : List Event → Nat
  | [] => 0
  | event :: later => (event.moves ended).toNat + countMoves (ended || event.ends) later

end Event

/-- An item as the iterator yields it: the end of the input is no item. -/
def Item.yielded (item : Item) : Option Item := if Lexer.isEnd item then none else some item

namespace Lexer

/-- Serves a call. -/
def serve (lexer : Lexer) (call : Call) : Event :=
  match call with
  | .pull => ⟨call, .pulled lexer.nextToken.1, lexer, lexer.nextToken.2⟩
  | .next => ⟨call, .yielded lexer.next.1, lexer, lexer.next.2⟩
  | .bound => ⟨call, .bounded lexer.upperBound?, lexer, lexer⟩

/-- Serves calls one after another. -/
def history (lexer : Lexer) : List Call → List Event
  | [] => []
  | call :: calls => lexer.serve call :: (lexer.serve call).after.history calls

/-- The items that pulls alone hand out. -/
def stream (lexer : Lexer) (n : Nat) : Item := (lexer.pulled n).nextToken.1

/-- The same lexer, with the iterator ended or not. -/
def marked (ended : Bool) (lexer : Lexer) : Lexer := ⟨lexer.config, lexer.cursor, ended⟩

@[simp] theorem call_serve (lexer : Lexer) (call : Call) : (lexer.serve call).call = call := by
  cases call <;> rfl

@[simp] theorem before_serve (lexer : Lexer) (call : Call) : (lexer.serve call).before = lexer := by
  cases call <;> rfl

theorem map_call_history (lexer : Lexer) (calls : List Call) :
    (lexer.history calls).map Event.call = calls := by
  induction calls generalizing lexer with
  | nil => rfl
  | cons call calls ih => rw [history, List.map_cons, call_serve, ih]

theorem pulled_succ (lexer : Lexer) (n : Nat) :
    lexer.pulled (n + 1) = (lexer.pulled n).nextToken.2 := pulled_add lexer n 1

/-! ### One call -/

/-- A pull neither asks nor changes whether the iterator has ended. -/
theorem nextToken_marked (ended : Bool) (lexer : Lexer) :
    (lexer.marked ended).nextToken = (lexer.nextToken.1, lexer.nextToken.2.marked ended) := by
  unfold nextToken
  dsimp only [marked]
  split <;> rfl

/-- An iterator that has not ended takes a pull, and ends with it at the end of the input and at an error. -/
theorem next_marked_false (lexer : Lexer) :
    (lexer.marked false).next =
      (Item.yielded lexer.nextToken.1,
        lexer.nextToken.2.marked (isEnd lexer.nextToken.1 || !lexer.nextToken.1.isOk)) := by
  have hpull := nextToken_marked false lexer
  rcases hitem : lexer.nextToken.1 with error | token
  · rw [hitem] at hpull
    rw [next_of_error rfl (congrArg Prod.fst hpull), hpull]
    rfl
  · rw [hitem] at hpull
    cases hend : token.isEndOfInput with
    | true =>
      have hstop : isEnd (lexer.marked false).nextToken.1 = true := by rw [hpull]; exact hend
      rw [next_of_isEnd rfl hstop, hpull, Item.yielded, isEnd, hend]
      rfl
    | false =>
      rw [next_of_token rfl (congrArg Prod.fst hpull) hend, hpull, Item.yielded, isEnd, hend]
      rfl

/-- A call takes as many items of the stream as it moves the cursor by, and the iterator has ended behind it if
it had ended in front of it or ended with it. -/
theorem after_serve (lexer : Lexer) (n : Nat) (ended : Bool) (call : Call) :
    (((lexer.pulled n).marked ended).serve call).after =
      (lexer.pulled (n + ((((lexer.pulled n).marked ended).serve call).moves ended).toNat)).marked
        (ended || (((lexer.pulled n).marked ended).serve call).ends) := by
  cases call with
  | pull =>
    show ((lexer.pulled n).marked ended).nextToken.2 = (lexer.pulled (n + 1)).marked (ended || false)
    rw [nextToken_marked, pulled_succ, Bool.or_false]
  | next =>
    cases ended with
    | true => rfl
    | false =>
      have hends : ((lexer.pulled n).marked false |>.serve .next).ends =
          (isEnd (lexer.pulled n).nextToken.1 || !(lexer.pulled n).nextToken.1.isOk) := by
        unfold serve Event.ends
        dsimp only
        rw [next_marked_false, Item.yielded]
        rcases (lexer.pulled n).nextToken.1 with error | token
        · rfl
        · cases hend : token.isEndOfInput <;> simp [isEnd, hend, Except.isOk, Except.toBool]
      rw [hends]
      show ((lexer.pulled n).marked false).next.2 = (lexer.pulled (n + 1)).marked _
      rw [next_marked_false, pulled_succ, Bool.false_or]
  | bound =>
    show (lexer.pulled n).marked ended = (lexer.pulled n).marked (ended || false)
    rw [Bool.or_false]

/-- A pull takes the next item of the stream, whether the iterator has ended or not. -/
theorem answer_serve_pull (lexer : Lexer) (n : Nat) (ended : Bool) :
    (((lexer.pulled n).marked ended).serve .pull).answer = .pulled (lexer.stream n) := by
  rw [serve, nextToken_marked]
  rfl

/-- So does an iterator that has not ended, with nothing in place of the end of the input. -/
theorem answer_serve_next (lexer : Lexer) (n : Nat) :
    (((lexer.pulled n).marked false).serve .next).answer =
      .yielded (Item.yielded (lexer.stream n)) := by
  rw [serve, next_marked_false]
  rfl

/-! ### A history of calls -/

/-- Each call of a history is made behind as many items of the stream as the calls in front of it have taken,
and the calls behind it are made by the lexer that it leaves. -/
theorem event_of_history {lexer : Lexer} {n : Nat} {ended : Bool} {calls : List Call}
    {earlier later : List Event} {event : Event}
    (h : ((lexer.pulled n).marked ended).history calls = earlier ++ event :: later) :
    event = ((lexer.pulled (n + Event.countMoves ended earlier)).marked
      (ended || earlier.any Event.ends)).serve event.call ∧
    ∃ rest, later = event.after.history rest := by
  -- A call leaves a pulled and marked lexer again, so what holds of the calls behind it is the hypothesis.
  induction earlier generalizing n ended calls with
  | nil =>
    cases calls with
    | nil => cases h
    | cons call calls =>
      obtain ⟨rfl, rfl⟩ := List.cons.inj h
      refine ⟨?_, calls, rfl⟩
      rw [call_serve, List.any_nil, Bool.or_false]
      rfl
  | cons first earlier ih =>
    cases calls with
    | nil => cases h
    | cons call calls =>
      obtain ⟨rfl, htail⟩ := List.cons.inj h
      rw [after_serve] at htail
      obtain ⟨hevent, hlater⟩ := ih htail
      refine ⟨?_, hlater⟩
      rw [Event.countMoves, List.any_cons, ← Nat.add_assoc, ← Bool.or_assoc]
      exact hevent

/-- Where no item is known to be left, the iterator yields nothing. -/
theorem next_of_upperBound? {lexer : Lexer} (h : lexer.upperBound? = some 0) :
    lexer.next.1 = none := by
  cases hdone : lexer.done with
  | true => simp [next, hdone]
  | false =>
    have hrest : lexer.cursor.rest = [] := by simpa [upperBound?, hdone] using h
    have hend : isEnd lexer.nextToken.1 = true := by
      rw [nextToken_of_rest_nil hrest]
      rfl
    rw [next_of_isEnd hdone hend]

theorem answer_of_upperBound? {lexer : Lexer} (h : lexer.upperBound? = some 0) {calls : List Call}
    {event : Event} (hevent : event ∈ (lexer.history calls).head?) (hnext : event.call = .next) :
    event.answer = .yielded none := by
  cases calls with
  | nil => cases hevent
  | cons call calls =>
    cases hevent
    rw [call_serve] at hnext
    subst hnext
    exact congrArg Answer.yielded (next_of_upperBound? h)

/-! ### The stream -/

theorem stream_zero (lexer : Lexer) : lexer.stream 0 = lexer.nextToken.1 := rfl

/-- Behind its end the stream goes on with the end of the input. -/
theorem stream_add_of_isEnd {lexer : Lexer} {n : Nat} (h : isEnd (lexer.stream n) = true) (m : Nat) :
    lexer.stream (n + m) = lexer.stream n := by
  rw [stream, pulled_add, nextToken_pulled_of_isEnd h]
  rfl

/-- `lexer.EndsAt n` tells that the stream ends with its item number `n` and not before. -/
def EndsAt (lexer : Lexer) (n : Nat) : Prop :=
  isEnd (lexer.stream n) = true ∧ ∀ m < n, isEnd (lexer.stream m) = false

theorem EndsAt.succ {lexer : Lexer} {n : Nat} (h : lexer.nextToken.2.EndsAt n)
    (hend : isEnd lexer.nextToken.1 = false) : lexer.EndsAt (n + 1) := by
  refine ⟨h.1, ?_⟩
  intro m hm
  cases m with
  | zero => exact hend
  | succ m => exact h.2 m (Nat.lt_of_succ_lt_succ hm)

/-- Reading all tokens takes the stream up to its end, or to its first error. -/
theorem tokens_of_stream {lexer : Lexer} (hdone : lexer.done = false) :
    ∃ n, lexer.EndsAt n ∧
      ((∃ tokens : List Token, (List.range n).map lexer.stream = tokens.map Except.ok ∧
        lexer.tokens = .ok tokens) ∨
      ∃ m error, lexer.stream m = .error error ∧ (∀ k < m, ∃ token, lexer.stream k = .ok token) ∧
        lexer.tokens = .error error) := by
  induction lexer using pull_induction with
  | stop lexer hend =>
    exact ⟨0, ⟨hend, by simp⟩, Or.inl ⟨[], rfl, tokens_of_isEnd hdone hend⟩⟩
  | error lexer error hitem ih =>
    obtain ⟨n, hends, -⟩ := ih ((done_nextToken lexer).trans hdone)
    refine ⟨n + 1, hends.succ (by rw [hitem]; rfl), Or.inr ⟨0, error, hitem, by simp, ?_⟩⟩
    exact tokens_of_error hdone hitem
  | token lexer token hitem hend ih =>
    obtain ⟨n, hends, htokens⟩ := ih ((done_nextToken lexer).trans hdone)
    refine ⟨n + 1, hends.succ (by rw [hitem]; exact hend), ?_⟩
    rw [tokens_of_token hdone hitem hend]
    rcases htokens with ⟨tokens, hstream, htokens⟩ | ⟨m, error, herror, hearlier, htokens⟩
    · refine Or.inl ⟨token :: tokens, ?_, by rw [htokens]; rfl⟩
      rw [List.range_succ_eq_map, List.map_cons, List.map_map, List.map_cons, stream_zero, hitem,
        ← hstream]
      rfl
    · refine Or.inr ⟨m + 1, error, herror, ?_, by rw [htokens]; rfl⟩
      intro k hk
      cases k with
      | zero => exact ⟨token, hitem⟩
      | succ k => exact hearlier k (Nat.lt_of_succ_lt_succ hk)

/-- Whatever calls a fresh lexer of a source has served, the next call is answered from the stream of items
that pulls alone hand out. A pull takes the next item of it, and so does the iterator as long as it has not
ended, with nothing in place of the end of the input. An iterator that has ended yields nothing and stays where
it is, and so does every call for a bound; where this tells that nothing is left, the iterator yields nothing
next. Reading the whole source takes the tokens of the stream up to its end, or the first error. -/
theorem answer_of_history (config : Config) (source : String) (calls : List Call) :
    let lexer := ofSource config source
    let history := lexer.history calls
    history.map Event.call = calls ∧
    (∀ earlier event later, history = earlier ++ event :: later →
      let n := Event.countMoves false earlier
      event.before.cursor = (lexer.pulled n).cursor ∧
      match event.call with
      | .pull => event.answer = .pulled (lexer.stream n)
      | .next =>
        if earlier.any Event.ends then
          event.answer = .yielded none ∧ event.after.cursor = event.before.cursor
        else event.answer = .yielded (Item.yielded (lexer.stream n))
      | .bound =>
        event.after.cursor = event.before.cursor ∧
        (event.answer = .bounded (some 0) →
          ∀ following ∈ later.head?, following.call = .next → following.answer = .yielded none)) ∧
    ∃ n, lexer.EndsAt n ∧ (∀ m, lexer.stream (n + m) = lexer.stream n) ∧
      ((∃ tokens : List Token, (List.range n).map lexer.stream = tokens.map Except.ok ∧
        tokenize config source = .ok tokens) ∨
      ∃ m error, lexer.stream m = .error error ∧ (∀ k < m, ∃ token, lexer.stream k = .ok token) ∧
        tokenize config source = .error error) := by
  intro lexer history
  refine ⟨map_call_history lexer calls, ?_, ?_⟩
  · intro earlier event later h n
    have hhistory : ((lexer.pulled 0).marked false).history calls = earlier ++ event :: later := h
    obtain ⟨hevent, rest, hrest⟩ := event_of_history hhistory
    rw [Nat.zero_add, Bool.false_or] at hevent
    refine ⟨by rw [hevent, before_serve]; rfl, ?_⟩
    cases hcall : event.call with
    | pull =>
      rw [hcall] at hevent
      rw [hevent]
      exact answer_serve_pull lexer n _
    | next =>
      rw [hcall] at hevent
      dsimp only
      cases hended : earlier.any Event.ends with
      | true =>
        rw [hevent, hended]
        exact ⟨rfl, rfl⟩
      | false =>
        rw [hevent, hended]
        exact answer_serve_next lexer n
    | bound =>
      rw [hcall] at hevent
      subst hevent hrest
      exact ⟨rfl, fun hanswer following hfollowing hnext =>
        answer_of_upperBound? (Answer.bounded.inj hanswer) hfollowing hnext⟩
  · obtain ⟨n, hends, htokens⟩ := @tokens_of_stream lexer rfl
    exact ⟨n, hends, stream_add_of_isEnd hends.1, htokens⟩

/-- Behind an error that ended the iterator, a pull takes the next item, and the iterator yields nothing. -/
theorem answer_of_history_ended :
    let first := ofSource .standard "_ a"
    let second : Lexer := ⟨.standard, ⟨[' ', 'a'], ⟨1, 2⟩⟩, true⟩
    let third : Lexer := ⟨.standard, ⟨[], ⟨1, 4⟩⟩, true⟩
    let fault : Event :=
      ⟨.next, .yielded (some (.error ⟨.unknownCharacter '_', ⟨1, 1, 1⟩⟩)), first, second⟩
    let token : Event := ⟨.pull, .pulled (.ok ⟨⟨.value .ident, "a"⟩, ⟨1, 3, 1⟩⟩), second, third⟩
    let nothing : Event := ⟨.next, .yielded none, third, third⟩
    first.history [.next, .pull, .next] = [fault] ++ token :: [nothing] ∧
    first.history [.next, .pull, .next] = [fault, token] ++ nothing :: [] ∧
    token.answer = .pulled (first.stream 1) ∧ third.cursor = (first.pulled 2).cursor := by
  intro first second third fault token nothing
  have hhistory : (ofSource .standard "_ a").history [.next, .pull, .next] =
      [fault] ++ token :: [nothing] := by cbv
  obtain ⟨-, hall, -⟩ := answer_of_history .standard "_ a" [.next, .pull, .next]
  obtain ⟨-, hpull⟩ := hall [fault] token [nothing] hhistory
  obtain ⟨hcursor, -⟩ := hall [fault, token] nothing [] hhistory
  exact ⟨hhistory, hhistory, hpull, hcursor⟩

end Lexer

end Lexis
