import Lexis.Proofs.Alone

/-!
# Maximal munch

The operator that is read at the front of a text is the longest one there that can be reached one character at a
time. It is the longest operator there at all, unless the text starts like a range that is open on the left,
which no text is ever read as. Main statement: `Lexer.nextToken_munch`.
-/

namespace Lexis

namespace Operator

/-- The text starts with a character of an operator, and not with the two characters that open a comment or a
text block. -/
def IsStart (text : List Char) : Prop :=
  (∃ c ∈ text.head?, isStarter c = true) ∧
  ∀ mark ∈ ["//", "/*", "\\\\"], ¬ mark.toList <+: text

/-- The operator is the longest one at the front of the text that can be reached one character at a time. -/
structure IsMunch (text : List Char) (op : Operator) : Prop where
  front : op.spelling.toList <+: text
  reachable : isReachable op.spelling = true
  longest : ∀ other : String, other.toList <+: text → isReachable other = true →
    other.length ≤ op.spelling.length

/-! ### Spellings -/

theorem eq_of_spelling_eq {op other : Operator} (h : op.spelling = other.spelling) : op = other := by
  have hop := ofSpelling?_spelling op
  rw [h, ofSpelling?_spelling] at hop
  exact (Option.some.inj hop).symm

theorem length_spelling_le (op : Operator) : op.spelling.length ≤ 4 := by
  cases op <;> decide

/-- No keyword is spelled as an operator. -/
theorem keyword_spelling_ne (word : Keyword) (op : Operator) : word.spelling ≠ op.spelling := by
  intro h
  have hnone : Keyword.ofSpelling? op.spelling = none := by
    cases op <;> decide
  rw [← h, Keyword.ofSpelling?_spelling] at hnone
  cases hnone

/-- An operator is the only kind with its spelling. -/
theorem kind_spelling?_eq_iff {kind : Kind} {op : Operator} :
    kind.spelling? = some op.spelling ↔ kind = .operator op := by
  constructor
  · intro h
    cases kind with
    | value => cases h
    | keyword word => exact absurd (Option.some.inj h) (keyword_spelling_ne word op)
    | operator other => rw [eq_of_spelling_eq (Option.some.inj h)]
    | endOfInput => cases h
  · rintro rfl
    rfl

theorem isOpener_of_isStarter {c : Char} (h : isStarter c = true) : Front.isOpener c = false := by
  have hall : (starters.toList.all fun d => !Front.isOpener d) = true := by decide
  simpa using List.all_eq_true.1 hall c (List.contains_iff_mem.1 h)

theorem IsStart.exists_cons {text : List Char} (h : IsStart text) :
    ∃ c rest, text = c :: rest ∧ isStarter c = true := by
  obtain ⟨c, hc, hstarter⟩ := h.1
  obtain ⟨rest, rfl⟩ := List.head?_eq_some_iff.1 hc
  exact ⟨c, rest, rfl, hstarter⟩

theorem IsStart.isPairOpener_eq_false {c : Char} {rest : List Char} (h : IsStart (c :: rest)) :
    Front.isPairOpener c rest = false := by
  have hmark : ∀ mark ∈ ["//", "/*", "\\\\"], ∀ d, mark.toList = [c, d] → rest.head? ≠ some d := by
    intro mark hmem d hd hnext
    apply h.2 mark hmem
    obtain ⟨more, rfl⟩ := List.head?_eq_some_iff.1 hnext
    rw [hd]
    exact ⟨more, rfl⟩
  simp only [Front.isPairOpener, Bool.or_eq_false_iff, Bool.and_eq_false_imp, beq_iff_eq,
    beq_eq_false_iff_ne]
  refine ⟨?_, ?_⟩
  · rintro rfl
    exact hmark "\\\\" (by simp) '\\' rfl
  · rintro rfl
    exact ⟨hmark "//" (by simp) '/' rfl, hmark "/*" (by simp) '*' rfl⟩

/-! ### Reachable spellings -/

/-- Every beginning of a reachable spelling is an operator. -/
theorem isSome_of_isReachable {text : String} (h : isReachable text = true) {front : List Char}
    (hfront : front <+: text.toList) (hne : front ≠ []) :
    (ofSpelling? (String.ofList front)).isSome = true := by
  have hall := (Bool.and_eq_true_iff.1 h).2
  have hlength := List.length_pos_iff.2 hne
  have hle := hfront.length_le
  have htake : text.toList.take (front.length - 1 + 1) = front := by
    rw [Nat.sub_add_cancel hlength]
    exact (List.prefix_iff_eq_take.1 hfront).symm
  rw [← htake]
  exact List.all_eq_true.1 hall _ (List.mem_range.2 (by omega))

theorem toList_ne_nil_of_isReachable {text : String} (h : isReachable text = true) :
    text.toList ≠ [] := by
  intro hnil
  have hempty := (Bool.and_eq_true_iff.1 h).1
  rw [hnil] at hempty
  cases hempty

/-- The operators that cannot be reached are the ranges that are open on the left. -/
theorem isReachable_or_leftOpen (op : Operator) :
    isReachable op.spelling = true ∨ "<..".toList <+: op.spelling.toList := by
  cases op with
  | ltDotDot => exact Or.inr ⟨[], rfl⟩
  | ltDotDotLt => exact Or.inr ⟨['<'], rfl⟩
  | _ => exact Or.inl (by decide)

/-- A reachable spelling is read as an operator and not as what opens a comment or a text block. -/
theorem isStart_of_isReachable {text : String} (h : isReachable text = true) :
    IsStart text.toList := by
  refine ⟨?_, ?_⟩
  · cases htext : text.toList with
    | nil => exact absurd htext (toList_ne_nil_of_isReachable h)
    | cons c rest =>
      have hfirst : [c] <+: text.toList := by
        rw [htext]
        exact ⟨rest, rfl⟩
      have hsome := isSome_of_isReachable h hfirst (List.cons_ne_nil c [])
      rw [← String.singleton_eq_ofList, isSome_ofSpelling?_singleton] at hsome
      exact ⟨c, rfl, hsome⟩
  · intro mark hmark hfront
    have hnone : ofSpelling? mark = none ∧ mark.toList ≠ [] := by
      simp only [List.mem_cons, List.not_mem_nil, or_false] at hmark
      rcases hmark with rfl | rfl | rfl <;> decide
    have hsome := isSome_of_isReachable h hfront hnone.2
    rw [String.ofList_toList, hnone.1] at hsome
    cases hsome

/-! ### The longest operator -/

/-- No reachable spelling goes beyond the operator that is grown. -/
theorem length_le_grow {other : String} (h : isReachable other = true) {op : Operator}
    {text : List Char} (hother : other.toList <+: op.spelling.toList ++ text) :
    other.length ≤ (op.grow text).spelling.length := by
  induction text generalizing op with
  | nil =>
    have hle := hother.length_le
    rwa [List.append_nil, String.length_toList, String.length_toList] at hle
  | cons c rest ih =>
    have hpush : (op.spelling.push c).toList = op.spelling.toList ++ [c] := String.toList_push c
    cases hlonger : ofSpelling? (op.spelling.push c) with
    | some longer =>
      rw [grow_cons_of_some hlonger]
      apply ih
      rw [spelling_of_ofSpelling? hlonger, hpush, List.append_assoc]
      exact hother
    | none =>
      rw [grow_cons_of_none hlonger]
      -- A longer spelling would begin with the operator and the character that it does not grow by.
      by_contra hlt
      have hfront : op.spelling.toList ++ [c] <+: other.toList := by
        apply List.prefix_of_prefix_length_le ⟨rest, List.append_assoc _ _ _⟩ hother
        rw [List.length_append, List.length_singleton, String.length_toList, String.length_toList]
        omega
      have hsome := isSome_of_isReachable h hfront (by simp)
      rw [← hpush, String.ofList_toList, hlonger] at hsome
      cases hsome

theorem isMunch_of_munch? {text : List Char} {op : Operator} (h : munch? text = some op) :
    IsMunch text op where
  front := spelling_munch? h
  reachable := isReachable_munch? h
  longest := by
    intro other hother hreachable
    cases text with
    | nil => cases h
    | cons c rest =>
      obtain ⟨first, hfirst, rfl⟩ := Option.map_eq_some_iff.1 h
      apply length_le_grow hreachable
      rw [spelling_of_ofSpelling? hfirst, String.toList_singleton]
      exact hother

namespace IsMunch

variable {text : List Char} {op other : Operator}

theorem unique (h : IsMunch text op) (hother : IsMunch text other) : op = other := by
  apply eq_of_spelling_eq
  have hlength : op.spelling.toList.length = other.spelling.toList.length := by
    rw [String.length_toList, String.length_toList]
    exact Nat.le_antisymm (hother.longest _ h.front h.reachable)
      (h.longest _ hother.front hother.reachable)
  have hfront : op.spelling.toList <+: other.spelling.toList :=
    List.prefix_of_prefix_length_le h.front hother.front (Nat.le_of_eq hlength)
  exact String.toList_injective (hfront.eq_of_length hlength)

/-- Where no range that is open on the left stands in the way, no operator at all is longer. -/
theorem length_le (h : IsMunch text op) (hopen : ¬ "<..".toList <+: text)
    (hother : other.spelling.toList <+: text) : other.spelling.length ≤ op.spelling.length := by
  rcases isReachable_or_leftOpen other with hreachable | hleft
  · exact h.longest _ hother hreachable
  · exact absurd (hleft.trans hother) hopen

/-- A reachable spelling is its own longest operator. -/
theorem spelling_eq {spelling : String} (h : IsMunch spelling.toList op)
    (hreachable : isReachable spelling = true) : op.spelling = spelling := by
  have hge : spelling.toList.length ≤ op.spelling.toList.length := by
    rw [String.length_toList, String.length_toList]
    exact h.longest spelling (List.prefix_refl _) hreachable
  exact String.toList_injective (h.front.eq_of_length_le hge)

end IsMunch

end Operator

/-! ### Reading -/

/-- The front of a text that starts as an operator does is the longest reachable one. -/
theorem Front.read_munch {text : List Char} (h : Operator.IsStart text) :
    ∃ c rest op, text = c :: rest ∧ Operator.IsMunch text op ∧
      read c rest = .found (some (.ofOperator op)) op.spelling.length := by
  obtain ⟨c, rest, rfl, hstarter⟩ := h.exists_cons
  have hsome := Operator.isSome_munch? c rest
  rw [hstarter] at hsome
  obtain ⟨op, hop⟩ := Option.isSome_iff_exists.1 hsome
  refine ⟨c, rest, op, rfl, Operator.isMunch_of_munch? hop, ?_⟩
  rw [read_other (Operator.isOpener_of_isStarter hstarter) h.isPairOpener_eq_false, hop]

/-- An operator that is read carries a reachable spelling. -/
theorem Lexeme.WellFormed.isReachable_text {lexeme : Lexeme} (h : lexeme.WellFormed)
    (hfamily : lexeme.kind.family = .operator) : Operator.isReachable lexeme.text = true := by
  obtain ⟨kind, text⟩ := lexeme
  cases kind with
  | operator op =>
    obtain ⟨rfl, hreachable⟩ : text = op.spelling ∧ _ := h
    exact hreachable
  | value => cases hfamily
  | keyword => cases hfamily
  | endOfInput => cases hfamily

namespace Lexer

/-- A reachable spelling is a source of one token. -/
theorem tokenize_of_isReachable (config : Config) {spelling : String}
    (h : Operator.isReachable spelling = true) :
    ∃ token : Token, tokenize config spelling = .ok [token] ∧ token.kind.family = .operator ∧
      token.text = spelling := by
  obtain ⟨c, rest, op, htext, hmunch, hread⟩ := Front.read_munch (Operator.isStart_of_isReachable h)
  have hspelling := hmunch.spelling_eq h
  have hupcoming : Upcoming.ofText spelling.toList =
      ⟨0, some (.found (.ofOperator op) op.spelling.length)⟩ := by
    rw [htext]
    exact Upcoming.ofText_of_front hread
  have hlength : op.spelling.length = spelling.toList.length := by
    rw [hspelling, String.length_toList]
  exact ⟨_, @tokens_of_single (ofSource config spelling) _ _ rfl hupcoming hlength rfl, rfl, hspelling⟩

/-- Maximal munch. A text that starts as an operator does is read as the longest operator at its front that can
be reached one character at a time, and whose spelling no other kind has. No operator at all is longer there,
unless the text starts like a range that is open on the left. And the spellings that a source can have for an
operator are the reachable ones. -/
theorem nextToken_munch :
    (∀ lexer : Lexer, Operator.IsStart lexer.cursor.rest →
      let place := lexer.cursor.place
      ∃ op, Operator.IsMunch lexer.cursor.rest op ∧
        (∀ kind : Kind, kind.spelling? = some op.spelling ↔ kind = .operator op) ∧
        let n := op.spelling.length
        lexer.nextToken = (.ok ⟨.ofOperator op, ⟨place.row, place.col, n⟩⟩, lexer.skip n) ∧
        lexer.cursor.rest = op.spelling.toList ++ (lexer.skip n).cursor.rest ∧
        (¬ "<..".toList <+: lexer.cursor.rest →
          ∀ other : Operator, other.spelling.toList <+: lexer.cursor.rest →
            other.spelling.length ≤ n)) ∧
    ∀ (config : Config) (spelling : String),
      (∃ source tokens, tokenize config source = .ok tokens ∧
        ∃ token ∈ tokens, token.kind.family = .operator ∧ token.text = spelling) ↔
      Operator.isReachable spelling = true := by
  refine ⟨?_, ?_⟩
  · intro lexer hstart place
    obtain ⟨c, rest, op, hrest, hmunch, hread⟩ := Front.read_munch hstart
    have hn : op.spelling.length ≤ ceiling := Nat.le_trans op.length_spelling_le (by decide)
    obtain ⟨after, hafter⟩ := hmunch.front
    have hskip := rest_skip_of_length hafter.symm String.length_toList
    refine ⟨op, hmunch, fun _ => Operator.kind_spelling?_eq_iff, nextToken_of_found hrest hread hn,
      ?_, fun hopen _ => hmunch.length_le hopen⟩
    rw [hskip, hafter]
  · intro config spelling
    constructor
    · rintro ⟨source, tokens, htokens, token, hmem, hfamily, rfl⟩
      have hwell := @wellFormed_tokens (ofSource config source) rfl tokens htokens token hmem
      exact hwell.isReachable_text hfamily
    · intro h
      obtain ⟨token, htokens, hfamily, htext⟩ := tokenize_of_isReachable config h
      exact ⟨spelling, [token], htokens, token, List.mem_singleton_self _, hfamily, htext⟩

/-- A range that is open on the left is read as its first character, and no source has it as a token. -/
theorem nextToken_munch_left_open :
    let lexer := ofSource .standard "<..<x"
    Operator.IsStart lexer.cursor.rest ∧
    lexer.nextToken =
      (.ok ⟨⟨.operator .lt, "<"⟩, ⟨1, 1, 1⟩⟩, ⟨.standard, ⟨"..<x".toList, ⟨1, 2⟩⟩, false⟩) ∧
    ¬ ∃ source tokens, tokenize .standard source = .ok tokens ∧
      ∃ token ∈ tokens, token.kind.family = .operator ∧ token.text = "<..<" := by
  intro lexer
  have hstart : Operator.IsStart lexer.cursor.rest := ⟨⟨'<', rfl, by decide⟩, by decide⟩
  obtain ⟨hpull, htokens⟩ := nextToken_munch
  obtain ⟨op, hmunch, -, hnext, -⟩ := hpull lexer hstart
  have hlt : Operator.munch? lexer.cursor.rest = some .lt := by decide
  obtain rfl := hmunch.unique (Operator.isMunch_of_munch? hlt)
  refine ⟨hstart, ?_, ?_⟩
  · rw [hnext]
    rfl
  · rw [htokens]
    decide

end Lexer

end Lexis
