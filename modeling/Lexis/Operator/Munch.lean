import Lexis.Operator
import Lexis.Reading
import Lexis.Token

/-!
# Maximal munch

The operator at the front of a text is found by growing a spelling one character at a time for as
long as the longer spelling is an operator too. Main statements: the text starts with the operator
that is found (`spelling_munch?`), and one is found exactly where the first character can start one,
so an operator is read there and never the fault without a character (`read_of_isStarter`).
-/

namespace Lexis.Operator

/-- Grows an operator by the characters that follow it. -/
def grow (op : Operator) : List Char → Operator
  | [] => op
  | c :: rest =>
    match ofSpelling? (op.spelling.push c) with
    | some longer => grow longer rest
    | none => op

/-- The operator that maximal munch finds at the front of a text. -/
def munch? : List Char → Option Operator
  | [] => none
  | c :: rest => (ofSpelling? (String.singleton c)).map fun op => op.grow rest

/-- Reads the operator at the front of the text `c :: rest`. Where the text starts with none, its first
character is unknown, and the fault takes up nothing. -/
def read (c : Char) (rest : List Char) : Reading Lexeme :=
  match munch? (c :: rest) with
  | some op => .found (.ofOperator op) op.spelling.length
  | none => .fault (.unknownCharacter c) 0

/-- A text that an operator grows over starts with what the operator grows by. -/
theorem spelling_grow (op : Operator) (text : List Char) :
    (op.grow text).spelling.toList <+: op.spelling.toList ++ text := by
  induction text generalizing op with
  | nil => simp [grow]
  | cons c rest ih =>
    unfold grow
    split
    · rename_i longer hlonger
      have hstart := ih longer
      rw [spelling_of_ofSpelling? hlonger] at hstart
      simpa using hstart
    · simp

/-- A text starts with the operator that is found at its front. -/
theorem spelling_munch? {text : List Char} {op : Operator} (h : munch? text = some op) :
    op.spelling.toList <+: text := by
  unfold munch? at h
  split at h
  · simp at h
  · rename_i c rest
    simp only [Option.map_eq_some_iff] at h
    obtain ⟨first, hfirst, rfl⟩ := h
    have hstart := spelling_grow first rest
    rw [spelling_of_ofSpelling? hfirst] at hstart
    simpa using hstart

/-- An operator stands at the front of a text exactly when its first character can start one. -/
theorem isSome_munch? (c : Char) (rest : List Char) :
    (munch? (c :: rest)).isSome = isStarter c := by
  rw [munch?, Option.isSome_map, isSome_ofSpelling?_singleton]

theorem munch?_eq_none {c : Char} (h : isStarter c = false) (rest : List Char) :
    munch? (c :: rest) = none := by
  rw [← Option.not_isSome_iff_eq_none, isSome_munch?, h]
  exact Bool.false_ne_true

/-- No operator has an empty spelling. -/
theorem one_le_length_spelling (op : Operator) : 1 ≤ op.spelling.length := by
  cases op <;> decide

theorem read_of_munch? {c : Char} {rest : List Char} {op : Operator}
    (h : munch? (c :: rest) = some op) :
    read c rest = .found (.ofOperator op) op.spelling.length := by
  rw [read, h]

/-- Where the first character can start an operator, one is read. -/
theorem read_of_isStarter {c : Char} (h : isStarter c = true) (rest : List Char) :
    ∃ op, munch? (c :: rest) = some op ∧
      read c rest = .found (.ofOperator op) op.spelling.length := by
  have hsome := isSome_munch? c rest
  rw [h] at hsome
  obtain ⟨op, hop⟩ := Option.isSome_iff_exists.1 hsome
  exact ⟨op, hop, read_of_munch? hop⟩

/-- An operator takes up at least one character. -/
theorem one_le_length_read {c : Char} (h : isStarter c = true) (rest : List Char) :
    1 ≤ (read c rest).length := by
  obtain ⟨op, -, hread⟩ := read_of_isStarter h rest
  rw [hread]
  exact one_le_length_spelling op

/-- An operator lies within the text. -/
theorem length_read_le (c : Char) (rest : List Char) : (read c rest).length ≤ rest.length + 1 := by
  unfold read
  split
  · rename_i op hop
    have hlen := (spelling_munch? hop).length_le
    rwa [String.length_toList] at hlen
  · exact Nat.zero_le _

end Lexis.Operator
