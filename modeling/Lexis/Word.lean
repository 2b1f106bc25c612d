import Lexis.Literal.Quoted
import Lexis.Token

/-!
# Words

A word is an ASCII letter followed by ASCII letters, digits and underscores. It is a keyword or an
identifier by itself and an atom after a number sign. Between backticks any text of one line is an
identifier. The number sign also opens a verbatim string.
-/

namespace Lexis.Word

open Text

/-- The characters of a word after its first. -/
def isPart (c : Char) : Bool := c.isAlphanum || c == '_'

/-- The longest run of word characters at the front of a text. -/
def run (text : List Char) : List Char := text.takeWhile isPart

/-- A word that is reserved is a keyword, any other word an identifier. -/
def classify (word : List Char) : Lexeme :=
  match Keyword.ofSpelling? (String.ofList word) with
  | some keyword => .ofKeyword keyword
  | none => .ofValue .ident word

/-- Reads a keyword or an identifier. -/
def read (text : List Char) : Reading Lexeme :=
  .found (classify (run text)) (run text).length

/-- Reads what a number sign right before the text opens: a verbatim string where a quote follows,
an atom where a letter follows. The length counts the number sign. -/
def readMarked (text : List Char) : Reading Lexeme :=
  match text with
  | [] => .fault .invalidAtomStart 1
  | c :: rest =>
    if Quoted.isQuote c then ((Quoted.readRaw c rest).map (.ofValue .string)).shift 2
    else if c.isAlpha then .found (.ofValue .atom (run text)) (1 + (run text).length)
    else .fault .invalidAtomStart 1

/-- Reads the identifier that a backtick right before the text opens. The length counts that
backtick, and the closing one where there is one. -/
def readExtended (text : List Char) : Reading Lexeme :=
  let word := text.takeWhile fun c => c != '\x60' && !isLineEnd c
  match text.drop word.length with
  | [] => .fault (.unterminatedExtendedIdentifier .fileEnd) (1 + word.length)
  | c :: _ =>
    if c = '\x60' then .found (.ofValue .ident word) (1 + word.length + 1)
    else .fault (.unterminatedExtendedIdentifier .lineEnd) (1 + word.length)

/-- A word takes up at least the letter that it starts with. -/
theorem one_le_length_read {c : Char} (rest : List Char) (h : c.isAlpha) :
    1 ≤ (read (c :: rest)).length := by
  have hpart : isPart c = true := by simp [isPart, Char.isAlphanum, h]
  simp [read, run, hpart]

/-- What a number sign opens takes up at least that sign. -/
theorem one_le_length_readMarked (text : List Char) : 1 ≤ (readMarked text).length := by
  unfold readMarked
  split
  · exact Nat.le_refl 1
  · split
    · simp only [Reading.length_shift]
      omega
    · split
      · simp only [Reading.length_found]
        omega
      · exact Nat.le_refl 1

/-- What a backtick opens takes up at least that backtick. -/
theorem one_le_length_readExtended (text : List Char) : 1 ≤ (readExtended text).length := by
  unfold readExtended
  dsimp only
  split
  · simp only [Reading.length_fault]
    omega
  · split
    · simp only [Reading.length_found]
      omega
    · simp only [Reading.length_fault]
      omega

/-- A run of word characters lies within the text. -/
theorem length_run_le (text : List Char) : (run text).length ≤ text.length :=
  (List.takeWhile_sublist _).length_le

/-- What a number sign opens lies within the sign and the text. -/
theorem length_readMarked_le (text : List Char) :
    (readMarked text).length ≤ text.length + 1 := by
  unfold readMarked
  split
  · exact Nat.le_refl 1
  · rename_i c rest
    split
    · have hlen := Quoted.length_readRaw_le c rest
      rw [Reading.length_shift, Reading.length_map, List.length_cons]
      omega
    · split
      · have hlen := length_run_le (c :: rest)
        rw [Reading.length_found]
        omega
      · simp

/-- What a backtick opens lies within the backtick and the text. -/
theorem length_readExtended_le (text : List Char) :
    (readExtended text).length ≤ text.length + 1 := by
  have hrun :=
    (List.takeWhile_sublist (fun c => c != '\x60' && !isLineEnd c) (l := text)).length_le
  unfold readExtended
  dsimp only
  split
  · rw [Reading.length_fault]
    omega
  · rename_i c rest hrest
    have hlen := congrArg List.length hrest
    rw [List.length_drop, List.length_cons] at hlen
    split
    · rw [Reading.length_found]
      omega
    · rw [Reading.length_fault]
      omega

end Lexis.Word
