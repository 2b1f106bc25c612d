import Lexis.Options

/-!
# Messages tell the error

The messages about the tab size and about the arguments start differently for each kind of error, and they hold the
whole text that was rejected. So two errors with one message are the same. Main statement: `OptionError.message_inj`.
-/

namespace Lexis

/-- The beginning of a text stays where another text is put behind it. -/
theorem take_toList_append {front : String} {n : Nat} (h : n ≤ front.toList.length) (rest : String) :
    (front ++ rest).toList.take n = front.toList.take n := by
  rw [String.toList_append, List.take_append_of_le_length h]

/-- What stands between two fixed texts is told by the whole. -/
theorem append_inner_inj {front back text other : String} (h : front ++ text ++ back = front ++ other ++ back) :
    text = other := by
  rwa [String.append_left_inj, String.append_right_inj] at h

namespace ConfigError

theorem message_invalidTabSize (value : String) :
    (invalidTabSize value).message = "invalid indentation tab size \x60" ++ value ++ "\x60" := rfl

theorem take_message_invalidTabSize (value : String) :
    (invalidTabSize value).message.toList.take 3 = ['i', 'n', 'v'] := by
  rw [message_invalidTabSize, String.append_assoc, take_toList_append (by decide)]
  rfl

theorem message_inj {error other : ConfigError} (h : error.message = other.message) : error = other := by
  cases error with
  | zeroTabSize =>
    cases other with
    | zeroTabSize => rfl
    | invalidTabSize value =>
      have hfront := take_message_invalidTabSize value
      rw [← h] at hfront
      cases hfront
  | invalidTabSize value =>
    cases other with
    | zeroTabSize =>
      have hfront := take_message_invalidTabSize value
      rw [h] at hfront
      cases hfront
    | invalidTabSize another =>
      rw [message_invalidTabSize, message_invalidTabSize] at h
      rw [append_inner_inj h]

end ConfigError

namespace OptionError

theorem message_tabSize (error : ConfigError) :
    (tabSize error).message = "--tab-size: " ++ error.message := rfl

theorem message_unknownOption (argument : String) :
    (unknownOption argument).message = "unknown option '" ++ argument ++ "'" := rfl

theorem message_unexpectedArgument (argument : String) :
    (unexpectedArgument argument).message = "unexpected argument '" ++ argument ++ "'" := rfl

/-- How the message of each kind of error starts. -/
def front : OptionError → List Char
  | tabSize _ => ['-', '-', 't']
  | unknownOption _ => ['u', 'n', 'k']
  | unexpectedArgument _ => ['u', 'n', 'e']
  | missingPath => ['m', 'i', 's']

theorem take_message (error : OptionError) : error.message.toList.take 3 = error.front := by
  cases error with
  | tabSize error =>
    rw [message_tabSize, take_toList_append (by decide)]
    rfl
  | unknownOption argument =>
    rw [message_unknownOption, String.append_assoc, take_toList_append (by decide)]
    rfl
  | unexpectedArgument argument =>
    rw [message_unexpectedArgument, String.append_assoc, take_toList_append (by decide)]
    rfl
  | missingPath => rfl

/-- Different errors have different messages. -/
theorem message_inj {error other : OptionError} (h : error.message = other.message) : error = other := by
  have hfront : error.front = other.front := by
    rw [← take_message, h, take_message]
  cases error with
  | tabSize inner =>
    cases other with
    | tabSize another =>
      rw [message_tabSize, message_tabSize, String.append_right_inj] at h
      rw [ConfigError.message_inj h]
    | _ => cases hfront
  | unknownOption argument =>
    cases other with
    | unknownOption another =>
      rw [message_unknownOption, message_unknownOption] at h
      rw [append_inner_inj h]
    | _ => cases hfront
  | unexpectedArgument argument =>
    cases other with
    | unexpectedArgument another =>
      rw [message_unexpectedArgument, message_unexpectedArgument] at h
      rw [append_inner_inj h]
    | _ => cases hfront
  | missingPath =>
    cases other with
    | missingPath => rfl
    | _ => cases hfront

end OptionError

end Lexis
