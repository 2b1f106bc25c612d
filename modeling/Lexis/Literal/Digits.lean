/-!
# Runs of digits

Digits of an integer may be separated by underscores, which are dropped from its text.
-/

namespace Lexis.Digits

/-- The longest run of digits and separators at the front of a text. -/
def run (isDigit : Char → Bool) (text : List Char) : List Char :=
  text.takeWhile fun c => isDigit c || c == '_'

/-- The digits of a run, without the separators. -/
def ofRun (digits : List Char) : List Char := digits.filter (· != '_')

/-- A run of digits lies within the text. -/
theorem length_run_le (isDigit : Char → Bool) (text : List Char) :
    (run isDigit text).length ≤ text.length :=
  (List.takeWhile_sublist _).length_le

end Lexis.Digits
