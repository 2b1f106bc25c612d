import Lexis.Token

/-!
# Listings

The printed form of the tokens of a file: a heading with their number, then one indented line for each
token.
-/

namespace Lexis.Listing

/-- The line of a token. -/
def line (token : Token) : String := s!"  {token}\n"

/-- The heading over the tokens of a file. -/
def heading (path : String) (count : Nat) : String :=
  s!"Tokens for '{path}' ({count} tokens):\n"

/-- The listing of the tokens of a file. -/
def render (path : String) (tokens : List Token) : String :=
  heading path tokens.length ++ String.join (tokens.map line)

end Lexis.Listing
