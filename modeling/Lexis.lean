import Lexis.Main
import Lexis.Proofs.Alone
import Lexis.Proofs.Arguments
import Lexis.Proofs.Calls
import Lexis.Proofs.Comments
import Lexis.Proofs.Decimals.Extent
import Lexis.Proofs.Escape.Progress
import Lexis.Proofs.Escape.Unicode
import Lexis.Proofs.Extension
import Lexis.Proofs.LineBreak
import Lexis.Proofs.LineEnds.Source
import Lexis.Proofs.Listings
import Lexis.Proofs.Operators
import Lexis.Proofs.Places
import Lexis.Proofs.Radixes
import Lexis.Proofs.Reliance
import Lexis.Proofs.Rendering
import Lexis.Proofs.Segments
import Lexis.Proofs.Strings.Blocks
import Lexis.Proofs.Strings.Encoding
import Lexis.Proofs.TextAlone
import Lexis.Proofs.Transparency
import Lexis.Proofs.Verbatim
import Lexis.Proofs.Written.Source
import Lexis.Proofs.Commands
