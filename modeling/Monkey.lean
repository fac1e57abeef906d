import Monkey.Main
import Monkey.Proofs.Parsing.Precedence
import Monkey.Proofs.Rendering.RoundTrip
import Monkey.Proofs.Rendering.Unambiguous
import Monkey.Proofs.Parsing.Answers
import Monkey.Proofs.Parsing.Blame
import Monkey.Proofs.Running.Errors
import Monkey.Proofs.Running.Returns
import Monkey.Proofs.Running.Structured
import Monkey.Proofs.Lexing.Lossless
import Monkey.Proofs.Lexing.Longest
import Monkey.Proofs.Lexing.Gaps
import Monkey.Proofs.Parsing.WellFormed
import Monkey.Proofs.Running.Effect
import Monkey.Proofs.Running.Reachable
import Monkey.Proofs.Running.Scopes
import Monkey.Proofs.Running.Code
import Monkey.Proofs.Running.Depth
import Monkey.Proofs.Running.Safety
import Monkey.Proofs.Running.Arithmetic
import Monkey.Proofs.Parsing.Sieve
import Monkey.Proofs.Parsing.Words
import Monkey.Proofs.Parsing.Conservation
import Monkey.Proofs.Talking.Idle
import Monkey.Proofs.Talking.Refinement
import Monkey.Proofs.Talking.Origin
import Monkey.Proofs.Talking.Lines
import Monkey.Proofs.Talking.Numbering
import Monkey.Proofs.Running.SideBySide
import Monkey.Proofs.Running.Bounds
import Monkey.Proofs.Running.Realms
import Monkey.Proofs.Running.Renaming
import Monkey.Proofs.Running.Repeating
import Monkey.Proofs.Rendering.Ink
import Monkey.Proofs.Running.Twins
import Monkey.Proofs.Talking.Location
import Monkey.Proofs.Talking.Excerpts
import Monkey.Proofs.Talking.Headers
import Monkey.Proofs.Parsing.Respacing
import Monkey.Proofs.Parsing.Joining
import Monkey.Proofs.Running.Wrapping
import Monkey.Proofs.Running.Narrow
import Monkey.Proofs.Running.Rounding
import Monkey.Proofs.Running.Tables
import Monkey.Proofs.Running.Reserved
import Monkey.Proofs.Running.Warnings
import Monkey.Proofs.Talking.Queue
import Monkey.Proofs.Talking.Upshot
import Monkey.Proofs.Talking.Blanks
import Monkey.Proofs.Talking.Typing
import Monkey.Proofs.Running.Readback
import Monkey.Proofs.Talking.Verbatim
import Monkey.Proofs.Parsing.Ordering
import Monkey.Proofs.Parsing.Recursion
import Monkey.Proofs.Running.Chains
import Monkey.Proofs.Lexing.Seams
