import BlockScript.Command.Report
import BlockScript.Main
import BlockScript.Proofs.Walk
import BlockScript.Scope.Display
import BlockScript.Syntax.Build
import BlockScript.Proofs.Assignment
import BlockScript.Proofs.Evolution
import BlockScript.Proofs.Growth
import BlockScript.Proofs.Calls
import BlockScript.Proofs.Isolation
import BlockScript.Proofs.Target
import BlockScript.Proofs.Agreement
import BlockScript.Proofs.Traversal
import BlockScript.Proofs.Limit
import BlockScript.Proofs.Reports
import BlockScript.Proofs.History
import BlockScript.Proofs.Unfolding
import BlockScript.Proofs.Interference
import BlockScript.Proofs.Enclosure
import BlockScript.Proofs.Command
import BlockScript.Proofs.Footprint
import BlockScript.Proofs.Refusal
import BlockScript.Proofs.Comments
import BlockScript.Proofs.Observers
import BlockScript.Proofs.Balance
import BlockScript.Proofs.Reading
import BlockScript.Proofs.RoundTrip
import BlockScript.Proofs.Nearest
import BlockScript.Proofs.Remainder
import BlockScript.Proofs.Words
import BlockScript.Proofs.Spelling
import BlockScript.Proofs.Radix
import BlockScript.Proofs.Ordering
import BlockScript.Proofs.Padding
import BlockScript.Proofs.Visibility
import BlockScript.Proofs.Skeleton
import BlockScript.Proofs.Decoding
import BlockScript.Proofs.Loading
import BlockScript.Proofs.Printout
import BlockScript.Proofs.Dotted
import BlockScript.Proofs.Ancestry
import BlockScript.Proofs.Power
