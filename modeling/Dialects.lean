import Dialects.Main
import Dialects.Proofs.Double.ReadBack
import Dialects.Proofs.Double.Numeral
import Dialects.Proofs.Json.Literal
import Dialects.Proofs.Scan
import Dialects.Proofs.Json.Grammar
import Dialects.Proofs.Json.Spelling
import Dialects.Proofs.Json.Accepted
import Dialects.Proofs.Json.Value
import Dialects.Proofs.Json.RoundTrip
import Dialects.Proofs.Expr.Climb
import Dialects.Proofs.Expr.Evaluate
import Dialects.Proofs.Markup.Value
import Dialects.Proofs.Markup.Scan
import Dialects.Proofs.Markup.Document
import Dialects.Proofs.Markup.Accepted
import Dialects.Proofs.Markup.Orthography
import Dialects.Proofs.Markup.Counting
import Dialects.Proofs.Markup.Spelling
import Dialects.Proofs.Markup.RoundTrip
import Dialects.Proofs.Markup.Grammar
import Dialects.Proofs.Markup.Joined
import Dialects.Proofs.Markup.Paths
import Dialects.Proofs.Markup.Siblings
import Dialects.Proofs.Expr.Chain
import Dialects.Proofs.Json.Number
import Dialects.Proofs.Json.Beginning
import Dialects.Proofs.Json.Refused
import Dialects.Proofs.Markup.Language
import Dialects.Proofs.Markup.Refused
import Dialects.Proofs.Markup.Unfit
import Dialects.Proofs.Expr.Scan
import Dialects.Proofs.Expr.Beginning
import Dialects.Proofs.Expr.Place
import Dialects.Proofs.Expr.Failing
import Dialects.Proofs.Expr.Refused
import Dialects.Proofs.Expr.Orthography
import Dialects.Proofs.Agree
import Dialects.Proofs.BlanksIgnored
import Dialects.Proofs.CommandLine.Reformat
import Dialects.Proofs.Cut
import Dialects.Proofs.Truncated
import Dialects.Proofs.Resumed
import Dialects.Proofs.FailurePlaces
import Dialects.Proofs.Expr.Termination
import Dialects.Proofs.Expr.Session
import Dialects.Proofs.Line
import Dialects.Proofs.Diagnostic
import Dialects.Proofs.Json.StringLiteral
import Dialects.Proofs.Expr.Fault
import Dialects.Proofs.Expr.Nesting
import Dialects.Proofs.Tiling
import Dialects.Proofs.Expr.Tiling
import Dialects.Proofs.Json.Tiling
import Dialects.Proofs.Markup.Bracketed
import Dialects.Proofs.Sliced
import Dialects.Proofs.Markup.Sliced
import Dialects.Proofs.Boundaries
import Dialects.Proofs.Markup.Added
import Dialects.Proofs.Markup.BareLeaf
import Dialects.Proofs.Expr.FirstEnd
import Dialects.Proofs.Double.Readable
import Dialects.Proofs.Numbers
import Dialects.Proofs.Expr.Reached
import Dialects.Proofs.Json.Repeated
import Dialects.Proofs.Json.Equality
import Dialects.Proofs.Json.Indented
import Dialects.Proofs.ByHand
