import QueryDoc.Byte
import QueryDoc.Token
import QueryDoc.Error
import QueryDoc.Lexical
import QueryDoc.Grammar.React
import QueryDoc.Scanner
import QueryDoc.Content
import QueryDoc.Session.Job
import QueryDoc.Survey
import QueryDoc.Record.Codec
import QueryDoc.Proofs.Trace
import QueryDoc.Proofs.Syntax.Edge
import QueryDoc.Proofs.Syntax.Inversion
import QueryDoc.Proofs.Syntax.Steps
import QueryDoc.Proofs.Syntax.Form
import QueryDoc.Proofs.Syntax.Predict
import QueryDoc.Proofs.Acceptance
import QueryDoc.Proofs.Syntax.Completion
import QueryDoc.Proofs.Viable
import QueryDoc.Proofs.Text.Agree
import QueryDoc.Proofs.Syntax.Ground
import QueryDoc.Proofs.Locality
import QueryDoc.Proofs.Upcoming
import QueryDoc.Proofs.Cancellation
import QueryDoc.Proofs.Routine
import QueryDoc.Proofs.JobRoutine
import QueryDoc.Proofs.Delivery
import QueryDoc.Proofs.Composition
import QueryDoc.Proofs.Syntax.Piece
import QueryDoc.Proofs.Insertion
import QueryDoc.Proofs.Genuine
import QueryDoc.Proofs.Literal
import QueryDoc.Proofs.Nesting
import QueryDoc.Proofs.Rendering
import QueryDoc.Proofs.QuotedContent
import QueryDoc.Proofs.BlockContent
import QueryDoc.Proofs.Order
import QueryDoc.Proofs.Text.Utf8
import QueryDoc.Proofs.Syntax.Failure
import QueryDoc.Proofs.Truncation
import QueryDoc.Proofs.ValidContent
import QueryDoc.Proofs.Characters
import QueryDoc.Proofs.Isolation
import QueryDoc.Proofs.Chunking
import QueryDoc.Proofs.BlockMeaning
import QueryDoc.Proofs.QuotedMeaning
import QueryDoc.Proofs.Capacity
import QueryDoc.Proofs.ErrorShape
import QueryDoc.Proofs.ContentLength
import QueryDoc.Proofs.TokenCount
import QueryDoc.Proofs.PoolCount
import QueryDoc.Proofs.Message
import QueryDoc.Proofs.NumberEnd
import QueryDoc.Proofs.Progress
import QueryDoc.Proofs.Registers
import QueryDoc.Proofs.LineSpans
import QueryDoc.Proofs.EscapedFences
