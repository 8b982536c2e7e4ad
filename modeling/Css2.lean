import Css2.Cascade.Resolve
import Css2.Cascade.UserAgent
import Css2.Cursor.Scan
import Css2.Decimal.Fixed
import Css2.Notice
import Css2.Options.Data
import Css2.Parser
import Css2.Proofs.Cascade.Competition
import Css2.Proofs.Cascade.Enumeration
import Css2.Proofs.Cascade.Grouping
import Css2.Proofs.Cascade.Growth
import Css2.Proofs.Cascade.Ignored
import Css2.Proofs.Cascade.LastWriter
import Css2.Proofs.Cascade.Order
import Css2.Proofs.Cascade.Settled
import Css2.Proofs.Cascade.Styles
import Css2.Proofs.Cascade.Winner
import Css2.Proofs.Cursor.Number
import Css2.Proofs.Cursor.Part
import Css2.Proofs.Cursor.ReadBack
import Css2.Proofs.Cursor.Scan
import Css2.Proofs.Cursor.Steps
import Css2.Proofs.Cursor.Tiles
import Css2.Proofs.Decimal.Bits
import Css2.Proofs.Decimal.Nearest
import Css2.Proofs.Decimal.Numeral
import Css2.Proofs.Decimal.ReadBack
import Css2.Proofs.Document.Growth
import Css2.Proofs.Document.Preorder
import Css2.Proofs.Document.Siblings
import Css2.Proofs.Document.Tree
import Css2.Proofs.Document.Walk
import Css2.Proofs.Grammar.Agreement
import Css2.Proofs.Grammar.Alone
import Css2.Proofs.Grammar.Confinement.Block
import Css2.Proofs.Grammar.Confinement.Statement
import Css2.Proofs.Grammar.Extension
import Css2.Proofs.Grammar.Skipping
import Css2.Proofs.Grammar.Stretch
import Css2.Proofs.Grammar.Trivia
import Css2.Proofs.Location.Table
import Css2.Proofs.Location.Tokens
import Css2.Proofs.Notice.Once
import Css2.Proofs.Reader.Brackets
import Css2.Proofs.Reader.Call
import Css2.Proofs.Reader.Core
import Css2.Proofs.Reader.Declaration
import Css2.Proofs.Reader.Depth
import Css2.Proofs.Reader.Loop
import Css2.Proofs.Reader.Neighbours
import Css2.Proofs.Reader.Outcome
import Css2.Proofs.Reader.Reads
import Css2.Proofs.Reader.Selector
import Css2.Proofs.Reader.Sheet
import Css2.Proofs.Reader.Signs
import Css2.Proofs.Reader.Statement
import Css2.Proofs.Reader.Termination
import Css2.Proofs.Reader.Trace
import Css2.Proofs.Reader.Value
import Css2.Proofs.Selector.Acceptance
import Css2.Proofs.Selector.ClassWord
import Css2.Proofs.Selector.Derivation
import Css2.Proofs.Selector.Frame
import Css2.Proofs.Selector.Origin
import Css2.Proofs.Selector.ReadBack
import Css2.Proofs.Selector.RoundTrip
import Css2.Proofs.Selector.Search
import Css2.Proofs.Selector.Weakening
import Css2.Proofs.Selector.Witness
import Css2.Proofs.Sheet.Account
import Css2.Proofs.Sheet.Appending
import Css2.Proofs.Sheet.Built
import Css2.Proofs.Sheet.Comments
import Css2.Proofs.Sheet.Depth
import Css2.Proofs.Sheet.Invariant
import Css2.Proofs.Sheet.Media
import Css2.Proofs.Sheet.Order
import Css2.Proofs.Sheet.Origin
import Css2.Proofs.Sheet.Places
import Css2.Proofs.Sheet.Prefix
import Css2.Proofs.Sheet.Protocol
import Css2.Proofs.Sheet.ReadBack
import Css2.Proofs.Sheet.RoundTrip
import Css2.Proofs.Sheet.Strict
import Css2.Proofs.Sheet.Trivia
import Css2.Proofs.Style.Border
import Css2.Proofs.Style.Fonts
import Css2.Proofs.Style.Footprint
import Css2.Proofs.Style.Inheritance
import Css2.Proofs.Style.Relative
import Css2.Proofs.Style.Shorthand
import Css2.Proofs.Style.Writing
import Css2.Proofs.Term.Origin
import Css2.Proofs.Term.ReadBack
import Css2.Proofs.Term.Signs
import Css2.Proofs.Token.Newlines
import Css2.Proofs.Token.PushBack
import Css2.Proofs.Token.ReadBack
import Css2.Proofs.Token.Replay
import Css2.Proofs.Token.Scanned
import Css2.Proofs.Token.Written
import Css2.Reader.Call
import Css2.Selector.Print
import Css2.Sheet.Print
import Css2.Style.Write
import Css2.Token.Stream
