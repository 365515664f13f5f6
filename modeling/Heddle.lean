import Heddle.Text.Padding
import Heddle.Text.Quoted
import Heddle.Text.Markup
import Heddle.NodeKind
import Heddle.DataTag
import Heddle.Diagnostic
import Heddle.Cursor
import Heddle.Trace
import Heddle.Failure
import Heddle.Grammar.Lookahead
import Heddle.Grammar.Rules
import Heddle.Reading
import Heddle.Log
import Heddle.Main
import Heddle.Proofs.Document.Text
import Heddle.Proofs.Document.Protocol
import Heddle.Proofs.Document.Blocks
import Heddle.Proofs.Document.Composition
import Heddle.Proofs.Document.Locations
import Heddle.Proofs.Document.Derivation
import Heddle.Proofs.Document.Isolation
import Heddle.Proofs.Document.SelectorCalls
import Heddle.Proofs.Grammar.Groups
import Heddle.Proofs.Reading.Enclosed
import Heddle.Proofs.Reading.Selectors
import Heddle.Proofs.Reading.Values
import Heddle.Proofs.Reading.Expressions
import Heddle.Proofs.Token.Leading
import Heddle.Proofs.Tree.Unplaced
import Heddle.Proofs.Reading.Printed
import Heddle.Proofs.Grammar.Printed
import Heddle.Proofs.Printed.Types
import Heddle.Proofs.Printed.Expressions
import Heddle.Proofs.Document.Assignments
import Heddle.Proofs.Printed.Rules
import Heddle.Proofs.Document.Whole
import Heddle.Proofs.Document.SpacedCalls
import Heddle.Proofs.Document.Trivia
import Heddle.Proofs.Cursor.Draining
import Heddle.Proofs.Cursor.Marker
import Heddle.Proofs.Document.Nesting
import Heddle.Proofs.Checked.Document
import Heddle.Proofs.Document.Highlight
import Heddle.Proofs.Tree.Opened
import Heddle.Proofs.Reading.Plain
import Heddle.Proofs.Reading.Nested
import Heddle.Proofs.Document.Depth
import Heddle.Proofs.Reading.Accounted
import Heddle.Proofs.Grammar.SilentFailures
import Heddle.Proofs.Reading.Slot
import Heddle.Proofs.Document.Failures
import Heddle.Proofs.Reading.Runs
import Heddle.Proofs.Document.Termination
import Heddle.Proofs.Document.Interpolation
import Heddle.Proofs.Token.Kinds
import Heddle.Proofs.Checked.Sessions
import Heddle.Proofs.Token.Clipped
import Heddle.Proofs.Token.Lines
import Heddle.Proofs.Cursor.Limits
import Heddle.Proofs.Cursor.Reads
import Heddle.Proofs.Cursor.Driving
import Heddle.Proofs.Reading.Joints
import Heddle.Proofs.Document.Combinators
import Heddle.Proofs.Document.Modes
import Heddle.Proofs.Document.Diagnostics
import Heddle.Proofs.Document.Colors
import Heddle.Proofs.Document.Pointers
import Heddle.Proofs.Tree.Dump
import Heddle.Proofs.Document.Reuse
import Heddle.Proofs.Reading.Exhausted
import Heddle.Proofs.Document.Parentheses
import Heddle.Proofs.Command.Files
