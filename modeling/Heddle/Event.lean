import Heddle.NodeKind
import Heddle.DataTag
import Heddle.Diagnostic

/-!
# Events

A reading is reported as a flat sequence of events. A node is started, receives data and inner
nodes, and is stopped; a stopped node belongs to its parent only if a commit follows at once, and
is dropped otherwise. So the reader can back out of a construct without taking an event back.
-/

set_option autoImplicit false

namespace Heddle

/-- One step of a report. Data and extents belong to the innermost open node, without naming it;
what makes that meaningful is the protocol that `Proofs.Document.Protocol` proves. -/
inductive Event where
  | start (kind : NodeKind)
  /-- A piece of text in the innermost open node. -/
  | data (tag : DataTag) (text : String)
  /-- The extent of the innermost open node. -/
  | location (l : Location)
  | error (d : Diagnostic)
  /-- The end of the innermost open node. -/
  | stop (kind : NodeKind)
  /-- The node just stopped belongs to its parent. -/
  | commit
deriving DecidableEq, Repr

end Heddle
