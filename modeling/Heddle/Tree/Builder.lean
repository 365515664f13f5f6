import Heddle.Tree
import Heddle.Event
import Heddle.Reading

/-!
# Building trees from events

A builder keeps the open nodes, innermost first, and at most one node that was stopped and waits
for its commit. It accepts events in any order: one that does not fit is ignored with a warning,
or taken as well as possible.

The events of a reading always fit, which `Proofs.Document.Protocol` proves, so warnings are only
for other callers; `Proofs.Tree.Building` says what a builder makes of any properly nested
sequence.
-/

set_option autoImplicit false

namespace Heddle

/-- The state of a tree that is being built. There is no way back to an earlier state: a node that
is not committed is dropped by the next start or stop, and everything inside it with it. -/
structure Builder where
  /-- The open nodes, innermost first. -/
  stack : List Node := []
  /-- The node stopped last, until it is committed or dropped. -/
  pending : Option Node := none
  root : Option Node := none
  errors : List Diagnostic := []
deriving DecidableEq, Repr

/-- An event that does not fit. -/
inductive Warning where
  | stopWithoutOpen (kind : NodeKind)
  | stopOfAnother (kind opened : NodeKind)
  | commitWithoutPending
deriving DecidableEq, Repr

def Warning.message : Warning → String
  | .stopWithoutOpen kind => "node_end(" ++ kind.name ++ ") with no open node"
  | .stopOfAnother kind opened => "node_end(" ++ kind.name ++ ") closes an open " ++ opened.name
  | .commitWithoutPending => "node_commit with no pending node"

namespace Builder

def depth (b : Builder) : Nat := b.stack.length

/-- Changes the innermost open node, if there is one. -/
def onInnermost (b : Builder) (change : Node → Node) : Builder :=
  match b.stack with
  | n :: outer => { b with stack := change n :: outer }
  | [] => b

/-- Takes one event. Data and extents outside of every node are dropped without a warning, a stop
closes the innermost node whatever its kind, and a commit puts the node that was just stopped into
its parent, or makes it the root. -/
def step (b : Builder) : Event → Builder × Option Warning
  | .start kind => ({ b with stack := .opened kind :: b.stack, pending := none }, none)
  | .data tag text => (b.onInnermost (·.withChild (.ofData tag text)), none)
  | .location l => (b.onInnermost ({ · with location := some l }), none)
  | .error d => ({ b with errors := b.errors ++ [d] }, none)
  | .stop kind =>
    match b.stack with
    | [] => (b, some (.stopWithoutOpen kind))
    | n :: outer =>
      ({ b with stack := outer, pending := some n },
        if n.kind = kind then none else some (.stopOfAnother kind n.kind))
  | .commit =>
    match b.pending with
    | none => (b, some .commitWithoutPending)
    | some n =>
      let b := { b with pending := none }
      match b.stack with
      | [] => ({ b with root := some n }, none)
      | _ :: _ => (b.onInnermost (·.withChild (.ofNode n)), none)

/-- Takes events one after the other and collects the warnings. -/
def feed (b : Builder) : List Event → Builder × List Warning
  | [] => (b, [])
  | e :: es =>
    let (b, warning) := b.step e
    let (b, warnings) := b.feed es
    (b, warning.toList ++ warnings)

end Builder

/-- A finished tree with what was wrong with its source. -/
structure Parsed where
  root : Option Node
  errors : List Diagnostic
deriving DecidableEq, Repr

/-- Why there is no flawless tree. -/
inductive Rejection where
  /-- The source has errors: the first one and the others. -/
  | errors (first : Diagnostic) (others : List Diagnostic)
  /-- No document was ever committed. -/
  | empty
deriving DecidableEq, Repr

def Rejection.message : Rejection → String
  | .errors first others =>
    first.render ++ " (" ++ toString (others.length + 1) ++ " error(s))"
  | .empty => "no document was produced"

/-- The tree as it stands. -/
def Builder.finish (b : Builder) : Parsed := ⟨b.root, b.errors⟩

namespace Parsed

/-- Whether there is a tree and nothing was wrong. -/
def isOk (p : Parsed) : Bool := p.root.isSome && p.errors.isEmpty

/-- The tree of a flawless source. -/
def result (p : Parsed) : Except Rejection Node :=
  match p.errors, p.root with
  | first :: others, _ => .error (.errors first others)
  | [], some n => .ok n
  | [], none => .error .empty

/-- The tree of a source: a fresh builder fed with the events of one reading. Every claim about
trees is about this function. -/
def ofSource (o : Options) (source : String) : Parsed :=
  (({} : Builder).feed (readDocument o source).events).1.finish

end Parsed

end Heddle
