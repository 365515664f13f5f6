import Heddle.Event

/-!
# Traces

A trace is a report before it is flattened: a sequence of notes and nodes, in which the inside of
a node is a trace again. Nesting is thus a matter of shape, and `Trace.events` is where the shape
turns into starts and stops.

An error says whether it ended a statement, behind which the reader skipped to the next one, or
only the placeholder of a text; the events make no difference between the two, the log does. A
trace can also hold faults, which are no events at all: a fault is a mistake of the reader, not of
the source, and a reading has none.

Traces are what all proofs about reports are about: a property of events that a recursion over the
flat list would have to rebuild the nesting for is a plain structural recursion here, and
`events_append` and `notes_append` carry it over.
-/

set_option autoImplicit false

namespace Heddle

/-- What an error put an end to. -/
inductive ErrorScope where
  | statement | placeholder
deriving DecidableEq, Repr

/-- A report that opens nothing. -/
inductive Note where
  | data (tag : DataTag) (text : String)
  | location (l : Location)
  | error (scope : ErrorScope) (d : Diagnostic)
  /-- A piece was asked for that is not there: from the byte `start` to the byte `stop`. -/
  | fault (start stop : Nat)
deriving DecidableEq, Repr

/-- The event of a note. A fault is none, so a trace with one would look flawless from outside;
`Checked.readDocument_without_fault` is what rules that out. -/
def Note.event? : Note → Option Event
  | .data tag text => some (.data tag text)
  | .location l => some (.location l)
  | .error _ d => some (.error d)
  | .fault .. => none

/-- Notes and nodes in their order. The sequence is written out as one inductive type rather than
as lists inside a node, so that a recursion over a whole trace has two plain hypotheses, one for
the inside and one for what follows. -/
inductive Trace where
  | nil
  | note (n : Note) (next : Trace)
  /-- A node, what was reported inside it, whether it belongs to its parent, and what follows. -/
  | node (kind : NodeKind) (inside : Trace) (committed : Bool) (next : Trace)
deriving DecidableEq, Repr

namespace Trace

def append : Trace → Trace → Trace
  | nil, u => u
  | note n next, u => note n (next.append u)
  | node kind inside committed next, u => node kind inside committed (next.append u)

instance : Append Trace := ⟨append⟩

def ofNote (n : Note) : Trace := note n nil

def ofData (tag : DataTag) (text : String) : Trace := ofNote (.data tag text)

def ofNode (kind : NodeKind) (inside : Trace) (committed : Bool) : Trace :=
  node kind inside committed nil

/-- The events of a trace: a node is its start, its inside, its stop, and its commit if it has
one. Builder and highlighter see no more than this. -/
def events : Trace → List Event
  | nil => []
  | note n next => n.event?.toList ++ next.events
  | node kind inside committed next =>
    .start kind :: inside.events ++ .stop kind :: (if committed then [.commit] else []) ++
      next.events

/-- All notes, those inside nodes included, in order. -/
def notes : Trace → List Note
  | nil => []
  | note n next => n :: next.notes
  | node _ inside _ next => inside.notes ++ next.notes

/-- The errors of a trace, each with its scope. The log needs the scope, since only errors that
ended a statement are recorded as recoveries. -/
def errors (t : Trace) : List (ErrorScope × Diagnostic) :=
  t.notes.filterMap fun
    | .error scope d => some (scope, d)
    | _ => none

@[simp] theorem nil_append (t : Trace) : nil ++ t = t := rfl

@[simp] theorem note_append (n : Note) (next t : Trace) :
    note n next ++ t = note n (next ++ t) := rfl

@[simp] theorem node_append (kind : NodeKind) (inside : Trace) (committed : Bool)
    (next t : Trace) :
    node kind inside committed next ++ t = node kind inside committed (next ++ t) := rfl

@[simp] theorem append_nil (t : Trace) : t ++ nil = t := by
  induction t with
  | nil => rfl
  | note n next ih => simp [ih]
  | node kind inside committed next _ ih => simp [ih]

theorem append_assoc (t u v : Trace) : t ++ u ++ v = t ++ (u ++ v) := by
  induction t with
  | nil => rfl
  | note n next ih => simp [ih]
  | node kind inside committed next _ ih => simp [ih]

@[simp] theorem events_append (t u : Trace) : (t ++ u).events = t.events ++ u.events := by
  induction t with
  | nil => rfl
  | note n next ih => simp [events, ih]
  | node kind inside committed next _ ih => simp [events, ih]

@[simp] theorem notes_append (t u : Trace) : (t ++ u).notes = t.notes ++ u.notes := by
  induction t with
  | nil => rfl
  | note n next ih => simp [notes, ih]
  | node kind inside committed next _ ih => simp [notes, ih]

end Trace

end Heddle
