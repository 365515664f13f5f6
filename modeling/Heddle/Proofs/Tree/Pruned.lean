import Heddle.Tree.Builder
import Heddle.Proofs.Document.Text

/-!
# What the builder keeps of a trace

The builder sees events and not the trace they come from, and it looks at each of them without
knowing what follows. What comes out of it can all the same be said by recursion over the trace:
the tree is the trace without the nodes that were given up (`Trace.forest`), and the extent of a
node is the last one that was reported in it.

**Feeding the events of a trace into a builder with an open node adds the forest of the trace to
that node** and touches nothing else of the stack (`feed_events`). The node that waits for its
commit is not part of this statement: a trace commits a node at once or never, so what waits behind
a trace is nothing that the next event looks at.
-/

set_option autoImplicit false

namespace Heddle

namespace Trace

/-- The extent reported here, and not inside a node: the last one, if there are several. What is
further behind in the trace comes first in the `or`. -/
def location? : Trace → Option Location
  | nil => none
  | note (.location l) next => next.location?.or (some l)
  | note _ next => next.location?
  | node _ _ _ next => next.location?

/-- What belongs to the tree. A node that was given up is left out with all that is inside. -/
def forest : Trace → Forest
  | nil => .nil
  | note (.data tag text) next => .data tag text next.forest
  | note _ next => next.forest
  | node kind inside committed next =>
    if committed then .node kind inside.location? inside.forest next.forest else next.forest

/-- The errors, wherever they were reported: also those in nodes that were given up. -/
def diagnostics (t : Trace) : List Diagnostic := t.errors.map (·.2)

@[simp] theorem location?_append (t : Trace) (l : Location) :
    (t ++ ofNote (.location l)).location? = some l := by
  induction t with
  | nil => rfl
  | note n next ih =>
    cases n with
    | location l' => rw [note_append, location?, ih]; rfl
    | _ => exact ih
  | node kind inside committed next _ ih => exact ih

@[simp] theorem forest_location (l : Location) : (ofNote (.location l)).forest = .nil := rfl

@[simp] theorem diagnostics_location (l : Location) : (ofNote (.location l)).diagnostics = [] := rfl

@[simp] theorem diagnostics_nil : nil.diagnostics = [] := rfl

@[simp] theorem diagnostics_ofData (tag : DataTag) (text : String) :
    (ofData tag text).diagnostics = [] := rfl

@[simp] theorem diagnostics_error (scope : ErrorScope) (d : Diagnostic) :
    (ofNote (.error scope d)).diagnostics = [d] := rfl

@[simp] theorem diagnostics_ofNode (kind : NodeKind) (inside : Trace) (committed : Bool) :
    (ofNode kind inside committed).diagnostics = inside.diagnostics := by
  simp [diagnostics, errors, ofNode, notes]

@[simp] theorem forest_append (t u : Trace) : (t ++ u).forest = t.forest ++ u.forest := by
  induction t with
  | nil => rfl
  | note n next ih =>
    cases n with
    | data tag text => rw [note_append, forest, forest, ih]; rfl
    | _ => exact ih
  | node kind inside committed next _ ih =>
    rw [node_append, forest, forest, ih]
    split
    · rfl
    · rfl

@[simp] theorem diagnostics_append (t u : Trace) :
    (t ++ u).diagnostics = t.diagnostics ++ u.diagnostics := by
  simp [diagnostics, errors]

end Trace

/-- The node with all that a trace reports behind what it has. An extent that the trace does not
report is left as it was. -/
def Node.absorb (n : Node) (t : Trace) : Node :=
  ⟨n.kind, t.location?.or n.location, n.children ++ t.forest⟩

namespace Builder

theorem feed_cons (b : Builder) (e : Event) (es : List Event) :
    (b.feed (e :: es)).1 = ((b.step e).1.feed es).1 := rfl

/-- Feeding goes on with what the first events have made. -/
theorem feed_append (b : Builder) (es fs : List Event) :
    (b.feed (es ++ fs)).1 = ((b.feed es).1.feed fs).1 := by
  induction es generalizing b with
  | nil => rfl
  | cons e es ih => rw [List.cons_append, feed_cons, feed_cons, ih]

/-- The events of a trace, taken while a node is open. The induction is on the trace, with the
builder left open: inside a node the node itself is on top of the stack, and behind its stop what
waits is that node. -/
theorem feed_events (t : Trace) (b : Builder) {n : Node} {outer : List Node}
    (hs : b.stack = n :: outer) :
    ∃ pending, (b.feed t.events).1 =
      ⟨n.absorb t :: outer, pending, b.root, b.errors ++ t.diagnostics⟩ := by
  induction t generalizing b n outer with
  | nil =>
    obtain ⟨stack, pending, root, errors⟩ := b
    obtain rfl : stack = n :: outer := hs
    refine ⟨pending, ?_⟩
    simp [Trace.events, feed, Node.absorb, Trace.forest, Trace.location?, Trace.diagnostics,
      Trace.errors, Trace.notes]
  | note note next ih =>
    cases note with
    | data tag text =>
      have hopen : (b.step (.data tag text)).1.stack = n.withChild (.ofData tag text) :: outer := by
        simp [step, onInnermost, hs]
      obtain ⟨pending, h⟩ := ih _ hopen
      refine ⟨pending, h.trans ?_⟩
      simp [step, onInnermost, hs, Node.absorb, Node.withChild, Forest.append_assoc, Trace.forest,
        Trace.location?, Trace.diagnostics, Trace.errors, Trace.notes, Forest.ofData]
    | location l =>
      have hopen : (b.step (.location l)).1.stack = { n with location := some l } :: outer := by
        simp [step, onInnermost, hs]
      obtain ⟨pending, h⟩ := ih _ hopen
      refine ⟨pending, h.trans ?_⟩
      simp [step, onInnermost, hs, Node.absorb, Trace.forest, Trace.location?, Trace.diagnostics,
        Trace.errors, Trace.notes]
    | error scope d =>
      have hopen : (b.step (.error d)).1.stack = n :: outer := hs
      obtain ⟨pending, h⟩ := ih _ hopen
      refine ⟨pending, h.trans ?_⟩
      simp [step, Node.absorb, Trace.forest, Trace.location?, Trace.diagnostics, Trace.errors,
        Trace.notes]
    | fault start stop => exact ih b hs
  | node kind inside committed next ihi ihn =>
    have hopen : (b.step (.start kind)).1.stack = .opened kind :: n :: outer := by
      simp [step, hs]
    obtain ⟨pending, hi⟩ := ihi _ hopen
    -- Inside, the node begins empty, so it becomes what the trace inside reports.
    have hin : (Node.opened kind).absorb inside = ⟨kind, inside.location?, inside.forest⟩ := by
      simp [Node.absorb, Node.opened]
    have hevents : (Trace.node kind inside committed next).events =
        .start kind :: (inside.events ++ (.stop kind ::
          ((if committed then [.commit] else []) ++ next.events))) := by
      simp [Trace.events]
    rw [hevents, feed_cons, feed_append, hi, hin, feed_cons]
    cases committed with
    -- The commit puts the node into `n`. A node that is not committed stays in the slot, where
    -- nothing looks for it.
    | true =>
      have hnext := ihn ⟨n.withChild (.ofNode ⟨kind, inside.location?, inside.forest⟩) :: outer,
        none, b.root, b.errors ++ inside.diagnostics⟩ rfl
      obtain ⟨pending, h⟩ := hnext
      refine ⟨pending, h.trans ?_⟩
      simp [Node.absorb, Node.withChild, Forest.append_assoc, Trace.forest, Trace.location?,
        Trace.diagnostics, Trace.errors, Trace.notes, Forest.ofNode]
    | false =>
      have hnext := ihn ⟨n :: outer, some ⟨kind, inside.location?, inside.forest⟩,
        b.root, b.errors ++ inside.diagnostics⟩ rfl
      obtain ⟨pending, h⟩ := hnext
      refine ⟨pending, h.trans ?_⟩
      simp [Node.absorb, Trace.forest, Trace.location?, Trace.diagnostics, Trace.errors,
        Trace.notes]

end Builder

/-! ## Whole sources -/

/-- A report as one node: what the statements report, and the extent of the whole source. So
statements about traces are about documents. -/
theorem readDocument_node (o : Options) (source : String) :
    readDocument o source = .ofNode .document
      ((readStatements o source).trace ++ .ofNote (.location
        ((readStatements o source).tape.extent o.file (openSource source).1))) true := by
  have hf : (readStatements o source).failure = none :=
    Attempt.failure_statements o.file false _ _ _
  rw [readDocument_eq, Attempt.framed, hf]

/-- The builder behind the events of a source: nothing is open any more, and the document is the
root. -/
theorem Builder.feed_readDocument (o : Options) (source : String) :
    (({} : Builder).feed (readDocument o source).events).1 =
      { root := some ⟨.document,
          some ((readStatements o source).tape.extent o.file (openSource source).1),
          (readStatements o source).trace.forest⟩,
        errors := (readStatements o source).trace.diagnostics } := by
  rw [readDocument_node]
  generalize (readStatements o source).tape.extent o.file (openSource source).1 = l
  generalize (readStatements o source).trace = t
  have hevents : (Trace.ofNode .document (t ++ .ofNote (.location l)) true).events =
      .start .document :: ((t ++ .ofNote (.location l)).events ++ [.stop .document, .commit]) := by
    simp [Trace.ofNode, Trace.events]
  have hopen : (({} : Builder).step (.start .document)).1.stack = [.opened .document] := rfl
  obtain ⟨pending, h⟩ := Builder.feed_events (t ++ .ofNote (.location l)) _ hopen
  rw [hevents, Builder.feed_cons, Builder.feed_append, h]
  simp [Builder.feed, Builder.step, Node.absorb, Node.opened]

/-- **The tree of a source is never missing**: it is the report of the source without what was
given up. Statements about trees begin here, and the builder is not opened again. -/
theorem Parsed.ofSource_eq (o : Options) (source : String) :
    Parsed.ofSource o source =
      ⟨some ⟨.document,
          some ((readStatements o source).tape.extent o.file (openSource source).1),
          (readStatements o source).trace.forest⟩,
        (readStatements o source).trace.diagnostics⟩ := by
  rw [Parsed.ofSource, Builder.feed_readDocument]
  rfl

end Heddle
