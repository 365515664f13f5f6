import Heddle.Proofs.Tree.Opened

/-!
# What a builder makes of a node

The builder has one stack for the open nodes and one slot for the node that waits for its commit.
Around the events of a node neither matters: what comes in is on top of the stack, and nothing looks
at the slot but a commit, which has a stop directly in front of it. So **the events of a node do to
any builder just one thing**, to put the finished node where it belongs (`feed_ofNode`), and they
all fit.

That events are those of a trace can be told of the flat sequence: starts and stops nest with equal
kinds (`Event.nests`), and every commit stands behind a stop (`Event.commitsStops`). Reading such a
sequence from its end, what has been read is always a trace, and behind it the rests of the nodes
that are still to be started (`Event.exists_trace_frames`). The tree of the sequence is then said by
recursion over the trace (`Trace.forest`), and its text by what stands around each piece of data
(`Trace.pieces`).
-/

set_option autoImplicit false

namespace Heddle

/-! ## Feeding a node -/

namespace Builder

/-- A start puts an empty node on top of the stack. -/
theorem feed_start (b : Builder) (kind : NodeKind) (es : List Event) :
    b.feed (.start kind :: es) =
      (Builder.mk (.opened kind :: b.stack) none b.root b.errors).feed es := rfl

theorem warnings_append (b : Builder) (es fs : List Event) :
    (b.feed (es ++ fs)).2 = (b.feed es).2 ++ ((b.feed es).1.feed fs).2 := by
  induction es generalizing b with
  | nil => rfl
  | cons e es ih =>
    show (b.step e).2.toList ++ ((b.step e).1.feed (es ++ fs)).2 = _
    rw [ih, ← List.append_assoc]
    rfl

/-- A node that is stopped is put into the node around it if a commit follows, or becomes the
root, and waits otherwise. -/
theorem feed_stop {n : Node} {kind : NodeKind} (hk : n.kind = kind) {outer : List Node}
    {pending root : Option Node} {errors : List Diagnostic} (committed : Bool) :
    (Builder.mk (n :: outer) pending root errors).feed
        (.stop kind :: if committed then [.commit] else []) =
      (if committed then
        ⟨outer.modifyHead (·.withChild (.ofNode n)), none,
          if outer.isEmpty then some n else root, errors⟩
      else ⟨outer, some n, root, errors⟩, []) := by
  cases committed with
  | false => simp [feed, step, hk]
  | true => cases outer <;> simp [feed, step, onInnermost, hk]

/-- The events of a trace all fit while a node is open. It is needed that one is, since data
outside of all nodes does not fit. -/
theorem warnings_events (t : Trace) (b : Builder) {n : Node} {outer : List Node}
    (hs : b.stack = n :: outer) : (b.feed t.events).2 = [] := by
  induction t generalizing b n outer with
  | nil => rfl
  | note note next ih =>
    cases note with
    | data tag text =>
      have hopen : (b.step (.data tag text)).1.stack = n.withChild (.ofData tag text) :: outer := by
        simp [step, onInnermost, hs]
      exact ih _ hopen
    | location l =>
      have hopen : (b.step (.location l)).1.stack = { n with location := some l } :: outer := by
        simp [step, onInnermost, hs]
      exact ih _ hopen
    | error scope d => exact ih (b.step (.error d)).1 hs
    | fault start stop => exact ih b hs
  | node kind inside committed next ihi ihn =>
    have hsplit : (Trace.node kind inside committed next).events = .start kind ::
        (inside.events ++
          ((.stop kind :: if committed then [.commit] else []) ++ next.events)) := by
      rw [Trace.events_node, List.cons_append]
    -- Inside the node it is itself the open one, and behind its stop that is again `n`.
    let opened : Builder := ⟨.opened kind :: n :: outer, none, b.root, b.errors⟩
    obtain ⟨pending, hinside⟩ := feed_events inside opened rfl
    have hquiet : (opened.feed inside.events).2 = [] := ihi opened rfl
    have hstop := @feed_stop ((Node.opened kind).absorb inside) kind rfl (n :: outer) pending b.root
      (b.errors ++ inside.diagnostics) committed
    rw [hsplit, feed_start, hs, warnings_append, hquiet, hinside, warnings_append, hstop]
    cases committed with
    | true => exact ihn _ rfl
    | false => exact ihn _ rfl

/-- **The events of a node make any builder take the node**, below which nothing changes: it
becomes a child of the innermost open node, or the root if there is none, or waits if it is not
committed. No open node is asked for here: a node may be the first thing that a builder sees. -/
theorem feed_ofNode (b : Builder) (kind : NodeKind) (inside : Trace) (committed : Bool) :
    b.feed (Trace.ofNode kind inside committed).events =
      let n : Node := ⟨kind, inside.location?, inside.forest⟩
      let errors := b.errors ++ inside.diagnostics
      (if committed then
        ⟨b.stack.modifyHead (·.withChild (.ofNode n)), none,
          if b.stack.isEmpty then some n else b.root, errors⟩
      else ⟨b.stack, some n, b.root, errors⟩, []) := by
  let opened : Builder := ⟨.opened kind :: b.stack, none, b.root, b.errors⟩
  obtain ⟨pending, hinside⟩ := feed_events inside opened rfl
  have hquiet : (opened.feed inside.events).2 = [] := warnings_events inside opened rfl
  have hin : (Node.opened kind).absorb inside = ⟨kind, inside.location?, inside.forest⟩ := by
    simp [Node.absorb, Node.opened]
  have hstop := @feed_stop ⟨kind, inside.location?, inside.forest⟩ kind rfl b.stack pending b.root
    (b.errors ++ inside.diagnostics) committed
  rw [hin] at hinside
  rw [Trace.events_ofNode, feed_start]
  refine Prod.ext ?_ ?_
  · rw [feed_append, hinside, hstop]
  · rw [warnings_append, hquiet, hinside, hstop]
    rfl

end Builder

/-! ## Events that nest -/

namespace Event

/-- Whether starts and stops nest while nodes of these kinds are open, innermost first: every stop
is of the kind of the innermost one, and in the end all are stopped. It is computed, so a sequence
of events can be tested for it. -/
def nests : List NodeKind → List Event → Bool
  | kinds, [] => kinds.isEmpty
  | kinds, .start kind :: es => nests (kind :: kinds) es
  | kinds, .stop kind :: es => kinds.head? == some kind && nests kinds.tail es
  | kinds, .data _ _ :: es | kinds, .location _ :: es | kinds, .error _ :: es
  | kinds, .commit :: es => nests kinds es

/-- Whether every commit stands directly behind a stop; `behindStop` tells it of the first event. -/
def commitsStops (behindStop : Bool) : List Event → Bool
  | [] => true
  | .commit :: es => behindStop && commitsStops false es
  | .stop _ :: es => commitsStops true es
  | .start _ :: es | .data _ _ :: es | .location _ :: es | .error _ :: es => commitsStops false es

/-- The text of an event that is data. -/
def data? : Event → Option String
  | .data _ text => some text
  | .start _ | .location _ | .error _ | .stop _ | .commit => none

/-- The end of a node: its kind, whether it belongs to its parent, and what follows it there. It
is what is left of a node if a sequence of events is cut inside of it. -/
structure Frame where
  kind : NodeKind
  committed : Bool
  behind : Trace

/-- A commit, or nothing. -/
def committing (committed : Bool) : List Event := if committed then [.commit] else []

/-- From the stop of the node on. -/
def Frame.events (f : Frame) : List Event :=
  .stop f.kind :: (committing f.committed ++ f.behind.events)

/-- **Events that nest are a trace, and behind it the ends of the nodes around it.** A commit in
front is that of the node that was stopped last. The induction is on the events, so a sequence is
read from its end: a stop begins a frame, and the start of its node takes the frame away again. -/
theorem exists_trace_frames {es : List Event} {kinds : List NodeKind} {behindStop : Bool}
    (hn : nests kinds es = true) (hc : commitsStops behindStop es = true) :
    ∃ (committed : Bool) (t : Trace) (frames : List Frame),
      (committed = true → behindStop = true) ∧ frames.map (·.kind) = kinds ∧
        es = committing committed ++ (t.events ++ frames.flatMap (·.events)) := by
  induction es generalizing kinds behindStop with
  | nil =>
    refine ⟨false, .nil, [], fun h => absurd h Bool.false_ne_true, ?_, rfl⟩
    exact (List.isEmpty_iff.1 hn).symm
  | cons e es ih =>
    -- All events but a commit and a stop go in front of the trace behind them.
    have hnote (n : Note) (he : n.event? = some e) (hn : nests kinds es = true)
        (hc : commitsStops false es = true) : ∃ (committed : Bool) (t : Trace)
        (frames : List Frame), (committed = true → behindStop = true) ∧
          frames.map (·.kind) = kinds ∧
          e :: es = committing committed ++ (t.events ++ frames.flatMap (·.events)) := by
      obtain ⟨committed, t, frames, hfirst, hkinds, rfl⟩ := ih hn hc
      cases committed with
      | true => exact absurd (hfirst rfl) Bool.false_ne_true
      | false =>
        refine ⟨false, .note n t, frames, fun h => absurd h Bool.false_ne_true, hkinds, ?_⟩
        simp [committing, Trace.events, he]
    cases e with
    | data tag text => exact hnote (.data tag text) rfl hn hc
    | location l => exact hnote (.location l) rfl hn hc
    | error d => exact hnote (.error .statement d) rfl hn hc
    -- The first frame is the end of the node that starts here.
    | start kind =>
      have hinside : nests (kind :: kinds) es = true := hn
      obtain ⟨committed, t, frames, hfirst, hkinds, rfl⟩ := ih hinside hc
      cases committed with
      | true => exact absurd (hfirst rfl) Bool.false_ne_true
      | false =>
        obtain ⟨f, frames, rfl, rfl, rfl⟩ := List.map_eq_cons_iff.1 hkinds
        refine ⟨false, .node f.kind t f.committed f.behind, frames,
          fun h => absurd h Bool.false_ne_true, rfl, ?_⟩
        simp [committing, Trace.events_node, Frame.events]
    | stop kind =>
      obtain ⟨hkind, hn⟩ := Bool.and_eq_true_iff.1 hn
      obtain ⟨committed, t, frames, -, hkinds, rfl⟩ := ih hn hc
      obtain ⟨outer, rfl⟩ := List.head?_eq_some_iff.1 (beq_iff_eq.1 hkind)
      refine ⟨false, .nil, ⟨kind, committed, t⟩ :: frames, fun h => absurd h Bool.false_ne_true,
        ?_, ?_⟩
      · rw [List.map_cons, hkinds]
        rfl
      · simp [committing, Trace.events, Frame.events]
    -- The commit is left to the stop in front of it, and there is one.
    | commit =>
      obtain ⟨hstop, hc⟩ := Bool.and_eq_true_iff.1 hc
      obtain ⟨committed, t, frames, hfirst, hkinds, rfl⟩ := ih hn hc
      cases committed with
      | true => exact absurd (hfirst rfl) Bool.false_ne_true
      | false => exact ⟨true, t, frames, fun _ => hstop, hkinds, rfl⟩

/-- Events that nest are those of a trace. -/
theorem exists_trace {es : List Event} (hn : nests [] es = true)
    (hc : commitsStops false es = true) : ∃ t : Trace, t.events = es := by
  obtain ⟨committed, t, frames, hfirst, hkinds, rfl⟩ := exists_trace_frames hn hc
  cases committed with
  | true => exact absurd (hfirst rfl) Bool.false_ne_true
  | false =>
    obtain rfl := List.map_eq_nil_iff.1 hkinds
    exact ⟨t, (List.append_nil _).symm⟩

end Event

/-! ## What belongs to the tree -/

namespace Trace

/-- Every piece of data, at any depth and in order, with the nodes around it: whether they belong
to their parents, innermost first. It does not speak of trees, so what belongs to a tree can be
said with it. -/
def pieces (around : List Bool) : Trace → List (String × List Bool)
  | nil => []
  | note (.data _ text) next => (text, around) :: next.pieces around
  | note _ next => next.pieces around
  | node _ inside committed next => inside.pieces (committed :: around) ++ next.pieces around

/-- The pieces of data are the data events. -/
theorem map_fst_pieces (t : Trace) (around : List Bool) :
    (t.pieces around).map (·.1) = t.events.filterMap Event.data? := by
  induction t generalizing around with
  | nil => rfl
  | note n next ih =>
    cases n with
    | data tag text => exact congrArg (text :: ·) (ih around)
    | _ => exact ih around
  | node kind inside committed next ihi ihn =>
    have hcommit : (if committed then [Event.commit] else []).filterMap Event.data? = [] := by
      cases committed <;> rfl
    rw [pieces, List.map_append, ihi, ihn, events_node, List.filterMap_cons_none rfl,
      List.filterMap_append, List.filterMap_cons_none rfl, List.filterMap_append, hcommit,
      List.nil_append]

/-- **The text of the tree is the data around which every node belongs to its parent.** A node
that was given up takes all data inside of it along, however deep. -/
theorem join_pieces (t : Trace) (around : List Bool) :
    String.join (((t.pieces around).filter (·.2.all id)).map (·.1)) =
      if around.all id then t.forest.text else "" := by
  induction t generalizing around with
  | nil => cases around.all id <;> rfl
  | note n next ih =>
    cases n with
    | data tag text =>
      have hnext := ih around
      cases ha : around.all id with
      | true =>
        rw [ha, if_pos rfl] at hnext
        simp [pieces, forest, Forest.text, ha, hnext]
      | false =>
        rw [ha, if_neg Bool.false_ne_true] at hnext
        simp [pieces, ha, hnext]
    | _ => exact ih around
  | node kind inside committed next ihi ihn =>
    rw [pieces, List.filter_append, List.map_append, String.join_append, ihi, ihn, forest,
      List.all_cons]
    cases committed with
    | false => cases around.all id <;> simp
    | true => cases around.all id <;> simp [Forest.text]

end Trace

/-- **The builder makes of the events of a node what recursion over their nesting makes of it.**
What is in the tree of a committed node is what belongs to it: of what was sent directly to a node
the data and the last extent, and the inner nodes that were committed. The events are any that
nest, not only those that a parser sends. -/
theorem Builder.feed_outermost (kind : NodeKind) {inside : List Event} (committed : Bool)
    (hn : Event.nests [] inside = true) (hc : Event.commitsStops false inside = true) :
    let built := ({} : Builder).feed
      (.start kind :: (inside ++ (.stop kind :: if committed then [.commit] else [])))
    built.2 = [] ∧ built.1.depth = 0 ∧ ∃ t : Trace, t.events = inside ∧
      built.1.root = (if committed then some ⟨kind, t.location?, t.forest⟩ else none) ∧
      (t.pieces []).map (·.1) = inside.filterMap Event.data? ∧
      (Node.mk kind t.location? t.forest).text =
        String.join (((t.pieces []).filter (·.2.all id)).map (·.1)) := by
  intro built
  obtain ⟨t, rfl⟩ := Event.exists_trace hn hc
  have hbuilt : built = ({} : Builder).feed (Trace.ofNode kind t committed).events := by
    rw [Trace.events_ofNode]
  rw [hbuilt, Builder.feed_ofNode]
  refine ⟨rfl, ?_, t, rfl, ?_, t.map_fst_pieces [], (t.join_pieces []).symm⟩
  · cases committed <;> rfl
  · cases committed <;> rfl

/-- A node that is dropped takes a committed one with it, and what stands behind it stays. -/
theorem Builder.feed_outermost_dropped :
    let inside : List Event :=
      [.start .assignment, .start .valuePath, .data .varName "a", .stop .valuePath, .commit,
        .stop .assignment, .data .punctuation ";", .start .block, .stop .block, .commit]
    Event.nests [] inside = true ∧ Event.commitsStops false inside = true ∧
      let built := ({} : Builder).feed
        (.start .document :: (inside ++ (.stop .document :: [.commit])))
      built.2 = [] ∧ built.1.depth = 0 ∧ ∃ t : Trace, t.events = inside ∧
        built.1.root = some ⟨.document, t.location?, t.forest⟩ ∧
        (t.pieces []).map (·.1) = ["a", ";"] ∧
        (Node.mk .document t.location? t.forest).text =
          String.join (((t.pieces []).filter (·.2.all id)).map (·.1)) :=
  ⟨rfl, rfl, Builder.feed_outermost .document true rfl rfl⟩

end Heddle
