import Heddle.Proofs.Document.Text

/-!
# The order of events

A flat sequence of events can be put together to nodes only if it keeps to an order, and this is
the order. `Event.Contents` is its grammar, with one rule for each thing that can happen inside an
open node: a piece of data, an error, a node that is committed, and a node that is dropped.

Everything that can be asked about the order is a feature of this grammar. Starts and stops nest
with equal kinds since each node rule writes both. **The extent of a node stands directly in front
of its stop and the commit directly behind it, and a node has both or neither**: no other rule
writes an extent or a commit. What is skipped behind an error is never dropped, for the rule of
dropped nodes excludes it. And since a source is one document node around contents, nothing ever
happens while no node is open.
-/

set_option autoImplicit false

namespace Heddle

/-- What may be reported inside an open node, up to its extent or its stop. It is a grammar of
flat lists of events, and knows neither traces nor readers. -/
inductive Event.Contents : List Event → Prop where
  | nil : Contents []
  | data (tag : DataTag) (text : String) {next : List Event} (hn : Contents next) :
      Contents (.data tag text :: next)
  | error (d : Diagnostic) {next : List Event} (hn : Contents next) : Contents (.error d :: next)
  /-- A node with an extent, which belongs to its parent. -/
  | committed (kind : NodeKind) (l : Location) {inside next : List Event} (hi : Contents inside)
      (hn : Contents next) :
      Contents (.start kind :: (inside ++ .location l :: .stop kind :: .commit :: next))
  /-- A node without an extent, which does not. -/
  | dropped {kind : NodeKind} (hk : kind ≠ .invalid) {inside next : List Event}
      (hi : Contents inside) (hn : Contents next) :
      Contents (.start kind :: (inside ++ .stop kind :: next))

namespace Event.Contents

/-- Contents behind contents. -/
theorem append {xs ys : List Event} (hx : Contents xs) (hy : Contents ys) :
    Contents (xs ++ ys) := by
  induction hx with
  | nil => exact hy
  | data tag text _ ih => exact .data tag text ih
  | error d _ ih => exact .error d ih
  | committed kind l hi _ _ ih =>
    have h := Contents.committed kind l hi ih
    simpa only [List.cons_append, List.append_assoc] using h
  | dropped hk hi _ _ ih =>
    have h := Contents.dropped hk hi ih
    simpa only [List.cons_append, List.append_assoc] using h

end Event.Contents

/-- No construct makes a node for what is skipped. -/
theorem Production.kind_ne_invalid (p : Production) : p.kind ≠ .invalid := by
  cases p <;> decide

namespace Trace

/-- The events of the trace are the contents of a node. It is the property that every step of a
reading keeps. -/
def Orderly (t : Trace) : Prop := Event.Contents t.events

namespace Orderly

theorem nil : Orderly .nil := Event.Contents.nil

theorem append {t u : Trace} (ht : t.Orderly) (hu : u.Orderly) : (t ++ u).Orderly := by
  rw [Orderly, events_append]
  exact Event.Contents.append ht hu

theorem ofData (tag : DataTag) (text : String) : (ofData tag text).Orderly :=
  Event.Contents.data tag text .nil

theorem error (scope : ErrorScope) (d : Diagnostic) : (ofNote (.error scope d)).Orderly :=
  Event.Contents.error d .nil

/-- A fault is no event. -/
theorem fault (start stop : Nat) : (ofNote (.fault start stop)).Orderly :=
  Event.Contents.nil

theorem committed (kind : NodeKind) {inside : Trace} (hi : inside.Orderly) (l : Location) :
    (ofNode kind (inside ++ ofNote (.location l)) true).Orderly := by
  have h := Event.Contents.committed kind l hi .nil
  simpa [Orderly, events, ofNode, ofNote, Note.event?] using h

theorem dropped {kind : NodeKind} (hk : kind ≠ .invalid) {inside : Trace} (hi : inside.Orderly) :
    (ofNode kind inside false).Orderly := by
  have h := Event.Contents.dropped hk hi .nil
  simpa [Orderly, events, ofNode] using h

end Orderly

end Trace

namespace Attempt

open Trace

theorem orderly_framed {a : Attempt} (ha : a.trace.Orderly) (file : Option String)
    {kind : NodeKind} (hk : kind ≠ .invalid) (start : Position) :
    (a.framed file kind start).trace.Orderly := by
  unfold framed
  split
  · exact .dropped hk ha
  · exact .committed kind ha _

theorem orderly_take (tag : DataTag) (tape : Tape) : (tape.take tag).1.Orderly := by
  unfold Tape.take
  split
  · exact .nil
  · exact .ofData _ _

theorem orderly_takeMany (tag : DataTag) (n : Nat) (tape : Tape) :
    (tape.takeMany tag n).1.Orderly := by
  induction n generalizing tape with
  | zero => exact .nil
  | succ n ih => exact .append (orderly_take tag tape) (ih _)

/-- What is skipped succeeds, so its node is committed. -/
theorem orderly_recover (file : Option String) (inBlock : Bool) (f : Failure) (tape : Tape) :
    (recover file inBlock f tape).trace.Orderly :=
  .append (.error _ _) (.committed .invalid (orderly_takeMany _ _ tape) _)

theorem orderly_cut {t : Token} {start stop : Nat} {use : List Char → Trace}
    (hu : ∀ cs, (use cs).Orderly) : (cut t start stop use).Orderly := by
  unfold cut
  split
  · exact hu _
  · exact .fault _ _

theorem orderly_pieceIfAny (tag : DataTag) (cs : List Char) : (pieceIfAny tag cs).Orderly := by
  unfold pieceIfAny
  split
  · exact .nil
  · exact .ofData _ _

theorem orderly_placeholder {file : Option String} {read : Tape → Attempt}
    (hr : ∀ window, (read window).trace.Orderly) (t : Token) (reach : Nat) (p : Placeholder) :
    (placeholder file read t reach p).trace.Orderly := by
  unfold placeholder
  split
  · exact .fault _ _
  · simp only
    split
    · exact hr _
    · split
      · exact ((hr _).append (.error _ _)).append (orderly_cut fun _ => .ofData _ _)
      · exact (hr _).append (.error _ _)

theorem orderly_interpolated {file : Option String} {read : Bool → Tape → Attempt}
    (hr : ∀ isBraced window, (read isBraced window).trace.Orderly) (t : Token)
    (ps : List Placeholder) (start reach : Nat) :
    (interpolated file read t start reach ps).Orderly := by
  induction ps generalizing start reach with
  | nil => exact orderly_cut fun _ => .ofData _ _
  | cons p ps ih =>
    rw [interpolated]
    split
    · exact ih _ _
    · exact ((orderly_cut fun _ => orderly_pieceIfAny _ _).append
        (orderly_placeholder (hr p.braced) t reach p)).append (ih _ _)

theorem orderly_quoted {file : Option String} {read : Bool → Tape → Attempt}
    (hr : ∀ isBraced window, (read isBraced window).trace.Orderly) (tape : Tape) :
    (quoted file read tape).trace.Orderly := by
  unfold quoted
  split
  · exact .nil
  · simp only
    split
    · exact .ofData _ _
    · exact orderly_interpolated hr _ _ _ _

theorem orderly_hexDigits (tape : Tape) : (hexDigits tape).trace.Orderly := by
  unfold hexDigits
  split
  · split
    · exact .ofData _ _
    · exact .nil
  · exact .nil

theorem orderly_foreign (tape : Tape) : (foreign tape).trace.Orderly := by
  unfold foreign
  split
  · exact .nil
  split
  · have htag (sign language : String) : (Trace.ofData .punctuation sign ++
        .ofData .language language ++ .ofData .punctuation ">").Orderly :=
      ((Orderly.ofData _ _).append (.ofData _ _)).append (.ofData _ _)
    exact ((htag _ _).append (orderly_cut fun _ => orderly_pieceIfAny _ _)).append (htag _ _)
  · exact .nil

/-- **Every step of a reading keeps the order.** The cases are those of `Invariant`, one for each
step; the rules of the grammar need not be looked at. -/
theorem orderly : Invariant fun _ a => a.trace.Orderly where
  nothing _ := .nil
  take tag tape := orderly_take tag tape
  fail _ _ := .nil
  behind ha hb := ha.append hb
  framed {_ p _ _} ha := orderly_framed ha _ p.kind_ne_invalid _
  recover file inBlock f tape := orderly_recover file inBlock f tape
  quoted hr := orderly_quoted hr _
  hexDigits tape := orderly_hexDigits tape
  foreign tape := orderly_foreign tape

end Attempt

/-- **Every source is reported in order**: as one document node, committed and with its extent,
around contents. -/
theorem readDocument_orderly (o : Options) (source : String) :
    ∃ inside l, Event.Contents inside ∧
      (readDocument o source).events =
        .start .document :: (inside ++ [.location l, .stop .document, .commit]) := by
  have ho : (readStatements o source).trace.Orderly :=
    Attempt.orderly.phrase (Attempt.orderly.read maxNesting) _ o _
  have hf : (readStatements o source).failure = none := Attempt.failure_statements _ _ _ _ _
  refine ⟨_, (readStatements o source).tape.extent o.file (openSource source).1, ho, ?_⟩
  rw [readDocument_eq, Attempt.framed, hf]
  simp [Trace.events, Trace.ofNode, Trace.ofNote, Note.event?]

end Heddle
