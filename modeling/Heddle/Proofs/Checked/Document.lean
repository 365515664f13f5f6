import Heddle.Highlight
import Heddle.Proofs.Checked.Plan
import Heddle.Proofs.Reading.Paid

/-!
# No reading is refused

A whole source is read in checked steps: each use of the cursor is one that it allows, each piece
is cut out of the source between two characters, no difference falls below zero and no sum leaves
the range of a machine word. **None of the steps is refused if the source has fewer than 2⁶³
bytes**, and the report is that of the reading, as which it nests: a highlighter never meets a stop
that does not fit.

Machine words are wide enough by far. What counts bytes, lines, columns or braces is bounded by the
size of the source, and so is the number of errors (`length_diagnostics_le`).
-/

set_option autoImplicit false

namespace Heddle

open Text

/-! ## Highlighting a report -/

namespace Highlighter

/-- Behind a report the same nodes are open as in front of it. The events of a trace come in pairs
of a start and a stop, whatever is between them, so the highlighter returns to its stack. -/
theorem feed_events (h : Highlighter) (t : Trace) (es : List Event) :
    ∃ h' : Highlighter, h'.opened = h.opened ∧ h.feed (t.events ++ es) = h'.feed es := by
  induction t generalizing h es with
  | nil => exact ⟨h, rfl, rfl⟩
  | note n next ih =>
    rw [Trace.events, List.append_assoc]
    cases n with
    | data tag text => exact ih { h with html := h.html ++ span h.opened.head? tag text } es
    | location l => exact ih h es
    | error scope d => exact ih { h with errors := h.errors ++ [d] } es
    | fault start stop => exact ih h es
  | node kind inside committed next ihi ihn =>
    -- The events inside leave the node on top, so its stop fits.
    obtain ⟨h₁, hopened, hinside⟩ := ihi { h with opened := kind :: h.opened }
      (.stop kind :: ((if committed then [.commit] else []) ++ (next.events ++ es)))
    obtain ⟨h₂, hsame, hnext⟩ := ihn { h₁ with opened := h₁.opened.tail } es
    have hstop : h₁.step (.stop kind) = ({ h₁ with opened := h₁.opened.tail }, none) := by
      rw [step, hopened]
      exact congrArg (Prod.mk _) (if_pos rfl)
    refine ⟨h₂, hsame.trans (congrArg List.tail hopened), ?_⟩
    calc
      h.feed ((Trace.node kind inside committed next).events ++ es)
      _ = ({ h with opened := kind :: h.opened } : Highlighter).feed (inside.events ++
            .stop kind :: ((if committed then [.commit] else []) ++ (next.events ++ es))) := by
          simp only [Trace.events, List.cons_append, List.append_assoc]
          rfl
      _ = h₁.feed (.stop kind :: ((if committed then [.commit] else []) ++ (next.events ++ es))) :=
          hinside
      _ = ({ h₁ with opened := h₁.opened.tail } : Highlighter).feed
            ((if committed then [.commit] else []) ++ (next.events ++ es)) := by
          rw [feed, hstop]
      _ = ({ h₁ with opened := h₁.opened.tail } : Highlighter).feed (next.events ++ es) := by
          cases committed
          · rfl
          · rfl
      _ = h₂.feed es := hnext

/-- **No stop of a report meets a node of another kind.** A highlighter that is fed a report from
its first event never has to refuse one. -/
theorem feed_report (h : Highlighter) (t : Trace) : (h.feed t.events).2 = none := by
  obtain ⟨h', -, hfeed⟩ := h.feed_events t []
  rw [List.append_nil] at hfeed
  rw [hfeed]
  rfl

end Highlighter

namespace Checked

/-! ## Documents -/

/-- Reads a whole source. At its end there may be trivia that no statement has taken, and then the
document ends as a node. -/
def readDocument (o : Options) (source : String) : Checked Trace := do
  let r : Reader := { cursor := .ofSource source }
  let out ← r.statements o.file false (statementPlan.run (read (maxNesting + 1)) o) r.rounds
  let out ← out.andThen fun r => r.takeTrivia r.rounds
  return (out.framed o.file .document r.cursor.place).trace

/-- The places of a source can be counted, its byte order mark included. The mark is passed before
the first token, and is three bytes of the offsets. -/
theorem counts_openSource {source : String} (h : source.utf8ByteSize + 1 < wordBound) :
    (openSource source).1.Counts (openSource source).2 := by
  have hsize := utf8ByteSize_source source
  rw [(openSource_byteOrderMark source).2]
  constructor <;> dsimp only <;> omega

/-- A source begins in its first line. -/
theorem line_openSource (source : String) : 0 < (openSource source).1.line := by
  rw [(openSource_byteOrderMark source).2]
  exact Nat.one_pos

/-- A reader in front of a source follows the tape of the source. -/
theorem follows_ofSource {source : String} (h : source.utf8ByteSize + 1 < wordBound) :
    Reader.Follows { cursor := .ofSource source }
      (.ofText (openSource source).1 (openSource source).2 0) :=
  .ofText (Cursor.faces_ofSource source) (counts_openSource h) (line_openSource source) rfl rfl

/-- **Nothing is refused while a source is read**, and the report is that of the reading, if its
errors can be counted. The list of statements is simulated by its plan; the rest of this proof are
the two steps around it, trivia that is never there and the node of the document. -/
theorem readDocument_eq {o : Options} {source : String} (h : source.utf8ByteSize + 1 < wordBound)
    (he : (Heddle.readDocument o source).diagnostics.length < wordBound) :
    readDocument o source = .ok (Heddle.readDocument o source) := by
  have hf := follows_ofSource h
  have hl : (Tape.ofText (openSource source).1 (openSource source).2 0).Lexed :=
    Tape.lexed_ofText _ _ _
  have hs : SimulatesAt 0
      (fun r => r.statements o.file false (statementPlan.run (read (maxNesting + 1)) o) r.rounds)
      (.ofText (openSource source).1 (openSource source).2 0) (readStatements o source) :=
    Plan.simulates (fun o p => simulates_read (Nat.zero_add _) o p)
      (fun o p tape => Attempt.conserves.read maxNesting o p tape)
      (fun o _ _ hp => Attempt.progress_read maxNesting o hp)
      (@Plan.statements false _ statementPlan rfl) o _
  -- The statements end at the end of the text, so there is no trivia behind them.
  have hnil : (readStatements o source).tape.ahead = [] := by
    rcases statements_end maxNesting o false hl with he | ⟨hf, -⟩
    · exact he
    · cases hf
  have hend : (readStatements o source).andThen (fun tape => .ofTaken tape.takeTrivia) =
      readStatements o source := by
    have hfailure : (readStatements o source).failure = none :=
      Attempt.failure_statements _ _ _ _ _
    have htrivia : (readStatements o source).tape.takeTrivia =
        (.nil, (readStatements o source).tape) := by
      rw [Tape.takeTrivia, hnil]
      rfl
    rw [Attempt.andThen_of_none hfailure, htrivia, Attempt.behind, Attempt.ofTaken,
      Trace.append_nil, ← hfailure]
  have hboth := @SimulatesAt.andThen _ _ _ _ _ (fun tape => .ofTaken tape.takeTrivia) hs
    fun _ => .trivia
  rw [hend] at hboth
  have hsame : (Heddle.readDocument o source).diagnostics =
      (readStatements o source).trace.diagnostics := by
    rw [Heddle.readDocument_eq, Attempt.diagnostics_framed]
  obtain ⟨out, hout, ha⟩ := hboth _ hf rfl (by rw [← hsame, Nat.zero_add]; exact he)
  have htrace := (ha.framed o.file .document (openSource source).1).trace
  dsimp only at hout
  rw [readDocument, ← bind_assoc, hout, Heddle.readDocument_eq, ← htrace]
  rfl

/-- **A source of fewer than 2⁶³ bytes is read without a fault**, and what is reported is the
report of the reading, in which a highlighter meets no stop that does not fit. Half of the range
of a machine word is enough for the bytes, and there are not more errors than bytes. -/
theorem readDocument_without_fault (o : Options) {source : String}
    (h : source.utf8ByteSize < 2 ^ 63) :
    readDocument o source = .ok (Heddle.readDocument o source) ∧
      (({} : Highlighter).feed (Heddle.readDocument o source).events).2 = none := by
  have hbound : wordBound = 2 * 2 ^ 63 := rfl
  have he := length_diagnostics_le o source
  exact ⟨readDocument_eq (by omega) (by omega), Highlighter.feed_report _ _⟩

/-- A placeholder that the closing quote cuts off, and braces that are left open. -/
theorem readDocument_without_fault_unclosed :
    "a \x7b b: \"x %\x7bc\"; < \x7b".utf8ByteSize < 2 ^ 63 ∧
      readDocument {} "a \x7b b: \"x %\x7bc\"; < \x7b" =
        .ok (Heddle.readDocument {} "a \x7b b: \"x %\x7bc\"; < \x7b") ∧
      (({} : Highlighter).feed
        (Heddle.readDocument {} "a \x7b b: \"x %\x7bc\"; < \x7b").events).2 = none :=
  ⟨by decide, readDocument_without_fault {} (by decide)⟩

end Checked

end Heddle
