import Heddle.Proofs.Reading.Accounted
import Heddle.Proofs.Reading.Slot
import Heddle.Log

/-!
# Every failure is reported once

A failure is left in one place and reported in another, and what is reported goes to three: to the
events, to the log, and to the count at the end of the log. That none is lost on the way and none is
told twice has two halves. In the slot that all constructs share there is a failure exactly behind
something that failed, so **there is always something to report and the texts for an empty slot are
never used**. In the events an error stands in front of what is skipped for it, or in the quoted
text that goes on behind it, and **nothing is skipped without an error**.
-/

set_option autoImplicit false

namespace Heddle

/-- Whether a record tells of something that was skipped. It is known by its text, since a record
has nothing else to know it by. -/
def LogRecord.isRecovery (r : LogRecord) : Bool :=
  "recovering from".toList.isPrefixOf r.message.toList

/-- A reading leaves one record for each statement that failed. -/
theorem countP_isRecovery (o : Options) (source : String) :
    (readingLog o source).countP (·.isRecovery) =
      (readDocument o source).errors.countP (·.1 == .statement) := by
  have hskip (d : Diagnostic) :
      LogRecord.isRecovery ⟨.debug, "recovering from: " ++ d.render⟩ = true := by
    rw [LogRecord.isRecovery, List.isPrefixOf_iff_prefix]
    exact ⟨": ".toList ++ d.render.toList, by simp⟩
  have hlast (bytes errors : String) : LogRecord.isRecovery
      ⟨.debug, "parsed " ++ bytes ++ " bytes with " ++ errors ++ " error(s)"⟩ = false := by
    simp [LogRecord.isRecovery, List.isPrefixOf]
  unfold readingLog
  simp only [List.countP_append, List.countP_filterMap, List.countP_singleton, hlast,
    Bool.false_eq_true, if_false, Nat.add_zero]
  apply List.countP_congr
  rintro ⟨scope, d⟩ -
  cases scope with
  | statement => simp [hskip]
  | placeholder => simp

/-- The texts for an empty slot are no messages of causes. So if one of them were reported, a slot
would have been empty, and this can be seen in the report. -/
theorem Cause.message_ne_fallback (cause : Cause) :
    cause.message ≠ "invalid statement" ∧ cause.message ≠ "invalid string placeholder" := by
  have hfirst : cause.message.toList.head? ≠ some 'i' := by
    cases cause with
    | expected wanted found => cases found <;> simp [message]
    | orphan word => simp [message]
    | strayBrace | tooDeep => simp [message]
  constructor
  · rintro h
    exact hfirst (by rw [h]; rfl)
  · rintro h
    exact hfirst (by rw [h]; rfl)

theorem accounted_readStatements (o : Options) (source : String) :
    (readStatements o source).trace.Accounted .document :=
  (Attempt.accounted_phrases o.file .document).phrase
    (fun o _ p tape => Attempt.accounted_read maxNesting o p .document tape) _
    (fun hq => absurd hq (by decide)) o rfl _

/-- **Whatever is read is begun with an empty slot for failures, and it fails exactly if it leaves a
failure there**; so no text for an empty slot is ever reported. Every error is followed by what is
skipped or stands in a quoted text, and all that is skipped has an error in front of it. The log has
a record for each node that was skipped, and at its end the number of errors. -/
theorem readDocument_failures (o : Options) (source : String) :
    ((readDocumentSlotted o source).trace = readDocument o source ∧
      ∀ c ∈ (readDocumentSlotted o source).calls,
        c.before = none ∧ (c.succeeded = false ↔ c.after.isSome = true)) ∧
    (∀ d, .error d ∈ (readDocument o source).events →
      d.message ≠ "invalid statement" ∧ d.message ≠ "invalid string placeholder") ∧
    (∀ before d after, (readDocument o source).events = before ++ .error d :: after →
      after.head? = some (.start .invalid) ∨
        (Event.opened [] before).head? = some .string) ∧
    (∀ before after, (readDocument o source).events = before ++ .start .invalid :: after →
      ∃ front d, before = front ++ [.error d]) ∧
    (readingLog o source).countP (·.isRecovery) =
      (readDocument o source).events.count (.start .invalid) ∧
    (readingLog o source).getLast? = some ⟨.debug,
      "parsed " ++ toString source.utf8ByteSize ++ " bytes with " ++
        toString ((readDocument o source).events.countP (·.isError)) ++ " error(s)"⟩ := by
  have hslot := follows_readDocumentSlotted o source
  have hinside := (accounted_readStatements o source).append
    ((Trace.Accounted.additive .document).plain (.location
      ((readStatements o source).tape.extent o.file (openSource source).1)))
  have hdocument : (readDocument o source).Accounted .document := by
    rw [readDocument_node]
    exact hinside.node (by decide) .document true
  have hevents : Event.Accounted [] (readDocument o source).events := by
    rw [readDocument_node]
    exact hinside.events_node (by decide) true []
  refine ⟨⟨hslot.trace, hslot.calls⟩, fun d hd => ?_, hevents.answered, hevents.announced, ?_, ?_⟩
  · obtain ⟨cause, hc⟩ := hdocument.causes d hd
    rw [hc]
    exact cause.message_ne_fallback
  · rw [countP_isRecovery, hdocument.tally]
  · rw [Trace.countP_isError, readingLog, List.getLast?_append]
    rfl

end Heddle
