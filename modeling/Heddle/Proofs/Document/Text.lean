import Heddle.Proofs.Reading.Progress

/-!
# A report contains its source

The text of all data that is reported for a source, joined in the order of the report, is the
source without its byte order mark. This holds for every source, since errors end nothing: what
can not be read is skipped and reported as skipped, and a construct that is given up has reported
what it took.

That nothing is reported but the source is what every step keeps (`Attempt.conserves`). That *all*
of it is reported needs in addition that the list of statements only ends at the end of the text,
and this is where it matters that no round of it is idle.
-/

set_option autoImplicit false

namespace Heddle

/-- The text of an event; only data has any. -/
def Event.text : Event → String
  | .data _ text => text
  | _ => ""

/-- The events of a trace have its text. The text of a trace is kept as characters, which is
easier to reason about. -/
theorem Trace.join_events (t : Trace) :
    String.join (t.events.map Event.text) = String.ofList t.text := by
  induction t with
  | nil => rfl
  | note n next ih =>
    have hn : String.join (n.event?.toList.map Event.text) = String.ofList n.chars := by
      cases n <;> simp [Note.event?, Event.text, Note.chars]
    rw [events, List.map_append, String.join_append, hn, ih, ← String.ofList_append]
    simp [text, notes]
  | node kind inside committed next ihi ihn =>
    have hc : String.join ((if committed then [Event.commit] else []).map Event.text) = "" := by
      cases committed <;> simp [Event.text]
    simp only [events, List.map_append, List.map_cons, List.cons_append, String.join_append,
      String.join_cons, Event.text, hc, ihi, ihn, String.empty_append, String.append_empty, text,
      notes, List.flatMap_append, String.ofList_append]

/-! ## The statements of a source -/

/-- What is read of a source: everything but the document node. Most of what is said of sources is
said of this first, as it is the reading of a phrase. -/
def readStatements (o : Options) (source : String) : Attempt :=
  (Phrase.statements false .statement).read (Production.read maxNesting) o
    (.ofText (openSource source).1 (openSource source).2 0)

theorem readDocument_eq (o : Options) (source : String) :
    readDocument o source =
      ((readStatements o source).framed o.file .document (openSource source).1).trace := rfl

/-- A statement that succeeds has taken something. So no round of a list of statements is idle. -/
theorem progress_statement (n : Nat) (o : Options) {tape : Tape} (h : tape.Lexed) :
    Attempt.Progress tape (Phrase.statement.read (Production.read n) o tape) :=
  Attempt.progress_phrase (fun o p tape => Attempt.conserves.read n o p tape)
    (fun o _ _ hp => Attempt.progress_read n o hp) _ rfl o h

/-- Statements end at the end of the text or of their block, however many there are. -/
theorem statements_end (n : Nat) (o : Options) (inBlock : Bool) {tape : Tape} (h : tape.Lexed) :
    Attempt.EndsList inBlock
      ((Phrase.statements inBlock .statement).read (Production.read n) o tape).tape.ahead := by
  refine Attempt.statements_rule (P := fun _ a => Attempt.EndsList inBlock a.tape.ahead)
    (fun tape ht => ?_) (fun tape ht => progress_statement n o ht) ?_ ?_ ?_ h (Nat.le_refl _)
  · exact Attempt.conserves.phrase (fun o p tape => Attempt.conserves.read n o p tape) _ o tape ht
  · intro tape _ he
    exact he
  · intro tape b _ _ _ _ hb
    exact hb
  · intro tape b _ _ _ _ hb
    exact hb

/-- **Every source is reported as a whole**, whatever it is and however it is read: the texts of
the data events, in their order, are the source without a leading byte order mark. The text that
was reported and the text that is left are the source at every step, and at the end nothing is
left. -/
theorem readDocument_text (o : Options) (source : String) :
    String.join ((readDocument o source).events.map Event.text) =
      String.ofList (if source.toList.head? = some '\uFEFF' then source.toList.tail
        else source.toList) := by
  have hs := (Attempt.conserves.phrase (fun o p tape => Attempt.conserves.read maxNesting o p tape)
    (.statements false .statement) o (.ofText (openSource source).1 (openSource source).2 0)
    (Tape.lexed_ofText _ _ _)).text
  have he : (readStatements o source).tape.ahead = [] := by
    rcases statements_end maxNesting o false (Tape.lexed_ofText _ _ _) with he | ⟨hf, -⟩
    · exact he
    · cases hf
  have ht : (openSource source).2 = (readStatements o source).trace.text := by
    rw [← Tape.text_ofText (openSource source).1 (openSource source).2 0, hs]
    show _ ++ (readStatements o source).tape.text = _
    rw [Tape.text_eq_nil he, List.append_nil]
    rfl
  rw [readDocument_eq, Trace.join_events, Attempt.text_framed, ← ht, openSource]
  split <;> rename_i hc
  · rw [hc]
    rfl
  · rw [if_neg]
    intro hh
    obtain ⟨cs, hcs⟩ := List.head?_eq_some_iff.1 hh
    exact hc cs hcs

end Heddle
