import Heddle.Proofs.Reading.Runs
import Heddle.Proofs.Document.Text

/-!
# Every source is read to its end

A reading is counted, and what is counted ends. This says nothing of a reader that goes round its
loops until they are done. **Such a reader ends as well**: without any count of rounds, a source is
read in one way only, in finitely many steps, and every round of every loop that goes on has gone
strictly forward. What it reports is what is reported with the count, so the count is never what
ends a loop.

Going forward is all that ends a loop. What ends the nesting of constructs is that a node too many
is given up, since a placeholder goes back into the token it stands in, and a construct may begin
with another one.
-/

set_option autoImplicit false

namespace Heddle

/-- **Every source has one reading without counts of rounds**, in which each round that does not
end its loop goes strictly forward, and it reports what the source is read as. That there is one
is the termination, that there is only one makes it the reading. -/
theorem readDocument_runs (o : Options) (source : String) :
    ∃ a, (Phrase.statements false .statement).Runs 0 o
        (.ofText (openSource source).1 (openSource source).2 0) a ∧
      (∀ b, (Phrase.statements false .statement).Runs 0 o
        (.ofText (openSource source).1 (openSource source).2 0) b → b = a) ∧
      (a.framed o.file .document (openSource source).1).trace = readDocument o source := by
  have hlexed := Tape.lexed_ofText (openSource source).1 (openSource source).2 0
  have hadvances : (Phrase.statements false .statement).advances = true := by rfl
  have hdepth : 0 + maxNesting = maxNesting := Nat.zero_add _
  have hnode := Phrase.runs_read maxNesting 0 hdepth
  refine ⟨readStatements o source, ?_, fun b hb => ?_, rfl⟩
  · exact Phrase.runs_phrase hnode _ hadvances o _ hlexed
  · exact Phrase.eq_read_of_runs hb hadvances hlexed hdepth

end Heddle
