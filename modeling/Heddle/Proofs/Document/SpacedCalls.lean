import Heddle.Proofs.Document.Whole
import Heddle.Proofs.Reading.SpacedCalls

/-!
# The option of calls without parentheses

A source that is read without an error when calls need their parentheses is read alike when they
do not, and so is a source in which no call goes without them. **The option only ever changes how
a source is read that is in error without it.**
-/

set_option autoImplicit false

namespace Heddle

/-- With and without calls that have no parentheses the report of a source is the same, unless
there is such a call; and then there is an error without them. The two readings go side by side up
to the first such call (`Reading.SpacedCalls`). -/
theorem readDocument_spacedCalls_cases (file : Option String) (source : String) :
    readDocument ⟨file, true⟩ source = readDocument ⟨file, false⟩ source ∨
    (readDocument ⟨file, true⟩ source).OpensSpacedCall ∧
      (readDocument ⟨file, false⟩ source).diagnostics ≠ [] := by
  have hstatement := Phrase.Parallel.closed (Attempt.diverging file maxNesting)
    (q := .statements false .statement) rfl
  have hall : Attempt.Parallel false
      ((readStatements ⟨file, true⟩ source).framed file .document (openSource source).1)
      ((readStatements ⟨file, false⟩ source).framed file .document (openSource source).1) :=
    (hstatement (.ofText (openSource source).1 (openSource source).2 0)).framed _ _ _
  rcases hall with he | ⟨ho, hc⟩
  · exact .inl (congrArg Attempt.trace he)
  · refine .inr ⟨ho, fun hd => ?_⟩
    cases (hc ⟨(Attempt.failure_framed _ _ _ _).trans (Attempt.failure_statements _ _ _ _ _), hd⟩).1

/-- **Calls without parentheses are a conservative extension**: a source that is read without an
error where calls need parentheses, or without such a call where they do not, is reported with the
very same events either way. -/
theorem readDocument_spacedCalls (file : Option String) (source : String)
    (h : (∀ d, .error d ∉ (readDocument ⟨file, false⟩ source).events) ∨
      .start .singleArgumentCall ∉ (readDocument ⟨file, true⟩ source).events) :
    (readDocument ⟨file, true⟩ source).events = (readDocument ⟨file, false⟩ source).events := by
  rcases readDocument_spacedCalls_cases file source with he | ⟨ho, hd⟩
  · exact congrArg Trace.events he
  · rcases h with hs | hn
    · exact absurd ((Trace.diagnostics_eq_nil_iff _).2 hs) hd
    · exact absurd ho hn

/-- In a placeholder a name, a blank and an argument are no call, with the option or without it. -/
theorem readDocument_spacedCalls_placeholder :
    (∀ d, .error d ∉ (readDocument ⟨none, false⟩ "f(\"%g 1\");").events) ∧
    (readDocument ⟨none, true⟩ "f(\"%g 1\");").events =
      (readDocument ⟨none, false⟩ "f(\"%g 1\");").events := by
  have hd : (readDocument ⟨none, false⟩ "f(\"%g 1\");").diagnostics = [] := by cbv
  have hs := (Trace.diagnostics_eq_nil_iff _).1 hd
  exact ⟨hs, readDocument_spacedCalls none "f(\"%g 1\");" (.inl hs)⟩

end Heddle
