import Heddle.Proofs.Reading.Moded

/-!
# Where calls may go without parentheses

The words behind a name in a string are most likely plain text, so no call goes without parentheses
there, whatever the option says. Behind the string the option holds again. **At every event outside
of strings the mode of the reader is the option that it was created with**, also behind strings
whose placeholders are malformed or cut off.
-/

set_option autoImplicit false

namespace Heddle

open Moded

/-- **Calls without parentheses stay where they are allowed.** Without the option none is started
in any source, and none is started while a string is open. A reader that keeps the mode in its
state reports the same events, its mode is the option at every event at which no string is open,
and it is the option behind the whole source.

The first two are about the events alone. The other three are about `readDocumentModed`, in which
a placeholder changes the mode and has to put it back. -/
theorem readDocument_modes (o : Options) (source : String) :
    (o.spacedCalls = false →
      .start .singleArgumentCall ∉ (readDocument o source).events) ∧
    (∀ before after,
      (readDocument o source).events = before ++ .start .singleArgumentCall :: after →
        .string ∉ Event.opened [] before) ∧
    (readDocumentModed o source).told.map (·.1) = (readDocument o source).events ∧
    (∀ before e mode after, (readDocumentModed o source).told = before ++ (e, mode) :: after →
      .string ∉ Event.opened [] (before.map (·.1)) → mode = o.spacedCalls) ∧
    (readDocumentModed o source).mode = o.spacedCalls := by
  obtain ⟨⟨hevents, hmodes⟩, -, -, hmode⟩ := follows_readDocumentModed o source
  rw [← readDocument_eq] at hevents
  have hcall (before after : List Event)
      (h : (readDocument o source).events = before ++ .start .singleArgumentCall :: after) :
      (Event.start .singleArgumentCall).InMode o.spacedCalls (Event.opened [] before) true := by
    rw [← hevents] at h
    obtain ⟨told, rest, hsplit, rfl, hrest⟩ := List.map_eq_append_iff.1 h
    obtain ⟨⟨e, mode⟩, told', rfl, rfl, -⟩ := List.map_eq_cons_iff.1 hrest
    rw [hsplit] at hmodes
    have hin := hmodes.inMode
    rwa [hin.call rfl] at hin
  refine ⟨fun ho hmem => ?_, fun before after h hs => ?_, hevents, ?_, hmode⟩
  · obtain ⟨before, after, h⟩ := List.append_of_mem hmem
    cases (hcall before after h).cleared ho
  · cases (hcall before after h).inString hs _ rfl
  · intro before e mode after h hs
    rw [h] at hmodes
    exact hmodes.inMode.outside hs

end Heddle
