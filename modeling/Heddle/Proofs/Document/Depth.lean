import Heddle.Proofs.Reading.Nested

/-!
# How deep a report nests

Nodes are opened in four ways: by a construct, by a construct that keeps the trivia in front of it,
by the document, and by what is skipped behind an error. Only the first two use up the allowance,
and the start of a construct comes before the look at what is left of it. Still the report is
bounded: a document, so many levels as there are allowances, and **one node more, be it the one that
is begun in vain or the one that is skipped**. As to the first, it is begun in vain only when all
the levels are in use.

The bound on what is open is a bound on whoever listens. The stack of a builder is what is open, and
the tree is not higher than the report.
-/

set_option autoImplicit false

namespace Heddle

theorem nested_readStatements (o : Options) (source : String) :
    (readStatements o source).Nested maxNesting :=
  Attempt.nested_phrase (Attempt.nested_read maxNesting) _ o _

/-- The report of a source, with the document around it, which is one node more. -/
theorem nested_readDocument (o : Options) (source : String) :
    (readDocument o source).Nested (maxNesting + 1) :=
  ((nested_readStatements o source).framed .document _).trace

/-- **No source opens more than 258 nodes at a time**, the document included, so no builder has
more on its stack and no tree is higher. An error about nesting is reported behind a node that was
begun when `maxNesting` nodes below the document were open, and behind nothing else than the stops
of what the failure ended.

The bound is on the height of the report; open nodes, the stack and the tree are compared with it
one after the other. -/
theorem readDocument_depth (o : Options) (source : String) :
    (∀ before after, (readDocument o source).events = before ++ after →
      (Event.opened [] before).length ≤ maxNesting + 2 ∧
      (({} : Builder).feed before).1.depth ≤ maxNesting + 2) ∧
    (∃ root, (Parsed.ofSource o source).root = some root ∧
      root.children.height + 1 ≤ maxNesting + 2) ∧
    ∀ before d after, (readDocument o source).events = before ++ .error d :: after →
      d.message = Cause.tooDeep.message →
      ∃ front kind stops below, before = front ++ .start kind :: stops ∧
        (∀ e ∈ stops, ∃ kind, e = .stop kind) ∧
        Event.opened [] front = below ++ [.document] ∧ below.length = maxNesting := by
  have hn := nested_readDocument o source
  refine ⟨fun before after h => ?_, ?_, fun before d after h hd => ?_⟩
  · have hw : Event.Within (maxNesting + 2) [] (readDocument o source).events := by
      apply Trace.within_events
      rw [List.length_nil, Nat.zero_add]
      exact hn.height_le
    have hb := hw before ⟨after, h.symm⟩
    exact ⟨hb, by rwa [Builder.depth_feed]⟩
  · refine ⟨_, congrArg Parsed.root (Parsed.ofSource_eq o source), ?_⟩
    have hheight := (readStatements o source).trace.height_forest_le
    have hs := (nested_readStatements o source).trace.height_le
    show (readStatements o source).trace.forest.height + 1 ≤ maxNesting + 2
    omega
  · -- All errors are reported inside the document.
    rw [readDocument_node, Trace.events_ofNode, Trace.events_append, List.append_assoc] at h
    have hinside := (nested_readStatements o source).trace.justified
    have hrest (l : Location) (d : Diagnostic) : .error d ∉
        (Trace.ofNote (.location l)).events ++ (.stop .document :: [.commit]) := by
      simp [Trace.events, Trace.ofNote, Note.event?]
    obtain ⟨mid, rfl, hmid⟩ := hinside.inside (hrest _) h hd
    obtain ⟨front, kind, stops, rfl, hstops, hopen⟩ := hmid
    obtain ⟨below, hbelow, hl⟩ := hopen [.document]
    exact ⟨.start .document :: front, kind, stops, below, rfl, hstops, hbelow, hl⟩

end Heddle
