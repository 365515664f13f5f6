import Mathlib
import Heddle.Proofs.Reading.Whole

/-!
# An error-free source has a tree that loses nothing

The tree of a source with errors can be smaller than the source, since a node that is dropped takes
its text with it. Without errors nothing is dropped: what is reported inside the document keeps to
a grammar with two rules, data and committed nodes (`Event.Flawless`), and **the text of the tree
is the text of the source**.

Whatever the source is, a builder that has seen all its events has closed what it opened, and its
root is the document.
-/

set_option autoImplicit false

namespace Heddle

/-- The tags of all data, at any depth. -/
def Forest.tags : Forest → List DataTag
  | nil => []
  | data tag _ next => tag :: next.tags
  | node _ _ children next => children.tags ++ next.tags

/-- What is reported inside an open node if nothing is wrong: data, and nodes that are committed
with their extents. Of the rules of `Event.Contents` those for errors and for dropped nodes are
missing, and what is invalid is excluded. -/
inductive Event.Flawless : List Event → Prop where
  | nil : Flawless []
  | data {tag : DataTag} (ht : tag ≠ .invalid) (text : String) {next : List Event}
      (hn : Flawless next) : Flawless (.data tag text :: next)
  | node {kind : NodeKind} (hk : kind ≠ .invalid) (l : Location) {inside next : List Event}
      (hi : Flawless inside) (hn : Flawless next) :
      Flawless (.start kind :: (inside ++ .location l :: .stop kind :: .commit :: next))

namespace Trace

/-- The errors of a trace are the error events of its report. -/
theorem error_mem_events (t : Trace) (d : Diagnostic) :
    .error d ∈ t.events ↔ d ∈ t.diagnostics := by
  induction t with
  | nil => simp [events, diagnostics, errors, notes]
  | note n next ih =>
    rw [show note n next = ofNote n ++ next from rfl, events_append, diagnostics_append,
      List.mem_append, List.mem_append, ih]
    cases n <;> simp [events, ofNote, Note.event?, diagnostics, errors, notes]
  | node kind inside committed next ihi ihn =>
    rw [show node kind inside committed next = ofNode kind inside committed ++ next from rfl,
      events_append, diagnostics_append, diagnostics_ofNode, List.mem_append, List.mem_append,
      ← ihi, ihn]
    cases committed <;> simp [events, ofNode]

/-- A trace without errors has no error event. -/
theorem diagnostics_eq_nil_iff (t : Trace) : t.diagnostics = [] ↔ ∀ d, .error d ∉ t.events := by
  simp only [error_mem_events]
  exact List.eq_nil_iff_forall_not_mem

namespace Whole

variable {t : Trace}

theorem flawless (h : t.Whole) : Event.Flawless t.events := by
  induction h with
  | nil => exact .nil
  | data ht text _ ih => exact .data ht text ih
  | fault start stop _ ih => exact ih
  | node hk l _ _ ihi ihn =>
    have h := Event.Flawless.node hk l ihi ihn
    simpa [events, ofNote, Note.event?] using h

/-- The tree keeps the whole text, since no node is left out of it. -/
theorem text_forest (h : t.Whole) : t.forest.text = String.ofList t.text := by
  induction h with
  | nil => rfl
  | data ht text _ ih => simp [forest, Forest.text, ih, Trace.text, notes, Note.chars]
  | fault start stop _ ih => exact ih
  | node hk l _ _ ihi ihn =>
    simp [forest, Forest.text, ihi, ihn, Trace.text, notes, ofNote, Note.chars]

theorem findAll_invalid (h : t.Whole) : t.forest.findAll .invalid = [] := by
  induction h with
  | nil => rfl
  | data ht text _ ih => exact ih
  | fault start stop _ ih => exact ih
  | node hk l _ _ ihi ihn => simp [forest, Forest.findAll, hk, ihi, ihn]

theorem invalid_not_mem_tags (h : t.Whole) : .invalid ∉ t.forest.tags := by
  induction h with
  | nil => exact List.not_mem_nil
  | data ht text _ ih => simp [forest, Forest.tags, ht.symm, ih]
  | fault start stop _ ih => exact ih
  | node hk l _ _ ihi ihn => simp [forest, Forest.tags, ihi, ihn]

end Whole

end Trace

/-- A source without errors is read without a loss. -/
theorem whole_readStatements (o : Options) (source : String)
    (h : (readStatements o source).trace.diagnostics = []) :
    (readStatements o source).trace.Whole :=
  Attempt.Complete.phrase (Attempt.Complete.read maxNesting) (.statements false .statement)
    Phrase.skipsNothing_statement o _ ⟨Attempt.failure_statements _ _ _ _ _, h⟩

/-- **A builder ends with nothing open and with a document that has its extent. Without errors,
every node that was started was committed, the tree has nothing that was skipped, and its text is
the source** without a leading byte order mark. -/
theorem feed_whole (o : Options) (source : String) :
    (({} : Builder).feed (readDocument o source).events).1.depth = 0 ∧
    ∃ root, (({} : Builder).feed (readDocument o source).events).1.root = some root ∧
      root.kind = .document ∧ root.location.isSome = true ∧
      ((∀ d, .error d ∉ (readDocument o source).events) →
        (∃ inside l, Event.Flawless inside ∧ (readDocument o source).events =
          .start .document :: (inside ++ [.location l, .stop .document, .commit])) ∧
        root.findAll .invalid = [] ∧ .invalid ∉ root.children.tags ∧
        root.text = String.ofList (if source.toList.head? = some '\uFEFF' then
          source.toList.tail else source.toList)) := by
  rw [Builder.feed_readDocument]
  refine ⟨rfl, _, rfl, rfl, rfl, fun hsilent => ?_⟩
  have hs : (readStatements o source).trace.diagnostics = [] := by
    rw [← Trace.diagnostics_eq_nil_iff, readDocument_node, Trace.diagnostics_ofNode,
      Trace.diagnostics_append, Trace.diagnostics_location, List.append_nil] at hsilent
    exact hsilent
  have hw := whole_readStatements o source hs
  refine ⟨⟨_, (readStatements o source).tape.extent o.file (openSource source).1, hw.flawless, ?_⟩,
    hw.findAll_invalid, hw.invalid_not_mem_tags, ?_⟩
  · rw [readDocument_node]
    simp [Trace.events, Trace.ofNode, Trace.ofNote, Note.event?]
  · -- All text is reported, and all that is reported is in the tree.
    have hd := readDocument_text o source
    rw [Trace.join_events, readDocument_eq, Attempt.text_framed] at hd
    exact hw.text_forest.trans hd

/-- The tree of a declaration with a placeholder in it has the text of the declaration. -/
theorem feed_whole_declaration :
    (∀ d, .error d ∉ (readDocument {} "\uFEFFvar x = \"%y\";").events) ∧
    ∃ root, (({} : Builder).feed
        (readDocument {} "\uFEFFvar x = \"%y\";").events).1.root = some root ∧
      root.text = "var x = \"%y\";" := by
  have hd : (readDocument {} "\uFEFFvar x = \"%y\";").diagnostics = [] := by cbv
  have hs := (Trace.diagnostics_eq_nil_iff _).1 hd
  obtain ⟨-, root, hroot, -, -, hw⟩ := feed_whole {} "\uFEFFvar x = \"%y\";"
  exact ⟨hs, root, hroot, (hw hs).2.2.2⟩

end Heddle
