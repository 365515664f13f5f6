import Heddle.Proofs.Tree.Building

/-!
# Sources read into a builder that is in use

A builder can take a second source behind the first one, and a source in the middle of a node that
someone else has opened. The report of a source is the events of one committed node, so it does to
any builder what it does to a new one: **the document becomes a child of the innermost open node, or
the root if nothing is open**. Nothing of what was there before is lost but a node that waited for a
commit, which the start of the document drops as any start would.
-/

set_option autoImplicit false

namespace Heddle

/-- **Reading a source into a builder adds the tree of the source to it**, whatever the state of
the builder is. All events fit. Of the open nodes only the innermost one is changed, by the
document as its last child; the errors of the source stand behind those that were there; no node
waits. -/
theorem Builder.feed_readDocument_used (b : Builder) (o : Options) (source : String) :
    (b.feed (readDocument o source).events).2 = [] ∧
    ∃ document, (Parsed.ofSource o source).root = some document ∧ document.kind = .document ∧
      (b.feed (readDocument o source).events).1 =
        { stack := b.stack.modifyHead (·.withChild (.ofNode document))
          pending := none
          root := if b.stack.isEmpty then some document else b.root
          errors := b.errors ++ (Parsed.ofSource o source).errors } := by
  have hread := readDocument_node o source
  generalize (readStatements o source).tape.extent o.file (openSource source).1 = l at hread
  generalize (readStatements o source).trace ++ .ofNote (.location l) = inside at hread
  have hfresh : Parsed.ofSource o source =
      ⟨some ⟨.document, inside.location?, inside.forest⟩, inside.diagnostics⟩ := by
    rw [Parsed.ofSource, hread, Builder.feed_ofNode]
    rfl
  rw [hfresh, hread, Builder.feed_ofNode]
  exact ⟨rfl, _, rfl, rfl, rfl⟩

/-- A second source in a node that is open, with a node waiting in it. -/
example :
    let b : Builder :=
      { stack := [.opened .block, .opened .rule], pending := some (.opened .flag) }
    let after := (b.feed (readDocument {} "x = 1;").events).1
    after.stack.map (·.children.toList.length) = [1, 0] ∧ after.root = none ∧
      after.pending = none := by
  cbv

end Heddle
