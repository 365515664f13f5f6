import Heddle.Proofs.Reading.Derived

/-!
# The tree of a source is derived

Whatever the source is, every node of its tree has the children that the grammar gives it: what was
committed is never a mixture with the leftovers of something that was given up. The errors of a
source show in its tree only where the expressions of the grammar allow it, as nodes of what was
skipped and as the invalid ends of placeholders.
-/

set_option autoImplicit false

namespace Heddle

open Attempt

/-- A statement leaves a statement behind, or nothing. A statement that has failed has left what
it read as data and as nodes that are not committed. -/
theorem spellsStatements_statement (n : Nat) (o : Options) :
    SpellsStatements (Phrase.statement.read (Production.read n) o) := by
  have hd := derives_read n
  refine ⟨fun tape h => ?_, fun tape h => ?_, fun tape h => ?_⟩
  · exact hd.conserves_phrase o Phrase.statement h
  · exact hd.sound o (@Phrase.spells_statement Phrase.unseen) h rfl
  · exact hd.silent_phrase rfl o h

/-- What is read of a source is a list of statements, with invalid nodes among them for what was
skipped. -/
theorem spelt_readStatements (o : Options) (source : String) :
    (readStatements o source).trace.Spelt .statements :=
  (spellsStatements_statement maxNesting o).statements _ _ _ (Tape.lexed_ofText _ _ _)

/-- **Trees are derivations of the grammar.** For every source, with or without errors, the tree
is a document, and the children of each of its nodes, without the trivia among them, match the
regular expression of the kind of the node. -/
theorem ofSource_derived (o : Options) (source : String) :
    ∃ root, (Parsed.ofSource o source).root = some root ∧ root.kind = .document ∧
      root.IsDerived ∧ ∀ kind, ∀ n ∈ root.findAll kind, n.IsDerived := by
  have hs := spelt_readStatements o source
  rw [Parsed.ofSource_eq]
  refine ⟨_, rfl, rfl, hs.symbols, ?_⟩
  exact fun kind => hs.derived.of_findAll kind

end Heddle
