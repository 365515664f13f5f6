import Mathlib
import Heddle.Proofs.Reading.Joints

/-!
# What combines the selectors of a source

Two selectors are combined by a sign or by the trivia between them, and of trivia it is the blanks
that are meant: the grammar has white space there, and only blanks become combinators. But a chain
goes on behind trivia of any sort. **A combinator without anything that combines is made of
comments**, at least one, and such combinators there are: a comment alone, with no blank around it,
takes a selector apart.
-/

set_option autoImplicit false

namespace Heddle

open Attempt

namespace Forest

/-- Some of it combines two selectors: a sign, or a run of blanks. -/
def HasCombinator (f : Forest) : Prop := ∃ text, .data .combinator text ∈ f.toList

/-- All of it is comments. Of an empty forest it holds as well, but a combinator is never empty.
-/
def IsComments (f : Forest) : Prop := ∀ e ∈ f.toList, ∃ text, e = .data .comment text

theorem Combines.hasCombinator_iff {f : Forest} (h : f.Combines) :
    f.HasCombinator ↔ ¬ f.IsComments := by
  constructor
  · rintro ⟨text, he⟩ hcomments
    obtain ⟨_, h⟩ := hcomments _ he
    cases h
  · intro hother
    simp only [IsComments, not_forall] at hother
    obtain ⟨e, he, hne⟩ := hother
    cases h with
    | sign hm => exact ⟨_, List.mem_cons_self⟩
    | gap _ hs =>
      cases hs e he with
      | blanks run => exact ⟨_, he⟩
      | lineComment | blockComment => exact absurd ⟨_, rfl⟩ hne

end Forest

/-- What combines two selectors in a source. It is what `Reading.Joints` says of every reading,
for that of a source. -/
theorem joined_readStatements (o : Options) (source : String) :
    (readStatements o source).trace.Joined := by
  have hstatements : (Phrase.statements false .statement).Joins Phrase.unseen :=
    Phrase.joins_of_isJointless rfl
  exact (joins_phrase (joins_read maxNesting) hstatements o _ (Tape.lexed_ofText _ _ _)).2

/-- **A combinator is a sign or trivia, and nothing combines in it if and only if it is made of
comments.** For every source, with or without errors, every combinator of the tree holds either
one of the three signs or a gap: one or more pieces, each of them a run of blanks, which combines,
or a comment, which does not. -/
theorem ofSource_combinators (o : Options) (source : String) :
    ∃ root, (Parsed.ofSource o source).root = some root ∧
      ∀ n ∈ root.findAll .combinator, n.children.Combines ∧
        (n.children.HasCombinator ↔ ¬ n.children.IsComments) := by
  rw [Parsed.ofSource_eq]
  refine ⟨_, rfl, fun n hn => ?_⟩
  have hcombines : n.children.Combines := joined_readStatements o source n hn
  exact ⟨hcombines, hcombines.hasCombinator_iff⟩

/-- A comment alone takes an element and its class apart: there are two selectors then, and the
comment stands for what combines them. -/
theorem not_hasCombinator :
    ¬ ∀ (o : Options) (source : String) (root : Node),
      (Parsed.ofSource o source).root = some root →
        ∀ n ∈ root.findAll .combinator, n.children.HasCombinator := by
  intro h
  have hcomment : (Parsed.ofSource {} "a/*c*/.b\x7b\x7d").root.any (fun root =>
      (root.findAll .combinator).any fun n =>
        n.children == .ofData .comment "/*c*/") = true := by cbv
  obtain ⟨root, hr, hroot⟩ := (Option.any_eq_true _ _).1 hcomment
  obtain ⟨n, hn, hchildren⟩ := List.any_eq_true.1 hroot
  obtain ⟨text, htext⟩ := h _ _ root hr n hn
  rw [beq_iff_eq.1 hchildren] at htext
  cases htext with
  | tail _ htext => cases htext

end Heddle
