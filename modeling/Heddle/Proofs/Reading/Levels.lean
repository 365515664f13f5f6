import Heddle.Proofs.Document.Nesting
import Heddle.Proofs.Grammar.Types
import Heddle.Proofs.Reading.Plain
import Heddle.Proofs.Reading.Runs
import Heddle.Proofs.Tree.Unplaced

/-!
# Levels that are left over

A reading is told how many levels of nodes may nest, and all that it does with the number is to fail
where none is left. So **a type that was read with some levels is read alike with fewer**, if its
tree does not need more (`Production.suffices_read`).

This is said of types because the tree tells enough there. Statements inside a construct may fail
and be skipped, and placeholders may be left out, and what was tried then is not in the tree; but
there are neither statements nor placeholders in a type.
-/

set_option autoImplicit false

namespace Heddle

open Attempt

/-! ## Trees of constructs -/

/-- What is plain has no nodes. -/
theorem Trace.Plain.nodes_and_height {t : Trace} (h : t.Plain) :
    t.forest.nodes = [] ∧ t.forest.height = 0 := by
  induction h with
  | nil => exact ⟨rfl, rfl⟩
  | @note n _ next _ ih => cases n <;> exact ih

/-- What is plain spells itself in the tree. -/
theorem Trace.Plain.chars_forest {t : Trace} (h : t.Plain) : t.forest.chars = t.text := by
  induction h with
  | nil => rfl
  | @note n _ next _ ih =>
    cases n with
    | data tag s =>
      rw [Trace.forest, Forest.chars_data, ih]
      rfl
    | _ => exact ih

/-- A node that succeeded is the tree of its attempt. -/
theorem Attempt.forest_framed {a : Attempt} (h : a.failure = none) (file : Option String)
    (kind : NodeKind) (start : Position) : (a.framed file kind start).trace.forest =
      .node kind (some (a.tape.extent file start)) a.trace.forest .nil := by
  simp only [framed, h, Trace.ofNode, Trace.forest, if_true, Trace.location?_append,
    Trace.forest_append, Trace.forest_location, Forest.append_nil]

/-- Of a node that failed nothing is kept. -/
theorem Attempt.forest_framed_of_failure {a : Attempt} {f : Failure} (h : a.failure = some f)
    (file : Option String) (kind : NodeKind) (start : Position) :
    (a.framed file kind start).trace.forest = .nil := by
  rw [framed, h]
  rfl

namespace Production

variable {p : Production} {o : Options} {tape : Tape}

theorem plain_lead (p : Production) (tape : Tape) : (p.lead tape).1.Plain := by
  unfold lead
  split
  · exact .nil
  · exact tape.plain_takeTrivia

theorem failure_enter (p : Production) (o : Options) (inside : Tape → Attempt) (tape : Tape) :
    (p.enter o inside tape).failure = (inside (p.lead tape).2).failure := by
  rw [enter_lead, failure_behind, failure_framed]

/-- A construct that was read is one node, one higher than its inside. The trivia in front of it
is no node. -/
theorem nodes_enter {inside : Tape → Attempt} (hf : (p.enter o inside tape).failure = none) :
    ∃ l, (p.enter o inside tape).trace.forest.nodes =
        [⟨p.kind, l, (inside (p.lead tape).2).trace.forest⟩] ∧
      (p.enter o inside tape).trace.forest.height =
        (inside (p.lead tape).2).trace.forest.height + 1 := by
  rw [failure_enter] at hf
  obtain ⟨hnodes, hheight⟩ := (p.plain_lead tape).nodes_and_height
  refine ⟨some ((inside (p.lead tape).2).tape.extent o.file (p.lead tape).2.place), ?_, ?_⟩
  · rw [enter_lead, trace_behind, Trace.forest_append, Forest.nodes_append, hnodes,
      forest_framed hf]
    rfl
  · rw [enter_lead, trace_behind, Trace.forest_append, Forest.height_append, hheight,
      forest_framed hf]
    simp [Forest.height]

end Production

/-! ## Fewer levels -/

/-- Whether all constructs in the phrase are types, and nothing in it outlives a failure. Only
then does the tree tell all that was tried. -/
def Phrase.isOfTypes : Phrase → Bool
  | node p => p.isType
  | andThen first second => first.isOfTypes && second.isOfTypes
  | choose _ yes no => yes.isOfTypes && no.isOfTypes
  | repeating _ body => body.isOfTypes
  | empty | take _ | trivia | expected _ => true
  | spacedCalls .. | orphan | statements .. | quoted .. | hexDigits | foreign => false

theorem Production.isOfTypes_body {p : Production} (h : p.isType = true) :
    p.body.isOfTypes = true := by
  cases p <;> first | rfl | cases h

/-- A type whose tree is no higher than `n` is read by `few` as it is read by `many`. -/
def Suffices (n : Nat) (few many : Options → Production → Tape → Attempt) : Prop :=
  ∀ (o : Options) (p : Production), p.isType = true → ∀ tape,
    (many o p tape).failure = none → (many o p tape).trace.forest.height ≤ n →
      few o p tape = many o p tape

/-- So is a phrase of types. -/
theorem Phrase.read_few {n : Nat} {few many : Options → Production → Tape → Attempt}
    (h : Suffices n few many) {q : Phrase} (hq : q.isOfTypes = true) (o : Options) (tape : Tape)
    (hf : (q.read many o tape).failure = none)
    (hh : (q.read many o tape).trace.forest.height ≤ n) :
    q.read few o tape = q.read many o tape := by
  have hbehind {a : Attempt} {next next' : Tape → Attempt}
      (hn : ∀ tape, (next tape).failure = none → (next tape).trace.forest.height ≤ n →
        next' tape = next tape)
      (hf : (a.andThen next).failure = none)
      (hh : (a.andThen next).trace.forest.height ≤ n) :
      a.trace.forest.height ≤ n ∧ a.failure = none ∧ a.andThen next' = a.andThen next := by
    obtain ⟨ha, hnext, he⟩ := andThen_succeeds hf
    rw [he, trace_behind, Trace.forest_append, Forest.height_append_le] at hh
    refine ⟨hh.1, ha, ?_⟩
    rw [andThen_of_none ha, andThen_of_none ha, hn _ hnext hh.2]
  -- The height of the whole bounds that of each part, so the hypothesis goes down the phrase with
  -- the reading.
  induction q generalizing tape with
  | node p => exact h o p hq tape hf hh
  | andThen first second ih₁ ih₂ =>
    obtain ⟨h₁, h₂⟩ := Bool.and_eq_true_iff.1 hq
    obtain ⟨hheight, hfirst, he⟩ := hbehind (ih₂ h₂) hf hh
    show (first.read few o tape).andThen _ = (first.read many o tape).andThen _
    rw [ih₁ h₁ tape hfirst hheight, he]
  | choose test yes no ihy ihn =>
    obtain ⟨hy, hn⟩ := Bool.and_eq_true_iff.1 hq
    rw [Phrase.read] at hf hh
    rw [Phrase.read, Phrase.read]
    split <;> rename_i ht
    · rw [if_pos ht] at hf hh
      exact ihy hy tape hf hh
    · rw [if_neg ht] at hf hh
      exact ihn hn tape hf hh
  | repeating test body ih =>
    rw [Phrase.read] at hf hh
    rw [Phrase.read, Phrase.read]
    generalize tape.size = rounds at *
    induction rounds generalizing tape with
    | zero => rfl
    | succ rounds ihr =>
      rw [Attempt.repeating] at hf hh
      rw [Attempt.repeating, Attempt.repeating]
      split <;> rename_i ht
      · rw [if_pos ht] at hf hh
        obtain ⟨hheight, hbody, he⟩ := hbehind ihr hf hh
        rw [ih hq tape hbody hheight, he]
      · rfl
  | empty | take | trivia | expected => rfl
  | spacedCalls | orphan | statements | quoted | hexDigits | foreign => cases hq

/-- **Levels that are left over do not matter** to the reading of a type. Pointers are read with
the levels of the document around them (`Document.Pointers`), and read back with as few as they
need. -/
theorem Production.suffices_read {n m : Nat} (h : n ≤ m) :
    Suffices n (Production.read n) (Production.read m) := by
  induction n generalizing m with
  | zero =>
    intro o p hp tape hf hh
    cases m with
    | zero => rfl
    | succ m =>
      obtain ⟨-, -, hheight⟩ := nodes_enter hf
      rw [Production.read, hheight] at hh
      omega
  | succ n ih =>
    intro o p hp tape hf hh
    cases m with
    | zero => omega
    | succ m =>
      obtain ⟨-, -, hheight⟩ := nodes_enter hf
      rw [Production.read] at hf hh
      rw [hheight] at hh
      rw [failure_enter] at hf
      rw [Production.read, Production.read, enter_lead, enter_lead,
        Phrase.read_few (ih (Nat.le_of_succ_le_succ h)) (isOfTypes_body hp) o _ hf
          (Nat.le_of_succ_le_succ hh)]

end Heddle
