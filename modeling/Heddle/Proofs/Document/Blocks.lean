import Mathlib
import Heddle.Proofs.Reading.Blocks

/-!
# Where the blocks of a source end

A block of the tree begins with a brace and ends with one, and in between more braces are open than
closed. Whether the two are partners is another matter: **every brace that was opened inside the
block by a construct that was given up is missing at the end of the block**
(`ofSource_blocks`). Behind the failure the reader skips to the end of the statement and counts
only the braces that it skips, so the brace that would have closed the construct closes the block.

A statement that has its own braces and can fail between them is a `switch` without branches, and
with it a block that does not end at its own brace is easily written (`not_closesItself`).
-/

set_option autoImplicit false

namespace Heddle

/-- All blocks at any depth, a block before those inside it, but none inside a quoted text. In a
string braces are no tokens of the source, so the count of the tokens says nothing of them. -/
def Forest.blocks : Forest → List Node
  | nil => []
  | data _ _ next => next.blocks
  | node kind location children next =>
    (if kind = .string then []
      else (if kind = .block then [⟨kind, location, children⟩] else []) ++ children.blocks) ++
      next.blocks

/-- A finished block, of which this was reported inside. -/
def Trace.block (inside : Trace) : Node := ⟨.block, inside.location?, inside.forest⟩

/-- The blocks of the tree are the blocks of the report. The report is what the readings are
about, and the tree is what a user sees. -/
theorem Trace.blocks_forest (t : Trace) : t.forest.blocks = t.blocks.map Trace.block := by
  induction t with
  | nil => rfl
  | note n next ih =>
    cases n with
    | data tag text => exact ih
    | _ => exact ih
  | node kind inside committed next ihi ihn =>
    cases committed with
    | false => simpa [forest, blocks] using ihn
    | true =>
      rw [forest, if_pos rfl, Forest.blocks, ihi, ihn, blocks]
      by_cases hs : kind = .string
      · simp [hs]
      by_cases hb : kind = .block
      · simp [hb, block]
      · simp [hs, hb]

namespace Attempt

open Tape

/-- What is left of a walk where nothing is known of the braces in front: each block is still a
group of braces. At the top of a source a closing brace may come at any time, and then the walk
through the statements begins anew behind it. -/
structure Placed (tape : Tape) (a : Attempt) : Prop where
  conserves : Conserves tape a
  used : ∃ used, Uses tape used a.tape
  blocks : ∀ inside ∈ a.trace.blocks, inside.Grouped tape.place.byte (braces tape.ahead)

namespace Placed

theorem of_walked {tape : Tape} {a : Attempt} {n m : Nat} (hc : Conserves tape a)
    (h : Walked tape n a m) : Placed tape a := by
  obtain ⟨used, hu, -⟩ := h.used
  exact ⟨hc, ⟨used, hu⟩, h.blocks⟩

theorem behind {tape : Tape} {a b : Attempt} (ha : Placed tape a) (hb : Placed a.tape b) :
    Placed tape (b.behind a.trace) := by
  obtain ⟨xs, hxs⟩ := ha.used
  obtain ⟨ys, hys⟩ := hb.used
  refine ⟨ha.conserves.behind hb.conserves, ⟨xs ++ ys, hxs.trans hys hb.conserves.byte_le⟩,
    fun inside hin => ?_⟩
  rw [trace_behind, Trace.blocks_append] at hin
  rcases List.mem_append.1 hin with hin | hin
  · exact ha.blocks inside hin
  · exact Walked.grouped_behind hxs ha.conserves.byte_le (hb.blocks inside hin)

/-- There is no block in what is skipped. Braces that are skipped are data of an invalid node. -/
theorem recover {tape : Tape} (h : tape.Lexed) (file : Option String) (inBlock : Bool)
    (f : Failure) : Placed tape (recover file inBlock f tape) := by
  refine ⟨.recover h file inBlock f, ⟨_, Walked.uses_takeMany .invalid _ h⟩, ?_⟩
  intro inside hin
  have hs := (Walked.silent_takeMany (show DataTag.invalid ≠ .punctuation by decide)
    (Tape.skipped inBlock 0 tape.ahead) tape).2.2
  have hblocks : (Attempt.recover file inBlock f tape).trace.blocks = [] := by
    show (_ ++ _ : Trace).blocks = []
    rw [Trace.blocks_append, Trace.blocks_ofNote, framed, failure_ofTaken]
    show [] ++ (Trace.ofNode .invalid _ true).blocks = []
    rw [Trace.blocks_committed (show NodeKind.invalid ≠ .string by decide), Trace.blocks_append,
      trace_ofTaken, hs]
    rfl
  rw [hblocks] at hin
  cases hin

end Placed

/-- Every block in a list of statements is a group of braces, also outside of any block, where a
closing brace ends nothing. Here the list is taken apart into walks, one behind each stray brace.
-/
theorem placed_statements (n : Nat) (o : Options) {tape : Tape} (h : tape.Lexed) :
    Placed tape ((Phrase.statements false .statement).read (Production.read n) o tape) := by
  have hd := tallied n
  have htrivia (tape : Tape) (h : tape.Lexed) : Placed tape (ofTaken tape.takeTrivia) :=
    .of_walked (Attempt.conserves.takeTrivia tape h) (Walked.trivia h 0)
  refine statements_rule (P := Placed) (fun tape h => hd.conserves_phrase .statement o h)
    (fun tape h => progress_statement n o h) (fun tape h _ => htrivia tape h) ?_ ?_ h
    (Nat.le_refl _)
  · intro tape b h _ _ r hb
    have ht := htrivia tape h
    exact ht.behind ((Placed.recover ht.conserves.lexed _ _ _).behind hb)
  · intro tape b h _ _ r hb
    have ht := htrivia tape h
    have hl := ht.conserves.lexed
    obtain ⟨m, hm, -⟩ := hd.walked_statement o _ hl
    have ha := Placed.of_walked (hd.conserves_phrase .statement o hl) hm
    have hr : Placed tape.takeTrivia.2 r := by
      show Placed _ (recovered o.file false _)
      unfold recovered
      split
      · exact ha.behind (.recover ha.conserves.lexed _ _ _)
      · exact ha
    exact ht.behind (hr.behind hb)

end Attempt

/-- **Where blocks end.** For every source, the blocks of the tree are those of the report. Each
begins and ends with a brace; up to its last brace more are open than closed, and there are as
many more opening ones as were abandoned inside it. So a block ends at its own brace exactly if no
construct inside it was given up with a brace open. -/
theorem ofSource_blocks (o : Options) (source : String) :
    ∃ root, (Parsed.ofSource o source).root = some root ∧
      root.children.blocks = (readDocument o source).blocks.map Trace.block ∧
      ∀ inside ∈ (readDocument o source).blocks, ∃ l, inside.location? = some l ∧
        StaysOpen ((braces (tokenize source)).filter l.covers) ∧
        openings ((braces (tokenize source)).filter l.covers) =
          closings ((braces (tokenize source)).filter l.covers) + inside.abandoned ∧
        (ClosesItself ((braces (tokenize source)).filter l.covers) ↔ inside.abandoned = 0) := by
  have hblocks : (readDocument o source).blocks = (readStatements o source).trace.blocks := by
    rw [readDocument_node, Trace.blocks_committed (show NodeKind.document ≠ .string from nofun),
      Trace.blocks_append]
    exact List.append_nil _
  -- The blocks of the report are known from the walk; what is left is to say it of the extents.
  refine ⟨_, by rw [Parsed.ofSource_eq], ?_, ?_⟩
  · rw [hblocks]
    exact Trace.blocks_forest _
  · intro inside hin
    rw [hblocks] at hin
    obtain ⟨l, opening, inner, closing, hl, -, hf, ho, hc, hw⟩ :=
      (Attempt.placed_statements maxNesting o (Tape.lexed_ofText _ _ _)).blocks inside hin
    have htokens : braces (tokenize source) =
        braces (Tape.ofText (openSource source).1 (openSource source).2 0).ahead := rfl
    rw [← htokens] at hf
    refine ⟨l, hl, ?_⟩
    rw [hf]
    have hstays := @staysOpen_of_walk opening closing inner _ ho hw
    have hnumber := openings_of_walk ho hc hw
    refine ⟨hstays, hnumber, ?_⟩
    constructor
    · intro h
      have := h.2
      omega
    · intro h
      exact ⟨hstays, by omega⟩

/-- The brace that would have closed the `switch` closes the block. -/
theorem not_closesItself :
    ¬ ∀ (o : Options) (source : String) (root : Node),
      (Parsed.ofSource o source).root = some root → ∀ b ∈ root.children.blocks, ∀ l,
        b.location = some l → ClosesItself ((braces (tokenize source)).filter l.covers) := by
  intro h
  have hfails : (Parsed.ofSource {} "b\x7bswitch(x)\x7bz\x7d\x7d").root.any (fun root =>
      root.children.blocks.any fun b => b.location.any fun l =>
        let bs := (braces (tokenize "b\x7bswitch(x)\x7bz\x7d\x7d")).filter l.covers
        openings bs != closings bs) = true := by cbv
  obtain ⟨root, hr, hroot⟩ := (Option.any_eq_true _ _).1 hfails
  obtain ⟨b, hb, hloc⟩ := List.any_eq_true.1 hroot
  obtain ⟨l, hl, hne⟩ := (Option.any_eq_true _ _).1 hloc
  exact bne_iff_ne.1 hne (h _ _ root hr b hb l hl).2

end Heddle
