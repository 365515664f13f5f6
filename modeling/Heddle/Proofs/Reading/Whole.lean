import Heddle.Proofs.Document.Protocol
import Heddle.Proofs.Reading.Extension

/-!
# What a reading without errors reports

A construct that fails gives up its node, and with the node all that was read inside it, and what
is skipped behind an error is marked as such. **Both can only happen next to an error.** A reading
that neither reported an error nor ended in one has therefore committed every node it started, and
nothing in it was skipped: its trace is `Whole`.

That the second half needs a look at the grammar is a matter of one role: a rule that took a token
as `invalid` would report it so without any error, and no rule does
(`Production.skipsNothing_body`).
-/

set_option autoImplicit false

namespace Heddle

/-- No error, nothing skipped, and every node committed with its extent. -/
inductive Trace.Whole : Trace → Prop where
  | nil : Whole nil
  | data {tag : DataTag} (ht : tag ≠ .invalid) (text : String) {next : Trace} (hn : Whole next) :
      Whole (note (.data tag text) next)
  /-- A fault is no event. -/
  | fault (start stop : Nat) {next : Trace} (hn : Whole next) :
      Whole (note (.fault start stop) next)
  | node {kind : NodeKind} (hk : kind ≠ .invalid) (l : Location) {inside next : Trace}
      (hi : Whole inside) (hn : Whole next) :
      Whole (node kind (inside ++ ofNote (.location l)) true next)

namespace Trace.Whole

theorem append {t u : Trace} (ht : t.Whole) (hu : u.Whole) : (t ++ u).Whole := by
  induction ht with
  | nil => exact hu
  | data ht text _ ih => exact .data ht text ih
  | fault start stop _ ih => exact .fault start stop ih
  | node hk l hi _ _ ih => exact .node hk l hi ih

theorem ofData {tag : DataTag} (ht : tag ≠ .invalid) (text : String) : (ofData tag text).Whole :=
  .data ht text .nil

end Trace.Whole

namespace Phrase

/-- Whether no token is taken as something skipped. It is checked for all rules at once by
evaluation. -/
def skipsNothing : Phrase → Bool
  | take tag => tag != .invalid
  | andThen first second => first.skipsNothing && second.skipsNothing
  | choose _ yes no | spacedCalls yes no => yes.skipsNothing && no.skipsNothing
  | repeating _ body => body.skipsNothing
  | statements _ statement => statement.skipsNothing
  | quoted named braced => named.skipsNothing && braced.skipsNothing
  | empty | trivia | node _ | expected _ | orphan | hexDigits | foreign => true

theorem skipsNothing_statement : statement.skipsNothing = true := by rfl

end Phrase

theorem Production.skipsNothing_body (p : Production) : p.body.skipsNothing = true := by
  cases p <;> rfl

theorem TokenKind.role_ne_invalid {tag : DataTag} (h : tag ≠ .invalid) (kind : TokenKind) :
    kind.role tag ≠ .invalid := by
  cases kind with
  | blank =>
    rw [role]
    split
    · exact DataTag.noConfusion
    · exact DataTag.noConfusion
  | lineComment | blockComment => exact DataTag.noConfusion
  | _ => exact h

namespace Attempt

/-- The attempt went wrong, or it lost nothing. In this form the property passes through `andThen`
without a word about failures. -/
def Complete (a : Attempt) : Prop := a.Clean → a.trace.Whole

namespace Complete

/-! ## Steps -/

theorem nothing (tape : Tape) : (ofTaken (.nil, tape)).Complete := fun _ => .nil

theorem fail (f : Failure) (tape : Tape) : (fail f tape).Complete := by
  intro h
  cases h.succeeds

theorem take {tag : DataTag} (ht : tag ≠ .invalid) (tape : Tape) :
    (ofTaken (tape.take tag)).Complete := by
  intro _
  rw [trace_ofTaken]
  unfold Tape.take
  split
  · exact .nil
  · exact .ofData (TokenKind.role_ne_invalid ht _) _

/-- Both parts of a clean attempt are clean. -/
theorem andThen {a : Attempt} {next : Tape → Attempt} (ha : a.Complete)
    (hn : ∀ tape, (next tape).Complete) : (a.andThen next).Complete := by
  intro h
  obtain ⟨hc, hnext, he⟩ := h.of_andThen
  rw [he]
  exact (ha hc).append (hn _ hnext)

theorem takeMany {tag : DataTag} (ht : tag ≠ .invalid) (n : Nat) (tape : Tape) :
    (ofTaken (tape.takeMany tag n)).Complete := by
  induction n generalizing tape with
  | zero => exact .nothing tape
  | succ n ih =>
    rw [ofTaken_takeMany_succ]
    exact (take ht tape).andThen ih

theorem takeTrivia (tape : Tape) : (ofTaken tape.takeTrivia).Complete :=
  takeMany (by decide) _ tape

/-- A node that is given up belongs to an attempt that failed. -/
theorem framed {a : Attempt} (ha : a.Complete) (file : Option String) {kind : NodeKind}
    (hk : kind ≠ .invalid) (start : Position) : (a.framed file kind start).Complete := by
  intro h
  have hw := ha h.of_framed
  rw [Attempt.framed, h.of_framed.succeeds]
  exact .node hk _ hw .nil

/-- What is skipped is skipped behind an error. -/
theorem recover (file : Option String) (inBlock : Bool) (f : Failure) (tape : Tape) :
    (recover file inBlock f tape).Complete := by
  intro h
  have hs := h.silent
  rw [Attempt.recover, trace_behind, Trace.diagnostics_append] at hs
  cases hs

theorem recovered {a : Attempt} (ha : a.Complete) (file : Option String) (inBlock : Bool) :
    (recovered file inBlock a).Complete := by
  intro h
  obtain ⟨hc, he⟩ := h.of_recovered
  rw [he]
  exact ha hc

theorem repeating {test : List Token → Bool} {body : Tape → Attempt}
    (hb : ∀ tape, (body tape).Complete) (rounds : Nat) (tape : Tape) :
    (repeating test body rounds tape).Complete := by
  induction rounds generalizing tape with
  | zero => exact .nothing tape
  | succ n ih =>
    rw [Attempt.repeating]
    split
    · exact (hb tape).andThen ih
    · exact .nothing tape

theorem statements {file : Option String} {inBlock : Bool} {statement : Tape → Attempt}
    (hs : ∀ tape, (statement tape).Complete) (rounds : Nat) (tape : Tape) :
    (statements file inBlock statement rounds tape).Complete := by
  induction rounds generalizing tape with
  | zero => exact .takeTrivia tape
  | succ n ih =>
    rw [Attempt.statements]
    refine (takeTrivia tape).andThen fun tape => ?_
    split
    · exact .nothing tape
    split
    · split
      · exact .nothing tape
      · exact (recover _ _ _ _).andThen ih
    · exact ((hs tape).recovered _ _).andThen ih

/-! ## Taking tokens apart -/

theorem whole_cut {t : Token} {start stop : Nat} {use : List Char → Trace}
    (hu : ∀ cs, (use cs).Whole) : (cut t start stop use).Whole := by
  unfold cut
  split
  · exact hu _
  · exact .fault _ _ .nil

theorem whole_pieceIfAny {tag : DataTag} (ht : tag ≠ .invalid) (cs : List Char) :
    (pieceIfAny tag cs).Whole := by
  unfold pieceIfAny
  split
  · exact .nil
  · exact .ofData ht _

/-- What is left of a placeholder that failed is skipped behind the error it reports. -/
theorem whole_placeholder {file : Option String} {read : Tape → Attempt}
    (hr : ∀ window, (read window).Complete) (t : Token) (reach : Nat) (p : Placeholder)
    (hs : (placeholder file read t reach p).trace.diagnostics = []) :
    (placeholder file read t reach p).trace.Whole := by
  unfold placeholder at hs ⊢
  split
  · exact .fault _ _ .nil
  · rename_i cs hslice
    simp only [hslice] at hs ⊢
    split <;> rename_i hf
    · simp only [hf] at hs
      exact hr _ ⟨hf, hs⟩
    · simp only [hf] at hs
      split at hs
      · simp at hs
      · simp at hs

theorem whole_interpolated {file : Option String} {read : Bool → Tape → Attempt}
    (hr : ∀ isBraced window, (read isBraced window).Complete) (t : Token) (ps : List Placeholder)
    (start reach : Nat) (hs : (interpolated file read t start reach ps).diagnostics = []) :
    (interpolated file read t start reach ps).Whole := by
  induction ps generalizing start reach with
  | nil => exact whole_cut fun _ => .ofData (by decide) _
  | cons p ps ih =>
    rw [interpolated] at hs ⊢
    split
    · rename_i hlt
      rw [if_pos hlt] at hs
      exact ih _ _ hs
    · rename_i hlt
      simp only [if_neg hlt, Trace.diagnostics_append, List.append_eq_nil_iff] at hs
      obtain ⟨⟨-, hp⟩, hrest⟩ := hs
      exact ((whole_cut fun _ => whole_pieceIfAny (by decide) _).append
        (whole_placeholder (hr p.braced) t reach p hp)).append (ih _ _ hrest)

theorem quoted {file : Option String} {read : Bool → Tape → Attempt}
    (hr : ∀ isBraced window, (read isBraced window).Complete) (tape : Tape) :
    (quoted file read tape).Complete := by
  intro h
  have hs := h.silent
  unfold Attempt.quoted at hs ⊢
  split
  · exact .nil
  · rename_i t ts ha
    simp only [ha] at hs ⊢
    cases hp : t.kind.placeholders?.getD [] with
    | nil => exact .ofData (by decide) _
    | cons p ps =>
      simp only [hp] at hs
      exact whole_interpolated hr t _ _ _ hs

theorem hexDigits (tape : Tape) : (hexDigits tape).Complete := by
  intro _
  unfold Attempt.hexDigits
  split
  · split
    · exact .ofData (by decide) _
    · exact .nil
  · exact .nil

theorem foreign (tape : Tape) : (foreign tape).Complete := by
  intro _
  unfold Attempt.foreign
  split
  · exact .nil
  split
  · have htag (sign language : String) : (Trace.ofData .punctuation sign ++
        .ofData .language language ++ .ofData .punctuation ">").Whole :=
      ((Trace.Whole.ofData (by decide) _).append (.ofData (by decide) _)).append
        (.ofData (by decide) _)
    exact ((htag _ _).append (whole_cut fun _ => whole_pieceIfAny (by decide) _)).append
      (htag _ _)
  · exact .nil

/-! ## Phrases and constructs -/

/-- A phrase that takes nothing as skipped loses nothing if its constructs do not. -/
theorem phrase {descend : Options → Production → Tape → Attempt}
    (hd : ∀ o p tape, (descend o p tape).Complete) (q : Phrase) (hq : q.skipsNothing = true)
    (o : Options) (tape : Tape) : (q.read descend o tape).Complete := by
  induction q generalizing o tape with
  | empty => exact .nothing tape
  | take tag => exact .take (by simpa [Phrase.skipsNothing] using hq) tape
  | trivia => exact .takeTrivia tape
  | node p => exact hd o p tape
  | andThen first second ih₁ ih₂ =>
    obtain ⟨h₁, h₂⟩ := Bool.and_eq_true_iff.1 hq
    exact (ih₁ h₁ o tape).andThen (ih₂ h₂ o)
  | choose test yes no ihy ihn =>
    obtain ⟨hy, hn⟩ := Bool.and_eq_true_iff.1 hq
    rw [Phrase.read]
    split
    · exact ihy hy o tape
    · exact ihn hn o tape
  | repeating test body ih => exact .repeating (ih hq o) _ tape
  | spacedCalls yes no ihy ihn =>
    obtain ⟨hy, hn⟩ := Bool.and_eq_true_iff.1 hq
    rw [Phrase.read]
    split
    · exact ihy hy o tape
    · exact ihn hn o tape
  | expected wanted => exact .fail _ tape
  | orphan => exact .fail _ tape
  -- What is skipped is left to recovery, and its error says that something is missing.
  | statements inBlock statement ih => exact .statements (ih hq o) _ tape
  | quoted named braced ihn ihb =>
    obtain ⟨hn, hb⟩ := Bool.and_eq_true_iff.1 hq
    refine .quoted (fun isBraced window => ?_) tape
    split
    · exact ihb hb _ window
    · exact ihn hn _ window
  | hexDigits => exact .hexDigits tape
  | foreign => exact .foreign tape

theorem enter (p : Production) (o : Options) {inside : Tape → Attempt}
    (hi : ∀ tape, (inside tape).Complete) (tape : Tape) : (p.enter o inside tape).Complete := by
  rw [Production.enter_eq]
  split
  · exact (hi tape).framed _ p.kind_ne_invalid _
  · exact (takeTrivia tape).andThen fun tape => (hi tape).framed _ p.kind_ne_invalid _

/-- **A construct that is read without an error is reported as a whole**, however deep nodes may
nest. `Document.Whole` makes a statement about trees of it. -/
theorem read (n : Nat) (o : Options) (p : Production) (tape : Tape) :
    (Production.read n o p tape).Complete := by
  induction n generalizing o p tape with
  | zero => exact .enter p o (fun tape => .fail _ tape) tape
  | succ n ih => exact .enter p o (phrase ih p.body p.skipsNothing_body o) tape

end Complete

end Attempt

end Heddle
