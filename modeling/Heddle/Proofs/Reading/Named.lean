import Heddle.Proofs.Tree.Pruned

/-!
# Files under other names

The name of the file is handed to a reading only to be written into extents and errors. So **a
source reads alike under every name** (`named_readDocument`): the report is the same but for the
name, and whether there are errors is a matter of the text alone. Whoever reads several files under
their own names can thus ask of each text whether it has errors, and forget where it came from.

Each step of a reading has its equation, which takes the new name inward to the steps it is made of.
-/

set_option autoImplicit false

namespace Heddle

/-! ## Reports under another name -/

def Location.named (file : Option String) (l : Location) : Location := { l with file }

def Diagnostic.named (file : Option String) (d : Diagnostic) : Diagnostic := { d with file }

def Note.named (file : Option String) : Note → Note
  | data tag text => data tag text
  | location l => location (l.named file)
  | error scope d => error scope (d.named file)
  | fault start stop => fault start stop

/-- The trace of the same text in a file of another name. Nothing else in it changes, so the text,
the tree and the number of errors are the same by definition. -/
def Trace.named (file : Option String) : Trace → Trace
  | nil => nil
  | note n next => note (n.named file) (next.named file)
  | node kind inside committed next => node kind (inside.named file) committed (next.named file)

/-- The attempt at the same text in a file of another name. -/
def Attempt.named (file : Option String) (a : Attempt) : Attempt :=
  { a with trace := a.trace.named file }

variable (file : Option String)

namespace Trace

@[simp] theorem named_append (t u : Trace) :
    (t ++ u).named file = t.named file ++ u.named file := by
  induction t with
  | nil => rfl
  | note n next ih => simp [named, ih]
  | node kind inside committed next _ ih => simp [named, ih]

theorem diagnostics_named (t : Trace) :
    (t.named file).diagnostics = t.diagnostics.map (·.named file) := by
  have hnotes : ∀ t : Trace, (t.named file).notes = t.notes.map (·.named file) := by
    intro t
    induction t with
    | nil => rfl
    | note n next ih => simp [named, notes, ih]
    | node kind inside committed next ihi ihn => simp [named, notes, ihi, ihn]
  unfold diagnostics errors
  rw [hnotes]
  induction t.notes with
  | nil => rfl
  | cons n ns ih =>
    cases n with
    | error scope d => exact congrArg (d.named file :: ·) ih
    | _ => exact ih

end Trace

/-! ## Taking tokens -/

namespace Tape

theorem named_take (tag : DataTag) (tape : Tape) :
    (tape.take tag).1.named file = (tape.take tag).1 := by
  unfold take
  split <;> rfl

theorem named_takeMany (tag : DataTag) (n : Nat) (tape : Tape) :
    (tape.takeMany tag n).1.named file = (tape.takeMany tag n).1 := by
  induction n generalizing tape with
  | zero => rfl
  | succ n ih =>
    show ((tape.take tag).1 ++ ((tape.take tag).2.takeMany tag n).1).named file = _
    rw [Trace.named_append, named_take, ih]
    rfl

theorem named_takeTrivia (tape : Tape) : tape.takeTrivia.1.named file = tape.takeTrivia.1 :=
  named_takeMany _ _ _ _

end Tape

/-! ## Attempts -/

namespace Attempt

variable {file' : Option String}

/-- What was taken names no file. -/
theorem named_ofTaken {taken : Trace × Tape} (h : taken.1.named file = taken.1) :
    (ofTaken taken).named file = ofTaken taken :=
  congrArg (Attempt.mk · taken.2 none) h

theorem named_andThen (a : Attempt) (next : Tape → Attempt) :
    (a.andThen next).named file = (a.named file).andThen fun tape => (next tape).named file := by
  obtain ⟨trace, tape, failure⟩ := a
  cases failure with
  | some f => rfl
  | none => simp [andThen, named]

theorem named_behind (lead : Trace) (a : Attempt) :
    (a.behind lead).named file = (a.named file).behind (lead.named file) := by
  simp [behind, named]

theorem named_framed (kind : NodeKind) (start : Position) (a : Attempt) :
    (a.framed file' kind start).named file = (a.named file).framed file kind start := by
  obtain ⟨trace, tape, failure⟩ := a
  cases failure with
  | some f => rfl
  | none => simp [framed, named, Trace.ofNode, Trace.named, Trace.ofNote, Note.named,
      Location.named, Tape.extent]

theorem named_repeating (test : List Token → Bool) (body : Tape → Attempt) (rounds : Nat)
    (tape : Tape) : (repeating test body rounds tape).named file =
      repeating test (fun tape => (body tape).named file) rounds tape := by
  induction rounds generalizing tape with
  | zero => rfl
  | succ rounds ih =>
    unfold repeating
    split
    · rw [named_andThen, funext ih]
    · rfl

theorem named_recover (inBlock : Bool) (f : Failure) (tape : Tape) :
    (recover file' inBlock f tape).named file = recover file inBlock f tape := by
  unfold recover
  rw [named_behind, named_framed, named_ofTaken file (tape.named_takeMany _ _ _)]
  rfl

theorem named_recovered (inBlock : Bool) (a : Attempt) :
    (recovered file' inBlock a).named file = recovered file inBlock (a.named file) := by
  obtain ⟨trace, tape, failure⟩ := a
  cases failure with
  | none => rfl
  | some f =>
    show ((recover file' inBlock f tape).behind trace).named file = _
    rw [named_behind, named_recover]
    rfl

theorem named_statements (inBlock : Bool) (statement : Tape → Attempt) (rounds : Nat)
    (tape : Tape) : (statements file' inBlock statement rounds tape).named file =
      statements file inBlock (fun tape => (statement tape).named file) rounds tape := by
  induction rounds generalizing tape with
  | zero => exact named_ofTaken file (tape.named_takeTrivia file)
  | succ rounds ih =>
    unfold statements
    rw [named_andThen, named_ofTaken file (tape.named_takeTrivia file)]
    congr 1
    funext tape
    split
    · rfl
    · split
      · split
        · rfl
        · rw [named_andThen, named_recover, funext ih]
      · rw [named_andThen, named_recovered, funext ih]

/-! ## Inside tokens -/

theorem named_cut {use : List Char → Trace} (h : ∀ cs, (use cs).named file = use cs) (t : Token)
    (start stop : Nat) : (cut t start stop use).named file = cut t start stop use := by
  unfold cut
  split
  · exact h _
  · rfl

theorem named_pieceIfAny (tag : DataTag) (cs : List Char) :
    (pieceIfAny tag cs).named file = pieceIfAny tag cs := by
  unfold pieceIfAny
  split <;> rfl

theorem named_hexDigits (tape : Tape) : (hexDigits tape).named file = hexDigits tape := by
  unfold hexDigits
  split
  · split <;> rfl
  · rfl

theorem named_foreign (tape : Tape) : (foreign tape).named file = foreign tape := by
  unfold foreign
  split
  · rfl
  · split
    · apply named_ofTaken
      simp only [Trace.named_append, named_cut file (named_pieceIfAny file _)]
      rfl
    · rfl

/-- Where a placeholder left its text in a file of another name. -/
def Resumption.named (r : Resumption) : Resumption := { r with trace := r.trace.named file }

theorem named_placeholder (read : Tape → Attempt) (t : Token) (reach : Nat) (p : Placeholder) :
    (placeholder file' read t reach p).named file =
      placeholder file (fun tape => (read tape).named file) t reach p := by
  unfold placeholder
  split
  · rfl
  · simp only
    generalize read _ = a
    obtain ⟨trace, tape, failure⟩ := a
    cases failure with
    | none => rfl
    | some f =>
      have hrest : (cut t tape.place.byte p.stop (piece .invalid)).named file =
          cut t tape.place.byte p.stop (piece .invalid) := named_cut file (fun _ => rfl) _ _ _
      refine (apply_ite (Resumption.named file) (tape.place.byte < p.stop) _ _).trans ?_
      refine ite_congr rfl (fun _ => ?_) fun _ => ?_
      · simp only [Resumption.named, Trace.named_append, hrest]
        rfl
      · simp only [Resumption.named, Trace.named_append]
        rfl

theorem named_interpolated (read : Bool → Tape → Attempt) (t : Token) (ps : List Placeholder)
    (start reach : Nat) : (interpolated file' read t start reach ps).named file =
      interpolated file (fun isBraced tape => (read isBraced tape).named file) t start reach
        ps := by
  induction ps generalizing start reach with
  | nil => exact named_cut file (fun _ => rfl) t start t.stop
  | cons p ps ih =>
    unfold interpolated
    split
    · exact ih _ _
    · have hp := @named_placeholder file file' (read p.braced) t reach p
      simp only [Trace.named_append, named_cut file (named_pieceIfAny file _), ih, ← hp]
      rfl

theorem named_quoted (read : Bool → Tape → Attempt) (tape : Tape) :
    (quoted file' read tape).named file =
      quoted file (fun isBraced tape => (read isBraced tape).named file) tape := by
  unfold quoted
  split
  · rfl
  · simp only
    split
    · rfl
    · rw [← named_interpolated]
      rfl

end Attempt

/-! ## Readings -/

/-- A phrase is read alike if the constructs in it are. The name is handed down to the constructs
and to the two steps that write it. -/
theorem Phrase.named_read {descend : Options → Production → Tape → Attempt}
    (h : ∀ (o : Options) (p : Production) (tape : Tape),
      (descend o p tape).named file = descend { o with file } p tape)
    (phrase : Phrase) (o : Options) (tape : Tape) :
    (phrase.read descend o tape).named file = phrase.read descend { o with file } tape := by
  induction phrase generalizing o tape with
  | empty => rfl
  | take tag => exact Attempt.named_ofTaken file (tape.named_take file tag)
  | trivia => exact Attempt.named_ofTaken file (tape.named_takeTrivia file)
  | node p => exact h o p tape
  -- A phrase behind another one is read for any tape, so the two readings are equal as functions.
  | andThen first second ih₁ ih₂ =>
    rw [read, read, Attempt.named_andThen, ih₁, funext (ih₂ o)]
  | choose test yes no ihy ihn =>
    rw [read, read]
    split
    · exact ihy o tape
    · exact ihn o tape
  | repeating test body ih =>
    rw [read, read, Attempt.named_repeating, funext (ih o)]
  | spacedCalls yes no ihy ihn =>
    rw [read, read]
    split
    · exact ihy o tape
    · exact ihn o tape
  | expected wanted => rfl
  | orphan => rfl
  | statements inBlock statement ih =>
    rw [read, read, Attempt.named_statements, funext (ih o)]
  | quoted named braced ihn ihb =>
    rw [read, read, Attempt.named_quoted]
    congr 1
    funext isBraced tape
    cases isBraced with
    | true => exact ihb { o with spacedCalls := false } tape
    | false => exact ihn { o with spacedCalls := false } tape
  | hexDigits => exact Attempt.named_hexDigits file tape
  | foreign => exact Attempt.named_foreign file tape

theorem Production.named_enter (p : Production) (o : Options) (inside : Tape → Attempt)
    (tape : Tape) : (p.enter o inside tape).named file =
      p.enter { o with file } (fun tape => (inside tape).named file) tape := by
  unfold enter
  simp only [Attempt.named_behind, Attempt.named_framed]
  congr 1
  split
  · rfl
  · exact tape.named_takeTrivia file

/-- A construct is read alike under every name. -/
theorem Production.named_read (allowance : Nat) (o : Options) (p : Production) (tape : Tape) :
    (p.read allowance o tape).named file = p.read allowance { o with file } tape := by
  induction allowance generalizing o p tape with
  | zero => exact p.named_enter file o _ tape
  | succ allowance ih =>
    rw [read, read, named_enter, funext (Phrase.named_read file ih p.body o)]

/-- **A source reads alike under every name of its file.** The name stands in extents and errors
and decides nothing, so a theorem about a source without a name is one about files. -/
theorem named_readDocument (o : Options) (source : String) :
    (readDocument o source).named file = readDocument { o with file } source := by
  have hread : (readStatements o source).named file = readStatements { o with file } source :=
    Phrase.named_read file (Production.named_read file maxNesting) _ o _
  rw [readDocument_eq, readDocument_eq, ← hread, ← Attempt.named_framed]
  rfl

/-- **Whether a source has errors does not depend on the name of its file**, which they only
mention. `Command.Files` needs it to compare the run over several files with the files by
themselves. -/
theorem Parsed.errors_named (o : Options) (source : String) :
    (ofSource { o with file } source).errors = (ofSource o source).errors.map (·.named file) := by
  have hd := congrArg Trace.diagnostics (named_readDocument file o source)
  rw [Trace.diagnostics_named, readDocument_node, readDocument_node] at hd
  simpa [ofSource_eq] using hd.symm

end Heddle
