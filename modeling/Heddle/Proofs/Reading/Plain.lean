import Heddle.Proofs.Reading.Invariant

/-!
# What opens nothing and reports no error

Most steps of a reading turn tokens into data and do nothing else: their traces are `Plain`. A
property that holds of every plain trace, and of two traces behind each other if it holds of both,
is `Additive`. For such a property nothing has to be said about where a token is cut, so what is
left of a quoted text is its placeholders: **the property passes from the readings of the
placeholders to the whole text** (`Additive.quoted`), if it stands the error that a failed one
leaves behind.
-/

set_option autoImplicit false

namespace Heddle

/-- Notes that are no errors. A plain trace starts no node either. -/
inductive Trace.Plain : Trace → Prop where
  | nil : Plain nil
  | note {n : Note} (hn : ∀ scope d, n ≠ .error scope d) {next : Trace} (hnext : Plain next) :
      Plain (note n next)

namespace Trace.Plain

theorem append {t u : Trace} (ht : t.Plain) (hu : u.Plain) : (t ++ u).Plain := by
  induction ht with
  | nil => exact hu
  | note hn _ ih => exact .note hn ih

theorem ofNote {n : Note} (hn : ∀ scope d, n ≠ .error scope d) : (ofNote n).Plain := .note hn .nil

theorem ofData (tag : DataTag) (text : String) : (ofData tag text).Plain := .ofNote nofun

theorem fault (start stop : Nat) : (Trace.ofNote (.fault start stop)).Plain := .ofNote nofun

theorem location (l : Location) : (Trace.ofNote (.location l)).Plain := .ofNote nofun

variable {t : Trace} (h : t.Plain)
include h

/-- What is plain reports no error. -/
theorem silent (d : Diagnostic) : .error d ∉ t.events := by
  induction h with
  | nil => exact List.not_mem_nil
  | @note n hn next _ ih =>
    rw [Trace.events, List.mem_append]
    rintro (he | he)
    · cases n with
      | error scope d => exact hn scope d rfl
      | _ => simp [Note.event?] at he
    · exact ih he

/-- What is plain starts nothing. -/
theorem start_not_mem (kind : NodeKind) : .start kind ∉ t.events := by
  induction h with
  | nil => exact List.not_mem_nil
  | @note n _ next _ ih =>
    rw [Trace.events, List.mem_append]
    rintro (he | he)
    · cases n <;> simp [Note.event?] at he
    · exact ih he

theorem errors_eq_nil : t.errors = [] := by
  induction h with
  | nil => rfl
  | @note n hn next _ ih =>
    cases n with
    | error scope d => exact absurd rfl (hn scope d)
    | _ => exact ih

end Trace.Plain

/-! ## Taking tokens -/

theorem Tape.plain_take (tag : DataTag) (tape : Tape) : (tape.take tag).1.Plain := by
  unfold Tape.take
  split
  · exact .nil
  · exact .ofData _ _

theorem Tape.plain_takeMany (tag : DataTag) (n : Nat) (tape : Tape) :
    (tape.takeMany tag n).1.Plain := by
  induction n generalizing tape with
  | zero => exact .nil
  | succ n ih => exact (plain_take tag tape).append (ih _)

theorem Tape.plain_takeTrivia (tape : Tape) : tape.takeTrivia.1.Plain := plain_takeMany _ _ tape

namespace Attempt

theorem plain_cut {t : Token} {start stop : Nat} {use : List Char → Trace}
    (hu : ∀ cs, (use cs).Plain) : (cut t start stop use).Plain := by
  unfold cut
  split
  · exact hu _
  · exact .fault _ _

theorem plain_pieceIfAny (tag : DataTag) (cs : List Char) : (pieceIfAny tag cs).Plain := by
  unfold pieceIfAny
  split
  · exact .nil
  · exact .ofData _ _

theorem plain_hexDigits (tape : Tape) : (hexDigits tape).trace.Plain := by
  unfold hexDigits
  split
  · split
    · exact .ofData _ _
    · exact .nil
  · exact .nil

theorem plain_foreign (tape : Tape) : (foreign tape).trace.Plain := by
  unfold foreign
  split
  · exact .nil
  split
  · have htag (sign language : String) : (Trace.ofData .punctuation sign ++
        .ofData .language language ++ .ofData .punctuation ">").Plain :=
      ((Trace.Plain.ofData _ _).append (.ofData _ _)).append (.ofData _ _)
    exact ((htag _ _).append (plain_cut fun _ => plain_pieceIfAny _ _)).append (htag _ _)
  · exact .nil

/-! What a token is taken apart as is the only thing that can be missing. -/

theorem failure_hexDigits {tape : Tape} {f : Failure} (h : (hexDigits tape).failure = some f) :
    f = tape.missing .hexColor := by
  unfold hexDigits at h
  split at h
  · split at h
    · cases h
    · exact (Option.some.inj h).symm
  · exact (Option.some.inj h).symm

theorem failure_foreign {tape : Tape} {f : Failure} (h : (foreign tape).failure = some f) :
    f = tape.missing .foreignBlock := by
  unfold foreign at h
  split at h
  · exact (Option.some.inj h).symm
  split at h
  · cases h
  · exact (Option.some.inj h).symm

theorem failure_quoted {file : Option String} {read : Bool → Tape → Attempt} {tape : Tape}
    {f : Failure} (h : (quoted file read tape).failure = some f) : f = tape.missing .string := by
  unfold quoted at h
  split at h
  · exact (Option.some.inj h).symm
  · simp only at h
    split at h
    · cases h
    · cases h

/-- A failure is reported in front of what is skipped behind it. Proofs about recovery need no
more of it than that what is skipped is plain. -/
theorem exists_recover (file : Option String) (inBlock : Bool) (f : Failure) (tape : Tape) :
    ∃ skipped : Trace, skipped.Plain ∧ (recover file inBlock f tape).trace =
      .ofNote (.error .statement (f.diagnostic file)) ++ .ofNode .invalid skipped true :=
  ⟨_, (tape.plain_takeMany .invalid _).append (.location _), rfl⟩

end Attempt

/-! ## Properties of traces -/

/-- A property that plain traces have, and two traces behind each other if both have it. -/
structure Trace.Additive (T : Trace → Prop) : Prop where
  plain : ∀ {t : Trace}, t.Plain → T t
  append : ∀ {t u : Trace}, T t → T u → T (t ++ u)

/-- The trace of the attempt, an error behind it if it failed, has the property. A placeholder is
reported in this form. -/
def Attempt.Reported (file : Option String) (scope : ErrorScope) (T : Trace → Prop)
    (a : Attempt) : Prop :=
  match a.failure with
  | none => T a.trace
  | some f => T (a.trace ++ .ofNote (.error scope (f.diagnostic file)))

namespace Trace.Additive

open Attempt

variable {T : Trace → Prop} (hT : Additive T)
include hT

theorem placeholder {file : Option String} {read : Tape → Attempt}
    (hr : ∀ window, (read window).Reported file .placeholder T) (t : Token) (reach : Nat)
    (p : Placeholder) : T (placeholder file read t reach p).trace := by
  unfold Attempt.placeholder
  split
  · exact hT.plain (.fault _ _)
  · rename_i cs _
    have ha := hr (.ofText p.position cs reach)
    unfold Reported at ha
    simp only
    split <;> rename_i hf
    · simpa only [hf] using ha
    · simp only [hf] at ha
      split
      · exact hT.append ha (hT.plain (plain_cut fun _ => .ofData _ _))
      · exact ha

theorem interpolated {file : Option String} {read : Bool → Tape → Attempt}
    (hr : ∀ isBraced window, (read isBraced window).Reported file .placeholder T) (t : Token)
    (ps : List Placeholder) (start reach : Nat) :
    T (interpolated file read t start reach ps) := by
  induction ps generalizing start reach with
  | nil => exact hT.plain (plain_cut fun _ => .ofData _ _)
  | cons p ps ih =>
    rw [Attempt.interpolated]
    split
    · exact ih _ _
    · have hchunk : T (cut t start p.position.byte (pieceIfAny .stringChunk)) :=
        hT.plain (plain_cut fun _ => plain_pieceIfAny _ _)
      exact hT.append (hT.append hchunk (hT.placeholder (hr p.braced) t reach p)) (ih _ _)

theorem quoted {file : Option String} {read : Bool → Tape → Attempt}
    (hr : ∀ isBraced window, (read isBraced window).Reported file .placeholder T) (tape : Tape) :
    T (quoted file read tape).trace := by
  unfold Attempt.quoted
  split
  · exact hT.plain .nil
  · simp only
    split
    · exact hT.plain (.ofData _ _)
    · exact hT.interpolated hr _ _ _ _

end Trace.Additive

end Heddle
