import Heddle.Proofs.Grammar.SilentFailures
import Heddle.Proofs.Document.Text

/-!
# One slot for failures

An attempt carries its failure with it. A reader that returns no more than whether it succeeded
has to leave the failure somewhere, and if it is a slot that all of the reading shares, much can
go wrong. A slot that is full keeps a later failure out; a construct may fail and leave the slot
empty, or succeed and leave a failure in it; and whoever reports what is in the slot has to have
something to say if there is nothing.

`Slotted` is such a reading. It goes by the same grammar and differs in what becomes of failures:
each statement of a list begins with an empty slot, what is skipped is skipped behind a report of
what is in the slot, a placeholder gets an empty slot of its own and leaves the one of its text as
it was, and four constructs can fail in silence (`Production.failsSilently`). Of everything that
is read, the slot in front, the answer and the slot behind are written down. **The slotted reading
is the reading with its failure in the slot** (`Slotted.Follows`): whatever is begun finds the
slot empty, and it leaves a failure there exactly if it fails.
-/

set_option autoImplicit false

namespace Heddle

/-- Something that was read: the slot in front of it, whether it succeeded, and the slot behind. -/
structure Call where
  before : Option Failure
  succeeded : Bool
  after : Option Failure

/-- It was begun with an empty slot, and it left a failure exactly if it failed. Were one call not
honest, a failure could be lost or reported twice. -/
def Call.Honest (c : Call) : Prop :=
  c.before = none ∧ (c.succeeded = false ↔ c.after.isSome = true)

/-- The outcome of reading something while failures are left in a slot. Whether it succeeded and
what is in the slot are two fields, so a reading is free to answer one thing and leave another. -/
structure Slotted where
  trace : Trace
  tape : Tape
  succeeded : Bool := true
  slot : Option Failure
  calls : List Call := []

namespace Slotted

/-- What was taken leaves the slot as it is. -/
def ofTaken (taken : Trace × Tape) (slot : Option Failure) : Slotted :=
  { trace := taken.1, tape := taken.2, slot }

/-- Fails. Of several failures the slot keeps the first. -/
def fail (f : Failure) (tape : Tape) (slot : Option Failure) : Slotted :=
  { trace := .nil, tape, succeeded := false, slot := slot.or (some f) }

/-- Fails in silence. -/
def giveUp (tape : Tape) (slot : Option Failure) : Slotted :=
  { trace := .nil, tape, succeeded := false, slot }

/-- A step that looks at no slot. -/
def ofAttempt (a : Attempt) (slot : Option Failure) : Slotted :=
  { trace := a.trace, tape := a.tape, succeeded := a.failure.isNone, slot := slot.or a.failure }

/-- Goes on with what is in the slot, unless the first part failed. -/
def andThen (a : Slotted) (next : Tape → Option Failure → Slotted) : Slotted :=
  if a.succeeded then
    let b := next a.tape a.slot
    { b with trace := a.trace ++ b.trace, calls := a.calls ++ b.calls }
  else a

/-- The reading with something reported in front. -/
def behind (lead : Trace) (a : Slotted) : Slotted :=
  { a with trace := lead ++ a.trace }

/-- The reading as the inside of a node. -/
def framed (file : Option String) (kind : NodeKind) (start : Position) (a : Slotted) : Slotted :=
  if a.succeeded then
    { a with
      trace := .ofNode kind (a.trace ++ .ofNote (.location (a.tape.extent file start))) true }
  else { a with trace := .ofNode kind a.trace false }

/-- Writes down what was read behind the slot `before`. -/
def called (before : Option Failure) (a : Slotted) : Slotted :=
  { a with calls := a.calls ++ [⟨before, a.succeeded, a.slot⟩] }

/-- One reading after the other while the look ahead says yes. -/
def repeating (test : List Token → Bool) (body : Tape → Option Failure → Slotted) :
    Nat → Tape → Option Failure → Slotted
  | 0, tape, slot => ofTaken (.nil, tape) slot
  | rounds + 1, tape, slot =>
    if test tape.ahead then (body tape slot).andThen (repeating test body rounds)
    else ofTaken (.nil, tape) slot

/-- What is reported of a slot; should it be empty, there is a text for that. Where every call is
honest the text is never used. -/
def report (file : Option String) (slot : Option Failure) (otherwise : String) (place : Position) :
    Diagnostic :=
  match slot with
  | some f => f.diagnostic file
  | none => ⟨otherwise, file, place.line, place.column⟩

/-- Reports what is in the slot, empties it and skips. -/
def recover (file : Option String) (inBlock : Bool) (tape : Tape) (slot : Option Failure) :
    Slotted :=
  let skipped := tape.takeMany .invalid (Tape.skipped inBlock 0 tape.ahead)
  ((ofTaken skipped none).framed file .invalid tape.place).behind
    (.ofNote (.error .statement (report file slot "invalid statement" tape.place)))

/-- A statement, or what is skipped if it fails; skipping reads nothing. -/
def recovered (file : Option String) (inBlock : Bool) (a : Slotted) : Slotted :=
  if a.succeeded then a
  else { (recover file inBlock a.tape a.slot).behind a.trace with calls := a.calls }

/-- Statements one after the other, each of which begins with an empty slot. -/
def statements (file : Option String) (inBlock : Bool)
    (statement : Tape → Option Failure → Slotted) : Nat → Tape → Option Failure → Slotted
  | 0, tape, slot => ofTaken tape.takeTrivia slot
  | rounds + 1, tape, slot =>
    (ofTaken tape.takeTrivia slot).andThen fun tape slot =>
      match tape.ahead with
      | [] => ofTaken (.nil, tape) slot
      | t :: _ =>
        if t.kind = .mark .rightBrace then
          if inBlock then ofTaken (.nil, tape) slot
          else (recover file false tape (some (tape.failure .strayBrace))).andThen
            (statements file inBlock statement rounds)
        else (recovered file inBlock (statement tape none)).andThen
          (statements file inBlock statement rounds)

/-- Reads one placeholder, with an empty slot of its own, and says what was read in it. -/
def placeholder (file : Option String) (read : Tape → Option Failure → Slotted) (t : Token)
    (reach : Nat) (p : Placeholder) : Attempt.Resumption × List Call :=
  match t.slice? p.position.byte (t.stop - 1) with
  | none => (⟨.ofNote (.fault p.position.byte (t.stop - 1)), p.stop, reach⟩, [])
  | some cs =>
    let a := read (.ofText p.position cs reach) none
    let byte := a.tape.place.byte
    if a.succeeded then (⟨a.trace, byte, a.tape.reach⟩, a.calls)
    else
      let d := report file a.slot "invalid string placeholder" p.position
      let report := a.trace ++ .ofNote (.error .placeholder d)
      if byte < p.stop then
        (⟨report ++ Attempt.cut t byte p.stop (Attempt.piece .invalid), p.stop, a.tape.reach⟩,
          a.calls)
      else (⟨report, byte, a.tape.reach⟩, a.calls)

/-- The inside of a quoted text, and what was read in it. -/
def interpolated (file : Option String) (read : Bool → Tape → Option Failure → Slotted) (t : Token)
    (start reach : Nat) : List Placeholder → Trace × List Call
  | [] => (Attempt.cut t start t.stop (Attempt.piece .stringChunk), [])
  | p :: ps =>
    if p.position.byte < start then interpolated file read t start reach ps
    else
      let (r, calls) := placeholder file (read p.braced) t reach p
      let (trace, further) := interpolated file read t r.byte r.reach ps
      (Attempt.cut t start p.position.byte (Attempt.pieceIfAny .stringChunk) ++ r.trace ++ trace,
        calls ++ further)

/-- A quoted text leaves the slot as it is, whatever becomes of its placeholders. -/
def quoted (file : Option String) (read : Bool → Tape → Option Failure → Slotted) (tape : Tape)
    (slot : Option Failure) : Slotted :=
  match tape.ahead with
  | [] => fail (tape.missing .string) tape slot
  | t :: ahead =>
    let after := { tape with ahead, reach := t.stop }
    match t.kind.placeholders?.getD [] with
    | [] => ofTaken (.ofData .stringChunk t.text, after) slot
    | ps =>
      let (trace, calls) := interpolated file read t t.position.byte t.stop ps
      { trace, tape := after, slot, calls }

end Slotted

/-- Reads a phrase while failures are left in a slot. It is `Phrase.read` with the slot handed on
from each part to the next. -/
def Phrase.readSlotted (descend : Options → Production → Tape → Option Failure → Slotted)
    (q : Phrase) (o : Options) (tape : Tape) (slot : Option Failure) : Slotted :=
  .called slot <| match q with
    | empty => .ofTaken (.nil, tape) slot
    | take tag => .ofTaken (tape.take tag) slot
    | trivia => .ofTaken tape.takeTrivia slot
    | node p => descend o p tape slot
    | andThen first second =>
      (first.readSlotted descend o tape slot).andThen (second.readSlotted descend o)
    | choose test yes no =>
      if test tape.ahead then yes.readSlotted descend o tape slot
      else no.readSlotted descend o tape slot
    | repeating test body => .repeating test (body.readSlotted descend o) tape.size tape slot
    | spacedCalls yes no =>
      if o.spacedCalls then yes.readSlotted descend o tape slot
      else no.readSlotted descend o tape slot
    | expected wanted => .fail (tape.missing wanted) tape slot
    | orphan => .fail (tape.failure (.orphan ((tape.ahead.head?.map (·.text)).getD ""))) tape slot
    | statements inBlock statement =>
      .statements o.file inBlock (statement.readSlotted descend o) tape.size tape slot
    | quoted named braced =>
      let inside := { o with spacedCalls := false }
      .quoted o.file
        (fun isBraced =>
          if isBraced then braced.readSlotted descend inside
          else named.readSlotted descend inside) tape slot
    | hexDigits => .ofAttempt (.hexDigits tape) slot
    | foreign => .ofAttempt (.foreign tape) slot

/-- A construct as a node. -/
def Production.enterSlotted (p : Production) (o : Options)
    (inside : Tape → Option Failure → Slotted) (tape : Tape) (slot : Option Failure) : Slotted :=
  let (lead, tape) := if p.keepsTrivia then (.nil, tape) else tape.takeTrivia
  ((inside tape slot).framed o.file p.kind tape.place).behind lead

/-- Reads a construct with so many levels of nodes allowed. -/
def Production.readSlotted :
    Nat → Options → Production → Tape → Option Failure → Slotted
  | 0, o, p, tape, slot =>
    .called slot (p.enterSlotted o (fun tape => .fail (tape.failure .tooDeep) tape) tape slot)
  | allowance + 1, o, p, tape, slot =>
    .called slot <| p.enterSlotted o (fun tape slot =>
      if p.failsSilently tape.ahead then .giveUp tape slot
      else p.body.readSlotted (readSlotted allowance) o tape slot) tape slot

/-- Reads a whole source while failures are left in a slot. -/
def readDocumentSlotted (o : Options) (source : String) : Slotted :=
  ((Phrase.statements false .statement).readSlotted (Production.readSlotted maxNesting) o
    (.ofText (openSource source).1 (openSource source).2 0) none).framed o.file .document
      (openSource source).1


/-! ## The slot is the failure -/

namespace Slotted

/-- The slotted reading is the attempt with its failure in the slot, and all that was read in it
was honest. It is said of an empty slot in front, which is what everything that is begun finds. -/
structure Follows (s : Slotted) (a : Attempt) : Prop where
  trace : s.trace = a.trace
  tape : s.tape = a.tape
  slot : s.slot = a.failure
  succeeded : s.succeeded = a.failure.isNone
  calls : ∀ c ∈ s.calls, c.Honest

namespace Follows

variable {s : Slotted} {a : Attempt} {file : Option String}

theorem ofTaken (taken : Trace × Tape) : (ofTaken taken none).Follows (.ofTaken taken) :=
  ⟨rfl, rfl, rfl, rfl, fun _ hc => absurd hc List.not_mem_nil⟩

theorem fail (f : Failure) (tape : Tape) : (fail f tape none).Follows (.fail f tape) :=
  ⟨rfl, rfl, rfl, rfl, fun _ hc => absurd hc List.not_mem_nil⟩

theorem ofAttempt (a : Attempt) : (ofAttempt a none).Follows a :=
  ⟨rfl, rfl, Option.none_or, rfl, fun _ hc => absurd hc List.not_mem_nil⟩

theorem behind (h : s.Follows a) (lead : Trace) : (s.behind lead).Follows (a.behind lead) :=
  ⟨congrArg (lead ++ ·) h.trace, h.tape, h.slot, h.succeeded, h.calls⟩

/-- Behind a success the slot is empty again. -/
theorem andThen {next : Tape → Option Failure → Slotted} {next' : Tape → Attempt}
    (h : s.Follows a) (hn : ∀ tape, (next tape none).Follows (next' tape)) :
    (s.andThen next).Follows (a.andThen next') := by
  cases hf : a.failure with
  | none =>
    have hs : s.succeeded = true := by rw [h.succeeded, hf]; rfl
    have hnext := hn a.tape
    rw [Slotted.andThen, if_pos hs, Attempt.andThen_of_none hf, h.slot, hf, h.tape]
    refine ⟨?_, hnext.tape, hnext.slot, hnext.succeeded, fun c hc => ?_⟩
    · show s.trace ++ _ = a.trace ++ _
      rw [h.trace, hnext.trace]
    · rcases List.mem_append.1 hc with hc | hc
      · exact h.calls c hc
      · exact hnext.calls c hc
  | some f =>
    have hs : ¬s.succeeded = true := by rw [h.succeeded, hf]; exact Bool.false_ne_true
    rw [Slotted.andThen, if_neg hs, Attempt.andThen_of_some hf]
    exact h

theorem framed (h : s.Follows a) (kind : NodeKind) (start : Position) :
    (s.framed file kind start).Follows (a.framed file kind start) := by
  have hs := h.succeeded
  cases hf : a.failure with
  | none =>
    rw [hf] at hs
    simp only [Slotted.framed, Attempt.framed, hs, hf, Option.isNone_none, if_true, h.trace, h.tape]
    exact ⟨rfl, rfl, h.slot.trans hf, rfl, h.calls⟩
  | some f =>
    rw [hf] at hs
    simp only [Slotted.framed, Attempt.framed, hs, hf, Option.isNone_some, h.trace, h.tape]
    exact ⟨rfl, rfl, h.slot.trans hf, rfl, h.calls⟩

/-- What is read from an empty slot is written down as honest. -/
theorem called (h : s.Follows a) : (s.called none).Follows a where
  trace := h.trace
  tape := h.tape
  slot := h.slot
  succeeded := h.succeeded
  calls c hc := by
    rcases List.mem_append.1 hc with hc | hc
    · exact h.calls c hc
    · obtain rfl := List.mem_singleton.1 hc
      refine ⟨rfl, ?_⟩
      show s.succeeded = false ↔ s.slot.isSome = true
      rw [h.succeeded, h.slot]
      cases a.failure <;> simp

theorem repeating {test : List Token → Bool} {body : Tape → Option Failure → Slotted}
    {body' : Tape → Attempt}
    (hb : ∀ tape, test tape.ahead = true → (body tape none).Follows (body' tape)) (rounds : Nat)
    (tape : Tape) :
    (repeating test body rounds tape none).Follows (.repeating test body' rounds tape) := by
  induction rounds generalizing tape with
  | zero => exact .ofTaken _
  | succ n ih =>
    rw [Slotted.repeating, Attempt.repeating]
    split <;> rename_i ht
    · exact (hb tape ht).andThen ih
    · exact .ofTaken _

/-- What is in the slot is what is reported, and then the slot is empty. -/
theorem recover (inBlock : Bool) (f : Failure) (tape : Tape) :
    (recover file inBlock tape (some f)).Follows (.recover file inBlock f tape) :=
  ((Follows.ofTaken _).framed .invalid tape.place).behind _

theorem recovered (h : s.Follows a) (inBlock : Bool) :
    (recovered file inBlock s).Follows (.recovered file inBlock a) := by
  have hs := h.succeeded
  cases hf : a.failure with
  | none =>
    rw [hf] at hs
    simp only [Slotted.recovered, Attempt.recovered, hs, hf, Option.isNone_none, if_true]
    exact h
  | some f =>
    rw [hf] at hs
    have hr : (Slotted.recover file inBlock a.tape (some f)).Follows
        (.recover file inBlock f a.tape) := .recover inBlock f a.tape
    simp only [Slotted.recovered, Attempt.recovered, hs, hf, Option.isNone_some, h.trace, h.tape,
      h.slot]
    exact ⟨congrArg (a.trace ++ ·) hr.trace, hr.tape, hr.slot, hr.succeeded, h.calls⟩

theorem statements {inBlock : Bool} {statement : Tape → Option Failure → Slotted}
    {statement' : Tape → Attempt} (hs : ∀ tape, (statement tape none).Follows (statement' tape))
    (rounds : Nat) (tape : Tape) :
    (statements file inBlock statement rounds tape none).Follows
      (.statements file inBlock statement' rounds tape) := by
  induction rounds generalizing tape with
  | zero => exact .ofTaken _
  | succ n ih =>
    rw [Slotted.statements, Attempt.statements]
    apply (Follows.ofTaken _).andThen
    intro tape
    cases tape.ahead with
    | nil => exact .ofTaken _
    | cons t _ =>
      simp only
      split
      · split
        · exact .ofTaken _
        · exact (Follows.recover false _ tape).andThen ih
      · exact ((hs tape).recovered inBlock).andThen ih

/-! ## Quoted texts -/

/-- A placeholder has a slot of its own, so what is in the slot of its text matters as little as
what is read in it does to that slot. -/
theorem placeholder (file : Option String) {read : Tape → Option Failure → Slotted}
    {read' : Tape → Attempt} (hr : ∀ window, (read window none).Follows (read' window)) (t : Token)
    (reach : Nat) (p : Placeholder) :
    (placeholder file read t reach p).1 = Attempt.placeholder file read' t reach p ∧
      ∀ c ∈ (placeholder file read t reach p).2, c.Honest := by
  unfold Slotted.placeholder Attempt.placeholder
  cases t.slice? p.position.byte (t.stop - 1) with
  | none => exact ⟨rfl, fun _ hc => absurd hc List.not_mem_nil⟩
  | some cs =>
    have ha := hr (.ofText p.position cs reach)
    have hs := ha.succeeded
    simp only
    cases hf : (read' (.ofText p.position cs reach)).failure with
    | none =>
      rw [hf] at hs
      simp only [hs, Option.isNone_none, if_true, ha.trace, ha.tape]
      exact ⟨trivial, ha.calls⟩
    | some f =>
      rw [hf] at hs
      simp only [hs, Option.isNone_some, Bool.false_eq_true, if_false, ha.trace, ha.tape, ha.slot,
        hf, report]
      split
      · exact ⟨rfl, ha.calls⟩
      · exact ⟨rfl, ha.calls⟩

theorem interpolated (file : Option String) {read : Bool → Tape → Option Failure → Slotted}
    {read' : Bool → Tape → Attempt}
    (hr : ∀ isBraced window, (read isBraced window none).Follows (read' isBraced window))
    (t : Token) (ps : List Placeholder) (start reach : Nat) :
    (interpolated file read t start reach ps).1 =
      Attempt.interpolated file read' t start reach ps ∧
      ∀ c ∈ (interpolated file read t start reach ps).2, c.Honest := by
  induction ps generalizing start reach with
  | nil => exact ⟨rfl, fun _ hc => absurd hc List.not_mem_nil⟩
  | cons p ps ih =>
    rw [Slotted.interpolated, Attempt.interpolated]
    split
    · exact ih start reach
    · obtain ⟨hp, hc⟩ := placeholder file (hr p.braced) t reach p
      obtain ⟨hrest, hcs⟩ := ih (Attempt.placeholder file (read' p.braced) t reach p).byte
        (Attempt.placeholder file (read' p.braced) t reach p).reach
      simp only [hp, hrest]
      refine ⟨trivial, fun c hmem => ?_⟩
      rcases List.mem_append.1 hmem with hmem | hmem
      · exact hc c hmem
      · exact hcs c hmem

theorem quoted {read : Bool → Tape → Option Failure → Slotted} {read' : Bool → Tape → Attempt}
    (hr : ∀ isBraced window, (read isBraced window none).Follows (read' isBraced window))
    (tape : Tape) :
    (quoted file read tape none).Follows (.quoted file read' tape) := by
  unfold Slotted.quoted Attempt.quoted
  cases tape.ahead with
  | nil => exact .fail _ tape
  | cons t ahead =>
    simp only
    cases t.kind.placeholders?.getD [] with
    | nil => exact .ofTaken _
    | cons p ps =>
      obtain ⟨htrace, hcalls⟩ := interpolated file hr t (p :: ps) t.position.byte t.stop
      exact ⟨htrace, rfl, rfl, rfl, hcalls⟩

end Follows

end Slotted

/-! ## Phrases and constructs -/

/-- The reading of every phrase in which no construct fails in silence. The slot is empty in front
of every part, since a part that fails ends the phrase. -/
theorem Slotted.follows_phrase {descend : Options → Production → Tape → Option Failure → Slotted}
    {descend' : Options → Production → Tape → Attempt}
    (hd : ∀ o p tape, p.failsSilently (p.front tape.ahead) = false →
      (descend o p tape none).Follows (descend' o p tape))
    (q : Phrase) {given : Lookahead} (hq : q.NoSilentFailure given) (o : Options) (tape : Tape)
    (hg : given tape.ahead = true) :
    (q.readSlotted descend o tape none).Follows (q.read descend' o tape) := by
  induction q generalizing given o tape with
  | empty => exact (Follows.ofTaken _).called
  | take tag => exact (Follows.ofTaken _).called
  | trivia => exact (Follows.ofTaken _).called
  | node p => exact (hd o p tape (hq _ hg)).called
  | andThen first second ih₁ ih₂ =>
    exact ((ih₁ hq.1 o tape hg).andThen fun tape => ih₂ hq.2 o tape rfl).called
  -- The look is known in the branch it was answered for, and with it that no construct fails
  -- silently.
  | choose test yes no ihy ihn =>
    apply Follows.called
    rw [Phrase.read]
    by_cases ht : test tape.ahead = true
    · rw [if_pos ht, if_pos ht]
      exact ihy hq.1 o tape ht
    · rw [if_neg ht, if_neg ht]
      exact ihn hq.2 o tape hg
  | repeating test body ih =>
    exact (Follows.repeating (fun tape ht => ih hq o tape ht) _ tape).called
  | spacedCalls yes no ihy ihn =>
    apply Follows.called
    rw [Phrase.read]
    by_cases hs : o.spacedCalls = true
    · rw [if_pos hs, if_pos hs]
      exact ihy hq.1 o tape hg
    · rw [if_neg hs, if_neg hs]
      exact ihn hq.2 o tape hg
  | expected wanted => exact (Follows.fail _ tape).called
  | orphan => exact (Follows.fail _ tape).called
  | statements inBlock statement ih =>
    exact (Follows.statements (fun tape => ih hq o tape rfl) _ tape).called
  | quoted named braced ihn ihb =>
    refine (Follows.quoted (fun isBraced window => ?_) tape).called
    cases isBraced with
    | true => exact ihb hq.2 _ window rfl
    | false => exact ihn hq.1 _ window rfl
  | hexDigits => exact (Follows.ofAttempt _).called
  | foreign => exact (Follows.ofAttempt _).called

/-- A construct that does not fail in silence. -/
theorem Slotted.follows_enter {p : Production} {o : Options}
    {inside : Tape → Option Failure → Slotted} {inside' : Tape → Attempt} {tape : Tape}
    (hi : ∀ tape', tape'.ahead = p.front tape.ahead → (inside tape' none).Follows (inside' tape')) :
    ((p.enterSlotted o inside tape none).called none).Follows (p.enter o inside' tape) := by
  apply Follows.called
  unfold Production.enterSlotted Production.enter
  cases hk : p.keepsTrivia with
  | true =>
    have hfront : tape.ahead = p.front tape.ahead := by
      rw [Production.front, if_pos hk]
    exact ((hi tape hfront).framed p.kind tape.place).behind .nil
  | false =>
    have hfront : tape.takeTrivia.2.ahead = p.front tape.ahead := by
      rw [Tape.ahead_takeTrivia, Production.front, hk]
      rfl
    exact ((hi _ hfront).framed p.kind _).behind tape.takeTrivia.1

/-- **Every construct leaves its failure in the slot**, if it is begun where it does not fail in
silence. That it is begun there is what `Grammar.SilentFailures` checks along every rule. -/
theorem Slotted.follows_read (n : Nat) (o : Options) (p : Production) (tape : Tape)
    (h : p.failsSilently (p.front tape.ahead) = false) :
    (p.readSlotted n o tape none).Follows (p.read n o tape) := by
  induction n generalizing o p tape with
  | zero => exact follows_enter fun tape' _ => .fail _ tape'
  | succ n ih =>
    apply follows_enter
    intro tape' hfront
    rw [hfront, h]
    exact follows_phrase ih p.body p.noSilentFailure_body o tape' rfl

/-- **A source is read in the same way with a slot for failures**, and whatever is read in it is
honest. -/
theorem follows_readDocumentSlotted (o : Options) (source : String) :
    (readDocumentSlotted o source).Follows
      ((readStatements o source).framed o.file .document (openSource source).1) := by
  have hsilent : (Phrase.statements false .statement).NoSilentFailure Phrase.unseen :=
    Phrase.noSilentFailure_statement
  apply Slotted.Follows.framed
  exact Slotted.follows_phrase (Slotted.follows_read maxNesting) _ hsilent o _ rfl

end Heddle
