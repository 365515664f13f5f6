import Heddle.Proofs.Checked.Looks
import Heddle.Proofs.Reading.Progress
import Heddle.Proofs.Reading.Reported

/-!
# Reading in checked steps

`Heddle.Reading` reads from a tape, on which all tokens lie before the first one is taken. Here a
reader takes them from a cursor, one by one, and looks at each before it decides what to do. It
counts the errors that it reports, the nodes that are open and, behind an error, the braces that
are; and every loop has an end of rounds, which must never be reached.

`Reader.Follows` says that a reader is where a tape is, and `Simulates` that a checked reading does
what an attempt does: **from there on no step is refused, and the reader ends where the attempt
ends, with the same report** (`Outcome.Agrees`). This module shows it of the steps that all readings
are made of; those that look inside a token are left to `Checked.Literals`.

What is not known of a cursor from its tape is how many errors have been reported before. So a
simulation asks for room to count those that the attempt will report, and nothing else.
-/

set_option autoImplicit false

namespace Heddle

open Text

namespace Checked

/-! ## Readers -/

/-- The state of a reading. It is a cursor and three counters, the byte behind the last
significant token among them: a node ends there and not behind the trivia that follows it. -/
structure Reader where
  cursor : Cursor
  /-- The byte behind the last significant token taken so far. -/
  reach : Nat := 0
  /-- How many errors have been reported. -/
  errors : Nat := 0
  /-- How many nodes are open below the document. -/
  depth : Nat := 0

/-- The outcome of reading a construct: what was reported, where the reader is, and why the
reading failed if it did. It is an `Attempt` with a reader in place of the tape. -/
structure Outcome where
  trace : Trace
  reader : Reader
  failure : Option Failure := none

namespace Outcome

/-- Goes on where the reading ended, unless it failed. What was reported so far is kept either
way. -/
def andThen (out : Outcome) (next : Reader → Checked Outcome) : Checked Outcome :=
  match out.failure with
  | some _ => .ok out
  | none => do
    let out' ← next out.reader
    return { out' with trace := out.trace ++ out'.trace }

/-- The outcome with something reported in front. -/
def behind (lead : Trace) (out : Outcome) : Outcome :=
  { out with trace := lead ++ out.trace }

/-- The outcome as the inside of a node that began at `start`. A node that fails has no location,
and it is not committed. -/
def framed (file : Option String) (kind : NodeKind) (start : Position) (out : Outcome) : Outcome :=
  match out.failure with
  | some _ => { out with trace := .ofNode kind out.trace false }
  | none =>
    let extent : Location :=
      ⟨file, start.line, start.column, start.byte, out.reader.reach - start.byte⟩
    { out with trace := .ofNode kind (out.trace ++ .ofNote (.location extent)) true }

/-- A node changes neither the reader nor whether the reading failed. -/
theorem reader_framed (file : Option String) (kind : NodeKind) (start : Position) (out : Outcome) :
    (out.framed file kind start).reader = out.reader := by
  unfold framed
  split
  · rfl
  · rfl

theorem failure_framed (file : Option String) (kind : NodeKind) (start : Position)
    (out : Outcome) : (out.framed file kind start).failure = out.failure := by
  unfold framed
  split
  · rfl
  · rfl

end Outcome

namespace Reader

/-- More rounds than there is text: no loop has as many. Every loop of this module takes at least
a byte in a round, apart from the last one, in which it finds that it has to end. -/
def rounds (r : Reader) : Nat := byteSize r.cursor.readable + 1

/-- Looks at the next token. -/
def peek (r : Reader) : Checked (Option Token × Reader) := do
  let (t, cursor) ← Checked.peek r.cursor
  return (t, { r with cursor })

/-- Takes the next token in a role; at the end there is nothing to take. Trivia does not move the
end of the construct, whatever role it is taken in. -/
def take (tag : DataTag) (r : Reader) : Checked Outcome := do
  match ← Checked.take r.cursor with
  | (none, cursor) => return ⟨.nil, { r with cursor }, none⟩
  | (some t, cursor) =>
    let role := t.kind.role tag
    let reach ← if role.isTrivia then pure r.reach else stop t
    return ⟨.ofData role t.text, { r with cursor, reach }, none⟩

/-- Fails at the next token, for a cause that may depend on it. At the end of the source the place
is that of the cursor, since there is no token to point at. -/
def fail (cause : Option Token → Cause) (r : Reader) : Checked Outcome := do
  let (t, r) ← r.peek
  return ⟨.nil, r, some ⟨cause t, (t.map (·.position)).getD r.cursor.place⟩⟩

/-- Fails to find something here. -/
def missing (wanted : Wanted) : Reader → Checked Outcome :=
  fail fun t => .expected wanted (t.map (·.text))

/-- Takes trivia for as long as it comes next. The tape does it by recursion on its tokens, here
it is a loop. -/
def takeTrivia : Nat → Reader → Checked Outcome
  | 0, _ => .error .endless
  | rounds + 1, r => do
    let (t, r) ← r.peek
    if t.any (·.isTrivia) then (← r.take .whitespace).andThen (takeTrivia rounds)
    else return ⟨.nil, r, none⟩

/-- Takes tokens behind an error, `depth` braces being open. It stops behind a semicolon at depth
zero, behind the brace that closes the last one, and in front of the brace that belongs to the
enclosing block. -/
def skip (inBlock : Bool) : Nat → Nat → Reader → Checked Outcome
  | 0, _, _ => .error .endless
  | rounds + 1, depth, r => do
    let (t, r) ← r.peek
    match t with
    | none => return ⟨.nil, r, none⟩
    | some t =>
      if t.kind = .mark .rightBrace then
        -- Inside a block the brace belongs to the block.
        if depth = 0 && inBlock then return ⟨.nil, r, none⟩
        else if depth ≤ 1 then r.take .invalid
        else
          let depth ← sub depth 1
          (← r.take .invalid).andThen (skip inBlock rounds depth)
      else if t.kind = .mark .leftBrace then
        let depth ← add depth 1
        (← r.take .invalid).andThen (skip inBlock rounds depth)
      else if t.kind = .mark .semicolon && depth == 0 then r.take .invalid
      else (← r.take .invalid).andThen (skip inBlock rounds depth)

/-- Reports a failure and skips behind it; what is skipped makes a node of its own. This is the
only place where an error of a statement is counted. -/
def recover (file : Option String) (inBlock : Bool) (f : Failure) (r : Reader) :
    Checked Outcome := do
  let errors ← add r.errors 1
  let out ← skip inBlock r.rounds 0 { r with errors }
  return (out.framed file .invalid r.cursor.place).behind
    (.ofNote (.error .statement (f.diagnostic file)))

/-- A statement, or what is skipped if it fails. -/
def recovered (file : Option String) (inBlock : Bool) (out : Outcome) : Checked Outcome :=
  match out.failure with
  | some f => do return (← recover file inBlock f out.reader).behind out.trace
  | none => .ok out

/-- One reading after the other while the look ahead says yes. What is read is counted, and
`parts` have been so far: the parts of a path or the arguments of a list are kept in a vector,
whose length is a machine word. -/
def repeating (test : Cursor → Checked (Bool × Cursor)) (body : Reader → Checked Outcome) :
    Nat → Nat → Reader → Checked Outcome
  | 0, _, _ => .error .endless
  | rounds + 1, parts, r => do
    let (again, cursor) ← test r.cursor
    if again then
      (← body { r with cursor }).andThen fun r => do
        let parts ← add parts 1
        repeating test body rounds parts r
    else return ⟨.nil, { r with cursor }, none⟩

/-- Statements one after the other, with the trivia around them. A closing brace ends them inside
a block and is an error elsewhere, from which the reading recovers with the brace skipped. -/
def statements (file : Option String) (inBlock : Bool) (statement : Reader → Checked Outcome) :
    Nat → Reader → Checked Outcome
  | 0, _ => .error .endless
  | rounds + 1, r => do
    (← takeTrivia r.rounds r).andThen fun r => do
      let (t, r) ← r.peek
      match t with
      | none => return ⟨.nil, r, none⟩
      | some t =>
        if t.kind = .mark .rightBrace then
          if inBlock then return ⟨.nil, r, none⟩
          else
            (← recovered file false (← r.fail fun _ => .strayBrace)).andThen
              (statements file inBlock statement rounds)
        else
          (← recovered file inBlock (← statement r)).andThen
            (statements file inBlock statement rounds)

/-- The inside of a node, one level deeper. Behind the inside the depth is taken down again,
whether or not it failed, and the difference would be refused if something had not kept the depth.
-/
def nested (inside : Reader → Checked Outcome) (r : Reader) : Checked Outcome :=
  if maxNesting ≤ r.depth then fail (fun _ => .tooDeep) r
  else do
    let depth ← add r.depth 1
    let out ← inside { r with depth }
    let depth ← sub out.reader.depth 1
    return { out with reader := { out.reader with depth } }

/-- A construct as a node. Trivia in front of it goes to the parent, unless it belongs to the
construct. -/
def enter (p : Production) (o : Options) (inside : Reader → Checked Outcome) (r : Reader) :
    Checked Outcome := do
  let node (r : Reader) : Checked Outcome :=
    return (← nested inside r).framed o.file p.kind r.cursor.place
  if p.keepsTrivia then node r else (← takeTrivia r.rounds r).andThen node

end Reader

/-! ## What a reader follows -/

/-- The reader is where the tape is, and no look is pending. The errors and the depth of the
reader are not part of it: a tape knows nothing of them. -/
structure Reader.Follows (r : Reader) (tape : Tape) : Prop where
  lexed : tape.Lexed
  shows : r.cursor.Shows tape.ahead
  idle : r.cursor.origin = none
  place : r.cursor.place = tape.place
  reach : r.reach = tape.reach

/-- The outcome of a checked reading from `r` on is that of an attempt, and the errors of the
attempt have been counted.

The depth is back to what it was, and the source and the limit are the same. This is what a
reading inside of another one has to leave behind, and with it the readings compose. -/
structure Outcome.Agrees (r : Reader) (out : Outcome) (a : Attempt) : Prop where
  trace : out.trace = a.trace
  failure : out.failure = a.failure
  follows : out.reader.Follows a.tape
  source : out.reader.cursor.source = r.cursor.source
  limit : out.reader.cursor.limit = r.cursor.limit
  errors : out.reader.errors = r.errors + a.trace.diagnostics.length
  depth : out.reader.depth = r.depth

/-- From a reader that follows the tape, with `depth` nodes open, the checked reading does what
the attempt did. The room for errors is asked for exactly as many as the attempt reports, so that
a part asks for no more than the whole. -/
def SimulatesAt (depth : Nat) (run : Reader → Checked Outcome) (tape : Tape) (a : Attempt) : Prop :=
  ∀ r : Reader, r.Follows tape → r.depth = depth →
    r.errors + a.trace.diagnostics.length < wordBound →
    ∃ out, run r = .ok out ∧ out.Agrees r a

/-- A checked reading does what an attempt does, from wherever a reader follows a tape. It is the
form for the readings that a loop or a construct is given; the steps themselves are about one
tape, since much of them depends on what is ahead. -/
def Simulates (depth : Nat) (run : Reader → Checked Outcome) (read : Tape → Attempt) : Prop :=
  ∀ tape, SimulatesAt depth run tape (read tape)

namespace Reader.Follows

variable {r : Reader} {tape : Tape} {t : Token} {ts : List Token}

/-- Only the cursor and what was reached make a reader follow a tape. Errors and depth may be
counted up in between. -/
theorem congr (h : r.Follows tape) {r' : Reader} (hc : r'.cursor = r.cursor)
    (hr : r'.reach = r.reach) : r'.Follows tape :=
  ⟨h.lexed, hc ▸ h.shows, hc ▸ h.idle, hc ▸ h.place, hr ▸ h.reach⟩

theorem peek (h : r.Follows tape) : r.peek = .ok (tape.ahead.head?, r) := by
  rw [Reader.peek, h.shows.peek_eq h.idle]
  rfl

theorem rounds (h : r.Follows tape) : r.rounds = tape.size + 1 := by
  obtain ⟨passed, hf⟩ := h.shows.text
  rw [Reader.rounds, hf.readable, Tape.size_eq]
  rfl

/-- There are more rounds than tokens. -/
theorem length_lt_rounds (h : r.Follows tape) : tape.ahead.length < r.rounds := by
  rw [h.rounds, Tape.size_eq]
  exact Nat.lt_succ_of_le h.shows.length_le

/-- The byte behind the next token can be counted, since it is a place of the text. -/
theorem stop (h : r.Follows tape) (ha : tape.ahead = t :: ts) : Checked.stop t = .ok t.stop := by
  have hroom := h.shows.counts.byte
  rw [ha, Token.spell_cons, byteSize_append, Token.byteSize_chars] at hroom
  have hp : t.position = r.cursor.place := (ha ▸ h.shows).place
  exact add_eq (by rw [hp]; omega)

/-- Behind the next token a reader follows the tape without it. The lemma says what is needed of
the new reader, so that it serves taking a token as well as leaving a string by a jump. -/
theorem behind (h : r.Follows tape) (ha : tape.ahead = t :: ts) {r' : Reader}
    (hs : r'.cursor.source = r.cursor.source) (hl : r'.cursor.limit = r.cursor.limit)
    (hp : r'.cursor.place = t.behind) (hi : r'.cursor.origin = none)
    (hu : r'.cursor.preferHex = false) :
    r'.Follows { tape with ahead := ts, reach := r'.reach } := by
  have hn := ((ha ▸ h.shows : r.cursor.Shows (t :: ts)).step_cons).2
  refine ⟨h.lexed.tail ha _, hn.keep hs hl hp hu, hi, ?_, rfl⟩
  rw [hp, (h.lexed.cons ha _).1, Tape.place_ofText]

end Reader.Follows

namespace Outcome.Agrees

variable {r : Reader} {out : Outcome} {tape : Tape} {a b : Attempt}

/-- Nothing is taken and nothing is reported. -/
theorem nothing (h : r.Follows tape) : (Outcome.mk .nil r none).Agrees r (.ofTaken (.nil, tape)) :=
  ⟨rfl, rfl, h, rfl, rfl, rfl, rfl⟩

/-- One reading behind another. The traces are put together and the errors add up; all other parts
are those of the second. -/
theorem behind (ha : out.Agrees r a) {out' : Outcome} (hb : out'.Agrees out.reader b) :
    (out'.behind out.trace).Agrees r (b.behind a.trace) where
  trace := by rw [Outcome.behind, Attempt.behind, ha.trace, hb.trace]
  failure := hb.failure
  follows := hb.follows
  source := hb.source.trans ha.source
  limit := hb.limit.trans ha.limit
  errors := by
    rw [Attempt.trace_behind, Trace.diagnostics_append, List.length_append, ← Nat.add_assoc,
      ← ha.errors]
    exact hb.errors
  depth := hb.depth.trans ha.depth

/-- Both become the same node. -/
theorem framed (h : out.Agrees r a) (file : Option String) (kind : NodeKind) (start : Position) :
    (out.framed file kind start).Agrees r (a.framed file kind start) where
  trace := by
    unfold Outcome.framed Attempt.framed
    rw [h.failure]
    cases a.failure with
    | none => simp only [h.trace, Tape.extent, h.follows.reach]
    | some f => simp only [h.trace]
  failure := by rw [Outcome.failure_framed, Attempt.failure_framed, h.failure]
  follows := by
    rw [Outcome.reader_framed, Attempt.tape_framed]
    exact h.follows
  source := by rw [Outcome.reader_framed, h.source]
  limit := by rw [Outcome.reader_framed, h.limit]
  errors := by rw [Outcome.reader_framed, Attempt.diagnostics_framed, h.errors]
  depth := by rw [Outcome.reader_framed, h.depth]

/-- Nothing is taken, and the reading fails. -/
theorem failed (h : r.Follows tape) (f : Failure) :
    (Outcome.mk .nil r (some f)).Agrees r (.fail f tape) :=
  ⟨rfl, rfl, h, rfl, rfl, rfl, rfl⟩

/-- The next token is taken as a whole, whatever is reported of it. Quoted texts and embedded
blocks report more than their own text, and end as a single token does. -/
theorem token {t : Token} {ts : List Token} (h : r.Follows tape) (ha : tape.ahead = t :: ts)
    {trace : Trace} (ht : trace.diagnostics = []) (reach : Nat) :
    (Outcome.mk trace
      { r with
        cursor := { r.cursor with place := t.behind, previous := some r.cursor.place }
        reach } none).Agrees r
      (.ofTaken (trace, { tape with ahead := ts, reach })) where
  trace := rfl
  failure := rfl
  follows := h.behind ha rfl rfl rfl h.idle h.shows.usual
  source := rfl
  limit := rfl
  errors := by rw [Attempt.trace_ofTaken, ht]; rfl
  depth := rfl

end Outcome.Agrees

/-! ## Steps -/

theorem skipped_cons (inBlock : Bool) (opened : Nat) (t : Token) (ts : List Token) :
    Tape.skipped inBlock opened (t :: ts) =
      if t.kind = .mark .rightBrace then
        if opened = 0 && inBlock then 0
        else if opened ≤ 1 then 1
        else Tape.skipped inBlock (opened - 1) ts + 1
      else if t.kind = .mark .leftBrace then Tape.skipped inBlock (opened + 1) ts + 1
      else if t.kind = .mark .semicolon && opened == 0 then 1
      else Tape.skipped inBlock opened ts + 1 := by
  rcases opened with _ | _ | opened
  · simp [Tape.skipped]
  · simp [Tape.skipped]
  · simp [Tape.skipped]

namespace SimulatesAt

variable {depth : Nat} {tape : Tape} {run run' next : Reader → Checked Outcome} {a : Attempt}
  {read : Tape → Attempt}

/-- Readers that do the same simulate the same. Most cases below end with it: a simulation by
smaller ones, and then the checked reader is unfolded up to them. -/
theorem congr (h : SimulatesAt depth run tape a)
    (hrun : ∀ r : Reader, r.Follows tape → r.depth = depth → run' r = run r) :
    SimulatesAt depth run' tape a := by
  intro r hr hd he
  rw [hrun r hr hd]
  exact h r hr hd he

/-- Nothing has to be shown of a tape that no reader follows. This is how a proof gets to know
that the tokens of the tape were scanned from a text. -/
theorem of_follows (h : ∀ r : Reader, r.Follows tape → SimulatesAt depth run tape a) :
    SimulatesAt depth run tape a :=
  fun r hr => h r hr r hr

theorem nothing : SimulatesAt depth (fun r => .ok ⟨.nil, r, none⟩) tape (.ofTaken (.nil, tape)) :=
  fun _ h _ _ => ⟨_, rfl, .nothing h⟩

theorem take (tag : DataTag) :
    SimulatesAt depth (Reader.take tag) tape (.ofTaken (tape.take tag)) := by
  intro r h _ _
  cases ha : tape.ahead with
  | nil =>
    rw [Tape.take_of_nil tag ha]
    refine ⟨_, ?_, .nothing h⟩
    rw [Reader.take, (ha ▸ h.shows : r.cursor.Shows []).take_nil h.idle]
    rfl
  | cons t ts =>
    rw [Tape.take_of_cons tag ha]
    refine ⟨_, ?_, .token h ha rfl _⟩
    rw [Reader.take, (ha ▸ h.shows : r.cursor.Shows (t :: ts)).take_cons h.idle, ok_bind]
    dsimp only
    rw [h.stop ha, h.reach]
    split
    · rfl
    · rfl

/-- The place of a failure is that of the next token or, at the end, that of the cursor. -/
theorem fail (cause : Option Token → Cause) :
    SimulatesAt depth (Reader.fail cause) tape
      (.fail (tape.failure (cause tape.ahead.head?)) tape) := by
  intro r h _ _
  have hp : (tape.ahead.head?.map (·.position)).getD r.cursor.place = tape.place := by
    cases ha : tape.ahead with
    | nil => exact h.place
    | cons t ts => exact (h.lexed.cons ha 0).2.1
  refine ⟨_, ?_, .failed h _⟩
  -- The look is given back, so the reader is the same.
  rw [Reader.fail, h.peek, ok_bind]
  dsimp only
  rw [hp]
  rfl

theorem missing (wanted : Wanted) :
    SimulatesAt depth (Reader.missing wanted) tape (.fail (tape.missing wanted) tape) :=
  fail _

/-- One reading behind another. The second simulation is only needed if the first reading has not
failed. The room for errors is split between the two, which is where their numbers add up. -/
theorem andThen (hr : SimulatesAt depth run tape a)
    (hn : a.failure = none → SimulatesAt depth next a.tape (read a.tape)) :
    SimulatesAt depth (fun r => do (← run r).andThen next) tape (a.andThen read) := by
  intro r h hd he
  cases hf : a.failure with
  | some f =>
    rw [Attempt.andThen_of_some hf] at he ⊢
    obtain ⟨out, hout, ha⟩ := hr r h hd he
    refine ⟨out, ?_, ha⟩
    dsimp only
    rw [hout, ok_bind, Outcome.andThen, ha.failure, hf]
  | none =>
    rw [Attempt.andThen_of_none hf] at he ⊢
    rw [Attempt.trace_behind, Trace.diagnostics_append, List.length_append, ← Nat.add_assoc] at he
    obtain ⟨out, hout, ha⟩ := hr r h hd (by omega)
    obtain ⟨out', hout', ha'⟩ := hn hf out.reader ha.follows (ha.depth.trans hd)
      (by rw [ha.errors]; exact he)
    refine ⟨_, ?_, ha.behind ha'⟩
    dsimp only
    rw [hout, ok_bind, Outcome.andThen, ha.failure, hf]
    dsimp only
    rw [hout']
    rfl

/-- A reading as a node, which begins where it begins. The extent is computed from the reader in
one case and from the tape in the other, and `Follows` says that they are at the same place. -/
theorem framed (hr : SimulatesAt depth run tape a) (file : Option String) (kind : NodeKind) :
    SimulatesAt depth (fun r => do return (← run r).framed file kind r.cursor.place) tape
      (a.framed file kind tape.place) := by
  intro r h hd he
  rw [Attempt.diagnostics_framed] at he
  obtain ⟨out, hout, ha⟩ := hr r h hd he
  refine ⟨_, ?_, ha.framed file kind tape.place⟩
  dsimp only
  rw [hout, ok_bind, h.place]
  rfl

/-- Taking trivia stops at the first token that is none, and there are not as many tokens as
rounds. -/
theorem takeTrivia {rounds : Nat} (h : tape.ahead.length < rounds) :
    SimulatesAt depth (Reader.takeTrivia rounds) tape (.ofTaken tape.takeTrivia) := by
  induction rounds generalizing tape with
  | zero => exact absurd h (Nat.not_lt_zero _)
  | succ n ih =>
    cases ha : tape.ahead with
    | nil =>
      rw [Tape.takeTrivia, ha]
      refine nothing.congr fun r hr _ => ?_
      rw [Reader.takeTrivia, hr.peek, ha]
      rfl
    | cons t ts =>
      cases ht : t.isTrivia with
      | false =>
        rw [Tape.takeTrivia, ha,
          List.takeWhile_cons_of_neg (by rw [← Token.isTrivia, ht]; exact Bool.false_ne_true)]
        refine nothing.congr fun r hr _ => ?_
        rw [Reader.takeTrivia, hr.peek, ha, ok_bind]
        exact if_neg (Bool.not_eq_true _ ▸ ht)
      | true =>
        -- The tape takes all trivia at once; here it is the first piece and what is behind it, as
        -- the reader takes them.
        have he : Attempt.ofTaken tape.takeTrivia =
            (Attempt.ofTaken (tape.take .whitespace)).andThen fun tape =>
              .ofTaken tape.takeTrivia := by
          rw [Tape.takeTrivia, ha, @List.takeWhile_cons_of_pos _ (·.kind.isTrivia) t ts ht,
            List.length_cons, Attempt.ofTaken_takeMany_succ, Attempt.andThen_of_none rfl,
            Attempt.andThen_of_none rfl, Attempt.tape_ofTaken, Tape.takeTrivia, Tape.ahead_take, ha]
          rfl
        rw [he]
        refine ((take .whitespace).andThen fun _ => ih ?_).congr fun r hr _ => ?_
        · rw [Attempt.tape_ofTaken, Tape.ahead_take, ha]
          rw [ha] at h
          exact Nat.lt_of_succ_lt_succ h
        · rw [Reader.takeTrivia, hr.peek, ha, ok_bind]
          exact if_pos ht

/-- Taking all trivia, however much there is. -/
theorem trivia : SimulatesAt depth (fun r => r.takeTrivia r.rounds) tape
    (.ofTaken tape.takeTrivia) :=
  fun r hr hd he => takeTrivia hr.length_lt_rounds r hr hd he

/-- The braces that are counted while tokens are skipped are not more than there are tokens. That
is the second hypothesis: the braces open so far and the tokens ahead have room in a machine word,
and each token moves at most one from the one to the other.

The induction is on the rounds. Each token ends the skipping in front of it, ends it behind it, or
goes on with some number of braces open, and these three are settled before the cases are split.
-/
theorem skip {inBlock : Bool} {rounds opened : Nat} (h : tape.ahead.length < rounds)
    (ho : opened + tape.ahead.length < wordBound) :
    SimulatesAt depth (Reader.skip inBlock rounds opened) tape
      (.ofTaken (tape.takeMany .invalid (Tape.skipped inBlock opened tape.ahead))) := by
  induction rounds generalizing tape opened with
  | zero => exact absurd h (Nat.not_lt_zero _)
  | succ n ih =>
    cases ha : tape.ahead with
    | nil =>
      refine nothing.congr fun r hr _ => ?_
      rw [Reader.skip, hr.peek, ha]
      rfl
    | cons t ts =>
      rw [ha, List.length_cons] at h ho
      -- Skipping stops in front of this token, behind it, or goes on with as many braces open.
      have hahead : (tape.take .invalid).2.ahead = ts := by rw [Tape.ahead_take, ha]; rfl
      have hone : SimulatesAt depth (Reader.take .invalid) tape
          (.ofTaken (tape.takeMany .invalid 1)) := by
        rw [Tape.takeMany_succ, Tape.takeMany, Trace.append_nil]
        exact take .invalid
      have hmore (opened : Nat) (ho : opened + ts.length < wordBound) :
          SimulatesAt depth (fun r => do (← r.take .invalid).andThen (Reader.skip inBlock n opened))
            tape (.ofTaken (tape.takeMany .invalid (Tape.skipped inBlock opened ts + 1))) := by
        rw [Attempt.ofTaken_takeMany_succ]
        refine (take .invalid).andThen fun _ => ?_
        have := @ih (tape.take .invalid).2 opened (by rw [hahead]; omega) (by rw [hahead]; omega)
        rw [hahead] at this
        exact this
      have hstep {r : Reader} (hr : r.Follows tape) : r.peek = .ok (some t, r) := by
        rw [hr.peek, ha]
        rfl
      rw [skipped_cons]
      -- From here on the tests are those of the loop, in its order.
      by_cases hright : t.kind = .mark .rightBrace
      · rw [if_pos hright]
        split <;> rename_i hend
        · refine nothing.congr fun r hr _ => ?_
          rw [Reader.skip, hstep hr, ok_bind]
          dsimp only
          rw [if_pos hright, if_pos hend]
          rfl
        split <;> rename_i hlast
        · refine hone.congr fun r hr _ => ?_
          rw [Reader.skip, hstep hr, ok_bind]
          dsimp only
          rw [if_pos hright, if_neg hend, if_pos hlast]
        · refine (hmore (opened - 1) (by omega)).congr fun r hr _ => ?_
          rw [Reader.skip, hstep hr, ok_bind]
          dsimp only
          rw [if_pos hright, if_neg hend, if_neg hlast, sub_eq (by omega)]
          rfl
      rw [if_neg hright]
      by_cases hleft : t.kind = .mark .leftBrace
      · rw [if_pos hleft]
        refine (hmore (opened + 1) (by omega)).congr fun r hr _ => ?_
        rw [Reader.skip, hstep hr, ok_bind]
        dsimp only
        rw [if_neg hright, if_pos hleft, add_eq (by omega)]
        rfl
      rw [if_neg hleft]
      split <;> rename_i hlast
      · refine hone.congr fun r hr _ => ?_
        rw [Reader.skip, hstep hr, ok_bind]
        dsimp only
        rw [if_neg hright, if_neg hleft, if_pos hlast]
      · refine (hmore opened (by omega)).congr fun r hr _ => ?_
        rw [Reader.skip, hstep hr, ok_bind]
        dsimp only
        rw [if_neg hright, if_neg hleft, if_neg hlast]

/-- Skipping behind a failure counts the error. The attempt reports the same error, so there is
room for it. -/
theorem recover (file : Option String) (inBlock : Bool) (f : Failure) :
    SimulatesAt depth (Reader.recover file inBlock f) tape (.recover file inBlock f tape) := by
  intro r h hd he
  rw [Attempt.diagnostics_recover] at he
  have hreport : (Outcome.mk (.ofNote (.error .statement (f.diagnostic file)))
      { r with errors := r.errors + 1 } none).Agrees r
      (.ofTaken (.ofNote (.error .statement (f.diagnostic file)), tape)) :=
    ⟨rfl, rfl, h.congr rfl rfl, rfl, rfl, rfl, rfl⟩
  have hlen : tape.ahead.length < wordBound := h.shows.length_lt
  obtain ⟨out, hout, ha⟩ := @skip depth tape inBlock r.rounds 0 h.length_lt_rounds (by omega)
    { r with errors := r.errors + 1 } (h.congr rfl rfl) hd
    (by rw [Attempt.trace_ofTaken, Tape.diagnostics_takeMany]; exact he)
  refine ⟨_, ?_, hreport.behind (ha.framed file .invalid tape.place)⟩
  have hadd : add r.errors 1 = .ok (r.errors + 1) := add_eq he
  rw [Reader.recover, hadd, ok_bind, hout, ok_bind, h.place]
  rfl

/-- A statement, or what is skipped if it fails. The statement itself may have reported errors
already, from inside of a block or of a string. -/
theorem recovered (h : SimulatesAt depth run tape a) (file : Option String) (inBlock : Bool) :
    SimulatesAt depth (fun r => do Reader.recovered file inBlock (← run r)) tape
      (.recovered file inBlock a) := by
  intro r hr hd he
  cases hf : a.failure with
  | none =>
    rw [Attempt.recovered, hf] at he ⊢
    obtain ⟨out, hout, ha⟩ := h r hr hd he
    refine ⟨out, ?_, ha⟩
    dsimp only
    rw [hout, ok_bind, Reader.recovered, ha.failure, hf]
  | some f =>
    rw [Attempt.recovered, hf] at he ⊢
    dsimp only at he
    rw [Attempt.trace_behind, Trace.diagnostics_append, List.length_append, ← Nat.add_assoc] at he
    obtain ⟨out, hout, ha⟩ := h r hr hd (by omega)
    obtain ⟨out', hout', ha'⟩ := recover file inBlock f out.reader ha.follows (ha.depth.trans hd)
      (by rw [ha.errors]; exact he)
    refine ⟨_, ?_, ha.behind ha'⟩
    dsimp only
    rw [hout, ok_bind, Reader.recovered, ha.failure, hf]
    dsimp only
    rw [hout']
    rfl

/-- The rounds of a loop are never used up, since each takes something. That a part takes
something and loses nothing are hypotheses here (`hp`, `hc`); for the readings of the grammar they
are proved elsewhere. The parts that are counted are not more than the bytes that have been read.
-/
theorem repeating {test : Lookahead} [Scanned test] (ht : test [] = false)
    {body : Reader → Checked Outcome} (hc : ∀ tape, tape.Lexed → Attempt.Conserves tape (read tape))
    (hp : ∀ tape, tape.Lexed → Attempt.Progress tape (read tape))
    (hb : Simulates depth body read) {rounds parts : Nat} (h : tape.size < rounds)
    (hparts : parts + tape.size < wordBound) :
    SimulatesAt depth (Reader.repeating (Scanned.run test) body rounds parts) tape
      (.repeating test read tape.size tape) := by
  induction rounds generalizing tape parts with
  | zero => exact absurd h (Nat.not_lt_zero _)
  | succ n ih =>
    refine of_follows fun _ hf => ?_
    have hl := hf.lexed
    have hlook {r : Reader} (hr : r.Follows tape) :
        Scanned.run test r.cursor = .ok (test tape.ahead, r.cursor) :=
      Scanned.run_eq hr.shows hr.idle
    rw [Attempt.repeating_eq ht hc hp hl]
    cases hg : test tape.ahead with
    | false =>
      refine nothing.congr fun r hr _ => ?_
      rw [Reader.repeating, hlook hr, hg]
      rfl
    | true =>
      have hn : tape.ahead ≠ [] := by
        intro he
        rw [he, ht] at hg
        cases hg
      -- A part that is counted is at least a byte of what was left.
      have hpos : tape.size ≠ 0 := fun hs => hn (hl.size_eq_zero hs)
      have hmore (hf : (read tape).failure = none) :
          SimulatesAt depth (Reader.repeating (Scanned.run test) body n (parts + 1))
            (read tape).tape (.repeating test read (read tape).tape.size (read tape).tape) := by
        have hlt := (hc tape hl).size_lt (hp tape hl hf hn)
        exact ih (by omega) (by omega)
      refine ((hb tape).andThen hmore).congr fun r hr _ => ?_
      rw [Reader.repeating, hlook hr, hg, add_eq (by omega)]
      rfl

/-- **A list of statements, none of which is empty.** The induction is on the rounds. The attempt
counts rounds of its own, as many as there is text ahead; that more of them change nothing
(`Attempt.statements_rounds`) is what lets the two counts differ. -/
theorem statements {file : Option String} {inBlock : Bool} {statement : Reader → Checked Outcome}
    (hc : ∀ tape, tape.Lexed → Attempt.Conserves tape (read tape))
    (hp : ∀ tape, tape.Lexed → Attempt.Progress tape (read tape))
    (hs : Simulates depth statement read) {rounds : Nat} (h : tape.size < rounds) :
    SimulatesAt depth (Reader.statements file inBlock statement rounds) tape
      (.statements file inBlock read tape.size tape) := by
  induction rounds generalizing tape with
  | zero => exact absurd h (Nat.not_lt_zero _)
  | succ n ih =>
    refine of_follows fun _ hf => ?_
    have hl := hf.lexed
    rw [← Attempt.statements_rounds hc hp hl (Nat.le_succ _), Attempt.statements]
    refine trivia.andThen fun _ => ?_
    rw [Attempt.tape_ofTaken]
    -- The trivia in front only makes the text ahead shorter.
    have htrivia := Attempt.conserves.takeTrivia tape hl
    have hsize : tape.takeTrivia.2.size ≤ tape.size := htrivia.size_le
    have hl : tape.takeTrivia.2.Lexed := htrivia.lexed
    generalize tape.takeTrivia.2 = behind at hsize hl
    -- Behind something that is skipped or read there is less to read, so the rounds are enough.
    have hmore (b : Tape) (hb : b.Lexed) (hlt : b.size < behind.size) :
        SimulatesAt depth (Reader.statements file inBlock statement n) b
          (.statements file inBlock read tape.size b) := by
      rw [Attempt.statements_rounds hc hp hb (by omega)]
      exact ih (by omega)
    cases ha : behind.ahead with
    | nil =>
      refine nothing.congr fun r hr _ => ?_
      rw [hr.peek, ha]
      rfl
    | cons t ts =>
      have hpeek {r : Reader} (hr : r.Follows behind) : r.peek = .ok (some t, r) := by
        rw [hr.peek, ha]
        rfl
      dsimp only
      by_cases hk : t.kind = .mark .rightBrace
      · cases inBlock with
        | true =>
          rw [if_pos hk, if_pos rfl]
          refine nothing.congr fun r hr _ => ?_
          rw [hpeek hr, ok_bind]
          dsimp only
          rw [if_pos hk, if_pos rfl]
          rfl
        | false =>
          have hn : ¬ Attempt.EndsList false behind.ahead :=
            Attempt.not_endsList_of_ne_nil (ha ▸ List.cons_ne_nil t ts)
          -- A stray brace is skipped, so this round makes progress although nothing was read.
          have hb := Attempt.Conserves.recover hl file false (behind.failure .strayBrace)
          have hstray : SimulatesAt depth
              (fun r => do Reader.recovered file false (← r.fail fun _ => .strayBrace)) behind
              (.recover file false (behind.failure .strayBrace) behind) :=
            (fail fun _ => .strayBrace).recovered file false
          rw [if_pos hk, if_neg Bool.false_ne_true]
          refine (hstray.andThen fun _ => hmore _ hb.lexed
            (hb.size_lt (Attempt.text_recover_ne_nil hl hn))).congr fun r hr _ => ?_
          rw [hpeek hr, ok_bind]
          dsimp only
          rw [if_pos hk, if_neg Bool.false_ne_true, bind_assoc]
      · have hn : ¬ Attempt.EndsList inBlock behind.ahead :=
          ha ▸ Attempt.not_endsList_of_kind hk
        have hb := (hc _ hl).recovered file inBlock
        rw [if_neg hk]
        refine (((hs behind).recovered file inBlock).andThen fun _ => hmore _ hb.lexed
          (hb.size_lt (Attempt.text_recovered_ne_nil hl (hc _ hl) (hp _ hl) hn))).congr
          fun r hr _ => ?_
        rw [hpeek hr, ok_bind]
        dsimp only
        rw [if_neg hk, bind_assoc]

/-- The inside of a node is one level deeper, as long as there is one. `Agrees` says that the
inside has kept the depth, so that it can be taken down. -/
theorem nested (hd : depth < maxNesting) (h : SimulatesAt (depth + 1) run tape a) :
    SimulatesAt depth (Reader.nested run) tape a := by
  rintro r hr rfl he
  obtain ⟨out, hout, ha⟩ := h { r with depth := r.depth + 1 } (hr.congr rfl rfl) rfl he
  -- The inside is left on the level on which it was entered.
  have hadd : add r.depth 1 = .ok (r.depth + 1) :=
    add_eq (Nat.lt_trans (Nat.succ_lt_succ hd) (by decide))
  have hsub : sub out.reader.depth 1 = .ok r.depth := by
    rw [ha.depth]
    exact sub_eq (Nat.le_add_left _ _)
  refine ⟨{ out with reader := { out.reader with depth := r.depth } }, ?_, ?_⟩
  · rw [Reader.nested, if_neg (Nat.not_le.2 hd), hadd, ok_bind, hout, ok_bind, hsub]
    rfl
  · exact ⟨ha.trace, ha.failure, ha.follows.congr rfl rfl, ha.source, ha.limit, ha.errors, rfl⟩

/-- On the deepest level there is nothing inside a node: the reading fails, and this is the one
failure that depends on the depth. -/
theorem nested_deepest (hd : maxNesting ≤ depth) :
    SimulatesAt depth (Reader.nested run) tape (.fail (tape.failure .tooDeep) tape) := by
  refine (fail fun _ => .tooDeep).congr fun r _ hr => ?_
  rw [Reader.nested, if_pos (hr ▸ hd)]

/-- A construct, given the inside of its node. What the inside does is the business of
`Checked.Plan`. -/
theorem enter (p : Production) (o : Options) (h : Simulates depth (Reader.nested run) read) :
    SimulatesAt depth (Reader.enter p o run) tape (p.enter o read tape) := by
  rw [Production.enter_eq]
  cases hk : p.keepsTrivia with
  | true =>
    refine ((h tape).framed o.file p.kind).congr fun r _ _ => ?_
    rw [Reader.enter, hk]
    rfl
  | false =>
    have hnode := (h tape.takeTrivia.2).framed o.file p.kind
    refine (@andThen _ _ _ _ _ (fun tape => (read tape).framed o.file p.kind tape.place)
      trivia fun _ => hnode).congr fun r _ _ => ?_
    rw [Reader.enter, hk]
    rfl

end SimulatesAt

end Checked

end Heddle
