import Heddle.Proofs.Reading.Interpolated
import Heddle.Proofs.Reading.Reach

/-!
# Extents are where the text of a node is

A reader writes the extent of a node from two fields of its tape: the place where it began to read
the node, and the byte it has reached when it is done. `Trace.Located` says what the extents of a
trace should be, from the text of the trace alone: a node begins behind all the text in front of
it, and ends behind the last significant data inside it (`Trace.reached`), whichever node this data
is in and whether or not that node was kept.

That the two agree is an invariant with one assumption, that nothing is reached behind the place
where the reading is (`Tape.Grounded`). **Inside a quoted text the assumption fails**: the reader
has reached the closing quote before it reads the first placeholder, and between two placeholders
it does not notice the plain text. It does no harm, since each placeholder begins with its percent
sign, and taking the sign sets right what was reached (`Attempt.Signed`).
-/

set_option autoImplicit false

namespace Heddle

open Text

/-! ## What a trace says of extents -/

/-- Data that is no trivia. -/
def Note.isSignificant : Note → Bool
  | .data tag _ => !tag.isTrivia
  | _ => false

namespace Trace

/-- The byte behind the last significant data of a trace that begins at the byte `start`, and
`reach` if there is none. It is a fold over the data in order, whatever nodes the data is in. -/
def reached : Nat → Nat → Trace → Nat
  | _, reach, nil => reach
  | start, reach, note n next =>
    let stop := start + byteSize n.chars
    next.reached stop (if n.isSignificant then stop else reach)
  | start, reach, node _ inside _ next =>
    next.reached (start + byteSize inside.text) (inside.reached start reach)

@[simp] theorem reached_nil (start reach : Nat) : nil.reached start reach = reach := rfl

theorem text_note (n : Note) (next : Trace) : (note n next).text = n.chars ++ next.text := rfl

theorem text_node (kind : NodeKind) (inside : Trace) (committed : Bool) (next : Trace) :
    (node kind inside committed next).text = inside.text ++ next.text := by
  simp [text, notes]

@[simp] theorem reached_append (t u : Trace) (start reach : Nat) :
    (t ++ u).reached start reach =
      u.reached (start + byteSize t.text) (t.reached start reach) := by
  induction t generalizing start reach with
  | nil => rfl
  | note n next ih =>
    rw [note_append, reached, ih, text_note, byteSize_append, Nat.add_assoc]
    rfl
  | node kind inside committed next _ ih =>
    rw [node_append, reached, ih, text_node, byteSize_append, Nat.add_assoc]
    rfl

/-- What was reached before counts as long as there is no significant data, and then no more. -/
theorem reached_cases (t : Trace) (start : Nat) :
    (∀ reach, t.reached start reach = reach) ∨ ∃ b, ∀ reach, t.reached start reach = b := by
  induction t generalizing start with
  | nil => exact .inl fun _ => rfl
  | note n next ih =>
    rcases ih (start + byteSize n.chars) with h | ⟨b, h⟩
    · cases hn : n.isSignificant with
      | true => exact .inr ⟨start + byteSize n.chars, fun reach => by simp [reached, hn, h]⟩
      | false => exact .inl fun reach => by simp [reached, hn, h]
    · exact .inr ⟨b, fun reach => h _⟩
  | node kind inside committed next ihi ihn =>
    rcases ihn (start + byteSize inside.text) with h | ⟨b, h⟩
    · rcases ihi start with hi | ⟨b, hi⟩
      · exact .inl fun reach => by rw [reached, h, hi]
      · exact .inr ⟨b, fun reach => by rw [reached, h, hi]⟩
    · exact .inr ⟨b, fun reach => h _⟩

/-- What was reached in front of the trace does not show in its extent: a length is cut off at
zero. -/
theorem reached_sub (t : Trace) {start reach : Nat} (h : reach ≤ start) :
    t.reached start reach - start = t.reached start start - start := by
  rcases t.reached_cases start with ht | ⟨b, ht⟩
  · rw [ht, ht, Nat.sub_self, Nat.sub_eq_zero_of_le h]
  · rw [ht, ht]

/-- The extent of a node that begins at `p`, with `inside` in it, as it can be computed from the
trace alone. -/
def extent (file : Option String) (p : Position) (inside : Trace) : Location :=
  ⟨file, p.line, p.column, p.byte, inside.reached p.byte p.byte - p.byte⟩

/-- The extents of a trace that begins at `p` are those of its nodes. A node that is dropped has
none, and one that is committed has it as the last thing inside. -/
inductive Located (file : Option String) : Position → Trace → Prop where
  | nil (p : Position) : Located file p nil
  | note {p : Position} {n : Note} {next : Trace} (hn : ∀ l, n ≠ .location l)
      (h : Located file (p.past n.chars) next) : Located file p (note n next)
  | dropped {p : Position} {kind : NodeKind} (hk : kind ≠ .invalid) {inside next : Trace}
      (hi : Located file p inside) (h : Located file (p.past inside.text) next) :
      Located file p (node kind inside false next)
  | committed {p : Position} {kind : NodeKind} {inside next : Trace}
      (hi : Located file p inside) (h : Located file (p.past inside.text) next) :
      Located file p (node kind (inside ++ .ofNote (.location (inside.extent file p))) true next)

namespace Located

variable {file : Option String} {p : Position} {t u : Trace}

theorem append (ht : t.Located file p) (hu : u.Located file (p.past t.text)) :
    (t ++ u).Located file p := by
  induction ht with
  | nil p => exact hu
  | note hn _ ih =>
    rw [text_note, Position.past_append] at hu
    exact .note hn (ih hu)
  | dropped hk hi _ _ ih =>
    rw [text_node, Position.past_append] at hu
    exact .dropped hk hi (ih hu)
  | committed hi _ _ ih =>
    rw [text_node, text_append, text_location, List.append_nil, Position.past_append] at hu
    exact .committed hi (ih hu)

theorem ofData (tag : DataTag) (text : String) : (ofData tag text).Located file p :=
  .note nofun (.nil _)

theorem error (scope : ErrorScope) (d : Diagnostic) :
    (ofNote (.error scope d)).Located file p := .note nofun (.nil _)

theorem fault (start stop : Nat) : (ofNote (.fault start stop)).Located file p :=
  .note nofun (.nil _)

end Located

/-- The trace ends with significant data, so what was reached is where it ends. -/
def Solid (t : Trace) : Prop := ∀ start reach, t.reached start reach = start + byteSize t.text

namespace Solid

theorem ofData {tag : DataTag} (h : tag.isTrivia = false) (text : String) :
    (ofData tag text).Solid := by
  intro start reach
  simp [Trace.ofData, ofNote, reached, Note.isSignificant, Note.chars, h, text_note]

theorem behind {u : Trace} (hu : u.Solid) (t : Trace) : (t ++ u).Solid := by
  intro start reach
  rw [reached_append, hu, text_append, byteSize_append, Nat.add_assoc]

end Solid

end Trace

/-! ## Attempts -/

namespace Attempt

open Trace

/-- The extents that the attempt reports are those of its trace, and so is what it reached. -/
structure Locates (file : Option String) (tape : Tape) (a : Attempt) : Prop where
  located : a.trace.Located file tape.place
  reach : a.tape.reach = a.trace.reached tape.place.byte tape.reach

namespace Locates

variable {file : Option String} {tape : Tape} {a b : Attempt}

theorem nothing (tape : Tape) : Locates file tape (ofTaken (.nil, tape)) := ⟨.nil _, rfl⟩

theorem fail (f : Failure) (tape : Tape) : Locates file tape (Attempt.fail f tape) :=
  ⟨.nil _, rfl⟩

/-- The attempts of a sequence, one behind the other. -/
theorem behind (ha : Locates file tape a) (hc : Conserves tape a) (hb : Locates file a.tape b) :
    Locates file tape (b.behind a.trace) := by
  have hl := hb.located
  rw [hc.place] at hl
  refine ⟨ha.located.append hl, ?_⟩
  rw [tape_behind, trace_behind, reached_append, hb.reach, ha.reach, hc.place, Position.byte_past]

/-- A piece of data that is the next token. -/
theorem token (h : tape.Lexed) {t : Token} {ts : List Token} (ha : tape.ahead = t :: ts)
    (tag : DataTag) : Locates file tape (ofTaken (.ofData tag t.text,
      { tape with ahead := ts, reach := if tag.isTrivia then tape.reach else t.stop })) := by
  refine ⟨.ofData _ _, ?_⟩
  have hstop : tape.place.byte + byteSize t.text.toList = t.stop := by
    rw [← (h.cons ha 0).2.1]
    exact congrArg (t.position.byte + ·) t.byteSize_chars
  simp only [tape_ofTaken, trace_ofTaken, Trace.ofData, ofNote, reached, Note.isSignificant,
    Note.chars, hstop]
  cases tag.isTrivia <;> rfl

theorem take (h : tape.Lexed) (tag : DataTag) : Locates file tape (ofTaken (tape.take tag)) := by
  cases ha : tape.ahead with
  | nil =>
    rw [Tape.take_of_nil tag ha]
    exact nothing tape
  | cons t ts =>
    rw [Tape.take_of_cons tag ha]
    exact token h ha _

theorem takeMany (h : tape.Lexed) (tag : DataTag) (n : Nat) :
    Locates file tape (ofTaken (tape.takeMany tag n)) := by
  induction n generalizing tape with
  | zero => exact nothing tape
  | succ n ih =>
    have hc := Conserves.take tag h
    exact (take h tag).behind hc (ih hc.lexed)

/-- The extent that a node gets is its own. Only what is skipped makes a node that is invalid, and
it never fails. -/
theorem framed (ha : Locates file tape a) (hg : tape.Grounded) {kind : NodeKind}
    (hk : a.failure = none ∨ kind ≠ .invalid) :
    Locates file tape (a.framed file kind tape.place) := by
  have hr : a.tape.reach = a.trace.reached tape.place.byte tape.reach := ha.reach
  unfold Attempt.framed
  split
  · rename_i f hf
    exact ⟨.dropped (hk.resolve_left (by rw [hf]; nofun)) ha.located (.nil _), hr⟩
  · have hextent : a.tape.extent file tape.place = a.trace.extent file tape.place := by
      rw [Tape.extent, Trace.extent, hr, reached_sub _ hg]
    rw [hextent]
    refine ⟨.committed ha.located (.nil _), ?_⟩
    show a.tape.reach = (a.trace ++ .ofNote _).reached _ _
    rw [reached_append]
    exact hr

theorem recover (h : tape.Lexed) (hg : tape.Grounded) (inBlock : Bool) (f : Failure) :
    Locates file tape (recover file inBlock f tape) := by
  have hs : Locates file tape ((ofTaken (tape.takeMany .invalid _)).framed file .invalid _) :=
    (takeMany h .invalid (Tape.skipped inBlock 0 tape.ahead)).framed hg (.inl rfl)
  exact ⟨(Located.error _ _).append hs.located, hs.reach⟩

theorem hexDigits (h : tape.Lexed) : Locates file tape (hexDigits tape) := by
  rcases hexDigits_cases h with hd | ⟨t, rest, hr, -, hd⟩
  · rw [hd]
    exact fail _ tape
  · obtain ⟨hp, -, -⟩ := Token.read?_eq_some hr
    rw [hd]
    refine ⟨.ofData _ _, ?_⟩
    show t.stop = tape.place.byte + byteSize t.chars
    rw [← hp, t.byteSize_chars]
    rfl

/-- A token that is taken to pieces, the last of which is significant. -/
theorem pieces {t : Token} {ts : List Token} {trace : Trace} (h : tape.Lexed)
    (ha : tape.ahead = t :: ts) (hl : trace.Located file tape.place) (hs : trace.Solid)
    (ht : trace.text = t.chars) :
    Locates file tape (ofTaken (trace, { tape with ahead := ts, reach := t.stop })) := by
  refine ⟨hl, ?_⟩
  rw [trace_ofTaken, hs, ht, t.byteSize_chars, ← (h.cons ha 0).2.1]
  rfl

end Locates

/-! ### Tokens that are taken to pieces -/

variable {file : Option String}

theorem located_cut {t : Token} {start stop : Nat} {use : List Char → Trace} {p : Position}
    (hu : ∀ cs, (use cs).Located file p) : (cut t start stop use).Located file p := by
  unfold cut
  split
  · exact hu _
  · exact .fault _ _

theorem located_pieceIfAny {p : Position} (tag : DataTag) (cs : List Char) :
    (pieceIfAny tag cs).Located file p := by
  unfold pieceIfAny
  split
  · exact .nil p
  · exact .ofData _ _

theorem Locates.foreign {tape : Tape} (h : tape.Lexed) : Locates file tape (foreign tape) := by
  have hc := Conserves.foreign h
  unfold Attempt.foreign at hc ⊢
  split
  · exact .fail _ tape
  rename_i t ts ha
  split
  · rename_i language hk
    have htag (sign : String) (p : Position) : (Trace.ofData .punctuation sign ++
        Trace.ofData .language language ++ Trace.ofData .punctuation ">").Located file p :=
      ((Located.ofData _ _).append (.ofData _ _)).append (.ofData _ _)
    simp only [ha, hk] at hc
    refine .pieces h ha ?_ ?_ ?_
    · exact ((htag _ _).append (located_cut fun _ => located_pieceIfAny _ _)).append (htag _ _)
    · exact .behind (.behind (.ofData rfl _) _) _
    · have htext := hc.text
      rw [(h.cons ha 0).2.2.2] at htext
      exact (List.append_cancel_right htext).symm
  · exact .fail _ tape

/-- What is read at the percent sign of a placeholder has the right extents, whatever was reached
before. It is asked of readers as a whole, since the window of a placeholder begins with what was
reached at the closing quote. -/
def LocatesPlaceholders (file : Option String) (read : Tape → Attempt) : Prop :=
  ∀ (p : Position) (cs : List Char) (reach : Nat),
    (read (.ofText p ('%' :: cs) reach)).trace.Located file p

theorem located_placeholder {read : Tape → Attempt} (hr : LocatesPlaceholders file read)
    {t : Token} {q : Placeholder} {cs : List Char}
    (hs : t.slice? q.position.byte (t.stop - 1) = some ('%' :: cs)) (reach : Nat) :
    (placeholder file read t reach q).trace.Located file q.position := by
  unfold placeholder
  rw [hs]
  simp only
  split
  · exact hr _ _ _
  · split
    · exact ((hr _ _ _).append (.error _ _)).append (located_cut fun _ => .ofData _ _)
    · exact (hr _ _ _).append (.error _ _)

/-- The pieces of a quoted text have the right extents, each behind the one in front of it, and they
end with plain text. -/
theorem Interpolates.located {read : Bool → Tape → Attempt}
    (hp : ∀ isBraced, LocatesPlaceholders file (read isBraced)) {t : Token} {quote : Char}
    {xs : List Char} {trace : Trace} (h : Interpolates file read t quote xs trace) :
    trace.Located file (t.position.past xs) ∧ trace.Solid := by
  induction h with
  | last => exact ⟨.ofData _ _, .ofData rfl _⟩
  | @next xs lead cs p reach rest _ _ hplace _ hslice _ ih =>
    obtain ⟨hrest, hsolid⟩ := ih
    have hhere := located_placeholder (hp p.braced) hslice reach
    refine ⟨(located_pieceIfAny _ _).append (.append ?_ ?_), (hsolid.behind _).behind _⟩
    · rwa [text_pieceIfAny, ← Position.past_append, ← hplace]
    · rwa [text_pieceIfAny, ← Position.past_append, ← Position.past_append, ← List.append_assoc]

theorem Locates.quoted {read : Bool → Tape → Attempt}
    (hr : ∀ isBraced window, window.Lexed → Conserves window (read isBraced window))
    (hp : ∀ isBraced, LocatesPlaceholders file (read isBraced)) {tape : Tape} (h : tape.Lexed) :
    Locates file tape (quoted file read tape) := by
  rcases quoted_cases file hr h with he | ⟨t, ts, trace, ha, he, rfl | ⟨style, ps, -, hpieces⟩⟩
  · rw [he]
    exact .fail _ tape
  · rw [he]
    exact .pieces h ha (.ofData _ _) (.ofData rfl _) (text_ofData _ _)
  · obtain ⟨hlocated, hsolid⟩ := hpieces.located hp
    have hplace : t.position.past [] = tape.place := (h.cons ha 0).2.1
    rw [hplace] at hlocated
    rw [he]
    exact .pieces h ha hlocated hsolid hpieces.text.symm

end Attempt

end Heddle
