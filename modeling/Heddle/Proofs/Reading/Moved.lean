import Heddle.Proofs.Grammar.Local
import Heddle.Proofs.Reading.Conservation
import Heddle.Proofs.Tree.Shift

/-!
# Reading a moved text

A text is read alike wherever it stands: the report is the same at other places. Every step of a
reading keeps two tapes, one of the text alone and one of the text behind another, in the relation
`Tape.Moved`, and reports the same up to the move.

The two tapes differ in one thing more than the move. What has been reached counts from the
beginning of everything, so where nothing was taken yet the tape of the text alone says 0, and the
other one says how far the text in front reached, which may be less than its size. **This is never
seen**: an extent that begins in the moved text and reaches less far than the text in front is
empty, as it is where nothing was reached.
-/

set_option autoImplicit false

namespace Heddle

open Text

/-- How far a reading of the moved text has reached. In the second case nothing was taken yet, and
the text in front may have reached less far than its size. -/
def Shift.Reaches (d : Shift) (reach reach' : Nat) : Prop :=
  reach' = reach + d.bytes ∨ reach = 0 ∧ reach' ≤ d.bytes

/-- The second tape is the first one in the moved text. That lines count from one is kept, since
moving adds to columns on the first line only. -/
structure Tape.Moved (d : Shift) (tape tape' : Tape) : Prop where
  lexed : tape.Lexed
  line : 1 ≤ tape.place.line
  ahead : tape'.ahead = tape.ahead.map (·.shift d)
  stop : tape'.stop = tape.stop.shift d
  reach : d.Reaches tape.reach tape'.reach

/-- The second attempt is the first one in the moved text. -/
structure Attempt.Moved (d : Shift) (a a' : Attempt) : Prop where
  trace : a'.trace = a.trace.shift d
  tape : a.tape.Moved d a'.tape
  failure : a'.failure = a.failure.map (·.shift d)

/-- Where a placeholder of the moved text left it. -/
structure Attempt.Resumption.Moved (d : Shift) (r r' : Resumption) : Prop where
  trace : r'.trace = r.trace.shift d
  byte : r'.byte = r.byte + d.bytes
  reach : d.Reaches r.reach r'.reach

variable {d : Shift}

/-! ## Tokens -/

namespace Token

theorem kind_shift_eq_mark {t : Token} {m : Mark} :
    (t.shift d).kind = .mark m ↔ t.kind = .mark m := by
  obtain ⟨kind, text, position⟩ := t
  cases kind <;> simp [shift, TokenKind.shift]

theorem role_shift (t : Token) (tag : DataTag) : (t.shift d).kind.role tag = t.kind.role tag := by
  obtain ⟨kind, text, position⟩ := t
  cases kind <;> rfl

theorem stop_shift (t : Token) : (t.shift d).stop = t.stop + d.bytes := by
  simp only [stop, shift, Position.byte_shift]
  omega

theorem reaches_stop (t : Token) : d.Reaches t.stop (t.shift d).stop := .inl t.stop_shift

theorem slice?_shift (t : Token) (start stop : Nat) :
    (t.shift d).slice? (start + d.bytes) (stop + d.bytes) = t.slice? start stop := by
  unfold slice?
  simp only [shift, Position.byte_shift, Nat.add_le_add_iff_right, Nat.add_sub_add_right]
  rfl

end Token

namespace Tape

/-- What is skipped does not depend on places, nor on what trivia is. -/
theorem skipped_disguise (f : Disguise) (inBlock : Bool) (depth : Nat) (ts : List Token) :
    skipped inBlock depth (ts.map f.map) = skipped inBlock depth ts := by
  have hmark (t : Token) (m : Mark) : ((f.map t).kind = .mark m) = (t.kind = .mark m) := by
    have h := Bool.eq_iff_iff.1 (Token.isMark_disguise f t m)
    simpa only [Token.isMark, beq_iff_eq, eq_iff_iff] using h
  induction ts generalizing depth with
  | nil => rfl
  | cons t ts ih =>
    rw [List.map_cons, skipped.eq_def, skipped.eq_def inBlock depth (t :: ts)]
    simp only [hmark, ih]

namespace Moved

variable {tape tape' : Tape}

/-- A text that is cut anew at the place that a tape has reached. -/
theorem ofText {p : Position} (h : 1 ≤ p.line) (cs : List Char) {reach reach' : Nat}
    (hr : d.Reaches reach reach') :
    (Tape.ofText p cs reach).Moved d (.ofText (p.shift d) cs reach') :=
  ⟨lexed_ofText _ _ _, by rwa [place_ofText], Token.readAll_shift d h cs,
    Position.past_shift d h cs, hr⟩

theorem place (h : tape.Moved d tape') : tape'.place = tape.place.shift d := by
  unfold Tape.place
  rw [h.ahead, h.stop]
  cases tape.ahead <;> rfl

theorem text (h : tape.Moved d tape') : tape'.text = tape.text := by
  unfold Tape.text Token.spell
  rw [h.ahead, List.flatMap_map]
  rfl

theorem size (h : tape.Moved d tape') : tape'.size = tape.size := by
  rw [size_eq, size_eq, h.text]

theorem look (h : tape.Moved d tape') {test : Lookahead} (ht : test.IgnoresPlaces) :
    test tape'.ahead = test tape.ahead := by
  rw [h.ahead]
  exact ht d tape.ahead

/-- The next token of both, and what is behind it. -/
theorem cons (h : tape.Moved d tape') {t : Token} {ts : List Token} (ha : tape.ahead = t :: ts)
    {reach reach' : Nat} (hr : d.Reaches reach reach') :
    tape'.ahead = t.shift d :: ts.map (·.shift d) ∧
      ({ tape with ahead := ts, reach } : Tape).Moved d
        { tape' with ahead := ts.map (·.shift d), reach := reach' } := by
  refine ⟨by rw [h.ahead, ha, List.map_cons], h.lexed.tail ha reach, ?_, rfl, h.stop, hr⟩
  rw [h.lexed.place_tail ha]
  exact Nat.le_trans h.line (Position.line_le_past _ _)

theorem failure (h : tape.Moved d tape') (cause : Cause) :
    tape'.failure cause = (tape.failure cause).shift d := by
  rw [Tape.failure, h.place]
  rfl

theorem missing (h : tape.Moved d tape') (wanted : Wanted) :
    tape'.missing wanted = (tape.missing wanted).shift d := by
  unfold Tape.missing
  rw [h.failure, h.ahead]
  cases tape.ahead <;> rfl

/-- Extents are as long as they were. -/
theorem extent (h : tape.Moved d tape') (file : Option String) (start : Position) :
    tape'.extent file (start.shift d) = (tape.extent file start).shift d := by
  have hlength : tape'.reach - (start.byte + d.bytes) = tape.reach - start.byte := by
    -- Where nothing was reached the extent is empty, and so is one that ends in the text in front.
    rcases h.reach with hr | ⟨hz, hle⟩
    · rw [hr, Nat.add_sub_add_right]
    · omega
  simp only [Tape.extent, Location.shift, Position.shift, hlength]

end Moved

end Tape

/-! ## Steps -/

namespace Attempt.Moved

variable {tape tape' : Tape} {a a' b b' : Attempt}

theorem nothing (h : tape.Moved d tape') :
    (ofTaken (.nil, tape)).Moved d (ofTaken (.nil, tape')) := ⟨rfl, h, rfl⟩

theorem fail (h : tape.Moved d tape') {f f' : Failure} (hf : f' = f.shift d) :
    (Attempt.fail f tape).Moved d (.fail f' tape') := ⟨rfl, h, congrArg some hf⟩

theorem take (h : tape.Moved d tape') (tag : DataTag) :
    (ofTaken (tape.take tag)).Moved d (ofTaken (tape'.take tag)) := by
  cases ha : tape.ahead with
  | nil =>
    rw [Tape.take_of_nil tag ha, Tape.take_of_nil tag (by rw [h.ahead, ha]; rfl)]
    exact nothing h
  | cons t ts =>
    have hreach : d.Reaches (if (t.kind.role tag).isTrivia then tape.reach else t.stop)
        (if (t.kind.role tag).isTrivia then tape'.reach else (t.shift d).stop) := by
      split
      · exact h.reach
      · exact t.reaches_stop
    obtain ⟨ha', hm⟩ := h.cons ha hreach
    rw [Tape.take_of_cons tag ha, Tape.take_of_cons tag ha', Token.role_shift]
    exact ⟨rfl, hm, rfl⟩

theorem behind (ha : a.Moved d a') (hb : b.Moved d b') :
    (b.behind a.trace).Moved d (b'.behind a'.trace) :=
  ⟨by rw [trace_behind, trace_behind, Trace.shift_append, ha.trace, hb.trace], hb.tape, hb.failure⟩

theorem andThen (ha : a.Moved d a') {next next' : Tape → Attempt}
    (hn : a.failure = none → (next a.tape).Moved d (next' a'.tape)) :
    (a.andThen next).Moved d (a'.andThen next') := by
  have hf := ha.failure
  cases hx : a.failure with
  | none =>
    rw [hx] at hf
    rw [andThen_of_none hx, andThen_of_none hf]
    exact ha.behind (hn hx)
  | some f =>
    rw [hx] at hf
    rw [andThen_of_some hx, andThen_of_some hf]
    exact ha

theorem takeMany (h : tape.Moved d tape') (tag : DataTag) (n : Nat) :
    (ofTaken (tape.takeMany tag n)).Moved d (ofTaken (tape'.takeMany tag n)) := by
  induction n generalizing tape tape' with
  | zero => exact nothing h
  | succ n ih =>
    rw [ofTaken_takeMany_succ, ofTaken_takeMany_succ]
    exact (take h tag).andThen fun _ => ih (take h tag).tape

theorem takeTrivia (h : tape.Moved d tape') :
    (ofTaken tape.takeTrivia).Moved d (ofTaken tape'.takeTrivia) := by
  have hlength : (tape'.ahead.takeWhile (·.kind.isTrivia)).length =
      (tape.ahead.takeWhile (·.kind.isTrivia)).length := by
    rw [h.ahead, List.takeWhile_map, List.length_map]
    congr 2
    funext t
    exact Token.isTrivia_shift d t
  unfold Tape.takeTrivia
  rw [hlength]
  exact takeMany h _ _

theorem framed (ha : a.Moved d a') (file : Option String) (kind : NodeKind) (start : Position) :
    (a.framed file kind start).Moved d (a'.framed file kind (start.shift d)) := by
  have hf := ha.failure
  refine ⟨?_, ?_, ?_⟩
  · unfold Attempt.framed
    cases hx : a.failure with
    | none =>
      rw [hx] at hf
      simp only [hf, Option.map_none, ha.tape.extent, ha.trace]
      simp [Trace.ofNode, Trace.ofNote, Trace.shift, Note.shift]
    | some f =>
      rw [hx] at hf
      simp only [hf, Option.map_some, ha.trace]
      rfl
  · rw [tape_framed, tape_framed]
    exact ha.tape
  · rw [failure_framed, failure_framed]
    exact hf

theorem recover (h : tape.Moved d tape') (file : Option String) (inBlock : Bool) (f : Failure) :
    (Attempt.recover file inBlock f tape).Moved d
      (Attempt.recover file inBlock (f.shift d) tape') := by
  have hskipped : Tape.skipped inBlock 0 tape'.ahead = Tape.skipped inBlock 0 tape.ahead := by
    rw [h.ahead]
    exact Tape.skipped_disguise d.disguise inBlock 0 tape.ahead
  have hnode := (takeMany h .invalid (Tape.skipped inBlock 0 tape.ahead)).framed file .invalid
    tape.place
  unfold Attempt.recover
  rw [hskipped, h.place]
  refine ⟨?_, hnode.tape, hnode.failure⟩
  rw [trace_behind, trace_behind, Trace.shift_append, hnode.trace]
  rfl

theorem recovered (ha : a.Moved d a') (file : Option String) (inBlock : Bool) :
    (Attempt.recovered file inBlock a).Moved d (Attempt.recovered file inBlock a') := by
  have hf := ha.failure
  unfold Attempt.recovered
  cases hx : a.failure with
  | none =>
    rw [hx] at hf
    simp only [hf, Option.map_none]
    exact ha
  | some f =>
    rw [hx] at hf
    simp only [hf, Option.map_some]
    exact ha.behind (recover ha.tape file inBlock f)

theorem repeating {test : Lookahead} (ht : test.IgnoresPlaces) {body : Tape → Attempt}
    (hb : ∀ tape tape' : Tape, tape.Moved d tape' → (body tape).Moved d (body tape'))
    (rounds : Nat) (h : tape.Moved d tape') :
    (Attempt.repeating test body rounds tape).Moved d
      (Attempt.repeating test body rounds tape') := by
  induction rounds generalizing tape tape' with
  | zero => exact nothing h
  | succ n ih =>
    rw [Attempt.repeating, Attempt.repeating, h.look ht]
    split
    · exact (hb _ _ h).andThen fun _ => ih (hb _ _ h).tape
    · exact nothing h

/-- Lists of statements are moved if their statements are. What decides about a round is the next
token, which is moved like all others. -/
theorem statements {statement : Tape → Attempt}
    (hs : ∀ tape tape' : Tape, tape.Moved d tape' → (statement tape).Moved d (statement tape'))
    (file : Option String) (inBlock : Bool) (rounds : Nat) (h : tape.Moved d tape') :
    (Attempt.statements file inBlock statement rounds tape).Moved d
      (Attempt.statements file inBlock statement rounds tape') := by
  induction rounds generalizing tape tape' with
  | zero => exact takeTrivia h
  | succ n ih =>
    rw [Attempt.statements, Attempt.statements]
    apply (takeTrivia h).andThen
    intro _
    have hm := (takeTrivia h).tape
    generalize (ofTaken tape.takeTrivia).tape = tape at hm
    generalize (ofTaken tape'.takeTrivia).tape = tape' at hm
    rw [hm.ahead]
    cases ha : tape.ahead with
    | nil => exact nothing hm
    | cons t ts =>
      simp only [List.map_cons, Token.kind_shift_eq_mark]
      split
      · split
        · exact nothing hm
        · have hr := recover hm file false (tape.failure .strayBrace)
          rw [← hm.failure] at hr
          exact hr.andThen fun _ => ih hr.tape
      · have hr := (hs _ _ hm).recovered file inBlock
        exact hr.andThen fun _ => ih hr.tape

/-! ## Inside tokens -/

/-- The digits of a color are cut out of the text and not taken from the tape, so that they move
is a fact about text and place. -/
theorem hexDigits (h : tape.Moved d tape') :
    (Attempt.hexDigits tape).Moved d (Attempt.hexDigits tape') := by
  have hread : Token.read? true tape'.place (Token.spell tape'.ahead) =
      (Token.read? true tape.place (Token.spell tape.ahead)).map
        fun found => (found.1.shift d, found.2) := by
    rw [h.place]
    show Token.read? true (tape.place.shift d) tape'.text = _
    rw [h.text]
    show _ = (Token.read? true tape.place tape.text).map _
    cases tape.text with
    | nil => rfl
    | cons c cs =>
      simp only [Token.read?, Lexeme.scan_shift d true h.line, Option.map_some]
      rfl
  unfold Attempt.hexDigits
  rw [hread]
  cases hr : Token.read? true tape.place (Token.spell tape.ahead) with
  | none => exact fail h (h.missing _)
  | some found =>
    obtain ⟨t, rest⟩ := found
    obtain ⟨hp, -, hc⟩ := Token.read?_eq_some hr
    have hkind : (t.shift d).kind.isHexNumber = t.kind.isHexNumber := by
      obtain ⟨kind, text, position⟩ := t
      cases kind <;> rfl
    simp only [Option.map_some, hkind]
    split
    · have hline : 1 ≤ t.behind.line := by
        rw [Token.behind, hp]
        exact Nat.le_trans h.line (Position.line_le_past _ _)
      have hbehind : (t.shift d).behind = t.behind.shift d :=
        Position.past_shift d (by rw [hp]; exact h.line) _
      have hstop : tape.stop = t.behind.past rest := by
        rw [h.lexed.stop, Token.behind, hp, ← Position.past_append]
        exact congrArg _ hc
      have hm := Tape.Moved.ofText hline rest (t.reaches_stop (d := d))
      refine ⟨rfl, ?_, rfl⟩
      simp only [tape_ofTaken, hbehind, h.stop, hstop]
      -- Both tapes are cut anew behind the digits.
      rw [← Position.past_shift d hline]
      exact hm
    · exact fail h (h.missing _)

theorem cut_shift (t : Token) (start stop : Nat) {use : List Char → Trace}
    (hu : ∀ cs, (use cs).shift d = use cs) :
    cut (t.shift d) (start + d.bytes) (stop + d.bytes) use = (cut t start stop use).shift d := by
  unfold cut
  rw [Token.slice?_shift]
  cases t.slice? start stop with
  | none => rfl
  | some cs => exact (hu cs).symm

theorem pieceIfAny_shift (tag : DataTag) (cs : List Char) :
    (pieceIfAny tag cs).shift d = pieceIfAny tag cs := by
  unfold pieceIfAny
  split <;> rfl

/-- A block of another language is cut at sizes that its language decides, and these are the same
in the moved text. -/
theorem foreign (h : tape.Moved d tape') :
    (Attempt.foreign tape).Moved d (Attempt.foreign tape') := by
  unfold Attempt.foreign
  cases ha : tape.ahead with
  | nil =>
    rw [h.ahead, ha]
    exact fail h (h.missing _)
  | cons t ts =>
    obtain ⟨ha', hm⟩ := h.cons ha t.reaches_stop
    rw [ha']
    have hkind : (t.shift d).kind = t.kind.shift d := rfl
    cases hk : t.kind with
    | foreign language =>
      -- The closing tag is in the token, so the content ends inside it.
      have hle : language.utf8ByteSize + 3 ≤ t.stop := by
        obtain ⟨content, hc⟩ := Token.pieces_foreign (h.lexed.ahead ▸ ha) hk
        rw [Token.stop, ← Token.byteSize_chars, hc, byteSize_append, byteSize_closingTag]
        omega
      have hstart : (t.shift d).position.byte + (language.utf8ByteSize + 2) =
          t.position.byte + (language.utf8ByteSize + 2) + d.bytes := by
        show t.position.byte + d.bytes + _ = _
        omega
      have hstop : (t.shift d).stop - (language.utf8ByteSize + 3) =
          t.stop - (language.utf8ByteSize + 3) + d.bytes := by
        rw [Token.stop_shift]
        omega
      rw [hk] at hkind
      simp only [hk, hkind, TokenKind.shift, hstart, hstop, cut_shift _ _ _ (pieceIfAny_shift _)]
      refine ⟨?_, hm, rfl⟩
      simp only [trace_ofTaken, Trace.shift_append, Trace.shift_ofData]
    | _ =>
      rw [hk] at hkind
      simp only [hk, hkind, TokenKind.shift]
      exact fail h (h.missing _)

/-- A placeholder is a text of its own, moved like the text it stands in. Its tokens are not those
of the tape, so that they move has to be shown anew. -/
theorem placeholder {read : Tape → Attempt}
    (hr : ∀ tape tape' : Tape, tape.Moved d tape' → (read tape).Moved d (read tape'))
    (file : Option String) {t : Token} (ht : 1 ≤ t.stop) {p : Placeholder}
    (hp : 1 ≤ p.position.line) {reach reach' : Nat} (h : d.Reaches reach reach') :
    (Attempt.placeholder file read t reach p).Moved d
      (Attempt.placeholder file read (t.shift d) reach' (p.shift d)) := by
  have hstop : (t.shift d).stop - 1 = t.stop - 1 + d.bytes := by
    rw [Token.stop_shift]
    omega
  have hposition : (p.shift d).position = p.position.shift d := rfl
  have hend : (p.shift d).stop = p.stop + d.bytes := rfl
  unfold Attempt.placeholder
  rw [hstop, hposition, hend, Position.byte_shift, Token.slice?_shift]
  cases t.slice? p.position.byte (t.stop - 1) with
  | none => exact ⟨rfl, rfl, h⟩
  | some cs =>
    have ha := hr _ _ (Tape.Moved.ofText hp cs h)
    simp only
    generalize read (.ofText p.position cs reach) = a at ha ⊢
    generalize read (.ofText (p.position.shift d) cs reach') = a' at ha ⊢
    -- Whether the placeholder was read as a whole is asked of bytes, and both are moved by the
    -- same number.
    have hf := ha.failure
    have hbyte : a'.tape.place.byte = a.tape.place.byte + d.bytes := by
      rw [ha.tape.place]
      rfl
    cases hx : a.failure with
    | none =>
      rw [hx] at hf
      simp only [hf, Option.map_none]
      exact ⟨ha.trace, hbyte, ha.tape.reach⟩
    | some f =>
      rw [hx] at hf
      simp only [hf, Option.map_some, hbyte, Nat.add_lt_add_iff_right]
      split
      · refine ⟨?_, rfl, ha.tape.reach⟩
        simp only [ha.trace, Trace.shift_append]
        rw [cut_shift t _ _ fun _ => rfl]
        rfl
      · refine ⟨?_, rfl, ha.tape.reach⟩
        simp only [ha.trace, Trace.shift_append]
        rfl

/-- The pieces of a quoted text, from a byte on that is moved with the text. -/
theorem interpolated {read : Bool → Tape → Attempt}
    (hr : ∀ isBraced, ∀ tape tape' : Tape, tape.Moved d tape' →
      (read isBraced tape).Moved d (read isBraced tape'))
    (file : Option String) {t : Token} (ht : 1 ≤ t.stop) {ps : List Placeholder}
    (hps : ∀ p ∈ ps, 1 ≤ p.position.line) (start : Nat) {reach reach' : Nat}
    (h : d.Reaches reach reach') :
    Attempt.interpolated file read (t.shift d) (start + d.bytes) reach' (ps.map (·.shift d)) =
      (Attempt.interpolated file read t start reach ps).shift d := by
  induction ps generalizing start reach reach' with
  | nil =>
    rw [List.map_nil, Attempt.interpolated, Attempt.interpolated, Token.stop_shift]
    exact cut_shift t _ _ fun _ => rfl
  | cons p ps ih =>
    have hp := hps p List.mem_cons_self
    replace ih := @ih fun q hq => hps q (List.mem_cons_of_mem p hq)
    have hbyte : (p.shift d).position.byte = p.position.byte + d.bytes := rfl
    rw [List.map_cons, Attempt.interpolated, Attempt.interpolated, hbyte]
    simp only [Nat.add_lt_add_iff_right]
    split
    · exact ih start h
    · have hm := placeholder (hr p.braced) file ht hp h
      have hbraced : (p.shift d).braced = p.braced := rfl
      rw [hbraced, Trace.shift_append, Trace.shift_append, ← hm.trace, hm.byte,
        ih _ hm.reach, cut_shift t _ _ (pieceIfAny_shift _)]

/-- A quoted text with its placeholders. That the lines of placeholders count from 1 is what
moving them asks for. -/
theorem quoted {read : Bool → Tape → Attempt}
    (hr : ∀ isBraced, ∀ tape tape' : Tape, tape.Moved d tape' →
      (read isBraced tape).Moved d (read isBraced tape'))
    (file : Option String) (h : tape.Moved d tape') :
    (Attempt.quoted file read tape).Moved d (Attempt.quoted file read tape') := by
  unfold Attempt.quoted
  cases ha : tape.ahead with
  | nil =>
    rw [h.ahead, ha]
    exact fail h (h.missing _)
  | cons t ts =>
    obtain ⟨ha', hm⟩ := h.cons ha t.reaches_stop
    rw [ha']
    have hkind : (t.shift d).kind = t.kind.shift d := rfl
    cases hk : t.kind with
    | quoted style ps =>
      rw [hk] at hkind
      simp only [hk, hkind, TokenKind.shift, TokenKind.placeholders?, Option.getD_some]
      -- Without placeholders the token is one piece of data; with placeholders the pieces are
      -- cut.
      cases ps with
      | nil => exact ⟨rfl, hm, rfl⟩
      | cons p ps =>
        have hline : ∀ q ∈ p :: ps, 1 ≤ q.position.line := fun q hq =>
          Nat.le_trans h.line (Token.line_placeholder (h.lexed.ahead ▸ ha) hk q hq)
        obtain ⟨body, hc, -⟩ := Token.pieces_quoted (h.lexed.ahead ▸ ha) hk
        have hstop : 1 ≤ t.stop := by
          have hquote : style.mark.utf8Size = 1 := by cases style <;> rfl
          rw [Token.stop, ← Token.byteSize_chars, hc, byteSize_append, byteSize_cons, hquote]
          omega
        refine ⟨?_, hm, rfl⟩
        exact interpolated hr file hstop hline t.position.byte t.reaches_stop
    | _ =>
      rw [hk] at hkind
      simp only [hk, hkind, TokenKind.shift, TokenKind.placeholders?, Option.getD_none]
      exact ⟨rfl, hm, rfl⟩

/-! ## Readings -/

/-- Phrases whose looks are local are read alike if the constructs in them are. -/
theorem phrase {descend : Options → Production → Tape → Attempt}
    (hd : ∀ o p, ∀ tape tape' : Tape, tape.Moved d tape' →
      (descend o p tape).Moved d (descend o p tape'))
    (q : Phrase) (hq : q.Looks Lookahead.Local) (o : Options) (h : tape.Moved d tape') :
    (q.read descend o tape).Moved d (q.read descend o tape') := by
  induction q generalizing o tape tape' with
  | empty => exact nothing h
  | take tag => exact take h tag
  | trivia => exact takeTrivia h
  | node p => exact hd o p _ _ h
  | andThen first second ih₁ ih₂ =>
    exact (ih₁ hq.1 o h).andThen fun _ => ih₂ hq.2 o (ih₁ hq.1 o h).tape
  | choose test yes no ihy ihn =>
    rw [Phrase.read, Phrase.read, h.look hq.1.ignoresPlaces]
    split
    · exact ihy hq.2.1 o h
    · exact ihn hq.2.2 o h
  -- Rounds are counted in bytes of the text, and these do not move.
  | repeating test body ih =>
    rw [Phrase.read, Phrase.read, h.size]
    exact repeating hq.1.ignoresPlaces (fun _ _ hm => ih hq.2 o hm) _ h
  | spacedCalls yes no ihy ihn =>
    rw [Phrase.read, Phrase.read]
    split
    · exact ihy hq.1 o h
    · exact ihn hq.2 o h
  | expected wanted => exact fail h (h.missing _)
  | orphan =>
    apply fail h
    rw [h.failure, h.ahead]
    cases tape.ahead <;> rfl
  | statements inBlock statement ih =>
    rw [Phrase.read, Phrase.read, h.size]
    exact statements (fun _ _ hm => ih hq o hm) _ _ _ h
  | quoted named braced ihn ihb =>
    refine quoted (fun isBraced _ _ hm => ?_) _ h
    split
    · exact ihb hq.2 _ hm
    · exact ihn hq.1 _ hm
  | hexDigits => exact hexDigits h
  | foreign => exact foreign h

theorem enter {p : Production} {o : Options} {inside : Tape → Attempt}
    (hi : ∀ tape tape' : Tape, tape.Moved d tape' → (inside tape).Moved d (inside tape'))
    (h : tape.Moved d tape') : (p.enter o inside tape).Moved d (p.enter o inside tape') := by
  have hframed {tape tape' : Tape} (h : tape.Moved d tape') :
      ((inside tape).framed o.file p.kind tape.place).Moved d
        ((inside tape').framed o.file p.kind tape'.place) := by
    rw [h.place]
    exact (hi _ _ h).framed _ _ _
  rw [Production.enter_eq, Production.enter_eq]
  split
  · exact hframed h
  · exact (takeTrivia h).andThen fun _ => hframed (takeTrivia h).tape

/-- **A construct is read alike wherever it stands.** Behind a first source a second one is read
by this as it is by itself (`Document.Composition`, `Document.Isolation`). -/
theorem read (n : Nat) (o : Options) (p : Production) (h : tape.Moved d tape') :
    (p.read n o tape).Moved d (p.read n o tape') := by
  induction n generalizing o p tape tape' with
  | zero => exact enter (fun _ _ hm => fail hm (hm.failure _)) h
  | succ n ih => exact enter (fun _ _ hm => phrase (fun o p _ _ => ih o p) _ p.local_body o hm) h

end Attempt.Moved

end Heddle
