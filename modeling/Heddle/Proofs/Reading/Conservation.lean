import Heddle.Proofs.Reading.Invariant
import Heddle.Proofs.Tape.Lexed

/-!
# A reading reports all it takes

Whatever is read, and whether or not it fails, the text that the trace reports followed by the text
that is left on the tape is the text there was: `Conserves`. No step may lose a character, report
one twice or change the order, and the tape has to stay cut from its text and to stand behind what
was reported, since the next step relies on both.

All but three steps move whole tokens and have nothing to hide. The three that look inside a token
are where text could be lost. The digits of a color are cut off the text ahead by another rule than
the one its tokens were cut by, and what is left is cut anew. An embedded block is put together
from its spelling. In a quoted text, **a placeholder may be read less far or further than its token
says**, so the loop over the placeholders carries a boundary of the token that only moves forward;
what is in front of it has been reported, and what is behind it is still to be reported.
-/

set_option autoImplicit false

namespace Heddle

open Text

/-! ## The text of a report -/

/-- The text of a note; only data has any. -/
def Note.chars : Note → List Char
  | .data _ text => text.toList
  | _ => []

namespace Trace

/-- The text that a trace reports, inside nodes of every sort. -/
def text (t : Trace) : List Char := t.notes.flatMap Note.chars

@[simp] theorem text_nil : nil.text = [] := rfl

@[simp] theorem text_append (t u : Trace) : (t ++ u).text = t.text ++ u.text := by
  simp [text]

@[simp] theorem text_ofData (tag : DataTag) (s : String) : (ofData tag s).text = s.toList := by
  simp [text, ofData, ofNote, notes, Note.chars]

@[simp] theorem text_ofNode (kind : NodeKind) (inside : Trace) (committed : Bool) :
    (ofNode kind inside committed).text = inside.text := by
  simp [text, ofNode, notes]

@[simp] theorem text_location (l : Location) : (ofNote (.location l)).text = [] := rfl

@[simp] theorem text_error (scope : ErrorScope) (d : Diagnostic) :
    (ofNote (.error scope d)).text = [] := rfl

end Trace

namespace Attempt

@[simp] theorem text_framed (file : Option String) (kind : NodeKind) (start : Position)
    (a : Attempt) : (a.framed file kind start).trace.text = a.trace.text := by
  unfold framed
  split
  · simp
  · simp

/-- All text in front of an attempt is reported by it or left on its tape. The three parts are one
notion because each step needs all of them of the step before: where the next token begins and
that it is cut from the text that is left. -/
structure Conserves (tape : Tape) (a : Attempt) : Prop where
  lexed : a.tape.Lexed
  text : tape.text = a.trace.text ++ a.tape.text
  place : a.tape.place = tape.place.past a.trace.text

namespace Conserves

theorem nothing {tape : Tape} (h : tape.Lexed) : Conserves tape (ofTaken (.nil, tape)) :=
  ⟨h, rfl, rfl⟩

theorem fail {tape : Tape} (h : tape.Lexed) (f : Failure) : Conserves tape (fail f tape) :=
  ⟨h, rfl, rfl⟩

/-- A token that is reported as a whole. What is reported may be several pieces of data, as it is
for an embedded block; only their text together counts. -/
theorem token {tape : Tape} (h : tape.Lexed) {t : Token} {ts : List Token}
    (ha : tape.ahead = t :: ts) {trace : Trace} (ht : trace.text = t.chars) (reach : Nat) :
    Conserves tape (ofTaken (trace, { tape with ahead := ts, reach })) := by
  refine ⟨h.tail ha reach, ?_, ?_⟩
  · show tape.text = trace.text ++ Token.spell ts
    rw [ht]
    exact (h.cons ha reach).2.2.2
  · show Tape.place _ = tape.place.past trace.text
    rw [ht]
    exact h.place_tail ha reach

theorem take (tag : DataTag) {tape : Tape} (h : tape.Lexed) :
    Conserves tape (ofTaken (tape.take tag)) := by
  unfold Tape.take
  split
  · exact nothing h
  · rename_i t ts ha
    exact token h ha (Trace.text_ofData _ _) _

/-- One attempt behind another. With this and `framed` the property goes through every phrase that
does not look into tokens. -/
theorem behind {tape : Tape} {a b : Attempt} (ha : Conserves tape a) (hb : Conserves a.tape b) :
    Conserves tape (b.behind a.trace) := by
  refine ⟨hb.lexed, ?_, ?_⟩
  · show tape.text = (a.trace ++ b.trace).text ++ b.tape.text
    rw [Trace.text_append, List.append_assoc, ← hb.text]
    exact ha.text
  · show b.tape.place = tape.place.past (a.trace ++ b.trace).text
    rw [Trace.text_append, Position.past_append, ← ha.place]
    exact hb.place

theorem takeMany (tag : DataTag) (n : Nat) {tape : Tape} (h : tape.Lexed) :
    Conserves tape (ofTaken (tape.takeMany tag n)) := by
  induction n generalizing tape with
  | zero => exact nothing h
  | succ n ih =>
    rw [ofTaken_takeMany_succ]
    have ht := take tag h
    exact ht.behind (ih ht.lexed)

/-- The text ends where it did. -/
theorem stop {tape : Tape} {a : Attempt} (ha : Conserves tape a) (h : tape.Lexed) :
    a.tape.stop = tape.stop := by
  rw [ha.lexed.stop, ha.place, ← Position.past_append, ← ha.text, ← h.stop]

/-- A report that changes no text changes nothing here. -/
theorem congr {tape : Tape} {a b : Attempt} (ha : Conserves tape a) (ht : b.tape = a.tape)
    (hx : b.trace.text = a.trace.text) : Conserves tape b := by
  refine ⟨?_, ?_, ?_⟩
  · rw [ht]; exact ha.lexed
  · rw [ht, hx]; exact ha.text
  · rw [ht, hx]; exact ha.place

theorem framed {tape : Tape} {a : Attempt} (ha : Conserves tape a) (file : Option String)
    (kind : NodeKind) (start : Position) : Conserves tape (a.framed file kind start) :=
  ha.congr (tape_framed _ _ _ _) (text_framed _ _ _ _)

/-- What is skipped behind a failure is reported as well. -/
theorem recover {tape : Tape} (h : tape.Lexed) (file : Option String) (inBlock : Bool)
    (f : Failure) : Conserves tape (recover file inBlock f tape) := by
  have hs := (takeMany .invalid (Tape.skipped inBlock 0 tape.ahead) h).framed file .invalid
    tape.place
  refine hs.congr rfl ?_
  show (_ ++ _ : Trace).text = _
  rw [Trace.text_append, Trace.text_error, List.nil_append]

end Conserves

/-! ## The digits of a color -/

/-- The digits of a color fail and take nothing, or are a number cut off the front, and what is
left is the text behind them, cut anew. Every proof about colors begins with these two cases. -/
theorem hexDigits_cases {tape : Tape} (h : tape.Lexed) :
    hexDigits tape = fail (tape.missing .hexColor) tape ∨
    ∃ t rest, Token.read? true tape.place tape.text = some (t, rest) ∧
      t.kind.isHexNumber = true ∧
      hexDigits tape = ofTaken (.ofData .color t.text, .ofText t.behind rest t.stop) := by
  unfold hexDigits
  split
  · rename_i t rest hr
    split <;> rename_i hk
    · refine .inr ⟨t, rest, hr, hk, ?_⟩
      obtain ⟨hp, -, hc⟩ := Token.read?_eq_some hr
      replace hc : tape.text = t.chars ++ rest := hc
      simp only [Tape.ofText, ofTaken, mk.injEq, Tape.mk.injEq, true_and, and_true]
      rw [h.stop, hc, Position.past_append, Token.behind, hp]
    · exact .inl rfl
  · exact .inl rfl

theorem Conserves.hexDigits {tape : Tape} (h : tape.Lexed) :
    Conserves tape (hexDigits tape) := by
  rcases hexDigits_cases h with hd | ⟨t, rest, hr, -, hd⟩
  · rw [hd]
    exact fail h _
  · obtain ⟨hp, -, hc⟩ := Token.read?_eq_some hr
    rw [hd]
    refine ⟨Tape.lexed_ofText _ _ _, ?_, ?_⟩
    · rw [trace_ofTaken, tape_ofTaken, Trace.text_ofData, Tape.text_ofText]
      exact hc
    · rw [trace_ofTaken, tape_ofTaken, Trace.text_ofData, Tape.place_ofText, Token.behind, hp]
      rfl

/-! ## Embedded blocks -/

theorem text_cut {t : Token} {start stop : Nat} {use : List Char → Trace} {cs : List Char}
    (hs : t.slice? start stop = some cs) (hu : (use cs).text = cs) :
    (cut t start stop use).text = cs := by
  rw [cut, hs]
  exact hu

theorem text_piece (tag : DataTag) (cs : List Char) : (piece tag cs).text = cs := by
  rw [piece, Trace.text_ofData, String.toList_ofList]

theorem text_pieceIfAny (tag : DataTag) (cs : List Char) : (pieceIfAny tag cs).text = cs := by
  unfold pieceIfAny
  split
  · rename_i he
    exact (List.isEmpty_iff.1 he).symm
  · exact text_piece tag cs

/-- Taking a block of another language apart takes its token. -/
theorem ahead_foreign {tape : Tape} {t : Token} {ts : List Token} (ha : tape.ahead = t :: ts)
    (hf : t.isForeign = true) : (foreign tape).tape.ahead = ts := by
  cases hk : t.kind with
  | foreign language => simp only [foreign, ha, hk, tape_ofTaken]
  | _ => simp [Token.isForeign, hk] at hf

theorem Conserves.foreign {tape : Tape} (h : tape.Lexed) : Conserves tape (foreign tape) := by
  unfold Attempt.foreign
  split
  · exact .fail h _
  rename_i t ts ha
  split
  · rename_i language hk
    refine .token h ha ?_ _
    obtain ⟨content, hc⟩ := Token.pieces_foreign (h.ahead ▸ ha) hk
    have hs : t.slice? (t.position.byte + (language.utf8ByteSize + 2))
        (t.stop - (language.utf8ByteSize + 3)) = some content := by
      rw [← byteSize_openingTag, ← byteSize_closingTag]
      refine Token.slice?_inner ?_
      rw [hc]
      simp
    rw [hc, Trace.text_append, Trace.text_append, text_cut hs (text_pieceIfAny _ _)]
    simp
  · exact .fail h _

/-! ## Quoted texts -/

/-- What a placeholder takes is in front of the place where plain text goes on. The reading may
have stopped short of the end that the token gives or gone past it, so that end does not occur in
the conclusion. -/
theorem text_placeholder {file : Option String} {read : Tape → Attempt}
    (hr : ∀ window, window.Lexed → Conserves window (read window)) {t : Token}
    {xs ys : List Char} {quote : Char} (hc : t.chars = xs ++ ys ++ [quote])
    (hq : quote.utf8Size = 1) {p : Placeholder}
    (hp : p.position.byte = t.position.byte + byteSize xs)
    (hstop : Boundary t.position.byte (xs ++ ys) p.stop) (reach : Nat) :
    ∃ taken rest, ys = taken ++ rest ∧ (placeholder file read t reach p).trace.text = taken ∧
      (placeholder file read t reach p).byte = t.position.byte + byteSize (xs ++ taken) := by
  have hs : t.slice? p.position.byte (t.stop - 1) = some ys := by
    have hone : 1 = byteSize [quote] := by rw [byteSize_cons, hq, byteSize_nil]
    rw [hp, hone]
    exact Token.slice?_inner hc
  have ha := hr (.ofText p.position ys reach) (Tape.lexed_ofText _ _ _)
  unfold placeholder
  rw [hs]
  simp only
  generalize read (.ofText p.position ys reach) = a at ha
  have htext : ys = a.trace.text ++ a.tape.text := (Tape.text_ofText _ _ _).symm.trans ha.text
  have hbyte : a.tape.place.byte = t.position.byte + byteSize (xs ++ a.trace.text) := by
    rw [ha.place, Tape.place_ofText, Position.byte_past, hp, byteSize_append, Nat.add_assoc]
  split
  · exact ⟨_, _, htext, rfl, hbyte⟩
  split
  · rename_i hlt
    -- What is left of the placeholder goes up to the place that the token gives for its end.
    rw [htext, ← List.append_assoc] at hstop
    obtain ⟨left, rest, hrest, hend⟩ := hstop.after (hbyte ▸ Nat.le_of_lt hlt)
    have hcut : t.slice? a.tape.place.byte p.stop = some left := by
      have hpieces : t.chars = (xs ++ a.trace.text) ++ left ++ (rest ++ [quote]) := by
        rw [hc, htext, hrest]
        simp only [List.append_assoc]
      rw [hbyte, hend]
      exact Token.slice?_eq hpieces
    refine ⟨a.trace.text ++ left, rest, ?_, ?_, ?_⟩
    · rw [htext, hrest, ← List.append_assoc]
    · rw [Trace.text_append, Trace.text_append, Trace.text_error, List.append_nil,
        text_cut hcut (text_piece _ _)]
    · show p.stop = _
      rw [hend, List.append_assoc]
  · refine ⟨_, _, htext, ?_, hbyte⟩
    rw [Trace.text_append, Trace.text_error, List.append_nil]

/-- The pieces of a quoted text from a boundary of its body on are the text behind it. The
boundary is the invariant of the loop: it only moves forward, and a placeholder that begins in
front of it is passed over. -/
theorem text_interpolated {file : Option String} {read : Bool → Tape → Attempt}
    (hr : ∀ isBraced window, window.Lexed → Conserves window (read isBraced window)) {t : Token}
    {body : List Char} {quote : Char} (hc : t.chars = body ++ [quote])
    (hq : quote.utf8Size = 1) (ps : List Placeholder)
    (hps : ∀ p ∈ ps, Boundary t.position.byte body p.position.byte ∧
      Boundary t.position.byte body p.stop)
    {start : Nat} (reach : Nat) {xs ys : List Char} (hbody : body = xs ++ ys)
    (hstart : start = t.position.byte + byteSize xs) :
    (interpolated file read t start reach ps).text = ys ++ [quote] := by
  induction ps generalizing start reach xs ys with
  | nil =>
    have hs : t.slice? start t.stop = some (ys ++ [quote]) := by
      have hpieces : t.chars = xs ++ (ys ++ [quote]) ++ [] := by
        rw [hc, hbody, List.append_assoc, List.append_nil]
      rw [hstart, Token.stop, ← Token.byteSize_chars, hc, hbody, List.append_assoc]
      exact Token.slice?_eq hpieces
    rw [interpolated]
    exact text_cut hs (text_piece _ _)
  | cons p ps ih =>
    obtain ⟨hp, hstop⟩ := hps p List.mem_cons_self
    replace ih := @ih fun q hq => hps q (List.mem_cons_of_mem p hq)
    rw [interpolated]
    -- A placeholder in front of the boundary was read as a part of the one before.
    split
    · exact ih reach hbody hstart
    · rename_i hle
      rw [hbody] at hp
      obtain ⟨lead, zs, rfl, hpos⟩ := hp.after (hstart ▸ Nat.le_of_not_lt hle)
      rw [← List.append_assoc] at hbody
      rw [hbody] at hc hstop
      obtain ⟨taken, rest, rfl, htaken, hbyte⟩ :=
        @text_placeholder file _ (hr p.braced) _ _ _ _ hc hq _ hpos hstop reach
      have hlead : t.slice? start p.position.byte = some lead := by
        have hpieces : t.chars = xs ++ lead ++ (taken ++ rest ++ [quote]) := by
          rw [hc]
          simp only [List.append_assoc]
        rw [hstart, hpos]
        exact Token.slice?_eq hpieces
      simp only
      rw [Trace.text_append, Trace.text_append, text_cut hlead (text_pieceIfAny _ _), htaken,
        ih _ (by rw [hbody, List.append_assoc _ taken]) hbyte]
      simp only [List.append_assoc]

theorem Conserves.quoted {file : Option String} {read : Bool → Tape → Attempt}
    (hr : ∀ isBraced window, window.Lexed → Conserves window (read isBraced window)) {tape : Tape}
    (h : tape.Lexed) : Conserves tape (quoted file read tape) := by
  unfold Attempt.quoted
  split
  · exact .fail h _
  rename_i t ts ha
  simp only
  split
  · exact .token h ha (Trace.text_ofData _ _) _
  · rename_i hne
    obtain ⟨ps, hps⟩ : ∃ ps, t.kind.placeholders? = some ps := by
      cases hk : t.kind.placeholders? with
      | none => rw [hk] at hne; exact absurd rfl hne
      | some ps => exact ⟨ps, rfl⟩
    obtain ⟨style, hk⟩ := TokenKind.placeholders?_eq_some hps
    obtain ⟨body, hc, hbounds⟩ := Token.pieces_quoted (h.ahead ▸ ha) hk
    have hq : style.mark.utf8Size = 1 := by cases style <;> rfl
    refine .token h ha ?_ _
    rw [hc, hps]
    exact text_interpolated hr hc hq _ hbounds _ (List.nil_append body).symm rfl

/-- **No step of a reading loses, repeats or moves text.** The reading of every phrase and of
every construct is covered by it, through `Invariant.phrase` and `Invariant.read`. -/
theorem conserves : Invariant fun tape a => tape.Lexed → Conserves tape a where
  nothing _ h := .nothing h
  take tag _ h := .take tag h
  fail f _ h := .fail h f
  behind ha hb h := (ha h).behind (hb (ha h).lexed)
  framed ha h := (ha h).framed _ _ _
  recover file inBlock f _ h := .recover h file inBlock f
  quoted hr h := .quoted hr h
  hexDigits _ h := .hexDigits h
  foreign _ h := .foreign h

end Attempt

end Heddle
