import Heddle.Proofs.Checked.Reader

/-!
# Taking tokens apart in checked steps

Three constructs take a token and look inside it, and here a cursor has the most to refuse. The
digits of a color and a block of another language may be taken back; the place of a placeholder is
jumped to, and the end of the text that it stands in becomes the limit until it has been read; and
every piece is cut out of the source by numbers that were computed when the token was read.

**None of this is refused**, and the outcome is that of the attempt (`SimulatesAt.hexDigits`,
`SimulatesAt.foreign`, `SimulatesAt.quoted`). Where a placeholder stands is known of every token of
a text (`Token.standsIn_quoted`), so a jump to it goes between two characters and the text from
there on is a text of its own. What is jumped back to is the place behind the token.
-/

set_option autoImplicit false

namespace Heddle

open Text

namespace Checked

namespace Reader

/-! ## Taking back -/

/-- The digits of a color, read with a preference for hexadecimal digits. A token that is none is
taken back. The preference holds for the one token: it is given up before anything is decided, so
that no way out can forget it. -/
def hexDigits (r : Reader) : Checked Outcome := do
  match ← Checked.take { r.cursor with preferHex := true } with
  | (none, cursor) =>
    missing .hexColor { r with cursor := { cursor with preferHex := r.cursor.preferHex } }
  | (some t, cursor) =>
    -- Only this token is read in another way, also if it is taken back.
    let cursor := { cursor with preferHex := r.cursor.preferHex }
    if t.kind.isHexNumber then
      let reach ← stop t
      return ⟨.ofData .color t.text, { r with cursor, reach }, none⟩
    else missing .hexColor { r with cursor := cursor.undo.2 }

/-- A block of another language; any other token is taken back. The content is cut out of the
token's own text by the lengths of the two tags, each of them a sum, and the difference is what is
left between them. -/
def foreign (r : Reader) : Checked Outcome := do
  match ← Checked.take r.cursor with
  | (none, cursor) => missing .foreignBlock { r with cursor }
  | (some t, cursor) =>
    match t.kind with
    | .foreign language =>
      let opening ← add language.utf8ByteSize 2
      let closing ← add language.utf8ByteSize 3
      let behind ← sub t.text.utf8ByteSize closing
      let content ← piece opening behind t.chars
      let reach ← stop t
      let tag (sign : String) : Trace :=
        .ofData .punctuation sign ++ .ofData .language language ++ .ofData .punctuation ">"
      return ⟨tag "<" ++ Attempt.pieceIfAny .foreignContent content ++ tag "</",
        { r with cursor, reach }, none⟩
    | _ => missing .foreignBlock { r with cursor := cursor.undo.2 }

/-! ## Jumping -/

/-- Where a placeholder left the text it stands in, and the reader. -/
structure Resumed where
  trace : Trace
  /-- The byte where plain text goes on. -/
  byte : Nat
  reader : Reader

/-- Gives up a placeholder: the failure is reported, and what is left of the placeholder is
skipped. If the failing reading has gone beyond the end of the placeholder, nothing is left, and
the text goes on where the reading is. -/
def abandon (file : Option String) (p : Placeholder) (f : Failure) (lead : Trace) (r : Reader) :
    Checked Resumed := do
  let errors ← add r.errors 1
  let byte := r.cursor.place.byte
  let report := lead ++ .ofNote (.error .placeholder (f.diagnostic file))
  if byte < p.stop then
    let left ← piece byte p.stop r.cursor.source
    return ⟨report ++ Attempt.piece .invalid left, p.stop, { r with errors }⟩
  else return ⟨report, byte, { r with errors }⟩

/-- Reads a placeholder in its place, up to the byte `bodyEnd`. The limit is put back before the
outcome is looked at, whether or not the reading has failed. -/
def placeholder (file : Option String) (run : Reader → Checked Outcome) (bodyEnd : Nat)
    (p : Placeholder) (r : Reader) : Checked Resumed := do
  let cursor ← seek r.cursor p.position
  let out ← run { r with cursor := { cursor with limit := some bodyEnd } }
  let after := { out.reader with cursor := { out.reader.cursor with limit := cursor.limit } }
  match out.failure with
  | none => return ⟨out.trace, after.cursor.place.byte, after⟩
  | some f => abandon file p f out.trace after

/-- The inside of a quoted text that ends at the byte `textEnd`, from the byte `start` on. A
placeholder that begins in front of it was read as a part of an earlier one and is left out. -/
def interpolated (file : Option String) (run : Bool → Reader → Checked Outcome)
    (bodyEnd textEnd : Nat) : List Placeholder → Nat → Reader → Checked (Trace × Reader)
  | [], start, r => do
    let tail ← piece start textEnd r.cursor.source
    return (Attempt.piece .stringChunk tail, r)
  | p :: ps, start, r =>
    if p.position.byte < start then interpolated file run bodyEnd textEnd ps start r
    else do
      let chunk ← piece start p.position.byte r.cursor.source
      let resumed ← placeholder file (run p.braced) bodyEnd p r
      let (rest, r) ← interpolated file run bodyEnd textEnd ps resumed.byte resumed.reader
      return (Attempt.pieceIfAny .stringChunk chunk ++ resumed.trace ++ rest, r)

/-- A quoted text; behind its placeholders the reader jumps to where the text ends. It has taken
the token as a whole before, so that it knows where this is, and goes back into it. -/
def quoted (file : Option String) (run : Bool → Reader → Checked Outcome) (r : Reader) :
    Checked Outcome := do
  match ← Checked.take r.cursor with
  | (none, cursor) => missing .string { r with cursor }
  | (some t, cursor) =>
    let reach ← stop t
    match t.kind.placeholders?.getD [] with
    | [] => return ⟨.ofData .stringChunk t.text, { r with cursor, reach }, none⟩
    | ps =>
      let bodyEnd ← sub reach 1
      let (trace, after) ←
        interpolated file run bodyEnd reach ps t.position.byte { r with cursor, reach }
      let behind ← seek after.cursor cursor.place
      return ⟨trace, { after with cursor := behind, reach }, none⟩

end Reader

/-! ## Tokens taken back -/

/-- Taking a token, in either way of reading. `Shows` does not serve here, as it is about the
usual way. -/
theorem take_eq {c : Cursor} {passed cs : List Char} (hf : c.Faces passed cs)
    (hr : c.place.Counts cs) (hi : c.origin = none) :
    Checked.take c = .ok (match Token.read? c.preferHex c.place cs with
      | some (t, _) => (some t, { c with place := t.behind, previous := some c.place })
      | none => (none, c)) := by
  obtain ⟨source, place, previous, origin, limit, preferHex⟩ := c
  obtain rfl : origin = none := hi
  rw [Checked.take, Cursor.isLooking, step_eq hf hr, Cursor.step, hf.readable]
  dsimp only
  rcases Token.read? preferHex place cs with _ | ⟨t, rest⟩
  · rfl
  · rfl

/-- Only the source, the limit and the place make a reader follow a tape. In particular a reader
that has taken a token and undone it follows what it followed before. -/
theorem Reader.Follows.keep {r : Reader} {tape : Tape} (h : r.Follows tape) {r' : Reader}
    (hs : r'.cursor.source = r.cursor.source) (hl : r'.cursor.limit = r.cursor.limit)
    (hp : r'.cursor.place = r.cursor.place) (hi : r'.cursor.origin = none)
    (hu : r'.cursor.preferHex = false) (hr : r'.reach = r.reach) : r'.Follows tape :=
  ⟨h.lexed, h.shows.keep hs hl hp hu, hi, hp.trans h.place, hr.trans h.reach⟩

/-- A reader follows the text that it faces. The tape is made of that text: this is how a reader
comes to follow a tape at the beginning of a source and behind the digits of a color. -/
theorem Reader.Follows.ofText {r : Reader} {passed cs : List Char}
    (hf : r.cursor.Faces passed cs) (hr : r.cursor.place.Counts cs) (hn : 0 < r.cursor.place.line)
    (hi : r.cursor.origin = none) (hu : r.cursor.preferHex = false) :
    r.Follows (.ofText r.cursor.place cs r.reach) where
  lexed := Tape.lexed_ofText _ _ _
  shows := by
    rw [Tape.ahead_ofText]
    exact ⟨⟨passed, by rwa [Token.spell_readAll]⟩, by rw [Token.spell_readAll],
      by rwa [Token.spell_readAll], hn, hu⟩
  idle := hi
  place := (Tape.place_ofText _ _ _).symm
  reach := rfl

namespace SimulatesAt

variable {depth : Nat} {tape : Tape}

/-- What is taken and taken back is there for the failure to name. Both readings that undo a token
fail in this way, and neither may have changed anything. -/
theorem missing_of_keep {r r' : Reader} (h : r.Follows tape) (wanted : Wanted)
    (hs : r'.cursor.source = r.cursor.source) (hl : r'.cursor.limit = r.cursor.limit)
    (hp : r'.cursor.place = r.cursor.place) (hi : r'.cursor.origin = none)
    (hu : r'.cursor.preferHex = false) (hr : r'.reach = r.reach) (he : r'.errors = r.errors)
    (hd : r'.depth = r.depth) (hroom : r.errors < wordBound) :
    ∃ out, Reader.missing wanted r' = .ok out ∧
      out.Agrees r (.fail (tape.missing wanted) tape) := by
  obtain ⟨out, hout, ha⟩ := missing wanted r' (h.keep hs hl hp hi hu hr) rfl
    (by rw [he]; exact hroom)
  exact ⟨out, hout, ha.trace, ha.failure, ha.follows, ha.source.trans hs, ha.limit.trans hl,
    ha.errors.trans (by rw [he]), ha.depth.trans hd⟩

/-- **The digits are a token of the text that the reader faces**, read in another way. They need
not be a token of the tape: `1e` is two tokens there and one here. So behind the digits both the
tape and the reader begin anew, with the text that is left.

The reader is taken apart at the beginning, since `take_eq` is applied to it with the preference
set. -/
theorem hexDigits : SimulatesAt depth Reader.hexDigits tape (.hexDigits tape) := by
  rintro ⟨⟨source, place, previous, origin, limit, preferHex⟩, reach, errors, opened⟩ h - he
  obtain rfl : origin = none := h.idle
  obtain rfl : preferHex = false := h.shows.usual
  obtain rfl : place = tape.place := h.place
  obtain ⟨passed, hf⟩ := h.shows.text
  have htake := @take_eq ⟨source, tape.place, previous, none, limit, true⟩ _ _
    (hf.keep rfl rfl rfl) h.shows.counts rfl
  dsimp only at htake
  have hmissing (last : Option Position) := @missing_of_keep tape _
    ⟨⟨source, tape.place, last, none, limit, false⟩, reach, errors, opened⟩ h .hexColor
    rfl rfl rfl rfl rfl rfl rfl rfl (Nat.lt_of_le_of_lt (Nat.le_add_right _ _) he)
  rw [Attempt.hexDigits] at he ⊢
  cases hread : Token.read? true tape.place (Token.spell tape.ahead) with
  | none =>
    rw [hread] at htake
    obtain ⟨out, hout, ha⟩ := hmissing previous
    refine ⟨out, ?_, ha⟩
    rw [Reader.hexDigits, htake]
    exact hout
  | some found =>
    obtain ⟨t, rest⟩ := found
    obtain ⟨hp, -, hcs⟩ := Token.read?_eq_some hread
    rw [hread] at htake
    dsimp only at htake ⊢
    cases hk : t.kind.isHexNumber with
    | false =>
      obtain ⟨out, hout, ha⟩ := hmissing none
      refine ⟨out, ?_, ha⟩
      rw [Reader.hexDigits, htake, ok_bind]
      dsimp only
      rw [hk]
      exact hout
    | true =>
      -- The digits and the text behind them are the text that was ahead.
      have hroom : t.position.Counts (t.chars ++ rest) := by
        rw [hp, ← hcs]
        exact h.shows.counts
      have hline : 0 < t.behind.line :=
        Nat.lt_of_lt_of_le (hp ▸ h.shows.begun) (Position.line_le_past _ _)
      have hstop : stop t = .ok t.stop := by
        refine add_eq (Nat.lt_of_le_of_lt ?_ hroom.byte)
        rw [byteSize_append, Token.byteSize_chars]
        omega
      -- Behind the digits the text is cut anew, in the usual way.
      have hbehind := @Reader.Follows.ofText
        ⟨⟨source, t.behind, some tape.place, none, limit, false⟩, t.stop, errors, opened⟩ _ rest
        (hf.behind hread rfl rfl rfl) hroom.past hline rfl rfl
      rw [if_pos rfl]
      refine ⟨⟨.ofData .color t.text,
        ⟨⟨source, t.behind, some tape.place, none, limit, false⟩, t.stop, errors, opened⟩, none⟩,
        ?_, rfl, rfl, ?_, rfl, rfl, rfl, rfl⟩
      · rw [Reader.hexDigits, htake, ok_bind]
        dsimp only
        rw [hk, hstop]
        rfl
      · rw [show ({ tape with ahead := Token.readAll t.behind rest, reach := t.stop } : Tape) =
          .ofText t.behind rest t.stop by
            rw [Tape.ofText, h.lexed.stop, Token.behind, hp, ← Position.past_append, ← hcs]; rfl]
        exact hbehind

/-- **A block of another language is as long as its two tags at least**, so that none of the four
computations is refused. The text of the token is written as the opening tag `xs`, the content and
the closing tag `zs`; the offsets are the sizes of these pieces. -/
theorem foreign : SimulatesAt depth Reader.foreign tape (.foreign tape) := by
  rintro ⟨⟨source, place, previous, origin, limit, preferHex⟩, reach, errors, opened⟩ h - he
  obtain rfl : origin = none := h.idle
  obtain rfl : preferHex = false := h.shows.usual
  obtain rfl : place = tape.place := h.place
  have hmissing (last : Option Position) := @missing_of_keep tape _
    ⟨⟨source, tape.place, last, none, limit, false⟩, reach, errors, opened⟩ h .foreignBlock
    rfl rfl rfl rfl rfl rfl rfl rfl (Nat.lt_of_le_of_lt (Nat.le_add_right _ _) he)
  rw [Attempt.foreign]
  cases ha : tape.ahead with
  | nil =>
    have htake := (ha ▸ h.shows : Cursor.Shows _ []).take_nil rfl
    obtain ⟨out, hout, ha⟩ := hmissing previous
    refine ⟨out, ?_, ha⟩
    rw [Reader.foreign, htake]
    exact hout
  | cons t ts =>
    have htake := (ha ▸ h.shows : Cursor.Shows _ (t :: ts)).take_cons rfl
    have hstop := h.stop ha
    dsimp only at htake ⊢
    split
    · rename_i language hk
      obtain ⟨content, hc⟩ := Token.pieces_foreign (h.lexed.ahead ▸ ha) hk
      have hopening := byteSize_openingTag language
      have hclosing := byteSize_closingTag language
      generalize hx : '<' :: language.toList ++ ['>'] = xs at hopening
      generalize hz : '<' :: '/' :: language.toList ++ ['>'] = zs at hc hclosing
      replace hc : t.chars = xs ++ content ++ zs := by rw [hc, ← hx]; simp
      have hsize : t.text.utf8ByteSize = byteSize (xs ++ content) + byteSize zs := by
        rw [← Token.byteSize_chars, hc, byteSize_append]
      have hroom : t.text.utf8ByteSize < wordBound := by
        have hr := h.shows.counts.size_lt
        rw [ha, Token.spell_cons, byteSize_append, Token.byteSize_chars] at hr
        omega
      have hcontent : piece (byteSize xs) (byteSize (xs ++ content)) t.chars = .ok content := by
        rw [hc]
        exact piece_eq xs content zs
      -- The attempt cuts the content by places of the source, and the reader by offsets in the
      -- token.
      have hcut : Attempt.cut t (t.position.byte + (language.utf8ByteSize + 2))
          (t.stop - (language.utf8ByteSize + 3)) (Attempt.pieceIfAny .foreignContent) =
          Attempt.pieceIfAny .foreignContent content := by
        rw [Attempt.cut, ← hopening, ← hclosing, Token.slice?_inner hc]
      have hadd : add language.utf8ByteSize 2 = .ok (byteSize xs) := by
        rw [hopening]
        exact add_eq (by omega)
      have hadd' : add language.utf8ByteSize 3 = .ok (byteSize zs) := by
        rw [hclosing]
        exact add_eq (by omega)
      have hsub : sub t.text.utf8ByteSize (byteSize zs) = .ok (byteSize (xs ++ content)) := by
        rw [sub_eq (by omega), hsize, Nat.add_sub_cancel]
      rw [hcut]
      refine ⟨_, ?_, .token h ha (by simp [Attempt.diagnostics_pieceIfAny]) _⟩
      rw [Reader.foreign, htake, ok_bind]
      dsimp only
      rw [hk]
      dsimp only
      rw [hadd, ok_bind, hadd', ok_bind, hsub, ok_bind, hcontent, ok_bind, hstop]
      rfl
    · rename_i hk
      obtain ⟨out, hout, ha⟩ := hmissing none
      refine ⟨out, ?_, ha⟩
      rw [Reader.foreign, htake, ok_bind]
      dsimp only
      split
      · rename_i language hk'
        exact absurd hk' (hk language)
      · exact hout

end SimulatesAt

/-! ## Placeholders -/

/-- The reader is somewhere in the token `t` or behind it, and what is left of the source are the
pieces of `t`. The place of the reader is not mentioned: between placeholders it may be anywhere,
since it is jumped from. -/
structure Reader.Inside (r : Reader) (t : Token) : Prop where
  source : ∃ passed beyond, r.cursor.source = passed ++ t.chars ++ beyond ∧
    t.position.byte = byteSize passed
  counts : t.position.Counts t.chars
  begun : 0 < t.position.line
  idle : r.cursor.origin = none
  usual : r.cursor.preferHex = false

/-- The reader `r'` is `r` at another place, with `n` more errors counted. What was reached may
differ; the limit is that of `r` again. -/
structure Reader.Elsewhere (r : Reader) (n : Nat) (r' : Reader) : Prop where
  source : r'.cursor.source = r.cursor.source
  limit : r'.cursor.limit = r.cursor.limit
  idle : r'.cursor.origin = none
  usual : r'.cursor.preferHex = false
  errors : r'.errors = r.errors + n
  depth : r'.depth = r.depth

theorem Reader.Elsewhere.trans {r r₁ r₂ : Reader} {m n : Nat} (h₁ : r.Elsewhere m r₁)
    (h₂ : r₁.Elsewhere n r₂) : r.Elsewhere (m + n) r₂ :=
  ⟨h₂.source.trans h₁.source, h₂.limit.trans h₁.limit, h₂.idle, h₂.usual,
    by rw [h₂.errors, h₁.errors, Nat.add_assoc], h₂.depth.trans h₁.depth⟩

namespace Reader.Inside

variable {r : Reader} {t : Token} {xs ys zs : List Char}

theorem elsewhere (h : r.Inside t) {n : Nat} {r' : Reader} (he : r.Elsewhere n r') :
    r'.Inside t :=
  ⟨he.source ▸ h.source, h.counts, h.begun, he.idle, he.usual⟩

/-- The pieces of the token are pieces of the source. The bounds are places of the source, the
split is one of the token. -/
theorem piece (h : r.Inside t) (ht : t.chars = xs ++ ys ++ zs) :
    Checked.piece (t.position.byte + byteSize xs) (t.position.byte + byteSize (xs ++ ys))
      r.cursor.source = .ok ys := by
  obtain ⟨passed, beyond, hs, hb⟩ := h.source
  have hp := piece_eq (passed ++ xs) ys (zs ++ beyond)
  rw [byteSize_append passed, ← hb, List.append_assoc passed, byteSize_append passed, ← hb] at hp
  rw [hs, ht]
  simp only [List.append_assoc] at hp ⊢
  exact hp

/-- Every place in the token can be jumped to, as it is between two characters. -/
theorem seek (h : r.Inside t) (ht : t.chars = xs ++ ys) :
    Checked.seek r.cursor (t.position.past xs) =
      .ok { r.cursor with place := t.position.past xs, previous := none } := by
  obtain ⟨passed, beyond, hs, hb⟩ := h.source
  have hd : dropBytes? (t.position.past xs).byte r.cursor.source = some (ys ++ beyond) := by
    have hp := dropBytes?_byteSize (passed ++ xs) (ys ++ beyond)
    rw [byteSize_append, ← hb] at hp
    rw [Position.byte_past, hs, ht]
    simp only [List.append_assoc] at hp ⊢
    exact hp
  rw [Checked.seek, Cursor.seek,
    if_neg (by rw [Cursor.isLooking, h.idle]; exact Bool.false_ne_true),
    if_neg (by rw [hd]; exact Bool.false_ne_true)]

/-- With a limit the text up to the limit is a text of its own. So the reading of a placeholder,
which was shown for all tapes, holds of the window that the limit leaves. -/
theorem follows (h : r.Inside t) (ht : t.chars = xs ++ ys ++ zs) :
    Reader.Follows
      { r with
        cursor := { r.cursor with
          place := t.position.past xs
          previous := none
          limit := some (t.position.byte + byteSize (xs ++ ys)) } }
      (.ofText (t.position.past xs) ys r.reach) := by
  obtain ⟨passed, beyond, hs, hb⟩ := h.source
  have hroom : (t.position.past xs).Counts ys := by
    have := h.counts
    rw [ht, List.append_assoc] at this
    exact this.past.front
  have hline : 0 < (t.position.past xs).line :=
    Nat.lt_of_lt_of_le h.begun (Position.line_le_past _ _)
  refine @Reader.Follows.ofText _ (passed ++ xs) ys ⟨?_, ?_, ?_⟩ hroom hline h.idle h.usual
  · refine ⟨zs ++ beyond, ?_⟩
    rw [hs, ht]
    simp only [List.append_assoc]
  · rw [Position.byte_past, hb, byteSize_append]
  · -- The limit is in front of the end of the source.
    rw [Cursor.bound]
    dsimp only
    rw [hs, ht, hb]
    simp only [byteSize_append]
    omega

end Reader.Inside

variable {depth : Nat} {r : Reader} {t : Token} {file : Option String}

/-- Where an attempt goes on behind a placeholder of `t` that it gives up at the byte `byte`. It
is a part of `Attempt.placeholder`, with a name of its own to be compared with `abandon`. -/
def abandoned (file : Option String) (t : Token) (p : Placeholder) (f : Failure) (lead : Trace)
    (byte reach : Nat) : Attempt.Resumption :=
  let report := lead ++ .ofNote (.error .placeholder (f.diagnostic file))
  if byte < p.stop then
    ⟨report ++ Attempt.cut t byte p.stop (Attempt.piece .invalid), p.stop, reach⟩
  else ⟨report, byte, reach⟩

theorem reach_abandoned (file : Option String) (t : Token) (p : Placeholder) (f : Failure)
    (lead : Trace) (byte reach : Nat) : (abandoned file t p f lead byte reach).reach = reach := by
  unfold abandoned
  split
  · rfl
  · rfl

/-- One error more is reported. What is skipped is data and reports none. -/
theorem length_diagnostics_abandoned (file : Option String) (t : Token) (p : Placeholder)
    (f : Failure) (lead : Trace) (byte reach : Nat) :
    (abandoned file t p f lead byte reach).trace.diagnostics.length =
      lead.diagnostics.length + 1 := by
  have hreport : (lead ++ .ofNote (.error .placeholder (f.diagnostic file))).diagnostics.length =
      lead.diagnostics.length + 1 := by
    rw [Trace.diagnostics_append, Trace.diagnostics_error, List.length_append]
    rfl
  unfold abandoned
  split
  · rw [Trace.diagnostics_append, Attempt.diagnostics_cut fun _ => rfl, List.append_nil, hreport]
  · exact hreport

/-- What is left of a placeholder is a piece of the source if it is one of the token. That it is
one is known to the caller, who knows how far the reading has come. -/
theorem abandon_eq {p : Placeholder} {f : Failure} {lead : Trace}
    (he : r.errors + 1 < wordBound)
    (hleft : r.cursor.place.byte < p.stop → ∃ left,
      piece r.cursor.place.byte p.stop r.cursor.source = .ok left ∧
      t.slice? r.cursor.place.byte p.stop = some left) (reach : Nat) :
    Reader.abandon file p f lead r =
      .ok ⟨(abandoned file t p f lead r.cursor.place.byte reach).trace,
        (abandoned file t p f lead r.cursor.place.byte reach).byte,
        { r with errors := r.errors + 1 }⟩ := by
  rw [Reader.abandon, add_eq he, ok_bind, abandoned]
  by_cases hlt : r.cursor.place.byte < p.stop
  · obtain ⟨left, hpiece, hslice⟩ := hleft hlt
    simp only [if_pos hlt]
    rw [hpiece, Attempt.cut, hslice]
    rfl
  · simp only [if_neg hlt]
    rfl

/-- **Reading a placeholder in its place.** The token is `xs`, then `ys` up to the closing quote;
the placeholder begins behind `xs`, so the window that is read is `ys`. The simulation `hr` is
used at that window; behind it the limit is put back, and a failure is reported with what is left
of the placeholder. -/
theorem placeholder_eq {run : Reader → Checked Outcome} {read : Tape → Attempt}
    (hr : Simulates depth run read)
    (hc : ∀ window, window.Lexed → Attempt.Conserves window (read window))
    (h : r.Inside t) (hd : r.depth = depth) {xs ys : List Char} {quote : Char}
    (ht : t.chars = xs ++ ys ++ [quote]) (hq : quote.utf8Size = 1) {p : Placeholder}
    (hp : p.position = t.position.past xs) (hstop : Boundary t.position.byte (xs ++ ys) p.stop)
    {resumed : Attempt.Resumption}
    (hm : Attempt.placeholder file read t r.reach p = resumed)
    (he : r.errors + resumed.trace.diagnostics.length < wordBound) :
    ∃ r', Reader.placeholder file run (t.position.byte + byteSize (xs ++ ys)) p r =
        .ok ⟨resumed.trace, resumed.byte, r'⟩ ∧
      r.Elsewhere resumed.trace.diagnostics.length r' ∧ r'.reach = resumed.reach := by
  have hslice : t.slice? p.position.byte (t.stop - 1) = some ys := by
    rw [hp, Position.byte_past, show 1 = byteSize [quote] by rw [byteSize_cons, hq]; rfl]
    exact Token.slice?_inner ht
  have hconserves := hc (.ofText p.position ys r.reach) (Tape.lexed_ofText _ _ _)
  obtain ⟨⟨source, place, previous, origin, limit, preferHex⟩, reach, errors, opened⟩ := r
  have hfollows := h.follows ht
  have hseek := h.seek (ht.trans (List.append_assoc _ _ _))
  rw [← hp] at hfollows hseek
  -- The window as a text of its own is where the inner reading is simulated.
  have hrun := hr (.ofText p.position ys reach) _ hfollows hd
  unfold Attempt.placeholder at hm
  rw [hslice] at hm
  dsimp only at hm hseek hrun hconserves
  generalize read (.ofText p.position ys reach) = a at *
  cases hf : a.failure with
  | none =>
    rw [hf] at hm
    subst hm
    obtain ⟨out, hout, ha⟩ := hrun he
    refine ⟨{ out.reader with cursor := { out.reader.cursor with limit } }, ?_,
      ⟨ha.source, rfl, ha.follows.idle, ha.follows.shows.usual, ha.errors, ha.depth⟩,
      ha.follows.reach⟩
    rw [Reader.placeholder, hseek, ok_bind, hout, ok_bind]
    dsimp only
    rw [ha.failure, hf, ha.trace, ha.follows.place]
    rfl
  | some f =>
    rw [hf] at hm
    replace hm : abandoned file t p f a.trace a.tape.place.byte a.tape.reach = resumed := hm
    subst hm
    rw [length_diagnostics_abandoned] at he ⊢
    -- What is left of the placeholder goes up to the place that the token gives for its end.
    have hleft (hlt : a.tape.place.byte < p.stop) : ∃ left,
        piece a.tape.place.byte p.stop source = .ok left ∧
        t.slice? a.tape.place.byte p.stop = some left := by
      have hbyte : a.tape.place.byte = t.position.byte + byteSize (xs ++ a.trace.text) := by
        rw [hconserves.place, Tape.place_ofText, hp, ← Position.past_append, Position.byte_past]
      have htext : ys = a.trace.text ++ a.tape.text :=
        (Tape.text_ofText _ _ _).symm.trans hconserves.text
      rw [htext, ← List.append_assoc] at hstop
      -- The reading has taken whole tokens of the window, so it ended between two characters.
      obtain ⟨left, rest, hrest, hend⟩ := hstop.after (hbyte ▸ Nat.le_of_lt hlt)
      have hpieces : t.chars = (xs ++ a.trace.text) ++ left ++ (rest ++ [quote]) := by
        rw [ht, htext, hrest]
        simp only [List.append_assoc]
      rw [hbyte, hend]
      exact ⟨left, h.piece hpieces, Token.slice?_eq hpieces⟩
    obtain ⟨out, hout, ha⟩ := hrun (Nat.lt_of_succ_lt he)
    have hafter := @abandon_eq
      { out.reader with cursor := { out.reader.cursor with limit } } t file p f a.trace
      (by rw [ha.errors]; exact he)
      (by rw [ha.follows.place, ha.source]; exact hleft) a.tape.reach
    refine ⟨{ out.reader with
      cursor := { out.reader.cursor with limit }, errors := out.reader.errors + 1 }, ?_,
      ⟨ha.source, rfl, ha.follows.idle, ha.follows.shows.usual, congrArg (· + 1) ha.errors,
        ha.depth⟩, ?_⟩
    · rw [Reader.placeholder, hseek, ok_bind, hout, ok_bind]
      dsimp only at hafter ⊢
      rw [ha.failure, hf, ha.trace]
      dsimp only
      rw [hafter, ha.follows.place]
    · rw [reach_abandoned]
      exact ha.follows.reach

/-- **The inside of a quoted text is read alike** from a boundary of its body on. The induction is
on the placeholders; the body is split into `xs`, which has been passed, and `ys`, in which the
placeholders stand.

For the induction to go on the next placeholder has to stand in what is left, which is known of
every one that does not begin in front of `start` (`StandsIn.after`). -/
theorem interpolated_eq {run : Bool → Reader → Checked Outcome} {read : Bool → Tape → Attempt}
    (hr : ∀ isBraced, Simulates depth (run isBraced) (read isBraced))
    (hc : ∀ isBraced window, window.Lexed → Attempt.Conserves window (read isBraced window))
    (h : r.Inside t) (hd : r.depth = depth) {body : List Char} {quote : Char}
    (ht : t.chars = body ++ [quote]) (hq : quote.utf8Size = 1) {ps : List Placeholder}
    (hps : ∀ p ∈ ps, p.StandsIn t.position body ∧ Boundary t.position.byte body p.stop)
    {start : Nat} {xs ys : List Char} (hbody : body = xs ++ ys)
    (hstart : start = t.position.byte + byteSize xs)
    (he : r.errors + (Attempt.interpolated file read t start r.reach ps).diagnostics.length <
      wordBound) :
    ∃ r', Reader.interpolated file run (t.position.byte + byteSize body) t.stop ps start r =
        .ok (Attempt.interpolated file read t start r.reach ps, r') ∧
      r.Elsewhere (Attempt.interpolated file read t start r.reach ps).diagnostics.length r' := by
  induction ps generalizing r start xs ys with
  | nil =>
    -- The last piece goes to the end of the token and takes the quote with it.
    have hpieces : t.chars = xs ++ (ys ++ [quote]) ++ [] := by
      rw [ht, hbody, List.append_assoc, List.append_nil]
    have hend : t.stop = t.position.byte + byteSize (xs ++ (ys ++ [quote])) := by
      rw [Token.stop, ← Token.byteSize_chars, hpieces, List.append_nil]
    have htail : Attempt.interpolated file read t start r.reach [] =
        Attempt.piece .stringChunk (ys ++ [quote]) := by
      rw [Attempt.interpolated, Attempt.cut, hstart, hend, Token.slice?_eq hpieces]
    rw [htail]
    refine ⟨r, ?_, rfl, rfl, h.idle, h.usual, rfl, rfl⟩
    rw [Reader.interpolated, hstart, hend, h.piece hpieces]
    rfl
  | cons p ps ih =>
    obtain ⟨hstands, hstop⟩ := hps p List.mem_cons_self
    replace hps (q : Placeholder) (hm : q ∈ ps) := hps q (List.mem_cons_of_mem p hm)
    by_cases hlt : p.position.byte < start
    · rw [Attempt.interpolated, if_pos hlt] at he ⊢
      rw [Reader.interpolated, if_pos hlt]
      exact ih h hd hps hbody hstart he
    · obtain ⟨lead, zs, rfl, hp, -⟩ :=
        (hbody ▸ hstands).after (hstart ▸ Nat.le_of_not_lt hlt)
      generalize '%' :: zs = zs at hbody
      rw [← List.append_assoc] at hbody
      rw [hbody] at ht hstop
      have hchunk : t.chars = xs ++ lead ++ (zs ++ [quote]) := by
        rw [ht]
        simp only [List.append_assoc]
      have hbyte : p.position.byte = t.position.byte + byteSize (xs ++ lead) := by
        rw [hp, Position.byte_past]
      have hcut : Attempt.cut t start p.position.byte (Attempt.pieceIfAny .stringChunk) =
          Attempt.pieceIfAny .stringChunk lead := by
        rw [Attempt.cut, hstart, hbyte, Token.slice?_eq hchunk]
      -- How far the attempt goes decides where the plain text goes on, and that it is a boundary.
      obtain ⟨taken, rest, rfl, -, hresumed⟩ :=
        @Attempt.text_placeholder file _ (hc p.braced) _ _ _ _ ht hq _ hbyte hstop r.reach
      rw [Attempt.interpolated, if_neg hlt, hcut] at he ⊢
      dsimp only at he ⊢
      generalize hm : Attempt.placeholder file (read p.braced) t r.reach p = resumed at *
      rw [Trace.diagnostics_append, Trace.diagnostics_append, Attempt.diagnostics_pieceIfAny,
        List.nil_append, List.length_append, ← Nat.add_assoc] at he
      -- First the placeholder, then the others from where it has left the reader.
      obtain ⟨r₁, hr₁, he₁, hreach⟩ := placeholder_eq (hr p.braced) (hc p.braced) h hd ht hq hp
        hstop hm (by omega)
      rw [← hreach] at he ⊢
      obtain ⟨r₂, hr₂, he₂⟩ := @ih r₁ (h.elsewhere he₁) (he₁.depth.trans hd) hps resumed.byte
        (xs ++ lead ++ taken) rest (by rw [hbody, List.append_assoc _ taken]) hresumed
        (by rw [he₁.errors]; exact he)
      refine ⟨r₂, ?_, ?_⟩
      · rw [Reader.interpolated, if_neg hlt, hstart, hbyte, h.piece hchunk, ok_bind, hbody, hr₁,
          ok_bind]
        dsimp only
        rw [← hbody, hr₂]
        rfl
      · rw [Trace.diagnostics_append, Trace.diagnostics_append, Attempt.diagnostics_pieceIfAny,
          List.nil_append, List.length_append]
        exact he₁.trans he₂

/-- A token that has been taken is a piece of the source, wherever the reader is now. -/
theorem Reader.Follows.inside {tape : Tape} {ts : List Token} (h : r.Follows tape)
    (ha : tape.ahead = t :: ts) {r' : Reader} (hs : r'.cursor.source = r.cursor.source)
    (hi : r'.cursor.origin = none) (hu : r'.cursor.preferHex = false) : r'.Inside t := by
  obtain ⟨passed, hf⟩ := h.shows.text
  obtain ⟨beyond, hsource⟩ := hf.source
  have hp : t.position = r.cursor.place := (ha ▸ h.shows : r.cursor.Shows (t :: ts)).place
  have hroom := h.shows.counts
  rw [ha, Token.spell_cons] at hsource hroom
  refine ⟨⟨passed, Token.spell ts ++ beyond, ?_, hp ▸ hf.byte⟩, hp ▸ hroom.front,
    hp ▸ h.shows.begun, hi, hu⟩
  rw [hs, ← hsource]
  simp only [List.append_assoc]

/-- **Behind its placeholders a quoted text is left as a whole.** Whatever the placeholders have
done to the reader, it jumps to the place behind the token and follows the tape again. -/
theorem SimulatesAt.quoted {tape : Tape} {run : Bool → Reader → Checked Outcome}
    {read : Bool → Tape → Attempt} (hr : ∀ isBraced, Simulates depth (run isBraced) (read isBraced))
    (hc : ∀ isBraced window, window.Lexed → Attempt.Conserves window (read isBraced window)) :
    SimulatesAt depth (Reader.quoted file run) tape (.quoted file read tape) := by
  intro r h hd he
  rw [Attempt.quoted] at he ⊢
  cases ha : tape.ahead with
  | nil =>
    have htake := (ha ▸ h.shows : Cursor.Shows _ []).take_nil h.idle
    obtain ⟨out, hout, ha⟩ := missing .string r h hd (Nat.lt_of_le_of_lt (Nat.le_add_right _ _) he)
    refine ⟨out, ?_, ha⟩
    rw [Reader.quoted, htake]
    exact hout
  | cons t ts =>
    have htake := (ha ▸ h.shows : Cursor.Shows _ (t :: ts)).take_cons h.idle
    rw [ha] at he
    dsimp only at he ⊢
    rcases hps : t.kind.placeholders?.getD [] with _ | ⟨q, qs⟩
    · refine ⟨_, ?_, .token h ha rfl _⟩
      rw [Reader.quoted, htake, ok_bind]
      dsimp only
      rw [h.stop ha, ok_bind, hps]
      rfl
    · rw [hps] at he
      dsimp only at he ⊢
      have hsome : t.kind.placeholders? = some (q :: qs) := by
        cases hk : t.kind.placeholders? with
        | none => rw [hk] at hps; cases hps
        | some all => rw [hk] at hps; exact congrArg some hps
      obtain ⟨style, hk⟩ := TokenKind.placeholders?_eq_some hsome
      have hall := h.lexed.ahead ▸ ha
      obtain ⟨body, hbody, hbounds⟩ := Token.pieces_quoted hall hk
      have hstands := Token.standsIn_quoted hall hk hbody
      have hq : style.mark.utf8Size = 1 := by cases style <;> rfl
      -- The closing quote is one byte, so the body ends one byte in front of the token's end.
      have hend : sub t.stop 1 = .ok (t.position.byte + byteSize body) := by
        have hsize : t.stop = t.position.byte + byteSize body + 1 := by
          rw [Token.stop, ← Token.byteSize_chars, hbody, byteSize_append, byteSize_cons, hq]
          rfl
        rw [hsize]
        exact sub_eq (Nat.le_add_left _ _)
      -- The reader is behind the token and jumps back into it.
      let taken : Reader := { r with
        cursor := { r.cursor with place := t.behind, previous := some r.cursor.place }
        reach := t.stop }
      have hinside : taken.Inside t := h.inside ha rfl h.idle h.shows.usual
      obtain ⟨after, hafter, helse⟩ := interpolated_eq hr hc hinside hd hbody hq
        (fun p hm => ⟨hstands p hm, (hbounds p hm).2⟩) (List.nil_append body).symm
        (show t.position.byte = t.position.byte + byteSize [] from rfl) he
      have hseek : seek after.cursor t.behind =
          .ok { after.cursor with place := t.behind, previous := none } :=
        (hinside.elsewhere helse).seek (List.append_nil _).symm
      refine ⟨⟨Attempt.interpolated file read t t.position.byte t.stop (q :: qs), { after with
        cursor := { after.cursor with place := t.behind, previous := none }, reach := t.stop },
        none⟩, ?_, rfl, rfl, ?_, helse.source, helse.limit, helse.errors, helse.depth⟩
      · rw [Reader.quoted, htake, ok_bind]
        dsimp only
        rw [h.stop ha, ok_bind, hps]
        dsimp only
        rw [hend, ok_bind, show Reader.interpolated _ _ _ _ _ _ _ = _ from hafter, ok_bind]
        dsimp only
        rw [hseek]
        rfl
      · exact h.behind ha helse.source helse.limit rfl helse.idle helse.usual

end Checked

end Heddle
