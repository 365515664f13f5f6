import Mathlib.Data.List.Chain
import Heddle.Proofs.Cursor.Facing
import Heddle.Proofs.Document.Composition

/-!
# Taking all tokens

Whoever takes the tokens of a source one by one may ask for hexadecimal digits before one token and
not before the next, and every choice gives other tokens. They all have the same right to be called
the tokens of the source: **whatever is preferred before each of them, a fresh cursor gives finitely
many tokens, none of them empty, which lie in the source one behind the other and leave nothing
out** (`Cursor.exists_drained`). No choice makes the cursor refuse, stop early, or lose count of
lines and columns.

Of the readers of tokens nothing is used but that each cuts something off the front of the text.
So the choices do not show in the proof: `Token.Follow` forgets them.
-/

set_option autoImplicit false

namespace Heddle

open Text

namespace Token

/-! ## What tokens of a source are -/

/-- The token stands in the source where its place says that it does. All three counters are said
by the text in front of the token, and the end by the slice. -/
structure LiesIn (source : String) (t : Token) : Prop where
  nonempty : t.text ≠ ""
  /-- The source has the text of the token between its two bytes. -/
  slice : Text.slice? t.position.byte t.stop source.toList = some t.chars
  /-- The place counts what is in front of the token, a byte order mark only in bytes. -/
  place : ∃ front back, source.toList = byteOrderMark source ++ front ++ t.chars ++ back ∧
    t.position = ⟨1 + front.count '\n', 1 + (front.reverse.takeWhile (· != '\n')).length,
      byteSize (byteOrderMark source ++ front)⟩

/-- The tokens lie in the source one behind the other, from its first byte to its last. Together
with `LiesIn` this leaves no byte to no token and none to two. -/
structure Tile (source : String) (ts : List Token) : Prop where
  liesIn : ∀ t ∈ ts, t.LiesIn source
  first : ∀ t, ts.head? = some t → t.position.byte = byteSize (byteOrderMark source)
  next : ts.IsChain fun t u => u.position.byte = t.stop
  last : ∀ t, ts.getLast? = some t → t.stop = source.utf8ByteSize
  /-- So only a source without text has no tokens. -/
  text : spell ts = (openSource source).2

/-! ## Tokens that are read one behind the other -/

/-- The tokens are read from a text that begins at a place, each in one way or the other. The way
is not kept, as the same text may be read in many ways, and what is shown holds of all of them. -/
inductive Follow : Position → List Char → List Token → Prop where
  | nil (p : Position) : Follow p [] []
  | cons {hex : Bool} {p : Position} {cs rest : List Char} {t : Token} {ts : List Token}
      (h : read? hex p cs = some (t, rest)) (hr : Follow t.behind rest ts) : Follow p cs (t :: ts)

namespace Follow

variable {p : Position} {cs : List Char} {ts : List Token}

theorem spell_eq (h : Follow p cs ts) : spell ts = cs := by
  induction h with
  | nil => rfl
  | cons h _ ih => rw [spell_cons, ih, (read?_eq_some h).2.2]

theorem position_eq {t : Token} (h : Follow p cs (t :: ts)) : t.position = p := by
  cases h with
  | cons h _ => exact (read?_eq_some h).1

theorem next (h : Follow p cs ts) : ts.IsChain fun t u => u.position.byte = t.stop := by
  induction h with
  | nil => exact .nil
  | cons h hr ih =>
    cases hr with
    | nil => exact .singleton _
    | cons hu hs => exact .cons_cons (by rw [(read?_eq_some hu).1, byte_behind]) ih

/-- The last token ends where the text ends. The statement is by the last element, since that is
how a list of tokens is asked for its end. -/
theorem last (h : Follow p cs ts) : ∀ t, ts.getLast? = some t → t.stop = p.byte + byteSize cs := by
  induction h with
  | nil => exact nofun
  | @cons _ p cs rest t ts h hr ih =>
    obtain ⟨hp, -, hc⟩ := read?_eq_some h
    have hstop : t.stop = p.byte + byteSize t.chars := by
      rw [← byte_behind, behind, Position.byte_past, hp]
    intro u hu
    cases hr with
    | nil =>
      obtain rfl : t = u := Option.some.inj hu
      rw [hstop, hc, List.append_nil]
    | cons h' hr' =>
      rw [ih u (by rwa [List.getLast?_cons_cons] at hu), byte_behind, hstop, hc, byteSize_append,
        Nat.add_assoc]

/-- Each token stands behind those in front of it. From the text in front the place follows, and
so do its line and column. -/
theorem exists_front (h : Follow p cs ts) {t : Token} (ht : t ∈ ts) :
    t.chars ≠ [] ∧ ∃ front back, cs = front ++ t.chars ++ back ∧ t.position = p.past front := by
  induction h with
  | nil => cases ht
  | @cons _ p cs rest u us h hr ih =>
    obtain ⟨hp, hn, hc⟩ := read?_eq_some h
    rcases List.mem_cons.1 ht with rfl | ht
    · exact ⟨hn, [], rest, hc, hp⟩
    · obtain ⟨hn', front, back, hf, hp'⟩ := ih ht
      refine ⟨hn', u.chars ++ front, back, ?_, ?_⟩
      · rw [hc, hf]
        simp only [List.append_assoc]
      · rw [hp', behind, hp, Position.past_append]

end Follow

/-- **Tokens that are read from the text of a source tile the source.** What was said of a text is
turned into what is said of the source, with the byte order mark in front. -/
theorem Tile.of_follow {source : String} {ts : List Token}
    (h : Follow (openSource source).1 (openSource source).2 ts) : Tile source ts := by
  obtain ⟨hsource, hstart⟩ := openSource_byteOrderMark source
  refine ⟨fun t ht => ?_, fun t ht => ?_, h.next, fun t ht => ?_, h.spell_eq⟩
  · obtain ⟨hn, front, back, hf, hp⟩ := h.exists_front ht
    have hbyte : t.position.byte = byteSize (byteOrderMark source ++ front) := by
      rw [hp, Position.byte_past, hstart, byteSize_append]
    have hall : source.toList = byteOrderMark source ++ front ++ t.chars ++ back := by
      rw [hsource, hf]
      simp only [List.append_assoc]
    refine ⟨fun he => hn (by rw [chars, he]; rfl), ?_, front, back, hall, ?_⟩
    · rw [hbyte, stop, hbyte, ← byteSize_chars, ← byteSize_append, hall]
      exact slice?_byteSize _ _ _
    · have hline := Position.line_past (openSource source).1 front
      have hcolumn := Position.column_past (p := (openSource source).1) (by rw [hstart]) front
      rw [← hp] at hline hcolumn
      rw [hstart] at hline
      rw [← hline, ← hcolumn, ← hbyte]
  · cases ts with
    | nil => cases ht
    | cons u us =>
      obtain rfl : u = t := Option.some.inj ht
      rw [h.position_eq, hstart]
  · rw [h.last t ht, hstart, ← byteSize_append, ← hsource, ← utf8ByteSize_ofList,
      String.ofList_toList]

end Token

namespace Cursor

/-- Takes the next token, read with the given preference. The preference stays set, as it does
when it is set by hand. -/
def takeAs (hex : Bool) (c : Cursor) : Except Misuse (Option Token × Cursor) :=
  { c with preferHex := hex }.take

/-- The answer to the last of `n + 1` takings, the preference being chosen anew before each. The
recursion goes from the first taking on, so the choices move up by one. -/
def taking (prefer : Nat → Bool) : Nat → Cursor → Except Misuse (Option Token)
  | 0, c => (c.takeAs (prefer 0)).map (·.1)
  | n + 1, c => do
    let (_, c) ← c.takeAs (prefer 0)
    taking (fun i => prefer (i + 1)) n c

/-- What a taking does is a step, where no look ahead is pending. It is not refused then, which is
a part of the claim that taking is total. -/
theorem takeAs_eq (hex : Bool) {c : Cursor} (ho : c.origin = none) :
    c.takeAs hex = match ({ c with preferHex := hex } : Cursor).step with
      | (some t, after) => .ok (some t, { after with previous := some c.place })
      | (none, after) => .ok (none, after) := by
  have hl : ¬({ c with preferHex := hex } : Cursor).isLooking = true := by simp [isLooking, ho]
  exact if_neg hl

/-- At the end there is nothing to take, however often it is tried. -/
theorem taking_of_faces_nil (prefer : Nat → Bool) (n : Nat) {c : Cursor} {passed : List Char}
    (h : c.Faces passed []) (ho : c.origin = none) : c.taking prefer n = .ok none := by
  have htake (hex : Bool) : c.takeAs hex = .ok (none, { c with preferHex := hex }) := by
    have hstep := (h.keep (d := { c with preferHex := hex }) rfl rfl rfl).step_nil
    rw [takeAs_eq hex ho, hstep]
  induction n generalizing prefer c with
  | zero => rw [taking, htake]; rfl
  | succ n ih =>
    rw [taking, htake]
    exact ih _ (h.keep rfl rfl rfl) ho fun hex => htake hex

/-- **A cursor gives finitely many tokens**, those of the text that it faces. The induction is on
the size of the text ahead, since the tokens are not known beforehand: they depend on the choices.
-/
theorem exists_follow (prefer : Nat → Bool) {c : Cursor} {passed ahead : List Char}
    (h : c.Faces passed ahead) (ho : c.origin = none) :
    ∃ ts, Token.Follow c.place ahead ts ∧ ∀ n, c.taking prefer n = .ok ts[n]? := by
  induction hsize : ahead.length using Nat.strong_induction_on generalizing prefer c passed ahead
  rename_i size ih
  by_cases hn : ahead = []
  · subst hn
    exact ⟨[], .nil _, fun n => taking_of_faces_nil prefer n h ho⟩
  · obtain ⟨t, rest, hr⟩ := Token.exists_read?_of_ne_nil (prefer 0) c.place hn
    obtain ⟨-, ht, hc⟩ := Token.read?_eq_some hr
    have hstep := (h.keep (d := { c with preferHex := prefer 0 }) rfl rfl rfl).step_cons hr
    let d : Cursor := { c with preferHex := prefer 0, place := t.behind, previous := some c.place }
    have htake : c.takeAs (prefer 0) = .ok (some t, d) := by
      rw [takeAs_eq _ ho, hstep]
    have hlt : rest.length < size := by
      have := List.length_pos_iff.2 ht
      rw [← hsize, hc, List.length_append]
      omega
    obtain ⟨ts, hts, hall⟩ := ih rest.length hlt (fun i => prefer (i + 1))
      (h.behind hr (d := d) rfl rfl rfl) ho rfl
    refine ⟨t :: ts, .cons hr hts, fun n => ?_⟩
    cases n with
    | zero => rw [taking, htake]; rfl
    | succ n =>
      rw [taking, htake, List.getElem?_cons_succ]
      exact hall n

/-- **Taking tokens is total and loses nothing**, however they are read. The first takings answer
with tokens that tile the source, and all others with none. -/
theorem exists_drained (source : String) (prefer : Nat → Bool) :
    ∃ ts, Token.Tile source ts ∧ ∀ n, (ofSource source).taking prefer n = .ok ts[n]? := by
  obtain ⟨ts, hf, hts⟩ := exists_follow prefer (faces_ofSource source) rfl
  exact ⟨ts, .of_follow hf, hts⟩

end Cursor

end Heddle
