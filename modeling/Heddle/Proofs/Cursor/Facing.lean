import Heddle.Cursor
import Heddle.Proofs.Tape.Lexed

/-!
# What a cursor can read

A cursor keeps a place and cuts the text that it can read out of its source again at every step, so
what it does is only understood once it is known that the cut is made between two characters.
`Cursor.Faces` says so: the cursor stands behind the text `passed` and can read the text `ahead`,
which ends at its limit. **A step takes the first token of `ahead` and faces the rest**
(`Faces.step_cons`, `Faces.behind`), whatever preference for digits it is taken with.
-/

set_option autoImplicit false

namespace Heddle

open Text

/-- What can be read has a first token in either way of reading. This is why a cursor stops only
at the end of its text. -/
theorem Token.exists_read?_of_ne_nil (hex : Bool) (p : Position) {cs : List Char} (h : cs ≠ []) :
    ∃ t rest, Token.read? hex p cs = some (t, rest) := by
  cases cs with
  | nil => exact absurd rfl h
  | cons c cs => exact ⟨_, _, rfl⟩

namespace Cursor

/-- The cursor stands behind `passed`, and `ahead` is what it can read. The two together need not
be the whole source: what follows is behind the limit. All cuts that a cursor makes are at one of
the three bounds, and so between two characters. -/
structure Faces (c : Cursor) (passed ahead : List Char) : Prop where
  source : passed ++ ahead <+: c.source
  byte : c.place.byte = byteSize passed
  bound : c.bound = byteSize (passed ++ ahead)

namespace Faces

variable {c : Cursor} {passed ahead : List Char}

theorem readable (h : c.Faces passed ahead) : c.readable = ahead := by
  obtain ⟨beyond, hs⟩ := h.source
  rw [Cursor.readable, h.byte, h.bound, ← hs, slice?_byteSize, Option.getD_some]

/-- The end is where nothing is left to read. The cursor compares bytes, so without `Faces` this
would not follow: a limit inside of a character leaves nothing to read in front of it. -/
theorem isAtEnd (h : c.Faces passed ahead) : c.isAtEnd = ahead.isEmpty := by
  rw [Cursor.isAtEnd, h.byte, h.bound, byteSize_append]
  cases ahead with
  | nil => simp
  | cons x xs =>
    have := x.utf8Size_pos
    rw [List.isEmpty_cons]
    refine decide_eq_false ?_
    rw [byteSize_cons]
    omega

/-- Only the source, the limit and the place decide what a cursor faces. So every use of a cursor
is described by where it leaves the place. -/
theorem move {xs ys : List Char} (h : c.Faces passed (xs ++ ys)) {d : Cursor}
    (hs : d.source = c.source) (hl : d.limit = c.limit)
    (hp : d.place.byte = byteSize (passed ++ xs)) : d.Faces (passed ++ xs) ys where
  source := by rw [hs, List.append_assoc]; exact h.source
  byte := hp
  bound := by
    have hb : d.bound = c.bound := by rw [Cursor.bound, Cursor.bound, hs, hl]
    rw [hb, h.bound, List.append_assoc]

/-- The same text from the same place. -/
theorem keep (h : c.Faces passed ahead) {d : Cursor} (hs : d.source = c.source)
    (hl : d.limit = c.limit) (hp : d.place.byte = c.place.byte) : d.Faces passed ahead := by
  have hm := @move _ _ [] _ h d hs hl (by rw [hp, h.byte, List.append_nil])
  rwa [List.append_nil] at hm

theorem step_nil (h : c.Faces passed []) : c.step = (none, c) := by
  rw [step, h.readable]
  rfl

/-- A step takes the token that is read first. With this a cursor is understood by `Token.read?`
and its lemmas, which are about texts. -/
theorem step_cons (h : c.Faces passed ahead) {t : Token} {rest : List Char}
    (hr : Token.read? c.preferHex c.place ahead = some (t, rest)) :
    c.step = (some t, { c with place := t.behind }) := by
  rw [step, h.readable, hr]

/-- Behind a token a cursor faces the text behind the token. The other cursor may differ in the
modes, and in what it could take back. -/
theorem behind (h : c.Faces passed ahead) {t : Token} {rest : List Char} {hex : Bool}
    (hr : Token.read? hex c.place ahead = some (t, rest)) {d : Cursor}
    (hs : d.source = c.source) (hl : d.limit = c.limit) (hp : d.place = t.behind) :
    d.Faces (passed ++ t.chars) rest := by
  obtain ⟨hposition, -, rfl⟩ := Token.read?_eq_some hr
  refine h.move hs hl ?_
  rw [hp, Token.behind, Position.byte_past, hposition, h.byte, byteSize_append]

end Faces

/-! ## Fresh cursors -/

end Cursor

/-- What stands in front of the text of a source: a byte order mark, or nothing. It is the
beginning of what has been passed, for every cursor on the source. -/
def byteOrderMark (source : String) : List Char :=
  if source.toList.head? = some '\uFEFF' then ['\uFEFF'] else []

/-- The mark counts in bytes and in nothing else. So the first token is in the first column, and
three bytes behind the beginning. -/
theorem openSource_byteOrderMark (source : String) :
    source.toList = byteOrderMark source ++ (openSource source).2 ∧
      (openSource source).1 = ⟨1, 1, byteSize (byteOrderMark source)⟩ := by
  by_cases hm : source.toList.head? = some '\uFEFF'
  · obtain ⟨cs, hc⟩ := List.head?_eq_some_iff.1 hm
    rw [byteOrderMark, if_pos hm, openSource, hc]
    exact ⟨rfl, rfl⟩
  · rw [byteOrderMark, if_neg hm, openSource]
    split <;> rename_i hc
    · rw [hc] at hm
      exact absurd rfl hm
    · exact ⟨rfl, rfl⟩

/-- The mark and the text are the source. -/
theorem utf8ByteSize_source (source : String) : source.utf8ByteSize =
    byteSize (byteOrderMark source) + byteSize (openSource source).2 := by
  rw [← byteSize_append, ← (openSource_byteOrderMark source).1, ← utf8ByteSize_ofList,
    String.ofList_toList]

/-- Without a limit a cursor faces all of its source that it stands in front of. -/
theorem Cursor.Faces.of_place {c : Cursor} {passed ahead : List Char}
    (hs : c.source = passed ++ ahead) (hl : c.limit = none)
    (hp : c.place.byte = byteSize passed) : c.Faces passed ahead where
  source := hs ▸ List.prefix_refl _
  byte := hp
  bound := by rw [Cursor.bound, hl, hs]

/-- A fresh cursor faces the text of its source. All that is said of runs of a cursor begins here.
-/
theorem Cursor.faces_ofSource (source : String) :
    (ofSource source).Faces (byteOrderMark source) (openSource source).2 :=
  .of_place (openSource_byteOrderMark source).1 rfl
    (congrArg Position.byte (openSource_byteOrderMark source).2)

end Heddle
