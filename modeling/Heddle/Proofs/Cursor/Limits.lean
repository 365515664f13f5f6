import Mathlib
import Heddle.Proofs.Cursor.Draining
import Heddle.Proofs.Cursor.Marker
import Heddle.Proofs.Token.Clipped

/-!
# A limit between two tokens

A cursor with a limit cannot see what is behind the limit, and readers look further than they take.
A limit inside a token cuts another token out of it, or leaves a literal without an end. **A limit
at the end of a token only cuts**: a fresh cursor gives the tokens of the source that end there or
before, and then none (`Cursor.taking_limited`).

The usual preference is asked for, since the end of a token that was read otherwise may be inside
a token of the source. That cutting changes no token in front of the cut is a fact about readers
(`Token.Clipped`); here it is turned into one about cursors.
-/

set_option autoImplicit false

namespace Heddle

open Text

namespace Token

/-- The tokens of a text are read from it one behind the other. -/
theorem follow_readAll (p : Position) (cs : List Char) : Follow p cs (readAll p cs) := by
  induction hr : readAll p cs generalizing p cs with
  | nil =>
    rw [readAll_eq_nil hr]
    exact .nil p
  | cons t ts ih =>
    obtain ⟨rest, hread, rfl⟩ := exists_read? hr
    exact .cons hread (ih t.behind rest rfl)

/-- A token of a text ends behind the place where the text begins, as no token is empty. -/
theorem lt_stop {p : Position} {cs : List Char} {t : Token} (ht : t ∈ readAll p cs) :
    p.byte < t.stop := by
  obtain ⟨hn, front, back, -, hp⟩ := (follow_readAll p cs).exists_front ht
  obtain ⟨c, chars, hc⟩ := List.exists_cons_of_ne_nil hn
  have := c.utf8Size_pos
  rw [stop, ← byteSize_chars, hc, hp, Position.byte_past, byteSize_cons]
  omega

/-- The tokens that end where one of them does or before are those up to that one. The ends grow
along the list, so a condition on ends is a beginning of the list. -/
theorem filter_stop_le {p : Position} {cs : List Char} {i : Nat} {t : Token}
    (ht : (readAll p cs)[i]? = some t) :
    (readAll p cs).filter (·.stop ≤ t.stop) = (readAll p cs).take (i + 1) := by
  induction i generalizing p cs with
  | zero =>
    obtain ⟨ts, hr⟩ := List.head?_eq_some_iff.1 (List.head?_eq_getElem?.trans ht)
    obtain ⟨rest, -, rfl⟩ := exists_read? hr
    rw [hr, List.filter_cons_of_pos (by simp), List.take_succ_cons, List.take_zero,
      List.filter_eq_nil_iff.2 fun u hu => ?_]
    have hlt := lt_stop hu
    rw [byte_behind] at hlt
    simpa using hlt
  | succ i ih =>
    cases hr : readAll p cs with
    | nil =>
      rw [hr] at ht
      cases ht
    | cons u us =>
      obtain ⟨rest, -, rfl⟩ := exists_read? hr
      rw [hr, List.getElem?_cons_succ] at ht
      have hlt := lt_stop (List.mem_of_getElem? ht)
      rw [byte_behind] at hlt
      rw [List.filter_cons_of_pos (by simpa using hlt.le), List.take_succ_cons, ih ht]

end Token

namespace Cursor

/-- What is taken is what is read first, and the cursor goes on behind it. -/
theorem Faces.takeAs_cons {c : Cursor} {passed ahead rest : List Char} {hex : Bool} {t : Token}
    (h : c.Faces passed ahead) (ho : c.origin = none)
    (hr : Token.read? hex c.place ahead = some (t, rest)) :
    c.takeAs hex = .ok (some t,
      { c with preferHex := hex, place := t.behind, previous := some c.place }) := by
  rw [takeAs_eq hex ho, (h.keep (d := { c with preferHex := hex }) rfl rfl rfl).step_cons hr]

/-- Without a preference a cursor gives the tokens of the text that it faces, and then none. The
text may be the one up to a limit. -/
theorem taking_readAll (n : Nat) {c : Cursor} {passed ahead : List Char}
    (h : c.Faces passed ahead) (ho : c.origin = none) :
    c.taking (fun _ => false) n = .ok (Token.readAll c.place ahead)[n]? := by
  induction n generalizing c passed ahead with
  | zero =>
    cases hr : Token.readAll c.place ahead with
    | nil =>
      rw [Token.readAll_eq_nil hr] at h
      exact taking_of_faces_nil _ 0 h ho
    | cons t ts =>
      obtain ⟨rest, hread, -⟩ := Token.exists_read? hr
      rw [taking, h.takeAs_cons ho hread]
      rfl
  | succ n ih =>
    cases hr : Token.readAll c.place ahead with
    | nil =>
      rw [Token.readAll_eq_nil hr] at h
      exact taking_of_faces_nil _ (n + 1) h ho
    | cons t ts =>
      obtain ⟨rest, hread, rfl⟩ := Token.exists_read? hr
      rw [taking, h.takeAs_cons ho hread, List.getElem?_cons_succ]
      exact ih (h.behind hread rfl rfl rfl) ho

/-- A fresh cursor with a limit at the end of a token faces the tokens up to this one. The text in
front of the limit has these tokens and no others, since cutting there changes none. -/
theorem faces_limited {source : String} {i : Nat} {t : Token}
    (ht : (tokenize source)[i]? = some t) :
    ({ ofSource source with limit := some t.stop } : Cursor).Faces (byteOrderMark source)
      (Token.spell ((tokenize source).take (i + 1))) := by
  obtain ⟨hsource, hstart⟩ := openSource_byteOrderMark source
  have hspell : Token.spell (tokenize source) = (openSource source).2 := Token.spell_readAll _ _
  obtain ⟨hstop, -⟩ := Marker.reached_succ source ht
  replace hstop : t.stop =
      byteSize (byteOrderMark source ++ Token.spell ((tokenize source).take (i + 1))) := by
    rw [← Token.byte_behind, ← hstop, Marker.reached, Position.byte_past, hstart, byteSize_append]
  have hprefix : byteOrderMark source ++ Token.spell ((tokenize source).take (i + 1)) ++
      Token.spell ((tokenize source).drop (i + 1)) = source.toList := by
    rw [List.append_assoc, ← Token.spell_append, List.take_append_drop, hspell, hsource]
  refine ⟨⟨_, hprefix⟩, (faces_ofSource source).byte, ?_⟩
  have hle := congrArg byteSize hprefix
  rw [byteSize_append _ (Token.spell ((tokenize source).drop (i + 1)))] at hle
  change min t.stop (byteSize source.toList) = _
  omega

/-- **A limit at the end of a token only cuts.** The answers are those without a limit, up to the
token that ends there, and none from then on. -/
theorem taking_limited {source : String} {t : Token} (ht : t ∈ tokenize source) (n : Nat) :
    ({ ofSource source with limit := some t.stop } : Cursor).taking (fun _ => false) n =
      .ok ((tokenize source).filter (·.stop ≤ t.stop))[n]? := by
  obtain ⟨i, hi⟩ := List.getElem?_of_mem ht
  rw [taking_readAll n (faces_limited hi) rfl]
  change Except.ok (Token.readAll (openSource source).1 (Token.spell
    ((Token.readAll (openSource source).1 (openSource source).2).take (i + 1))))[n]? = _
  rw [Token.readAll_clip]
  exact congrArg (fun ts : List Token => Except.ok ts[n]?) (Token.filter_stop_le hi).symm

/-- The point behind a number is not seen, and so is the letter that makes no fraction of it. -/
theorem taking_limited_number :
    (⟨.number .integer, "1", .origin⟩ : Token) ∈ tokenize "1.a" ∧
    ({ ofSource "1.a" with limit := some 1 } : Cursor).taking (fun _ => false) 0 =
      .ok (some ⟨.number .integer, "1", .origin⟩) ∧
    ({ ofSource "1.a" with limit := some 1 } : Cursor).taking (fun _ => false) 1 = .ok none := by
  have htokens : tokenize "1.a" = [⟨.number .integer, "1", .origin⟩,
      ⟨.mark .dot, ".", ⟨1, 2, 1⟩⟩, ⟨.word, "a", ⟨1, 3, 2⟩⟩] := by cbv
  have ht : (⟨.number .integer, "1", .origin⟩ : Token) ∈ tokenize "1.a" :=
    htokens ▸ List.mem_cons_self
  have hlimited := taking_limited ht
  rw [htokens] at hlimited
  exact ⟨ht, hlimited 0, hlimited 1⟩

end Cursor

end Heddle
