import Heddle.Proofs.Tape.Lexed
import Heddle.Proofs.Token.Pieces

/-!
# Where placeholders stand

`Token.pieces_quoted` says at which bytes a quoted text can be cut at its placeholders. The reader
also needs to know that it finds a placeholder there: the text from the place of a placeholder on
begins with a percent sign, behind which a braced one has its opening brace, and the place is exact
to the line and column. So the first tokens of the text of a placeholder are known.
-/

set_option autoImplicit false

namespace Heddle

open Text

/-- At its place in `body`, which begins at `first`, the placeholder has its percent sign, and its
brace if it is braced. Its end is not said here: it is a boundary of the body by
`Token.pieces_quoted`. -/
def Placeholder.StandsIn (p : Placeholder) (first : Position) (body : List Char) : Prop :=
  ∃ xs ys, body = xs ++ '%' :: ys ∧ p.position = first.past xs ∧
    (p.braced = true → ys.head? = some '\x7b')

/-- Text in front of the body moves where it begins. -/
theorem Placeholder.StandsIn.behind {p : Placeholder} {first : Position} {body : List Char}
    (lead : List Char) (h : p.StandsIn (first.past lead) body) :
    p.StandsIn first (lead ++ body) := by
  obtain ⟨xs, ys, rfl, hp, hb⟩ := h
  exact ⟨lead ++ xs, ys, by rw [List.append_assoc], by rw [hp, Position.past_append], hb⟩

/-- A placeholder that is not in front of `ys` stands in it. The placeholders of a quoted text are
read one after the other, each from what the one before has left. -/
theorem Placeholder.StandsIn.after {p : Placeholder} {first : Position} {xs ys : List Char}
    (h : p.StandsIn first (xs ++ ys)) (hle : first.byte + byteSize xs ≤ p.position.byte) :
    ∃ lead zs, ys = lead ++ '%' :: zs ∧ p.position = first.past (xs ++ lead) ∧
      (p.braced = true → zs.head? = some '\x7b') := by
  obtain ⟨us, vs, hbody, hp, hb⟩ := h
  rcases List.append_eq_append_iff.1 hbody with ⟨lead, rfl, rfl⟩ | ⟨mid, rfl, hvs⟩
  · exact ⟨lead, vs, rfl, hp, hb⟩
  · -- The text in front of `ys` is not longer than the text in front of the placeholder.
    have hm : mid = [] := by
      cases mid with
      | nil => rfl
      | cons c mid =>
        have := c.utf8Size_pos
        rw [hp, Position.byte_past] at hle
        simp only [byteSize_append, byteSize_cons] at hle
        omega
    subst hm
    exact ⟨[], vs, hvs.symm, by rw [hp, List.append_nil, List.append_nil], hb⟩

namespace Lexeme

/-- A placeholder is read from its percent sign, and a braced one from its brace. -/
theorem taken_percent {quote : Char} {cs : List Char} {isBraced : Bool}
    (h : (percent quote cs).placeholder = some isBraced) :
    ∃ ys, (percent quote cs).taken = '%' :: ys ∧ (isBraced = true → ys.head? = some '\x7b') := by
  unfold percent at h ⊢
  split at h
  · cases h
  · exact ⟨_, rfl, fun _ => rfl⟩
  · split at h <;> rename_i hc
    · rw [if_pos hc]
      cases h
      exact ⟨_, rfl, nofun⟩
    · cases h
  · cases h

/-- The placeholders of a quoted text stand in its body. The induction is along the reader, as for
the boundaries of the body (`quotedBody?_spec`). -/
theorem quotedBody?_standsIn {quote : Char} {position : Position} {cs : List Char}
    {ps : List Placeholder} {body rest : List Char}
    (h : quotedBody? quote position cs = some (ps, body ++ [quote], rest)) :
    ∀ p ∈ ps, p.StandsIn position body := by
  generalize htext : body ++ [quote] = text at h
  fun_induction quotedBody? quote position cs generalizing ps body text rest with
  | case1 | case2 => cases h
  | case3 position c cs ih =>
    obtain ⟨⟨ps, text, rest⟩, inner, heq⟩ := Option.map_eq_some_iff.1 h
    cases heq
    obtain ⟨body', rfl, -⟩ := quotedBody?_spec inner
    have hbody : body = '\\' :: c :: body' :=
      List.append_cancel_right (htext : body ++ [quote] = ('\\' :: c :: body') ++ [quote])
    intro p hp
    rw [hbody]
    exact .behind ['\\', c] (ih _ rfl inner p hp)
  | case4 position cs sign =>
    rename_i behind ih
    obtain ⟨⟨ps, text, rest⟩, inner, heq⟩ := Option.map_eq_some_iff.1 h
    cases heq
    obtain ⟨body', rfl, -⟩ := quotedBody?_spec inner
    have hbody : body = sign.taken ++ body' := by
      rw [← List.append_assoc] at htext
      exact List.append_cancel_right htext
    intro p hp
    rw [hbody]
    -- A placeholder that begins here has nothing in front of it; for the others what was taken
    -- here is.
    rcases List.mem_append.1 hp with hp | hp
    · obtain ⟨isBraced, hs, rfl⟩ := Option.map_eq_some_iff.1 (Option.mem_toList.1 hp)
      obtain ⟨ys, ht, hy⟩ := taken_percent hs
      refine ⟨[], ys ++ body', by rw [ht]; rfl, rfl, fun hb => ?_⟩
      obtain ⟨zs, rfl⟩ := List.head?_eq_some_iff.1 (hy hb)
      rfl
    · exact .behind _ (ih _ rfl inner p hp)
  | case5 =>
    cases h
    exact List.forall_mem_nil _
  | case6 position c cs _ _ _ _ ih =>
    obtain ⟨⟨ps, text, rest⟩, inner, heq⟩ := Option.map_eq_some_iff.1 h
    cases heq
    obtain ⟨body', rfl, -⟩ := quotedBody?_spec inner
    have hbody : body = c :: body' :=
      List.append_cancel_right (htext : body ++ [quote] = (c :: body') ++ [quote])
    intro p hp
    rw [hbody]
    exact .behind [c] (ih _ rfl inner p hp)

end Lexeme

namespace Token

/-- The placeholders of a quoted text stand in it. So the text that a placeholder is read from
begins with a percent sign, and the parser of placeholders does not fail at its first token. -/
theorem standsIn_quoted {p : Position} {cs : List Char} {t : Token} {ts : List Token}
    (h : Token.readAll p cs = t :: ts) {style : QuoteStyle} {ps : List Placeholder}
    (hk : t.kind = .quoted style ps) {body : List Char} (hc : t.chars = body ++ [style.mark]) :
    ∀ q ∈ ps, q.StandsIn t.position body := by
  obtain ⟨c, rest, -, rfl⟩ := exists_scan h
  obtain ⟨rfl, hs⟩ := Lexeme.scan_quoted hk
  rw [Lexeme.chars_token] at hc
  show ∀ q ∈ ps, q.StandsIn p body
  replace hk : (Lexeme.scan false p style.mark rest).kind = .quoted style ps := hk
  rw [hs] at hk hc
  unfold Lexeme.quoted at hk hc
  split at hk <;> rename_i hq
  · rw [hq] at hc
    cases hk
    obtain ⟨body', rfl, -⟩ := Lexeme.quotedBody?_spec hq
    have hbody : body = style.mark :: body' := List.append_cancel_right
      (hc.symm : body ++ [style.mark] = (style.mark :: body') ++ [style.mark])
    intro q hm
    rw [hbody]
    exact .behind [style.mark] (Lexeme.quotedBody?_standsIn hq q hm)
  · cases hk

/-- A quoted text begins with its quote. -/
theorem head_quoted {p : Position} {cs : List Char} {t : Token} {ts : List Token}
    (h : Token.readAll p cs = t :: ts) {style : QuoteStyle} {ps : List Placeholder}
    (hk : t.kind = .quoted style ps) : t.chars.head? = some style.mark := by
  obtain ⟨body, hc, -⟩ := pieces_quoted h hk
  obtain ⟨c, rest, -, rfl⟩ := exists_scan h
  obtain ⟨rfl, -⟩ := Lexeme.scan_quoted hk
  have hcut : _ ++ _ = style.mark :: rest := Lexeme.cuts_scan false p style.mark rest
  rw [Lexeme.chars_token] at hc ⊢
  rw [hc] at hcut ⊢
  cases body with
  | nil => rfl
  | cons d body => exact congrArg some (List.cons.inj hcut).1

/-- A percent sign is a token whatever follows it: no reader makes something longer of it. -/
theorem readAll_percent (p : Position) (cs : List Char) :
    readAll p ('%' :: cs) = ⟨.mark .percent, "%", p⟩ :: readAll (p.after '%') cs := by
  rw [readAll_cons]
  cases cs <;> rfl

/-- An opening brace is a token whatever follows it. -/
theorem readAll_leftBrace (p : Position) (cs : List Char) :
    readAll p ('\x7b' :: cs) =
      ⟨.mark .leftBrace, "\x7b", p⟩ :: readAll (p.after '\x7b') cs := by
  rw [readAll_cons]
  cases cs <;> rfl

end Token

end Heddle
