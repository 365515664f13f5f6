import Heddle.Proofs.Token.Exchange
import Heddle.Proofs.Token.Leading

/-!
# Trivia in the place of trivia

A blank is as long as it can be, so there is no blank next to a blank, and other blanks in its place
are one token again. A block comment ends with its closing sign. So neither can lengthen a token in
front of it, and neither can be a part of a closing tag together with the text around it: **blanks
may stand for blanks, and a blank and a comment may change places** (`Swaps.of_blanks`,
`Swaps.of_comment`).

These two are the exchanges that a source may make between its tokens without a change of meaning;
whole sources are compared in `Heddle.Proofs.Document.Trivia`.
-/

set_option autoImplicit false

namespace Heddle

open Text

namespace Text

/-! ## What lies across a seam -/

variable {xs ys tag : List Char}

/-- What has no character of `xs` in it lies behind `xs`, if it is found at all. -/
theorem infix_behind (hx : ∀ c ∈ xs, c ∉ tag) (hn : tag ≠ []) (h : tag <:+: xs ++ ys) :
    tag <:+: ys := by
  induction xs with
  | nil => exact h
  | cons c xs ih =>
    rcases List.infix_cons_iff.1 h with hp | hi
    · obtain ⟨t, tag, rfl⟩ := List.exists_cons_of_ne_nil hn
      obtain ⟨rfl, -⟩ := List.cons_prefix_cons.1 hp
      exact absurd List.mem_cons_self (hx t List.mem_cons_self)
    · exact ih (fun d hd => hx d (List.mem_cons_of_mem _ hd)) hi

/-- What is found in two texts behind each other is in one of them, or it begins in the first one
and goes on behind it. The third case is the only one in which an exchange could make a tag that
was not there. -/
theorem infix_append_cases (h : tag <:+: xs ++ ys) :
    tag <:+: xs ∨ tag <:+: ys ∨ ∃ a b, a ≠ [] ∧ b ≠ [] ∧ tag = a ++ b ∧ a <:+ xs := by
  obtain ⟨s, t, hst⟩ := h
  rw [List.append_assoc] at hst
  rcases List.append_eq_append_iff.1 hst with ⟨a, hxs, htag⟩ | ⟨b, rfl, rfl⟩
  · rcases List.append_eq_append_iff.1 htag with ⟨b, rfl, rfl⟩ | ⟨b, rfl, rfl⟩
    · exact .inl ⟨s, b, by rw [hxs, List.append_assoc]⟩
    · by_cases ha : a = []
      · subst ha
        exact .inr (.inl ⟨[], t, by simp⟩)
      · by_cases hb : b = []
        · subst hb
          exact .inl ⟨s, [], by rw [hxs]; simp⟩
        · exact .inr (.inr ⟨a, b, ha, hb, rfl, s, hxs.symm⟩)
  · exact .inr (.inl ⟨b, t, by rw [List.append_assoc]⟩)

variable {name : List Char} (hname : ∀ c ∈ name, isAsciiLetter c = true)
include hname

/-- No blank is a part of a closing tag. So blanks in front of a text may be any blanks. -/
theorem tag_behind_blanks (ds : Run isBlank) {rest : List Char}
    (h : '<' :: '/' :: (name ++ ['>']) <:+: ds.chars ++ rest) :
    '<' :: '/' :: (name ++ ['>']) <:+: rest := by
  refine infix_behind (fun c hc hmem => ?_) (List.cons_ne_nil _ _) h
  cases (isSeal_of_isBlank (ds.forall_mem c hc)).symm.trans
    (Lexeme.isSeal_of_mem_tag hname c hmem)

/-- No closing tag begins in a block comment and ends behind it. A comment ends with a star and a
slash: a tag that began with the slash would need a `<` there, and one that began before has
letters in the place of the star. -/
theorem tag_behind_comment {body rest : List Char}
    (h : '<' :: '/' :: (name ++ ['>']) <:+: body ++ ['*', '/'] ++ rest) :
    '<' :: '/' :: (name ++ ['>']) <:+: body ++ ['*', '/'] ∨
      '<' :: '/' :: (name ++ ['>']) <:+: rest := by
  rcases infix_append_cases h with h | h | ⟨a, b, ha, hb, htag, s, hs⟩
  · exact .inl h
  · exact .inr h
  -- The first part ends as the comment does, and no part of a tag does.
  match a, ha with
  | [x], _ =>
    obtain ⟨rfl, -⟩ := List.cons.inj htag
    have hlast := congrArg List.getLast? hs
    simp at hlast
  | [x, y], _ =>
    obtain ⟨rfl, -⟩ := List.cons.inj htag
    cases (List.append_inj' hs rfl).2
  | x :: y :: z :: a, _ =>
    have hrest : name ++ ['>'] = z :: a ++ b := (List.cons.inj (List.cons.inj htag).2).2
    have hlast := congrArg List.getLast? hs
    simp only [List.getLast?_append, List.getLast?_cons_cons] at hlast
    have hslash : '/' ∈ z :: a := List.mem_of_getLast? (by simpa using hlast)
    have hmem : '/' ∈ name ++ ['>'] := hrest ▸ List.mem_append_left _ hslash
    rcases List.mem_append.1 hmem with hm | hm
    · cases hname _ hm
    · cases hm with | tail _ hm => cases hm

variable (ds : Run isBlank)

omit hname

/-- A run begins with a character of its class. -/
theorem Run.exists_cons {p : Char → Bool} (ds : Run p) :
    ∃ c cs, ds.chars = c :: cs ∧ p c = true := by
  obtain ⟨c, cs, h⟩ := List.exists_cons_of_ne_nil ds.ne_nil
  exact ⟨c, cs, h, ds.forall_mem c (h ▸ List.mem_cons_self)⟩

/-- **Blanks may stand for blanks**, if a line feed stays at their beginning: it may be what a
line comment in front of them ends with. -/
theorem Swaps.of_blanks (es : Run isBlank)
    (hl : es.chars.head? = some '\n' → ds.chars.head? = some '\n') (rest : List Char) :
    Swaps (es.chars ++ rest) (ds.chars ++ rest) := by
  obtain ⟨c, cs, hes, hc⟩ := es.exists_cons
  obtain ⟨d, cs', hds, hd⟩ := ds.exists_cons
  refine ⟨?_, ?_, ⟨d, cs' ++ rest, by rw [hds]; rfl, hd⟩, fun more hmore => ?_,
    fun name hname h => ?_⟩
  · rw [hes]
    exact List.cons_ne_nil _ _
  · rw [hes]
    exact stops_of_isSeal (isSeal_of_isBlank hc) _
  · rw [hes] at hmore hl
    rw [hds] at hl ⊢
    exact hl (congrArg some (List.cons.inj hmore).1)
  · exact List.infix_append_of_infix_right (tag_behind_blanks hname ds h)

/-- **Blanks behind a comment may stand in front of it.** A comment begins with no line feed, so
it is never what a line comment in front ends with. -/
theorem Swaps.of_comment (body rest : List Char) :
    Swaps ('/' :: '*' :: (body ++ ['*', '/']) ++ (ds.chars ++ rest))
      (ds.chars ++ ('/' :: '*' :: (body ++ ['*', '/']) ++ rest)) := by
  obtain ⟨d, cs, hds, hd⟩ := ds.exists_cons
  refine ⟨List.cons_ne_nil _ _, fun c hc => .inr (.inl (Option.some.inj hc).symm),
    ⟨d, cs ++ _, by rw [hds]; rfl, hd⟩, fun more hmore => ?_, fun name hname h => ?_⟩
  · cases hmore
  · have hbehind : _ <:+: ('/' :: '*' :: body) ++ ['*', '/'] ++ rest := tag_behind_blanks hname ds h
    rcases tag_behind_comment hname hbehind with h | h
    · exact h.trans (List.prefix_append _ _).isInfix
    · exact List.infix_append_of_infix_right (List.infix_append_of_infix_right h)

end Text

namespace Lexeme

/-- A comment ends with its closing sign. -/
theorem commentBody?_closed {cs text rest : List Char} (h : commentBody? cs = some (text, rest)) :
    ∃ body, text = body ++ ['*', '/'] := by
  fun_induction commentBody? cs generalizing text rest with
  | case1 => cases h
  | case2 =>
    cases h
    exact ⟨[], rfl⟩
  | case3 c cs _ ih =>
    obtain ⟨⟨text', rest'⟩, hbody, heq⟩ := Option.map_eq_some_iff.1 h
    cases heq
    obtain ⟨body, rfl⟩ := ih hbody
    exact ⟨c :: body, rfl⟩

/-- A block comment is between its signs. -/
theorem text_blockComment {preferHex : Bool} {position : Position} {c : Char} {cs : List Char}
    (h : (scan preferHex position c cs).kind = .blockComment) :
    ∃ body, (scan preferHex position c cs).text = '/' :: '*' :: (body ++ ['*', '/']) := by
  obtain ⟨-, hl⟩ := (origin_scan ..).comment (.inr h)
  rw [hl] at h ⊢
  unfold slash at h ⊢
  split at h
  · cases h
  · split at h <;> rename_i hbody
    · obtain ⟨body, rfl⟩ := commentBody?_closed hbody
      exact ⟨body, rfl⟩
    · cases h
  · cases h

end Lexeme

namespace Token

variable {p : Position} {cs : List Char} {t : Token} {front ts : List Token}

/-- The tokens behind the first ones are those of their own text, at their own place. -/
theorem readAll_behind (h : readAll p cs = front ++ ts) :
    readAll (p.past (spell front)) (spell ts) = ts := by
  induction front generalizing p cs with
  | nil =>
    obtain rfl : readAll p cs = ts := h
    rw [spell_readAll]
    rfl
  | cons u front ih =>
    obtain ⟨hp, -, rest, -, hrest⟩ := readAll_eq_cons h
    have hbehind := ih hrest.symm
    rwa [behind, hp, ← Position.past_append] at hbehind

/-- The tokens of a text are those in front of a token and those from it on. -/
theorem readAll_cut (h : readAll p cs = front ++ ts) :
    readAll p (spell front ++ spell ts) = front ++ readAll (p.past (spell front)) (spell ts) := by
  rw [readAll_behind h, ← spell_append, ← h, spell_readAll]

/-- A blank goes on up to something that is none. So a blank token is a `Run` of blanks, and what
is behind it begins apart from blanks. -/
theorem blanks_of_kind (h : readAll p cs = t :: ts) (hk : t.kind = .blank) :
    (∃ ds : Run isBlank, ds.chars = t.chars) ∧ Apart isBlank (spell ts) := by
  obtain ⟨c, rest, rfl, rfl⟩ := exists_scan h
  obtain ⟨hc, hscan⟩ := Lexeme.scan_blank hk
  rw [readAll_cons] at h
  obtain rfl := (List.cons.inj h).2
  rw [spell_readAll, Lexeme.chars_token, hscan, Lexeme.run]
  refine ⟨⟨⟨(c :: rest).takeWhile isBlank, ?_, List.all_takeWhile⟩, rfl⟩, fun d hd => ?_⟩
  · rw [List.takeWhile_cons_of_pos hc]
    exact List.cons_ne_nil _ _
  · have hhead := List.head?_dropWhile_not isBlank (c :: rest)
    rw [Option.mem_def.1 hd] at hhead
    simpa using hhead

/-- There is no blank in front of a blank: the first one would have gone on. -/
theorem kind_ne_blank_of_getLast? (h : readAll p cs = front ++ t :: ts) (hk : t.kind = .blank) :
    ∀ u ∈ front.getLast?, u.kind ≠ .blank := by
  intro u hu hblank
  obtain ⟨init, rfl⟩ := List.getLast?_eq_some_iff.1 hu
  rw [List.append_assoc] at h
  obtain ⟨-, hapart⟩ := blanks_of_kind (readAll_behind h) hblank
  obtain ⟨⟨ds, hds⟩, -⟩ := blanks_of_kind (readAll_behind (h.trans (List.append_assoc ..).symm)) hk
  obtain ⟨c, cs, hc, hb⟩ := ds.exists_cons
  have hhead : c ∈ (spell (t :: ts)).head? := by
    rw [spell_cons, ← hds, hc]
    rfl
  cases hb.symm.trans (hapart c hhead)

/-- The signs of a block comment. -/
theorem chars_blockComment (h : t ∈ readAll p cs) (hk : t.kind = .blockComment) :
    ∃ body, t.chars = '/' :: '*' :: (body ++ ['*', '/']) := by
  obtain ⟨q, c, rest, rfl⟩ := exists_scan_of_mem h
  rw [Lexeme.chars_token]
  exact Lexeme.text_blockComment hk

end Token

end Heddle
