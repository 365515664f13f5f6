import Heddle.Proofs.Cursor.Facing
import Heddle.Proofs.Token.Append
import Heddle.Proofs.Token.Leading
import Heddle.Proofs.Token.Placeholders

/-!
# Where quoted texts end

The reader of a quoted text has to find two things at once: the quote that closes it, and the
placeholders in front of that quote. It counts braces, passes over doubled percent signs and follows
dotted names, and at every such turn it could miss the closing quote. `Lexeme.closing?` knows
nothing of placeholders: it goes from left to right, and only a backslash is special to it. **The
two stop at the same quote** (`Lexeme.quotedBody?_closing?`), since whatever stands at a percent
sign is a text that the plain scanner passes over (`Lexeme.Passes`).

The placeholders come out in order and inside the quotes, each described by `Placeholder.Covers`.
`Cursor.step_quote` puts both together for a cursor with any limit.
-/

set_option autoImplicit false

namespace Heddle

open Text

/-! ## The plain scanner -/

namespace Lexeme

/-- The text up to and with the first quote that no backslash hides, and what follows it. A
backslash at the end of a text hides nothing. -/
def closing? (quote : Char) : List Char → Option (List Char × List Char)
  | [] => none
  | ['\\'] => none
  | '\\' :: c :: cs => (closing? quote cs).map fun (text, rest) => ('\\' :: c :: text, rest)
  | c :: cs =>
    if c = quote then some ([c], cs)
    else (closing? quote cs).map fun (text, rest) => (c :: text, rest)

/-- A character that is no backslash is the quote, or it is gone over. -/
theorem closing?_cons {quote c : Char} (hc : c ≠ '\\') (cs : List Char) :
    closing? quote (c :: cs) = if c = quote then some ([c], cs)
      else (closing? quote cs).map fun (text, rest) => (c :: text, rest) := by
  cases cs <;> simp [closing?, hc]

/-- The plain scanner goes over `cs` as far as `rest`. Texts that it passes over can be put one
behind the other, so a placeholder is passed over part by part. -/
def Passes (quote : Char) (cs rest : List Char) : Prop :=
  closing? quote (cs ++ rest) = (closing? quote rest).map fun (text, rest) => (cs ++ text, rest)

namespace Passes

variable {quote : Char} {cs rest : List Char}

theorem nil (quote : Char) (rest : List Char) : Passes quote [] rest := by
  simp [Passes]

theorem cons {c : Char} (hb : c ≠ '\\') (hq : c ≠ quote) (h : Passes quote cs rest) :
    Passes quote (c :: cs) rest := by
  rw [Passes, List.cons_append, closing?_cons hb, if_neg hq, h, Option.map_map]
  rfl

theorem hidden (c : Char) (h : Passes quote cs rest) : Passes quote ('\\' :: c :: cs) rest := by
  rw [Passes, List.cons_append, List.cons_append, closing?, h, Option.map_map]
  rfl

end Passes

end Lexeme

/-- A quote is none of the signs that a placeholder is made of, and no backslash. -/
theorem QuoteStyle.ne_mark (style : QuoteStyle) {c : Char}
    (h : c ∈ ['\\', '%', '\x7b', '\x7d', '.']) : c ≠ style.mark := by
  rintro rfl
  revert h
  cases style <;> decide

/-- A quote is no word character, so no name goes over it. -/
theorem QuoteStyle.isWord_mark (style : QuoteStyle) : Text.isWord style.mark = false := by
  cases style <;> rfl

namespace Lexeme

variable (style : QuoteStyle)

theorem Passes.word {style : QuoteStyle} {c : Char} (hc : Text.isWord c = true)
    {cs rest : List Char} (h : Passes style.mark cs rest) :
    Passes style.mark (c :: cs) rest := by
  refine .cons ?_ ?_ h
  · rintro rfl
    exact absurd hc (by decide)
  · rintro rfl
    exact absurd hc (by simp [style.isWord_mark])

/-- The braces of a placeholder do not reach over the closing quote. The reader of braces stops at
a quote of the style, and it skips what a backslash hides as the plain scanner does. -/
theorem passes_braced (depth : Nat) (cs : List Char) :
    Passes style.mark (braced style.mark depth cs).1 (braced style.mark depth cs).2 := by
  fun_induction braced style.mark depth cs with
  | case1 => exact .nil _ _
  | case2 => rfl
  | case3 depth c cs inside rest heq ih =>
    rw [heq] at ih
    exact .hidden c ih
  | case4 depth cs inside rest heq h₁ h₂ ih =>
    rw [heq] at ih
    exact .cons (by decide) (style.ne_mark (by simp)) ih
  | case5 => exact .cons (by decide) (style.ne_mark (by simp)) (.nil _ _)
  | case6 cs depth inside rest heq h₁ h₂ hc ih =>
    rw [heq] at ih
    exact .cons (by decide) (style.ne_mark (by simp)) ih
  | case7 => exact .nil _ _
  | case8 depth c cs h₁ h₂ hl hr hq inside rest heq ih =>
    rw [heq] at ih
    exact .cons (ne_backslash h₁ h₂) hq ih

theorem passes_dotted (cs : List Char) :
    Passes style.mark (dotted cs).1 (dotted cs).2 := by
  induction cs with
  | nil => exact .nil _ _
  | cons c cs ih =>
    rw [dotted]
    split <;> rename_i hc
    · rcases Bool.or_eq_true_iff.1 hc with hw | hp
      · exact ih.word hw
      · obtain rfl := beq_iff_eq.1 (Bool.and_eq_true_iff.1 hp).1
        exact ih.cons (by decide) (style.ne_mark (by simp))
    · exact .nil _ _

/-- Whatever stands at a percent sign, the plain scanner passes over it. A doubled sign, a name
and a sign that means nothing hold no quote; braces are the case above. -/
theorem passes_percent (cs : List Char) :
    Passes style.mark (percent style.mark cs).taken (percent style.mark cs).left := by
  have sign {cs rest : List Char} (h : Passes style.mark cs rest) :
      Passes style.mark ('%' :: cs) rest := h.cons (by decide) (style.ne_mark (by simp))
  unfold percent
  split
  · exact sign (sign (.nil _ _))
  · exact sign ((passes_braced style 0 _).cons (by decide) (style.ne_mark (by simp)))
  · split
    · exact sign (passes_dotted style _)
    · exact sign (.nil _ _)
  · exact sign (.nil _ _)

/-- **Placeholders do not change where a quoted text ends.** The induction is along the reader of
quoted texts, and at a percent sign the plain scanner goes over the whole placeholder at once. -/
theorem quotedBody?_closing? (position : Position) (cs : List Char) :
    (quotedBody? style.mark position cs).map (·.2) = closing? style.mark cs := by
  fun_induction quotedBody? style.mark position cs with
  | case1 | case2 => rfl
  | case3 position c cs ih =>
    rw [closing?, ← ih, Option.map_map, Option.map_map]
    rfl
  | case4 position cs sign behind ih =>
    rw [← percent_append style.mark cs, passes_percent style cs, ← ih, Option.map_map,
      Option.map_map]
    rfl
  | case5 position cs h₁ h₂ hp =>
    rw [closing?_cons (style.ne_mark (by simp)).symm, if_pos rfl]
    rfl
  | case6 position c cs h₁ h₂ hp hq ih =>
    rw [closing?_cons (ne_backslash h₁ h₂), if_neg hq, ← ih, Option.map_map, Option.map_map]
    rfl

end Lexeme

/-! ## What a placeholder covers -/

/-- A name, and more names behind points: what a placeholder without braces can hold. -/
def Token.Name.dotted (name : Token.Name) (others : List Token.Name) : List Char :=
  name.chars ++ others.flatMap fun n => '.' :: n.chars

/-- No dotted name goes on into the text: no word character follows, and no point with a name
behind it. -/
structure EndsName (rest : List Char) : Prop where
  word : Apart Text.isWord rest
  point : ∀ c cs, rest = '.' :: c :: cs → isNameStart c = false

theorem EndsName.of_append {cs rest : List Char} (h : EndsName (cs ++ rest)) : EndsName cs where
  word := by
    cases cs with
    | nil => exact nofun
    | cons c cs => exact apart_cons (h.word c rfl) cs
  point c cs he := h.point c (cs ++ rest) (by rw [he]; rfl)

/-- The placeholder covers `taken` in the text `before ++ taken ++ after`, which begins at
`first`. The text behind it matters since a name is as long as it can be, and since a brace that
is not closed may be the first character of what is behind the sign. -/
structure Placeholder.Covers (p : Placeholder) (first : Position) (before taken after : List Char) :
    Prop where
  position : p.position = first.past before
  stop : p.stop = (first.past (before ++ taken)).byte
  sign : ∃ inside, taken = '%' :: inside ∧
    (p.braced = true ↔ (inside ++ after).head? = some '\x7b')
  /-- Without braces it is a dotted name, as long as it can be. -/
  names : p.braced = false →
    ∃ (name : Token.Name) (others : List Token.Name), taken = '%' :: name.dotted others ∧
      EndsName after

/-- The placeholder covers something in `body`, which begins at `first`. -/
def Placeholder.Within (p : Placeholder) (first : Position) (body : List Char) : Prop :=
  ∃ before taken after, body = before ++ taken ++ after ∧ p.Covers first before taken after

namespace Placeholder

theorem Within.behind {p : Placeholder} {first : Position} {body : List Char} (lead : List Char)
    (h : p.Within (first.past lead) body) : p.Within first (lead ++ body) := by
  obtain ⟨before, taken, after, rfl, hc⟩ := h
  refine ⟨lead ++ before, taken, after, by simp only [List.append_assoc], ?_, ?_, hc.sign, hc.names⟩
  · rw [hc.position, Position.past_append]
  · rw [hc.stop, List.append_assoc, Position.past_append first]

theorem Within.le_byte {p : Placeholder} {first : Position} {body : List Char}
    (h : p.Within first body) : first.byte ≤ p.position.byte := by
  obtain ⟨before, taken, after, -, hc⟩ := h
  rw [hc.position, Position.byte_past]
  exact Nat.le_add_right _ _

end Placeholder

namespace Lexeme

/-- A dotted name as it is read from inside its first name: word characters, and names behind
points. The reader goes character by character and does not know where names begin, so the first
piece is a word and not yet a name. -/
theorem dotted_names (cs : List Char) :
    EndsName (dotted cs).2 ∧ ∃ (word : List Char) (names : List Token.Name),
      (dotted cs).1 = word ++ names.flatMap (fun n => '.' :: n.chars) ∧
        word.all Text.isWord = true ∧
          (cs.head?.any isNameStart = true → word.head? = cs.head?) := by
  induction cs with
  | nil => exact ⟨⟨nofun, nofun⟩, [], [], rfl, rfl, nofun⟩
  | cons c cs ih =>
    obtain ⟨hends, word, names, htaken, hword, hhead⟩ := ih
    rw [dotted]
    split <;> rename_i hc
    · refine ⟨hends, ?_⟩
      by_cases hw : Text.isWord c = true
      · exact ⟨c :: word, names, congrArg (c :: ·) htaken, by simp [hw, hword], fun _ => rfl⟩
      · -- A point is taken with the name behind it, whose first character is known.
        obtain ⟨hp, hn⟩ := Bool.and_eq_true_iff.1 ((Bool.or_eq_true_iff.1 hc).resolve_left hw)
        obtain rfl := beq_iff_eq.1 hp
        obtain ⟨d, hd, hstart⟩ := (Option.any_eq_true _ _).1 hn
        obtain ⟨others, rfl⟩ := List.head?_eq_some_iff.1 ((hhead hn).trans hd)
        rw [List.all_cons, Bool.and_eq_true] at hword
        exact ⟨[], ⟨d, others, hstart, hword.2⟩ :: names, congrArg ('.' :: ·) htaken, rfl,
          fun hs => absurd (show isNameStart '.' = true from hs) (by decide)⟩
    · rw [Bool.or_eq_true, not_or] at hc
      refine ⟨⟨apart_cons (Bool.eq_false_iff.2 hc.1) cs, fun d rest he => ?_⟩, [], [], rfl, rfl,
        fun hs => absurd (isWord_of_isNameStart hs) hc.1⟩
      obtain ⟨rfl, rfl⟩ := List.cons.inj he
      exact Bool.eq_false_iff.2 hc.2

/-- What is taken at a percent sign as a placeholder, in front of what is left. -/
theorem covers_percent {quote : Char} {cs body behind : List Char} {isBraced : Bool}
    (h : (percent quote cs).placeholder = some isBraced)
    (hl : (percent quote cs).left = body ++ behind) (position : Position) :
    Placeholder.Covers ⟨position, (position.past (percent quote cs).taken).byte, isBraced⟩ position
      [] (percent quote cs).taken body := by
  cases cs with
  | nil => cases h
  | cons c cs =>
    by_cases hp : c = '%'
    · subst hp
      cases h
    by_cases hb : c = '\x7b'
    · subst hb
      cases h
      exact ⟨rfl, rfl, ⟨_, rfl, fun _ => rfl, fun _ => rfl⟩, nofun⟩
    rw [percent_cons hp hb] at h hl ⊢
    by_cases hc : isNameStart c = true
    · rw [if_pos hc] at h hl ⊢
      cases h
      obtain ⟨hends, word, names, htaken, hword, hhead⟩ := dotted_names (c :: cs)
      obtain ⟨others, rfl⟩ := List.head?_eq_some_iff.1 (hhead hc)
      rw [List.all_cons, Bool.and_eq_true] at hword
      rw [show (dotted (c :: cs)).2 = body ++ behind from hl] at hends
      refine ⟨rfl, rfl, ⟨_, rfl, nofun, fun hh => ?_⟩, fun _ =>
        ⟨⟨c, others, hc, hword.2⟩, names, congrArg ('%' :: ·) htaken, hends.of_append⟩⟩
      rw [htaken] at hh
      exact absurd (Option.some.inj hh) hb
    · rw [if_neg hc] at h
      cases h

/-- The placeholders of a quoted text are in its body, one behind the other. The two are proved
together, since the order of two placeholders follows from where the body of the later ones
begins. -/
theorem quotedBody?_within {quote : Char} {position : Position} {cs : List Char}
    {ps : List Placeholder} {body rest : List Char}
    (h : quotedBody? quote position cs = some (ps, body ++ [quote], rest)) :
    (∀ p ∈ ps, p.Within position body) ∧ ps.Pairwise fun p q => p.stop ≤ q.position.byte := by
  generalize htext : body ++ [quote] = text at h
  fun_induction quotedBody? quote position cs generalizing ps body text rest with
  | case1 | case2 => cases h
  | case3 position c cs ih =>
    obtain ⟨⟨ps, text, rest⟩, inner, heq⟩ := Option.map_eq_some_iff.1 h
    cases heq
    obtain ⟨body', rfl, -⟩ := quotedBody?_spec inner
    obtain rfl : body = '\\' :: c :: body' :=
      List.append_cancel_right (htext : body ++ [quote] = ('\\' :: c :: body') ++ [quote])
    obtain ⟨hps, horder⟩ := ih _ rfl inner
    exact ⟨fun p hp => .behind ['\\', c] (hps p hp), horder⟩
  | case4 position cs sign =>
    rename_i behind ih
    obtain ⟨⟨ps, text, rest⟩, inner, heq⟩ := Option.map_eq_some_iff.1 h
    cases heq
    obtain ⟨body', rfl, -⟩ := quotedBody?_spec inner
    obtain rfl : body = sign.taken ++ body' := by
      rw [← List.append_assoc] at htext
      exact List.append_cancel_right htext
    obtain ⟨hps, horder⟩ := ih _ rfl inner
    have hleft : sign.left = body' ++ (quote :: rest) := by
      rw [← quotedBody?_append inner, List.append_assoc, List.singleton_append]
    constructor
    · intro p hp
      rcases List.mem_append.1 hp with hp | hp
      · obtain ⟨isBraced, hs, rfl⟩ := Option.map_eq_some_iff.1 (Option.mem_toList.1 hp)
        exact ⟨[], sign.taken, body', rfl, covers_percent hs hleft position⟩
      · exact .behind _ (hps p hp)
    · -- A placeholder that is found here ends where the others begin at the earliest.
      refine List.pairwise_append.2 ⟨?_, horder, fun p hp q hq => ?_⟩
      · cases sign.placeholder with
        | none => exact .nil
        | some isBraced => exact List.pairwise_singleton _ _
      · obtain ⟨isBraced, -, rfl⟩ := Option.map_eq_some_iff.1 (Option.mem_toList.1 hp)
        exact (hps q hq).le_byte
  | case5 =>
    cases h
    obtain rfl : body = [] := List.append_cancel_right (htext : body ++ [_] = [] ++ [_])
    exact ⟨List.forall_mem_nil _, .nil⟩
  | case6 position c cs _ _ _ _ ih =>
    obtain ⟨⟨ps, text, rest⟩, inner, heq⟩ := Option.map_eq_some_iff.1 h
    cases heq
    obtain ⟨body', rfl, -⟩ := quotedBody?_spec inner
    obtain rfl : body = c :: body' :=
      List.append_cancel_right (htext : body ++ [quote] = (c :: body') ++ [quote])
    obtain ⟨hps, horder⟩ := ih _ rfl inner
    exact ⟨fun p hp => .behind [c] (hps p hp), horder⟩

theorem scan_mark (preferHex : Bool) (position : Position) (style : QuoteStyle) (cs : List Char) :
    scan preferHex position style.mark cs = quoted style position cs := by
  cases style <;> rfl

end Lexeme

/-! ## A cursor in front of a quote -/

namespace Cursor

/-- **A quoted text ends at the first quote that no backslash hides, whatever its placeholders
are, and without such a quote everything that can be read is invalid.** The placeholders are in
order, apart from each other and between the quotes. The cursor may have any limit, and what is
behind the limit is not seen: `readable` is what is in front of it. -/
theorem step_quote (c : Cursor) (style : QuoteStyle) {cs : List Char}
    (h : c.readable = style.mark :: cs) :
    (∀ text rest, Lexeme.closing? style.mark cs = some (text, rest) →
      ∃ ps body, text = body ++ [style.mark] ∧
        c.step = (some ⟨.quoted style ps, String.ofList (style.mark :: text), c.place⟩,
          { c with place := c.place.past (style.mark :: text) }) ∧
        (∀ p ∈ ps, p.Within (c.place.after style.mark) body) ∧
        ps.Pairwise fun p q => p.stop ≤ q.position.byte) ∧
    (Lexeme.closing? style.mark cs = none →
      c.step = (some ⟨.invalid, String.ofList c.readable, c.place⟩,
        { c with place := c.place.past c.readable })) := by
  have hstep (l : Lexeme) (hl : Lexeme.quoted style c.place cs = l) :
      c.step = (some (l.token c.place), { c with place := c.place.past l.text }) := by
    rw [step, h, Token.read?]
    simp only [Lexeme.scan_mark, hl]
    rw [Token.behind, Lexeme.chars_token]
    rfl
  have hclosing := Lexeme.quotedBody?_closing? style (c.place.after style.mark) cs
  constructor
  · intro text rest hc
    rw [hc] at hclosing
    obtain ⟨⟨ps, text', rest'⟩, hq, heq⟩ := Option.map_eq_some_iff.1 hclosing
    cases heq
    obtain ⟨body, rfl, -⟩ := Lexeme.quotedBody?_spec hq
    obtain ⟨hps, horder⟩ := Lexeme.quotedBody?_within hq
    refine ⟨ps, body, rfl, ?_, hps, horder⟩
    rw [hstep ⟨.quoted style ps, style.mark :: (body ++ [style.mark]), rest⟩
      (by rw [Lexeme.quoted, hq])]
    rfl
  · intro hc
    rw [hc] at hclosing
    rw [hstep ⟨.invalid, style.mark :: cs, []⟩
      (by rw [Lexeme.quoted, Option.map_eq_none_iff.1 hclosing]), h]
    rfl

/-- An open brace does not hide the quote behind it, and the limit cuts off what follows. -/
theorem step_quote_openBrace :
    let c : Cursor := { ofSource "\x22%a.b%\x7bc\x22d\x22" with limit := some 10 }
    c.readable = QuoteStyle.double.mark :: "%a.b%\x7bc\x22d".toList ∧
      ∃ ps body, "%a.b%\x7bc\x22".toList = body ++ [QuoteStyle.double.mark] ∧
        c.step = (some ⟨.quoted .double ps, "\x22%a.b%\x7bc\x22", c.place⟩,
          { c with place := ⟨1, 10, 9⟩ }) ∧
        (∀ p ∈ ps, p.Within (c.place.after QuoteStyle.double.mark) body) ∧
        ps.Pairwise fun p q => p.stop ≤ q.position.byte := by
  have h : { ofSource "\x22%a.b%\x7bc\x22d\x22" with limit := some 10 : Cursor }.readable =
      QuoteStyle.double.mark :: "%a.b%\x7bc\x22d".toList := by decide
  exact ⟨h, (step_quote _ _ h).1 _ ['d'] (by decide)⟩

end Cursor

end Heddle
