import Heddle.Proofs.Token.Exchange
import Heddle.Proofs.Token.Fillings
import Heddle.Proofs.Token.Quotes

/-!
# What the texts of tokens look like

The kind of a token is decided by a reader, and users of tokens read the text again under the
assumption that it looks as the kind says: the digits of a number are parsed, the quotes of a text
are cut off, the language of an embedded block is looked up. `TokenKind.Describes` writes this down
kind by kind, as a set of texts and without any reader. It also says what can not stand behind the
text, where the kind decides that: a name, a run of blanks and a line comment go as far as they can.
**Every token that a cursor takes is described by its kind** (`Cursor.take_describes`).
-/

set_option autoImplicit false

namespace Heddle

open Text

/-! ## Kinds as sets of texts -/

/-- A literal that goes on to the end of what can be read: a quote that no other one closes, a back
quote, or the opening of a comment. -/
inductive Unclosed : List Char → Prop where
  | quoted (style : QuoteStyle) {cs : List Char} (h : Lexeme.closing? style.mark cs = none) :
      Unclosed (style.mark :: cs)
  | rawText {cs : List Char} (h : '\x60' ∉ cs) : Unclosed ('\x60' :: cs)
  | comment {cs : List Char} (h : ¬ ['*', '/'] <:+: cs) : Unclosed ('/' :: '*' :: cs)

namespace TokenKind

/-- A token of the kind can have this text in front of `rest`, if hexadecimal digits are preferred
or not. The preference is asked for by numbers only: without it a hexadecimal number has its sign.
Of a quoted text its end is said by the plain scan, and its placeholders are described in
`Heddle.Proofs.Token.Quotes`. -/
def Describes (preferHex : Bool) (text rest : List Char) : TokenKind → Prop
  | mark m => text = m.spelling.toList
  | blank => (∃ run : Run isBlank, text = run.chars) ∧ Apart isBlank rest
  | word => (∃ name : Token.Name, text = name.chars) ∧ Apart Text.isWord rest
  | number form => ∃ n : Token.Numeral isDigit, text = n.chars ∧ n.form = form
  | hexNumber form =>
    (form = .integer ∧ ∃ (x : Char) (digits : Run isHexDigit), (x = 'x' ∨ x = 'X') ∧
      text = '0' :: x :: digits.chars) ∨
    (preferHex = true ∧ ∃ n : Token.Numeral isHexDigit, text = n.chars ∧ n.form = form)
  | quoted style _ => ∃ cs, text = style.mark :: cs ∧
    Lexeme.closing? style.mark (cs ++ rest) = some (cs, rest)
  | rawText => ∃ cs, text = '\x60' :: (cs ++ ['\x60']) ∧ '\x60' ∉ cs
  | lineComment => ∃ cs, text = '/' :: '/' :: cs ∧ '\n' ∉ cs ∧ Apart (· != '\n') rest
  | blockComment => ∃ body, text = '/' :: '*' :: (body ++ ['*', '/']) ∧
    ¬ ['*', '/'] <:+: body ++ ['*']
  | foreign language => ∃ (name : Run isAsciiLetter) (body : List Char),
    language = String.ofList name.chars ∧
      text = '<' :: name.chars ++ '>' :: body ++ ('<' :: '/' :: (name.chars ++ ['>'])) ∧
      ¬ '<' :: '/' :: (name.chars ++ ['>']) <:+: body
  | invalid => (∃ c, text = [c]) ∨ (Unclosed text ∧ rest = [])

end TokenKind

/-- The kind of the lexeme describes it. Each reader below has a lemma that says so of what it
reads, and `described_scan` puts them together. -/
def Lexeme.Described (preferHex : Bool) (l : Lexeme) : Prop :=
  l.kind.Describes preferHex l.text l.rest

/-! ## Readers -/

/-- A run of characters of a class goes as far as it can. -/
theorem Text.apart_dropWhile (p : Char → Bool) (cs : List Char) : Apart p (cs.dropWhile p) := by
  intro c hc
  have h := List.head?_dropWhile_not p cs
  rw [hc] at h
  simpa using h

/-- The characters of a class that a text begins with. -/
def Text.Run.leading {p : Char → Bool} {c : Char} (h : p c = true) (cs : List Char) : Run p :=
  ⟨(c :: cs).takeWhile p, by simp [h], List.all_takeWhile⟩

namespace Lexeme

variable {preferHex : Bool} {c : Char}

/-- Blanks are a run of blanks. -/
theorem described_run_blank (h : isBlank c = true) (cs : List Char) :
    (run .blank isBlank (c :: cs)).Described preferHex :=
  ⟨⟨.leading h cs, rfl⟩, apart_dropWhile isBlank _⟩

/-- A word is a name, since it begins with a letter or an underscore. -/
theorem described_word (h : isNameStart c = true) (cs : List Char) :
    (word (c :: cs)).Described preferHex := by
  refine ⟨⟨⟨c, cs.takeWhile Text.isWord, h, List.all_takeWhile⟩, ?_⟩, apart_dropWhile _ _⟩
  rw [word, run, List.takeWhile_cons_of_pos (isWord_of_isNameStart h)]
  rfl

/-! ### Numbers -/

/-- A fraction is a point and a run of digits, or nothing. -/
theorem fraction_part (digit : Char → Bool) (cs : List Char) :
    ∃ part : Option (Run digit),
      (fraction digit cs).1 = (part.map fun ds => '.' :: ds.chars).getD [] := by
  unfold fraction
  split
  · split <;> rename_i hd
    · exact ⟨some (.leading hd _), rfl⟩
    · exact ⟨none, rfl⟩
  · exact ⟨none, rfl⟩

/-- What is read as a numeral is one, if it begins with a digit. Its form is read off its parts.
-/
theorem numeral_spelled (kind : NumberForm → TokenKind) {digit : Char → Bool}
    (h : digit c = true) (cs : List Char) :
    ∃ n : Token.Numeral digit, (numeral kind digit (c :: cs)).text = n.chars ∧
      (numeral kind digit (c :: cs)).kind = kind n.form := by
  obtain ⟨part, hpart⟩ := fraction_part digit ((c :: cs).dropWhile digit)
  unfold numeral
  simp only
  split
  · exact ⟨⟨.leading h cs, part, true⟩, by rw [hpart, List.append_assoc]; rfl, rfl⟩
  · refine ⟨⟨.leading h cs, part, false⟩, ?_, ?_⟩
    · rw [hpart]
      exact congrArg _ (List.append_nil _).symm
    · rw [hpart]
      cases part <;> rfl

/-- The sign of a hexadecimal number is one of two, and a digit follows it. -/
theorem hexSign?_spec {cs sign digits : List Char} (h : hexSign? cs = some (sign, digits)) :
    ∃ x d ds, (x = 'x' ∨ x = 'X') ∧ sign = ['0', x] ∧ digits = d :: ds ∧ isHexDigit d = true := by
  unfold hexSign? at h
  split at h
  · rename_i x d ds
    split at h <;> rename_i hx
    · cases h
      simp only [Bool.and_eq_true, Bool.or_eq_true, beq_iff_eq] at hx
      exact ⟨x, d, ds, hx.1, rfl, rfl, hx.2⟩
    · cases h
  · cases h

theorem described_number (h : isDigit c = true) (cs : List Char) :
    (number (c :: cs)).Described preferHex := by
  unfold number
  split <;> rename_i hs
  · obtain ⟨x, d, ds, hx, rfl, rfl, hd⟩ := hexSign?_spec hs
    exact .inl ⟨rfl, x, .leading hd ds, hx, rfl⟩
  · obtain ⟨n, htext, hkind⟩ := numeral_spelled .number h cs
    rw [Described, hkind]
    exact ⟨n, htext, rfl⟩

/-- A run that no word character refuses begins with a hexadecimal digit. It begins with a letter
or a digit by the choice of the reader; a letter that is no hexadecimal digit would be refused by
itself. -/
theorem isHexDigit_of_hexRun (h : isNameStart c = true ∨ isDigit c = true) {cs : List Char}
    (hw : ¬ (fraction isHexDigit ((c :: cs).dropWhile isHexDigit)).2.head?.any Text.isWord = true) :
    isHexDigit c = true := by
  by_contra hn
  -- Otherwise no digit is taken, and the word character `c` refuses the reading.
  have hloose : Text.isWord c = true := h.elim isWord_of_isNameStart isWord_of_isDigit
  have hpoint : c ≠ '.' := by
    rintro rfl
    exact absurd hloose (by decide)
  have hnone : fraction isHexDigit (c :: cs) = ([], c :: cs) := by
    unfold fraction
    split
    · rename_i heq
      exact absurd (List.cons.inj heq).1 hpoint
    · rfl
  rw [List.dropWhile_cons_of_neg hn, hnone] at hw
  exact hw hloose

/-- A run that hexadecimal digits are preferred for begins with one, or is read as usual. -/
theorem described_hexRun (h : isNameStart c = true ∨ isDigit c = true) (cs : List Char) :
    (hexRun (c :: cs)).Described true := by
  unfold hexRun
  simp only
  split <;> rename_i hw
  · split <;> rename_i hd
    · exact described_number hd cs
    · exact described_word (h.resolve_right hd) cs
  · obtain ⟨n, htext, hkind⟩ := numeral_spelled .hexNumber (isHexDigit_of_hexRun h hw) cs
    rw [Described, hkind]
    exact .inr ⟨rfl, n, htext, rfl⟩

/-! ### Literals between two ends -/

/-- A quoted text is described by the plain scan for its quote, and without a quote it is invalid.
-/
theorem described_quoted (style : QuoteStyle) (position : Position) (cs : List Char) :
    (quoted style position cs).Described preferHex := by
  have hclosing := quotedBody?_closing? style (position.after style.mark) cs
  unfold quoted
  split <;> rename_i hq
  · rw [hq] at hclosing
    rename_i text rest
    refine ⟨text, rfl, ?_⟩
    rw [quotedBody?_append hq]
    exact hclosing.symm
  · rw [hq] at hclosing
    exact .inr ⟨.quoted style hclosing.symm, rfl⟩

/-- A raw text ends at the first back quote. -/
theorem rawBody?_spec {cs text rest : List Char} (h : rawBody? cs = some (text, rest)) :
    ∃ body, text = body ++ ['\x60'] ∧ '\x60' ∉ body := by
  induction cs generalizing text rest with
  | nil => cases h
  | cons c cs ih =>
    rw [rawBody?] at h
    split at h <;> rename_i hc
    · cases h
      exact ⟨[], by rw [hc]; rfl, List.not_mem_nil⟩
    · obtain ⟨⟨text', rest'⟩, inner, heq⟩ := Option.map_eq_some_iff.1 h
      cases heq
      obtain ⟨body, rfl, hb⟩ := ih inner
      exact ⟨c :: body, rfl, List.not_mem_cons_of_ne_of_not_mem (Ne.symm hc) hb⟩

/-- A raw text that does not end has no back quote. -/
theorem not_mem_of_rawBody? {cs : List Char} (h : rawBody? cs = none) : '\x60' ∉ cs := by
  induction cs with
  | nil => exact List.not_mem_nil
  | cons c cs ih =>
    rw [rawBody?] at h
    split at h <;> rename_i hc
    · cases h
    · exact List.not_mem_cons_of_ne_of_not_mem (Ne.symm hc) (ih (Option.map_eq_none_iff.1 h))

/-- A raw text goes to the first back quote, and without one it is invalid. -/
theorem described_raw (cs : List Char) : (raw cs).Described preferHex := by
  unfold raw
  split <;> rename_i hr
  · obtain ⟨body, rfl, hb⟩ := rawBody?_spec hr
    exact ⟨body, rfl, hb⟩
  · exact .inr ⟨.rawText (not_mem_of_rawBody? hr), rfl⟩

/-- A comment ends at the first closing sign, even if it shares its star with what is in front.
That the sign is the first one is said of the body with the star behind it: a sign found there
would begin earlier. -/
theorem commentBody?_spec {cs text rest : List Char} (h : commentBody? cs = some (text, rest)) :
    ∃ body, text = body ++ ['*', '/'] ∧ ¬ ['*', '/'] <:+: body ++ ['*'] := by
  fun_induction commentBody? cs generalizing text rest with
  | case1 => cases h
  | case2 =>
    cases h
    exact ⟨[], rfl, by decide⟩
  | case3 c cs hc ih =>
    obtain ⟨⟨text', rest'⟩, inner, heq⟩ := Option.map_eq_some_iff.1 h
    cases heq
    obtain ⟨body, rfl, hb⟩ := ih inner
    refine ⟨c :: body, rfl, fun hin => ?_⟩
    rcases List.infix_cons_iff.1 hin with ⟨tail, ht⟩ | hp
    · obtain ⟨hstar, htail⟩ := List.cons.inj ht
      have hcs := commentBody?_append inner
      cases body with
      | nil => cases htail
      | cons d body =>
        have hd : '/' = d := (List.cons.inj htail).1
        exact hc _ hstar.symm (by rw [← hcs, ← hd]; rfl)
    · exact hb hp

/-- A comment that does not end has no closing sign. -/
theorem not_infix_of_commentBody? {cs : List Char} (h : commentBody? cs = none) :
    ¬ ['*', '/'] <:+: cs := by
  fun_induction commentBody? cs with
  | case1 => decide
  | case2 => cases h
  | case3 c cs hc ih =>
    intro hin
    rcases List.infix_cons_iff.1 hin with ⟨tail, ht⟩ | hp
    · obtain ⟨rfl, rfl⟩ := List.cons.inj ht
      exact hc tail rfl rfl
    · exact ih (Option.map_eq_none_iff.1 h) hp

/-- What a slash begins: one of two comments, or a mark. -/
theorem described_slash (cs : List Char) : (slash cs).Described preferHex := by
  unfold slash
  split
  · rename_i cs
    refine ⟨cs.takeWhile (· != '\n'), rfl, fun hm => ?_, apart_dropWhile _ _⟩
    exact absurd (List.mem_takeWhile_imp hm) (by decide)
  · split <;> rename_i hc
    · obtain ⟨body, rfl, hb⟩ := commentBody?_spec hc
      exact ⟨body, rfl, hb⟩
    · exact .inr ⟨.comment (not_infix_of_commentBody? hc), rfl⟩
  · rfl

/-! ### Embedded blocks -/

/-- A tag that is found is not in what stands in front of it. It may begin there, together with
its own characters, but not end there. -/
theorem throughTag?_first {tag cs text rest : List Char} (hn : tag ≠ [])
    (h : throughTag? tag cs = some (text, rest)) :
    ∃ content, text = content ++ tag ∧ ¬ tag <:+: content := by
  induction cs generalizing text rest with
  | nil =>
    rw [throughTag?, if_neg (by simpa using hn)] at h
    cases h
  | cons c cs ih =>
    rw [throughTag?] at h
    split at h <;> rename_i hp
    · cases h
      exact ⟨[], rfl, by simpa using hn⟩
    · obtain ⟨⟨text', rest'⟩, inner, heq⟩ := Option.map_eq_some_iff.1 h
      cases heq
      obtain ⟨content, rfl, hc⟩ := ih inner
      refine ⟨c :: content, rfl, fun hin => ?_⟩
      rcases List.infix_cons_iff.1 hin with hpre | hin
      · refine hp (List.isPrefixOf_iff_prefix.2 (hpre.trans ?_))
        rw [← throughTag?_append inner, List.append_assoc]
        exact List.prefix_append (c :: content) _
      · exact hc hin

/-- An embedded block goes to its first closing tag. -/
theorem described_foreign? {cs : List Char} {l : Lexeme} (h : foreign? cs = some l) :
    l.Described preferHex := by
  unfold foreign? at h
  simp only at h
  split at h
  · rename_i body hname hbody
    obtain ⟨⟨text, rest⟩, through, rfl⟩ := Option.map_eq_some_iff.1 h
    obtain ⟨content, rfl, hc⟩ := throughTag?_first (by simp) through
    refine ⟨⟨cs.takeWhile isAsciiLetter, by simpa using hname, List.all_takeWhile⟩, content, rfl,
      ?_, hc⟩
    simp
  · cases h

/-- What `<` begins: a block, or a mark. -/
theorem described_angle (cs : List Char) : (angle cs).Described preferHex := by
  unfold angle
  split <;> rename_i hf
  · exact described_foreign? hf
  · split
    · rfl
    · rfl

/-! ### Marks -/

/-- One, two or three points. -/
theorem described_points (cs : List Char) : (points cs).Described preferHex := by
  unfold points
  split
  · rfl
  · rfl
  · rfl

/-- Any other sign that stands for itself; one that means nothing is invalid. -/
theorem described_single (c : Char) (cs : List Char) : (single c cs).Described preferHex := by
  unfold single
  cases hm : singleMark? c with
  | none => exact .inl ⟨c, rfl⟩
  | some m =>
    unfold singleMark? at hm
    split at hm <;> cases hm <;> rfl

/-- A sign with or without a second one behind it. -/
theorem described_operator (c : Char) (cs : List Char) : (operator c cs).Described preferHex := by
  unfold operator
  split
  · exact described_single c []
  · split <;> rename_i hm
    · unfold pairMark? at hm
      split at hm <;> cases hm <;> rfl
    · exact described_single c _

/-- Every token is described by its kind. The cases are the ten readers. -/
theorem described_scan (preferHex : Bool) (position : Position) (c : Char) (cs : List Char) :
    (scan preferHex position c cs).Described preferHex := by
  apply scan_cases (P := fun l => l.Described preferHex)
  case hblank => exact fun h => described_run_blank h cs
  case hhex =>
    rintro rfl h
    exact described_hexRun h cs
  case hword => exact fun h => described_word h cs
  case hnumber => exact fun h => described_number h cs
  case hquoted => exact fun style _ => described_quoted style position cs
  case hraw => exact fun _ => described_raw cs
  case hslash => exact fun _ => described_slash cs
  case hangle => exact fun _ => described_angle cs
  case hpoints => exact fun _ => described_points cs
  case hoperator => exact described_operator c cs

end Lexeme

/-! ## Tokens that a cursor takes -/

/-- The first token of a text, in front of what follows it. Recovery and colors read single
tokens, and get their descriptions from here. -/
theorem Token.read?_describes {preferHex : Bool} {p : Position} {cs rest : List Char} {t : Token}
    (h : Token.read? preferHex p cs = some (t, rest)) :
    t.kind.Describes preferHex t.chars rest := by
  cases cs with
  | nil => cases h
  | cons c cs =>
    cases h
    rw [Lexeme.chars_token]
    exact Lexeme.described_scan preferHex p c cs

namespace Cursor

/-- A token is taken from the front of what can be read: the source from the place of the cursor
up to its limit. -/
theorem read?_of_take {c after : Cursor} {t : Token} (h : c.take = .ok (some t, after)) :
    ∃ rest, Token.read? c.preferHex c.place c.readable = some (t, rest) := by
  rw [take] at h
  split at h
  · cases h
  · split at h <;> rename_i hs
    · cases h
      rw [step] at hs
      split at hs <;> rename_i hr
      · cases hs
        exact ⟨_, hr⟩
      · cases hs
    · cases h

/-- **The text of every token belongs to its kind**, whatever the limit of the cursor and its
preference for digits. -/
theorem take_describes {c after : Cursor} {t : Token} (h : c.take = .ok (some t, after)) :
    ∃ rest, c.readable = t.chars ++ rest ∧ t.kind.Describes c.preferHex t.chars rest := by
  obtain ⟨rest, hr⟩ := read?_of_take h
  exact ⟨rest, (Token.read?_eq_some hr).2.2, Token.read?_describes hr⟩

/-- A letter behind the digits makes a hexadecimal reading fall back to the usual number. -/
theorem take_describes_fallback :
    let c : Cursor := { ofSource "0xg" with preferHex := true }
    c.take = .ok (some ⟨.number .integer, "0", c.place⟩,
      { c with place := ⟨1, 2, 1⟩, previous := some c.place }) ∧
    ∃ rest, c.readable = ['0'] ++ rest ∧
      (TokenKind.number .integer).Describes true ['0'] rest := by
  have h : { ofSource "0xg" with preferHex := true : Cursor }.take =
      .ok (some ⟨.number .integer, "0", .origin⟩,
        { ofSource "0xg" with
          preferHex := true, place := ⟨1, 2, 1⟩, previous := some .origin : Cursor }) := by
    rfl
  exact ⟨h, take_describes h⟩

end Cursor

end Heddle
