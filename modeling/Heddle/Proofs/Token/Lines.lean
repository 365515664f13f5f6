import Mathlib
import Heddle.Proofs.Document.Composition
import Heddle.Proofs.Token.Clipped

/-!
# One token on each line

Texts that are one token each are put together with line feeds between them. A line feed ends every
token: a line comment because it does, a word, a number and a mark because a blank does, and a
quoted text, a block comment or a block of another language because it has ended before, whatever
follows. That goes for blocks too, whose closing tags are looked for in all of the text: the tag of
a block that is a token by itself is in the block. **So cutting the lines gives back the tokens**
(`tokenize_lines`), each of them moved to its line.
-/

set_option autoImplicit false

namespace Heddle

open Text

/-! ## Tokens that end a line -/

namespace Lexeme

variable {cs : List Char} {more : List Char}

/-- A literal that ends is the same in front of anything. -/
theorem Again.alone {reader : List Char → Lexeme} {c : Char} (h : Again reader (reader cs))
    (hcut : (reader cs).Cuts (c :: cs)) (hr : (reader cs).rest = []) (more : List Char) :
    reader (cs ++ more) = (reader cs).extend more := by
  obtain ⟨d, text, htext, hagain⟩ := h
  rw [Cuts, htext, hr, List.append_nil] at hcut
  obtain rfl : text = cs := (List.cons.inj hcut).2
  rw [hagain, extend, hr, List.nil_append]

/-- What a slash begins ends with the line, or it is a comment that has ended before. -/
theorem slash_line (hr : (slash cs).rest = []) (hk : (slash cs).kind ≠ .invalid) :
    slash (cs ++ '\n' :: more) = (slash cs).extend ('\n' :: more) := by
  rcases slash_cases cs with ⟨ds, rfl⟩ | ⟨ds, rfl⟩ | ha
  · have hline : ∀ c ∈ ('\n' :: more).head?, (c != '\n') = false := by
      intro c hc
      cases hc
      rfl
    obtain ⟨ht, hd⟩ := span_stops hline ds
    rw [List.cons_append, slash, slash, ht, hd]
    rfl
  · exact (blockComment_again hk).alone (cuts_slash _) hr _
  · have hplain {cs : List Char} (h : Apart (Token.isLonger .slash) cs) :
        slash cs = ⟨.mark .slash, ['/'], cs⟩ := Token.slash_slash h
    rw [hplain ha] at hr ⊢
    obtain rfl : cs = [] := hr
    exact hplain (apart_cons (by decide) more)

/-- What `<` begins. A block that is all of a text holds its closing tag, so what follows is not
searched. -/
theorem angle_line (hr : (angle cs).rest = []) :
    angle (cs ++ '\n' :: more) = (angle cs).extend ('\n' :: more) := by
  cases hf : foreign? cs with
  | some l =>
    refine Again.alone ?_ (cuts_angle cs) hr _
    rw [angle_of_foreign? hf]
    exact foreign_again hf
  | none =>
    by_cases hc : cs.head? = some '='
    · obtain ⟨ds, rfl⟩ := List.head?_eq_some_iff.1 hc
      exact angle_equals _
    · rw [angle_of_none hf hc] at hr ⊢
      obtain rfl : cs = [] := hr
      exact angle_of_none (foreign?_of_no_tag (.inl rfl)) nofun

/-- **A token that is all of a text is the same in front of a line feed.** Blanks are left out,
since they go on with a line feed, and so is what is invalid: a literal that does not end would go
on. -/
theorem scan_line {position : Position} {c : Char} (hr : (scan false position c cs).rest = [])
    (hb : (scan false position c cs).kind ≠ .blank)
    (hk : (scan false position c cs).kind ≠ .invalid) :
    scan false position c (cs ++ '\n' :: more) =
      (scan false position c cs).extend ('\n' :: more) := by
  have hstops : Stops ('\n' :: more) := stops_of_isSeal (by decide) more
  revert hr hb hk
  apply scan_alike (R := fun l l' => l.rest = [] → l.kind ≠ .blank → l.kind ≠ .invalid →
    l' = l.extend ('\n' :: more))
  case hblank => exact fun _ _ hb _ => absurd rfl hb
  case hhex => exact fun hhex => absurd hhex Bool.false_ne_true
  case hword => exact fun _ _ _ _ => word_stops hstops (c :: cs)
  case hnumber => exact fun _ _ _ _ => number_stops hstops (c :: cs)
  case hquoted =>
    exact fun style _ hr _ hk => (quoted_again hk).alone (cuts_quoted style position cs) hr _
  case hraw => exact fun _ hr _ hk => (raw_again hk).alone (cuts_raw cs) hr _
  case hslash => exact fun _ hr _ hk => slash_line hr hk
  case hangle => exact fun _ hr _ _ => angle_line hr
  case hpoints => exact fun _ _ _ _ => points_stops hstops cs
  case hoperator => exact fun _ _ _ => operator_stops hstops c cs

end Lexeme

/-! ## Tokens on lines of their own -/

/-- The move that takes the beginning of a source to the place `p`. Lines and columns count from
1, so the beginning of a source is moved by one less than the place says. -/
def Shift.onto (p : Position) : Shift := ⟨p.line - 1, p.column - 1, p.byte⟩

theorem Position.origin_shift_onto {p : Position} (hl : 1 ≤ p.line) (hc : 1 ≤ p.column) :
    origin.shift (.onto p) = p := by
  obtain ⟨line, column, byte⟩ := p
  simp only at hl hc
  simp only [shift, Shift.onto, Shift.column, origin, mk.injEq, if_true, Nat.zero_add, and_true]
  omega

namespace Token

/-- The token is all of its text, and it is no blank and not invalid. It stands at the beginning
of a source, so its own place says nothing. -/
structure Alone (t : Token) : Prop where
  tokens : tokenize t.text = [t]
  kind_ne_blank : t.kind ≠ .blank
  kind_ne_invalid : t.kind ≠ .invalid

/-- Tokens from the place `p` on, with a line feed between each two. The tokens are moved, not cut
again: this is what cutting the lines is compared with. -/
def onLines : Position → List Token → List Token
  | _, [] => []
  | p, [t] => [t.shift (.onto p)]
  | p, t :: u :: ts =>
    let first := t.shift (.onto p)
    first :: ⟨.blank, "\n", first.behind⟩ :: onLines (first.behind.after '\n') (u :: ts)

namespace Alone

variable {t : Token} {p : Position}

/-- A byte order mark would be in the text and not in the token. -/
theorem head_ne (h : t.Alone) : t.text.toList.head? ≠ some '\uFEFF' := by
  intro hm
  obtain ⟨cs, hcs⟩ := List.head?_eq_some_iff.1 hm
  have hspell := spell_readAll (openSource t.text).1 (openSource t.text).2
  change spell (tokenize t.text) = _ at hspell
  rw [h.tokens, openSource, hcs, spell_cons, spell_nil, List.append_nil, chars, hcs] at hspell
  exact absurd (congrArg List.length hspell) (by simp)

/-- The tokens of the text, character by character. -/
theorem readAll (h : t.Alone) : Token.readAll .origin t.chars = [t] := by
  have ht := h.tokens
  rw [tokenize, openSource_of_ne h.head_ne] at ht
  exact ht

/-- A token that is no blank does not begin with one. -/
theorem apart (h : t.Alone) (more : List Char) : Apart isBlank (t.chars ++ more) := by
  obtain ⟨c, cs, hchars, ht⟩ := exists_scan h.readAll
  rw [hchars]
  refine apart_cons (Bool.eq_false_iff.2 fun hc => h.kind_ne_blank ?_) _
  rw [ht, Lexeme.scan, if_pos hc]
  rfl

/-- In front of a line feed the text is the same token, and behind it the rest is cut. -/
theorem readAll_line (h : t.Alone) (more : List Char) :
    Token.readAll .origin (t.chars ++ '\n' :: more) =
      t :: Token.readAll t.behind ('\n' :: more) := by
  have hread := h.readAll
  obtain ⟨c, cs, hchars, ht⟩ := exists_scan hread
  rw [hchars, readAll_cons] at hread
  have hrest : (Lexeme.scan false .origin c cs).rest = [] :=
    readAll_eq_nil (List.cons.inj hread).2
  have hscan : Lexeme.scan false .origin c (cs ++ '\n' :: more) =
      (Lexeme.scan false .origin c cs).extend ('\n' :: more) := Lexeme.scan_line hrest
    (fun hk => h.kind_ne_blank (by rw [ht]; exact hk))
    (fun hk => h.kind_ne_invalid (by rw [ht]; exact hk))
  rw [hchars, List.cons_append, readAll_cons, hscan, behind, ht, Lexeme.chars_token,
    Lexeme.extend, hrest]
  rfl

/-- The same at another place. -/
theorem readAll_moved (h : t.Alone) (hl : 1 ≤ p.line) (hc : 1 ≤ p.column) :
    Token.readAll p t.chars = [t.shift (.onto p)] := by
  have hmoved := readAll_shift (.onto p) (p := .origin) (Nat.le_refl 1) t.chars
  rwa [Position.origin_shift_onto hl hc, h.readAll] at hmoved

theorem readAll_line_moved (h : t.Alone) (hl : 1 ≤ p.line) (hc : 1 ≤ p.column)
    (more : List Char) : Token.readAll p (t.chars ++ '\n' :: more) =
      t.shift (.onto p) :: Token.readAll (t.shift (.onto p)).behind ('\n' :: more) := by
  have hmoved := readAll_shift (.onto p) (p := .origin) (Nat.le_refl 1) (t.chars ++ '\n' :: more)
  rw [Position.origin_shift_onto hl hc, h.readAll_line, List.map_cons] at hmoved
  have hp : t.position = .origin := (readAll_eq_cons h.readAll).1
  have hline : 1 ≤ t.behind.line := by
    rw [behind, hp]
    exact Position.line_le_past .origin t.chars
  have hbehind : t.behind.shift (.onto p) = (t.shift (.onto p)).behind := by
    rw [behind, hp, ← Position.past_shift _ (Nat.le_refl 1), ← hp]
    rfl
  rw [hmoved, ← readAll_shift _ hline, hbehind]

end Alone

/-- The first line begins with its token. -/
theorem exists_lines (t : Token) (ts : List Token) :
    ∃ more, ("\n".intercalate ((t :: ts).map (·.text))).toList = t.chars ++ more := by
  cases ts with
  | nil => exact ⟨[], by simp [chars]⟩
  | cons u ts =>
    refine ⟨'\n' :: ("\n".intercalate ((u :: ts).map (·.text))).toList, ?_⟩
    rw [List.map_cons, List.map_cons, String.intercalate_cons_cons, ← List.map_cons,
      String.toList_append, String.toList_append, List.append_assoc]
    rfl

/-- A line feed is a blank of its own in front of a token that is none. -/
theorem readAll_lineFeed {p : Position} {more : List Char} (h : Apart isBlank more) :
    readAll p ('\n' :: more) = ⟨.blank, "\n", p⟩ :: readAll (p.after '\n') more :=
  leads_blanks ⟨['\n'], nofun, by decide⟩ h p

/-- The text of tokens with line feeds between them. The induction is on the tokens, with the
place of the line as it goes on; the last one stands at the end of the text. -/
theorem readAll_onLines {ts : List Token} (h : ∀ t ∈ ts, t.Alone) {p : Position}
    (hl : 1 ≤ p.line) (hc : 1 ≤ p.column) :
    readAll p ("\n".intercalate (ts.map (·.text))).toList = onLines p ts := by
  fun_induction onLines p ts with
  | case1 p => exact readAll_nil p
  | case2 p t =>
    rw [List.map_singleton, String.intercalate_singleton]
    exact (h t List.mem_cons_self).readAll_moved hl hc
  | case3 p t u ts first ih =>
    have ht := h t List.mem_cons_self
    have hus : ∀ t ∈ u :: ts, t.Alone := fun t ht => h t (List.mem_cons_of_mem _ ht)
    have hbehind : 1 ≤ (first.behind.after '\n').line := Nat.succ_pos _
    obtain ⟨more, hmore⟩ := exists_lines u ts
    have ha : Apart isBlank ("\n".intercalate ((u :: ts).map (·.text))).toList :=
      hmore ▸ (hus u List.mem_cons_self).apart more
    rw [← ih hus hbehind (Nat.le_refl 1), ← readAll_lineFeed ha, ← ht.readAll_line_moved hl hc,
      List.map_cons, List.map_cons, String.intercalate_cons_cons, ← List.map_cons,
      String.toList_append, String.toList_append, List.append_assoc]
    rfl

end Token

/-- **Cutting lines of one token each gives back the tokens**, moved to their lines, and a blank for
each line feed. -/
theorem tokenize_lines {ts : List Token} (h : ∀ t ∈ ts, t.Alone) :
    tokenize ("\n".intercalate (ts.map (·.text))) = Token.onLines .origin ts := by
  have hsource : openSource ("\n".intercalate (ts.map (·.text))) =
      (.origin, ("\n".intercalate (ts.map (·.text))).toList) := by
    refine openSource_of_ne ?_
    cases ts with
    | nil => exact nofun
    | cons t ts =>
      have ht := h t List.mem_cons_self
      obtain ⟨more, hmore⟩ := Token.exists_lines t ts
      obtain ⟨c, cs, hchars, -⟩ := Token.exists_scan ht.readAll
      have hm := ht.head_ne
      rw [← Token.chars, hchars] at hm
      rw [hmore, hchars]
      exact hm
  rw [tokenize, hsource]
  exact Token.readAll_onLines h (Nat.le_refl 1) (Nat.le_refl 1)

/-- The comment hides nothing, the block ends where it did, and the placeholder is on its line. -/
theorem tokenize_lines_literals :
    (∀ t ∈ [(⟨.lineComment, "//", .origin⟩ : Token), ⟨.foreign "js", "<js>\n</js>", .origin⟩,
      ⟨.quoted .double [⟨⟨1, 2, 1⟩, 5, true⟩], "\"%\x7ba\x7d\"", .origin⟩], t.Alone) ∧
    tokenize "//\n<js>\n</js>\n\"%\x7ba\x7d\"" =
      [⟨.lineComment, "//", .origin⟩, ⟨.blank, "\n", ⟨1, 3, 2⟩⟩,
        ⟨.foreign "js", "<js>\n</js>", ⟨2, 1, 3⟩⟩, ⟨.blank, "\n", ⟨3, 6, 13⟩⟩,
        ⟨.quoted .double [⟨⟨4, 2, 15⟩, 19, true⟩], "\"%\x7ba\x7d\"", ⟨4, 1, 14⟩⟩] := by
  have h : ∀ t ∈ [(⟨.lineComment, "//", .origin⟩ : Token),
      ⟨.foreign "js", "<js>\n</js>", .origin⟩,
      ⟨.quoted .double [⟨⟨1, 2, 1⟩, 5, true⟩], "\"%\x7ba\x7d\"", .origin⟩], t.Alone := by
    simp only [List.forall_mem_cons, List.not_mem_nil, false_imp_iff, implies_true, and_true]
    exact ⟨⟨by cbv, by decide, by decide⟩, ⟨by cbv, by decide, by decide⟩,
      ⟨by cbv, by decide, by decide⟩⟩
  refine ⟨h, ?_⟩
  have hlines := tokenize_lines h
  exact hlines

end Heddle
