import Heddle.Token.Stream

/-!
# The pieces of a token

Two kinds of tokens are read a second time, from the inside: a quoted text at its placeholders, a
block of another language at its tags. The reader asks for pieces by byte, and a piece that is not
there is a fault. This module says which pieces are there.

For a quoted text the answer is `Boundary`: a byte at which its body, the text in front of the
closing quote, can be cut in two. **Every place that a token gives for a placeholder is a
boundary of its body**, so no placeholder reaches the closing quote, whatever the quote hides and
however its braces are nested. For a block of another language the answer is its spelling.
-/

set_option autoImplicit false

namespace Heddle

open Text

/-! ## Boundaries -/

/-- The byte `b` lies between two characters of `body` or at one of its ends, if `body` begins at
the byte `first`. Bytes are counted from the beginning of the source, as the places of tokens are.
-/
def Boundary (first : Nat) (body : List Char) (b : Nat) : Prop :=
  ∃ xs ys, body = xs ++ ys ∧ b = first + byteSize xs

namespace Boundary

/-- A text can be cut in front of its first character. -/
theorem start (first : Nat) (body : List Char) : Boundary first body first :=
  ⟨[], body, rfl, rfl⟩

/-- A boundary stays one when text is put in front. Readers put characters in front of what they
have read, so this is the step of their inductions. -/
theorem behind {first : Nat} {body : List Char} {b : Nat} (lead : List Char)
    (h : Boundary (first + byteSize lead) body b) : Boundary first (lead ++ body) b := by
  obtain ⟨xs, ys, rfl, rfl⟩ := h
  refine ⟨lead ++ xs, ys, (List.append_assoc _ _ _).symm, ?_⟩
  rw [byteSize_append, Nat.add_assoc]

/-- Where text that was put in front ends. -/
theorem seam (first : Nat) (lead body : List Char) :
    Boundary first (lead ++ body) (first + byteSize lead) :=
  ⟨lead, body, rfl, rfl⟩

/-- A boundary that is not in front of `ys` cuts `ys` in two. So the text between two boundaries
is there, and `slice?_eq` finds it. -/
theorem after {first : Nat} {xs ys : List Char} {b : Nat} (hb : Boundary first (xs ++ ys) b)
    (h : first + byteSize xs ≤ b) :
    ∃ mid zs, ys = mid ++ zs ∧ b = first + byteSize (xs ++ mid) := by
  obtain ⟨us, us', hu, rfl⟩ := hb
  rcases List.append_eq_append_iff.1 hu with ⟨mid, rfl, rfl⟩ | ⟨mid, rfl, rfl⟩
  · exact ⟨mid, us', rfl, rfl⟩
  · -- The boundary is not behind the beginning of `ys` either, so that is where it is.
    have hm : mid = [] := by
      cases mid with
      | nil => rfl
      | cons c mid =>
        have := c.utf8Size_pos
        simp only [byteSize_append, byteSize_cons] at h
        omega
    subst hm
    exact ⟨[], ys, rfl, by simp⟩

end Boundary

/-- Texts are measured alike as characters and as strings. -/
theorem Token.byteSize_chars (t : Token) : byteSize t.chars = t.text.utf8ByteSize := by
  rw [Token.chars, ← utf8ByteSize_ofList, String.ofList_toList]

/-- Two cuts inside a token give the text between them. That the slice is there at all is what the
reader relies on. -/
theorem Token.slice?_eq {t : Token} {xs ys zs : List Char} (h : t.chars = xs ++ ys ++ zs) :
    t.slice? (t.position.byte + byteSize xs) (t.position.byte + byteSize (xs ++ ys)) =
      some ys := by
  rw [Token.slice?, if_pos (Nat.le_add_right _ _), h]
  rw [Nat.add_sub_cancel_left, Nat.add_sub_cancel_left]
  exact slice?_byteSize xs ys zs

/-- The same with the second cut counted from the end of the token. -/
theorem Token.slice?_inner {t : Token} {xs ys zs : List Char} (h : t.chars = xs ++ ys ++ zs) :
    t.slice? (t.position.byte + byteSize xs) (t.stop - byteSize zs) = some ys := by
  have hstop : t.stop = t.position.byte + byteSize (xs ++ ys) + byteSize zs := by
    rw [Token.stop, ← byteSize_chars, h, byteSize_append _ zs, ← Nat.add_assoc]
  rw [hstop, Nat.add_sub_cancel]
  exact slice?_eq h

theorem TokenKind.placeholders?_eq_some {kind : TokenKind} {ps : List Placeholder}
    (h : kind.placeholders? = some ps) : ∃ style, kind = .quoted style ps := by
  cases kind with
  | quoted style qs =>
    cases h
    exact ⟨style, rfl⟩
  | _ => cases h

namespace Lexeme

/-! ## Quoted texts -/

/-- What begins no escape begins with no backslash. -/
theorem ne_backslash {c : Char} {cs : List Char} (h₁ : c = '\\' → cs = [] → False)
    (h₂ : ∀ d rest, c = '\\' → cs = d :: rest → False) : c ≠ '\\' := by
  intro hc
  cases cs with
  | nil => exact h₁ hc rfl
  | cons d rest => exact h₂ d rest hc rfl

/-- A character that is neither a backslash nor a percent sign. The reader has special cases in
front of this one, so its equation does not apply to a variable character by itself. -/
theorem quotedBody?_cons {quote c : Char} {position : Position} (hb : c ≠ '\\') (hp : c ≠ '%')
    (cs : List Char) : quotedBody? quote position (c :: cs) =
      if c = quote then some ([], [c], cs)
      else (quotedBody? quote (position.after c) cs).map fun (ps, text, rest) =>
        (ps, c :: text, rest) := by
  rw [quotedBody?.eq_def]
  split
  · rename_i heq
    cases heq
  · rename_i heq
    exact absurd (List.cons.inj heq).1 hb
  · rename_i heq
    exact absurd (List.cons.inj heq).1 hb
  · rename_i heq
    exact absurd (List.cons.inj heq).1 hp
  · rename_i heq
    cases heq
    rfl

/-- A quoted text is its body and the closing quote, and its placeholders begin and end on
boundaries of the body. The induction is along the reader, and each step puts in front what the
reader has just gone over: an escape, a placeholder, or a character. -/
theorem quotedBody?_spec {quote : Char} {position : Position} {cs : List Char}
    {ps : List Placeholder} {text rest : List Char}
    (h : quotedBody? quote position cs = some (ps, text, rest)) :
    ∃ body, text = body ++ [quote] ∧ ∀ p ∈ ps,
      Boundary position.byte body p.position.byte ∧ Boundary position.byte body p.stop := by
  fun_induction quotedBody? quote position cs generalizing ps text rest with
  | case1 | case2 => cases h
  | case3 position c cs ih =>
    obtain ⟨⟨ps, text, rest⟩, inner, heq⟩ := Option.map_eq_some_iff.1 h
    cases heq
    obtain ⟨body, rfl, hps⟩ := ih inner
    refine ⟨'\\' :: c :: body, rfl, fun p hp => ?_⟩
    have hb : ((position.after '\\').after c).byte = position.byte + byteSize ['\\', c] := by
      simp [Nat.add_assoc]
    have hbounds := hps p hp
    rw [hb] at hbounds
    exact ⟨.behind ['\\', c] hbounds.1, .behind ['\\', c] hbounds.2⟩
  | case4 position cs sign =>
    rename_i behind ih
    obtain ⟨⟨ps, text, rest⟩, inner, heq⟩ := Option.map_eq_some_iff.1 h
    cases heq
    obtain ⟨body, rfl, hps⟩ := ih inner
    refine ⟨sign.taken ++ body, (List.append_assoc _ _ _).symm, fun p hp => ?_⟩
    have hb : behind.byte = position.byte + byteSize sign.taken := Position.byte_past _ _
    -- A placeholder that begins here, and those of the text behind it.
    rcases List.mem_append.1 hp with hp | hp
    · obtain ⟨isBraced, -, rfl⟩ := Option.map_eq_some_iff.1 (Option.mem_toList.1 hp)
      refine ⟨.start _ _, ?_⟩
      show Boundary _ _ behind.byte
      rw [hb]
      exact .seam _ _ _
    · have hbounds := hps p hp
      rw [hb] at hbounds
      exact ⟨.behind _ hbounds.1, .behind _ hbounds.2⟩
  | case5 =>
    cases h
    exact ⟨[], rfl, by simp⟩
  | case6 position c cs _ _ _ _ ih =>
    obtain ⟨⟨ps, text, rest⟩, inner, heq⟩ := Option.map_eq_some_iff.1 h
    cases heq
    obtain ⟨body, rfl, hps⟩ := ih inner
    refine ⟨c :: body, rfl, fun p hp => ?_⟩
    have hbounds := hps p hp
    rw [Position.byte_after] at hbounds
    exact ⟨.behind [c] (by simpa using hbounds.1), .behind [c] (by simpa using hbounds.2)⟩

/-! ## Which reader a token comes from -/

section

variable (kind : NumberForm → TokenKind) {digit : Char → Bool} {cs part rest : List Char}

theorem numeral_of_percent (h : fraction digit (cs.dropWhile digit) = (part, '%' :: rest)) :
    numeral kind digit cs = ⟨kind .percentage, cs.takeWhile digit ++ part ++ ['%'], rest⟩ := by
  simp only [numeral, h]

theorem numeral_of_ne_percent (h : fraction digit (cs.dropWhile digit) = (part, rest))
    (hr : rest.head? ≠ some '%') :
    numeral kind digit cs =
      ⟨kind (if part.isEmpty then .integer else .fraction), cs.takeWhile digit ++ part, rest⟩ := by
  simp only [numeral, h]
  split
  · exact absurd rfl hr
  · rfl

end

/-- The kind of a numeral says that it is a number. -/
theorem kind_numeral (kind : NumberForm → TokenKind) (digit : Char → Bool) (cs : List Char) :
    ∃ form, (numeral kind digit cs).kind = kind form := by
  unfold numeral
  simp only
  split
  · exact ⟨_, rfl⟩
  · exact ⟨_, rfl⟩

theorem kind_number (cs : List Char) : (number cs).kind.isNumber = true := by
  unfold number
  split
  · rfl
  · obtain ⟨form, hf⟩ := kind_numeral .number isDigit cs
    rw [hf]
    rfl

theorem kind_hexRun (cs : List Char) :
    (hexRun cs).kind = .word ∨ (hexRun cs).kind.isNumber = true := by
  unfold hexRun
  simp only
  split
  · split
    · exact .inr (kind_number cs)
    · exact .inl rfl
  · obtain ⟨form, hf⟩ := kind_numeral .hexNumber isHexDigit cs
    rw [hf]
    exact .inr rfl

theorem kind_operator (c : Char) (cs : List Char) :
    (operator c cs).kind.isMark = true ∨ (operator c cs).kind = .invalid := by
  have hs (cs : List Char) : (single c cs).kind.isMark = true ∨ (single c cs).kind = .invalid := by
    unfold single
    cases singleMark? c with
    | none => exact .inr rfl
    | some m => exact .inl rfl
  unfold operator
  split
  · exact hs []
  · split
    · exact .inl rfl
    · exact hs _

theorem kind_points (cs : List Char) : (points cs).kind.isMark = true := by
  unfold points
  split <;> rfl

/-- **Texts that begin with the same character go to the same of ten readers.** So a relation
between two readings is shown reader by reader, without the tests of `scan`: between that of a text
and that of its beginning, or between those in front of two texts. -/
theorem scan_alike {R : Lexeme → Lexeme → Prop} {preferHex : Bool} {p q : Position} {c : Char}
    {cs ds : List Char}
    (hblank : isBlank c = true → R (run .blank isBlank (c :: cs)) (run .blank isBlank (c :: ds)))
    (hhex : preferHex = true → isNameStart c = true ∨ isDigit c = true →
      R (hexRun (c :: cs)) (hexRun (c :: ds)))
    (hword : isNameStart c = true → R (word (c :: cs)) (word (c :: ds)))
    (hnumber : isDigit c = true → R (number (c :: cs)) (number (c :: ds)))
    (hquoted : ∀ style : QuoteStyle, c = style.mark → R (quoted style p cs) (quoted style q ds))
    (hraw : c = '\x60' → R (raw cs) (raw ds))
    (hslash : c = '/' → R (slash cs) (slash ds))
    (hangle : c = '<' → R (angle cs) (angle ds))
    (hpoints : c = '.' → R (points cs) (points ds))
    (hoperator : R (operator c cs) (operator c ds)) :
    R (scan preferHex p c cs) (scan preferHex q c ds) := by
  unfold scan
  split
  · exact hblank ‹_›
  split
  · rename_i hn
    split
    · rename_i hx
      simp only [Bool.and_eq_true] at hx
      exact hhex hx.1 (.inl hn)
    · exact hword hn
  split
  · rename_i hd
    split
    · exact hhex ‹_› (.inr hd)
    · exact hnumber hd
  split
  · exact hquoted .double ‹_›
  split
  · exact hquoted .single ‹_›
  split
  · exact hraw ‹_›
  split
  · exact hslash ‹_›
  split
  · exact hangle ‹_›
  split
  · exact hpoints ‹_›
  · exact hoperator

/-- **Every token comes from one of ten readers**, and its first character says from which. It is
`scan_alike` for a relation that looks at one side only. -/
theorem scan_cases {P : Lexeme → Prop} {preferHex : Bool} {position : Position} {c : Char}
    {cs : List Char}
    (hblank : isBlank c = true → P (run .blank isBlank (c :: cs)))
    (hhex : preferHex = true → isNameStart c = true ∨ isDigit c = true → P (hexRun (c :: cs)))
    (hword : isNameStart c = true → P (word (c :: cs)))
    (hnumber : isDigit c = true → P (number (c :: cs)))
    (hquoted : ∀ style : QuoteStyle, c = style.mark → P (quoted style position cs))
    (hraw : c = '\x60' → P (raw cs))
    (hslash : c = '/' → P (slash cs))
    (hangle : c = '<' → P (angle cs))
    (hpoints : c = '.' → P (points cs))
    (hoperator : P (operator c cs)) :
    P (scan preferHex position c cs) :=
  @scan_alike (fun l _ => P l) preferHex position position c cs cs hblank hhex hword hnumber hquoted
    hraw hslash hangle hpoints hoperator

theorem kind_slash (cs : List Char) :
    (slash cs).kind = .lineComment ∨ (slash cs).kind = .blockComment ∨
      (slash cs).kind.isMark = true ∨ (slash cs).kind = .invalid := by
  unfold slash
  split
  · exact .inl rfl
  · split
    · exact .inr (.inl rfl)
    · exact .inr (.inr (.inr rfl))
  · exact .inr (.inr (.inl rfl))

theorem kind_raw (cs : List Char) : (raw cs).kind = .rawText ∨ (raw cs).kind = .invalid := by
  unfold raw
  split
  · exact .inl rfl
  · exact .inr rfl

theorem kind_quoted (style : QuoteStyle) (position : Position) (cs : List Char) :
    (∃ ps, (quoted style position cs).kind = .quoted style ps) ∨
      (quoted style position cs).kind = .invalid := by
  unfold quoted
  split
  · exact .inl ⟨_, rfl⟩
  · exact .inr rfl

/-- An embedded block ends with the closing tag that it was searched for. -/
theorem throughTag?_spec {tag cs text rest : List Char}
    (h : throughTag? tag cs = some (text, rest)) : ∃ content, text = content ++ tag := by
  fun_induction throughTag? tag cs generalizing text rest with
  | case1 he =>
    cases h
    exact ⟨[], by simpa using he⟩
  | case2 => cases h
  | case3 => cases h; exact ⟨[], rfl⟩
  | case4 c cs _ ih =>
    obtain ⟨⟨text, rest⟩, inner, heq⟩ := Option.map_eq_some_iff.1 h
    cases heq
    obtain ⟨content, rfl⟩ := ih inner
    exact ⟨c :: content, rfl⟩

/-- The spelling of an embedded block: its language, and its content between two tags. -/
theorem foreign?_spec {cs : List Char} {l : Lexeme} (h : foreign? cs = some l) :
    ∃ name content, l.kind = .foreign (String.ofList name) ∧
      l.text = '<' :: name ++ '>' :: content ++ ('<' :: '/' :: name ++ ['>']) := by
  unfold foreign? at h
  simp only at h
  split at h
  · obtain ⟨⟨text, rest⟩, through, rfl⟩ := Option.map_eq_some_iff.1 h
    obtain ⟨content, rfl⟩ := throughTag?_spec through
    exact ⟨cs.takeWhile isAsciiLetter, content, rfl, by simp⟩
  · cases h

theorem kind_angle (cs : List Char) :
    (∃ name, (angle cs).kind = .foreign name) ∨ (angle cs).kind.isMark = true := by
  unfold angle
  split <;> rename_i hf
  · obtain ⟨name, content, hk, -⟩ := foreign?_spec hf
    exact .inl ⟨_, hk⟩
  · split
    · exact .inr rfl
    · exact .inr rfl

/-- **The kind of a token tells where it comes from**: the readers that give tokens of this kind,
or the characters that they begin with. So what is to be known of tokens of one kind is shown of
their readers, and the other ones need not be looked at. -/
structure Origin (position : Position) (c : Char) (cs : List Char) (l : Lexeme) : Prop where
  blank : l.kind = .blank → isBlank c = true ∧ l = run .blank isBlank (c :: cs)
  /-- Two readers give hexadecimal numbers, and which of them it is depends on the cursor. -/
  hexNumber : ∀ form, l.kind = .hexNumber form → isNameStart c = true ∨ isDigit c = true
  quoted : ∀ style ps, l.kind = .quoted style ps → c = style.mark ∧ l = quoted style position cs
  comment : l.kind = .lineComment ∨ l.kind = .blockComment → c = '/' ∧ l = slash cs
  foreign : ∀ language, l.kind = .foreign language → c = '<' ∧ l = angle cs
  mark : ∀ m, l.kind = .mark m → l = slash cs ∨ l = angle cs ∨ l = points cs ∨ l = operator c cs

theorem origin_scan (preferHex : Bool) (position : Position) (c : Char) (cs : List Char) :
    Origin position c cs (scan preferHex position c cs) := by
  -- Each reader is held against each kind. Where it gives the kind it is named by the field, and
  -- elsewhere the lemma on its kinds excludes it.
  apply scan_cases (P := Origin position c cs)
  case hblank => exact fun hc => ⟨fun _ => ⟨hc, rfl⟩, nofun, nofun, nofun, nofun, nofun⟩
  case hhex =>
    intro _ hc
    constructor <;> grind [kind_hexRun, TokenKind.isNumber]
  case hword => exact fun _ => ⟨nofun, nofun, nofun, nofun, nofun, nofun⟩
  case hnumber =>
    intro hc
    constructor <;> grind [kind_number, TokenKind.isNumber]
  case hquoted =>
    intro style hc
    constructor <;> grind [kind_quoted]
  case hraw =>
    intro _
    constructor <;> grind [kind_raw]
  case hslash =>
    intro hc
    constructor <;> grind [kind_slash, TokenKind.isMark]
  case hangle =>
    intro hc
    constructor <;> grind [kind_angle, TokenKind.isMark]
  case hpoints =>
    intro _
    constructor <;> grind [kind_points, TokenKind.isMark]
  case hoperator => constructor <;> grind [kind_operator, TokenKind.isMark]

/-- A quoted text is read from its opening quote, and its placeholders are those of `quoted`. -/
theorem scan_quoted {preferHex : Bool} {position : Position} {c : Char} {cs : List Char}
    {style : QuoteStyle} {ps : List Placeholder}
    (h : (scan preferHex position c cs).kind = .quoted style ps) :
    c = style.mark ∧ scan preferHex position c cs = quoted style position cs :=
  (origin_scan ..).quoted style ps h

/-- An embedded block is read from the `<` of its opening tag. -/
theorem scan_foreign {preferHex : Bool} {position : Position} {c : Char} {cs : List Char}
    {language : String} (h : (scan preferHex position c cs).kind = .foreign language) :
    c = '<' ∧ foreign? cs = some (scan preferHex position c cs) := by
  obtain ⟨hc, hl⟩ := (origin_scan ..).foreign language h
  rw [hl] at h ⊢
  refine ⟨hc, ?_⟩
  unfold angle at h ⊢
  split at h
  · assumption
  · split at h <;> cases h

/-- A mark is spelled as it says. Which marks a reader knows is a finite table, so behind the
readers with a table there is one case for each of its entries. -/
theorem text_scan_mark {preferHex : Bool} {position : Position} {c : Char} {cs : List Char}
    {m : Mark} (h : (scan preferHex position c cs).kind = .mark m) :
    (scan preferHex position c cs).text = m.spelling.toList := by
  have horigin := (origin_scan preferHex position c cs).mark m h
  generalize scan preferHex position c cs = l at h horigin ⊢
  rcases horigin with rfl | rfl | rfl | rfl
  -- A slash is a mark if it begins no comment.
  · unfold slash at h ⊢
    split at h
    · cases h
    · split at h <;> cases h
    · cases h; rfl
  · unfold angle at h ⊢
    split at h <;> rename_i hf
    · obtain ⟨name, content, hk, -⟩ := foreign?_spec hf
      rw [hk] at h
      cases h
    · split at h <;> (cases h; rfl)
  · unfold points at h ⊢
    split at h <;> (cases h; rfl)
  -- A mark of two characters, or of one.
  · have hs (cs : List Char) (h : (single c cs).kind = .mark m) :
        (single c cs).text = m.spelling.toList := by
      unfold single at h ⊢
      simp only at h ⊢
      unfold singleMark? at h
      split at h <;> cases h <;> rfl
    unfold operator at h ⊢
    split at h
    · exact hs _ h
    · split at h <;> rename_i hp
      · cases h
        unfold pairMark? at hp
        split at hp <;> cases hp <;> rfl
      · exact hs _ h

end Lexeme

/-- The opening tag of an embedded block. -/
theorem byteSize_openingTag (language : String) :
    byteSize ('<' :: language.toList ++ ['>']) = language.utf8ByteSize + 2 := by
  rw [byteSize_append, byteSize_cons, ← utf8ByteSize_ofList language.toList, String.ofList_toList]
  show 1 + _ + 1 = _
  omega

/-- The closing tag of an embedded block. -/
theorem byteSize_closingTag (language : String) :
    byteSize ('<' :: '/' :: language.toList ++ ['>']) = language.utf8ByteSize + 3 := by
  rw [byteSize_append, byteSize_cons, byteSize_cons, ← utf8ByteSize_ofList language.toList,
    String.ofList_toList]
  show 1 + (1 + _) + 1 = _
  omega

/-! ## The tokens of a text -/

namespace Token

/-- The first token of a text is what was scanned there. From here on facts about `scan` are facts
about tokens. -/
theorem exists_scan {p : Position} {cs : List Char} {t : Token} {ts : List Token}
    (h : Token.readAll p cs = t :: ts) :
    ∃ c rest, cs = c :: rest ∧ t = (Lexeme.scan false p c rest).token p := by
  cases cs with
  | nil => rw [Token.readAll] at h; cases h
  | cons c rest =>
    rw [Token.readAll] at h
    exact ⟨c, rest, rfl, (List.cons.inj h).1.symm⟩

/-- Every token of a text was scanned somewhere. -/
theorem exists_scan_of_mem {p : Position} {cs : List Char} {t : Token}
    (h : t ∈ Token.readAll p cs) :
    ∃ q c rest, t = (Lexeme.scan false q c rest).token q := by
  fun_induction Token.readAll p cs with
  | case1 => cases h
  | case2 p c cs l ih =>
    rcases List.mem_cons.1 h with rfl | h
    · exact ⟨p, c, cs, rfl⟩
    · exact ih h

/-- A mark in a text is spelled as it says. -/
theorem text_of_mark {p : Position} {cs : List Char} {t : Token} (h : t ∈ Token.readAll p cs)
    {m : Mark} (hk : t.kind = .mark m) : t.chars = m.spelling.toList := by
  obtain ⟨q, c, rest, rfl⟩ := exists_scan_of_mem h
  rw [Lexeme.chars_token]
  exact Lexeme.text_scan_mark hk

/-- Nothing but a brace is spelled like one. Recovery tells braces by their text, so this says
that it counts the right tokens. -/
theorem mark_of_text {p : Position} {cs : List Char} {t : Token} (h : t ∈ Token.readAll p cs)
    {m : Mark} (hm : m = .leftBrace ∨ m = .rightBrace) (ht : t.text = m.spelling) :
    t.kind = .mark m := by
  obtain ⟨q, c, rest, rfl⟩ := exists_scan_of_mem h
  have hcut : (Lexeme.scan false q c rest).text ++ _ = c :: rest :=
    Lexeme.cuts_scan false q c rest
  have htext : (Lexeme.scan false q c rest).text = m.spelling.toList := by
    rw [← Lexeme.chars_token _ q, Token.chars, ht]
  rw [htext] at hcut
  rcases hm with rfl | rfl
  · obtain ⟨rfl, -⟩ := List.cons.inj hcut
    cases rest <;> rfl
  · obtain ⟨rfl, -⟩ := List.cons.inj hcut
    cases rest <;> rfl

/-- A quoted text is its body and the closing quote, and its placeholders are inside the body. The
opening quote belongs to the body here, since places are counted from the beginning of the token.
-/
theorem pieces_quoted {p : Position} {cs : List Char} {t : Token} {ts : List Token}
    (h : Token.readAll p cs = t :: ts) {style : QuoteStyle} {ps : List Placeholder}
    (hk : t.kind = .quoted style ps) :
    ∃ body, t.chars = body ++ [style.mark] ∧ ∀ q ∈ ps,
      Boundary t.position.byte body q.position.byte ∧ Boundary t.position.byte body q.stop := by
  obtain ⟨c, rest, -, rfl⟩ := exists_scan h
  obtain ⟨rfl, hs⟩ := Lexeme.scan_quoted hk
  rw [Lexeme.chars_token]
  show ∃ body, _ ∧ ∀ q ∈ ps, Boundary p.byte body q.position.byte ∧ Boundary p.byte body q.stop
  replace hk : (Lexeme.scan false p style.mark rest).kind = .quoted style ps := hk
  rw [hs] at hk ⊢
  unfold Lexeme.quoted at hk ⊢
  split at hk <;> rename_i hq
  · cases hk
    obtain ⟨body, rfl, hps⟩ := Lexeme.quotedBody?_spec hq
    refine ⟨style.mark :: body, rfl, fun q hq => ?_⟩
    have hbounds := hps q hq
    rw [Position.byte_after] at hbounds
    exact ⟨.behind [style.mark] hbounds.1, .behind [style.mark] hbounds.2⟩
  · cases hk

/-- The spelling of an embedded block: its language, and its content between two tags. The three
pieces are cut at sizes that are computed from the language, and this says that they are where the
reader looks. -/
theorem pieces_foreign {p : Position} {cs : List Char} {t : Token} {ts : List Token}
    (h : Token.readAll p cs = t :: ts) {language : String} (hk : t.kind = .foreign language) :
    ∃ content, t.chars =
      '<' :: language.toList ++ '>' :: content ++ ('<' :: '/' :: language.toList ++ ['>']) := by
  obtain ⟨c, rest, -, rfl⟩ := exists_scan h
  obtain ⟨-, hf⟩ := Lexeme.scan_foreign hk
  obtain ⟨name, content, hn, ht⟩ := Lexeme.foreign?_spec hf
  have hl : language = String.ofList name := TokenKind.foreign.inj (hk.symm.trans hn)
  refine ⟨content, ?_⟩
  rw [Lexeme.chars_token, ht, hl, String.toList_ofList]

end Token

end Heddle
