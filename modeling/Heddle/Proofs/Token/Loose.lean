import Heddle.Proofs.Reading.Conservation
import Heddle.Proofs.Token.Nesting

/-!
# Where two ways of cutting a text agree again

Behind the sign of a color the text is cut by another rule than elsewhere, and from behind the
digits on it is cut in the usual way; the cuts need not be those that were there before. What the
other rule takes is made of word characters, points and percent signs. Call a token of nothing but
these `Loose`. **Where loose text is left out at the front, only loose tokens change**: from some
token on both ways of cutting agree, and in front of it all tokens are loose on both sides.

So whatever is asked about marks that are not loose, such as brackets and semicolons, has the same
answer before and after.

Colors are the one construct of the language that needs this: the lists of tokens that a parser
looks ahead in are those of the source, and behind a color they are not
(`Attempt.hexDigits_agree`).
-/

set_option autoImplicit false

namespace Heddle

open Text

namespace Text

/-- Word characters, points and percent signs: all that a number can be made of, with or without
its sign. -/
def isLoose (c : Char) : Bool := isWord c || c == '.' || c == '%'

theorem isLoose_of_isWord {c : Char} (h : isWord c = true) : isLoose c = true := by
  simp [isLoose, h]

/-- The code points of blanks. They are finitely many, so that no blank is a word character can be
evaluated. -/
def blanks : List Nat :=
  [9, 10, 11, 12, 13, 0x20, 0x85, 0xA0, 0x1680, 0x2000, 0x2001, 0x2002, 0x2003, 0x2004, 0x2005,
   0x2006, 0x2007, 0x2008, 0x2009, 0x200A, 0x2028, 0x2029, 0x202F, 0x205F, 0x3000]

theorem mem_blanks {c : Char} (h : isBlank c = true) : c.toNat ∈ blanks := by
  simp only [isBlank, Bool.or_eq_true, Bool.and_eq_true, decide_eq_true_eq, beq_iff_eq] at h
  simp only [blanks, List.mem_cons, List.not_mem_nil, or_false]
  omega

theorem isWord_of_mem_blanks : ∀ n ∈ blanks, isWord (Char.ofNat n) = false := by
  decide +kernel

/-- No blank is a word character. -/
theorem isWord_of_isBlank {c : Char} (h : isBlank c = true) : isWord c = false := by
  have hn := isWord_of_mem_blanks c.toNat (mem_blanks h)
  rwa [Char.ofNat_toNat] at hn

/-- No blank is loose. So a loose token and a blank never begin with the same character. -/
theorem isBlank_of_isLoose {c : Char} (h : isLoose c = true) : isBlank c = false := by
  cases hb : isBlank c with
  | false => rfl
  | true =>
    rw [isLoose, isWord_of_isBlank hb, Bool.false_or, Bool.or_eq_true, beq_iff_eq,
      beq_iff_eq] at h
    rcases h with rfl | rfl
    · revert hb; decide
    · revert hb; decide

theorem isLoose_of_isDigit {c : Char} (h : isDigit c = true) : isLoose c = true :=
  isLoose_of_isWord (isWord_of_isDigit h)

/-- Every hexadecimal digit is a word character. -/
theorem isWord_of_isHexDigit {c : Char} (h : isHexDigit c = true) : isWord c = true := by
  have hletter (ha : c.isAlpha = true) (hc : c.toNat < 0x80) : isWord c = true := by
    simp [isWord, isLetterOrNumber, hc, Char.isAlphanum, ha]
  simp only [isHexDigit, Bool.or_eq_true, Bool.and_eq_true, decide_eq_true_eq, Char.le_def,
    UInt32.le_iff_toNat_le] at h
  rcases h with (h | ⟨h₁, h₂⟩) | ⟨h₁, h₂⟩
  · exact isWord_of_isDigit h
  · have hlower : c.isLower = true := Bool.and_eq_true_iff.2
      ⟨decide_eq_true (UInt32.le_iff_toNat_le.2 h₁),
        decide_eq_true (UInt32.le_iff_toNat_le.2 (Nat.le_trans h₂ (by decide)))⟩
    exact hletter (Bool.or_eq_true_iff.2 (.inr hlower)) (Nat.lt_of_le_of_lt h₂ (by decide))
  · have hupper : c.isUpper = true := decide_eq_true
      ⟨UInt32.le_iff_toNat_le.2 h₁, UInt32.le_iff_toNat_le.2 (Nat.le_trans h₂ (by decide))⟩
    exact hletter (Bool.or_eq_true_iff.2 (.inl hupper)) (Nat.lt_of_le_of_lt h₂ (by decide))

theorem isLoose_of_isHexDigit {c : Char} (h : isHexDigit c = true) : isLoose c = true :=
  isLoose_of_isWord (isWord_of_isHexDigit h)

end Text

namespace Lexeme

/-- Every character that was taken is loose. -/
def Loose (l : Lexeme) : Prop := ∀ c ∈ l.text, isLoose c = true

theorem loose_run (kind : TokenKind) {member : Char → Bool}
    (h : ∀ c, member c = true → isLoose c = true) (cs : List Char) : (run kind member cs).Loose :=
  fun c hc => h c (List.all_eq_true.1 List.all_takeWhile c hc)

theorem loose_fraction {digit : Char → Bool} (h : ∀ c, digit c = true → isLoose c = true)
    (cs : List Char) : ∀ c ∈ (fraction digit cs).1, isLoose c = true := by
  unfold fraction
  split
  · split
    · intro c hc
      rcases List.mem_cons.1 hc with rfl | hc
      · rfl
      · exact h c (List.all_eq_true.1 List.all_takeWhile c hc)
    · exact nofun
  · exact nofun

theorem loose_numeral (kind : NumberForm → TokenKind) {digit : Char → Bool}
    (h : ∀ c, digit c = true → isLoose c = true) (cs : List Char) :
    (numeral kind digit cs).Loose := by
  have hw : ∀ c ∈ cs.takeWhile digit, isLoose c = true := by
    intro c hc
    exact h c (List.all_eq_true.1 List.all_takeWhile c hc)
  have hf := loose_fraction h (cs.dropWhile digit)
  unfold numeral
  simp only
  split
  · intro c hc
    simp only [List.mem_append, List.mem_singleton] at hc
    rcases hc with (hc | hc) | rfl
    · exact hw c hc
    · exact hf c hc
    · rfl
  · intro c hc
    simp only [List.mem_append] at hc
    rcases hc with hc | hc
    · exact hw c hc
    · exact hf c hc

theorem loose_hexSign {cs sign digits : List Char} (h : hexSign? cs = some (sign, digits)) :
    ∀ c ∈ sign, isLoose c = true := by
  unfold hexSign? at h
  split at h
  · split at h <;> rename_i hx
    · cases h
      simp only [Bool.and_eq_true, Bool.or_eq_true, beq_iff_eq] at hx
      rcases hx.1 with rfl | rfl
      · exact List.all_eq_true.1 rfl
      · exact List.all_eq_true.1 rfl
    · cases h
  · cases h

theorem loose_number (cs : List Char) : (number cs).Loose := by
  unfold number
  split <;> rename_i hs
  · rename_i sign digits
    intro c hc
    rcases List.mem_append.1 hc with hc | hc
    · exact loose_hexSign hs c hc
    · exact isLoose_of_isHexDigit (List.all_eq_true.1 List.all_takeWhile c hc)
  · exact loose_numeral _ (fun _ => isLoose_of_isDigit) cs

theorem loose_hexRun (cs : List Char) : (hexRun cs).Loose := by
  unfold hexRun
  simp only
  split
  · split
    · exact loose_number cs
    · exact loose_run _ (fun _ => isLoose_of_isWord) cs
  · exact loose_numeral _ (fun _ => isLoose_of_isHexDigit) cs

/-- What begins with a loose character is loose altogether. Words are, and so are numbers of all
forms; points and percent signs are marks of loose characters. -/
theorem loose_scan {preferHex : Bool} {position : Position} {c : Char} {cs : List Char}
    (h : isLoose c = true) : (scan preferHex position c cs).Loose := by
  apply scan_cases
  case hblank =>
    intro hb
    rw [isBlank_of_isLoose h] at hb
    cases hb
  case hhex => exact fun _ _ => loose_hexRun _
  case hword => exact fun _ => loose_run _ (fun _ => isLoose_of_isWord) _
  case hnumber => exact fun _ => loose_number _
  case hquoted =>
    rintro style rfl
    cases style with
    | double => exact absurd h (by decide)
    | single => exact absurd h (by decide)
  case hraw =>
    rintro rfl
    exact absurd h (by decide)
  case hslash =>
    rintro rfl
    exact absurd h (by decide)
  case hangle =>
    rintro rfl
    exact absurd h (by decide)
  -- The readers in front of this one begin with a sign that is not loose.
  case hpoints =>
    rintro rfl
    unfold points
    split <;> simp [Loose, isLoose]
  case hoperator =>
    have hs (cs : List Char) : (single c cs).Loose := by simpa [Loose, single] using h
    unfold operator
    split
    · exact hs _
    split <;> rename_i hp
    · -- No pair begins with a loose character.
      exfalso
      unfold pairMark? at hp
      split at hp <;> first | (revert h; decide) | cases hp
    · exact hs _

/-- A hexadecimal number begins with a letter or a digit, since only two readers give one. -/
theorem head_of_isHexNumber {preferHex : Bool} {position : Position} {c : Char} {cs : List Char}
    (h : (scan preferHex position c cs).kind.isHexNumber = true) :
    isNameStart c = true ∨ isDigit c = true := by
  cases hk : (scan preferHex position c cs).kind with
  | hexNumber form => exact (origin_scan ..).hexNumber form hk
  | _ =>
    rw [hk] at h
    cases h

/-- A hexadecimal number is loose, whichever way it is read. -/
theorem loose_of_isHexNumber {preferHex : Bool} {position : Position} {c : Char} {cs : List Char}
    (h : (scan preferHex position c cs).kind.isHexNumber = true) :
    (scan preferHex position c cs).Loose :=
  loose_scan <| isLoose_of_isWord <|
    (head_of_isHexNumber h).elim isWord_of_isNameStart isWord_of_isDigit

end Lexeme

namespace Token

/-- Every character of the token is loose. -/
def Loose (t : Token) : Prop := ∀ c ∈ t.chars, isLoose c = true

/-- A token that begins with a loose character is loose. Its kind is not told by that, so this
goes back to where the token was scanned. -/
theorem Loose.of_head {p : Position} {cs : List Char} {t : Token} {ts : List Token}
    (h : readAll p cs = t :: ts) (hc : ∀ c ∈ cs.head?, isLoose c = true) : t.Loose := by
  obtain ⟨c, rest, rfl, rfl⟩ := exists_scan h
  rw [Loose, Lexeme.chars_token]
  exact Lexeme.loose_scan (hc c rfl)

/-- **Loose text in front of a text changes only loose tokens.** The two ways of cutting are
followed side by side: one begins in front of the loose text `w`, the other behind it, and the one
that is behind in the text reads its next token. When both stand at the same place they agree from
there on. -/
theorem readAll_agree (p : Position) (w v : List Char) (hw : ∀ c ∈ w, isLoose c = true) :
    ∃ xs ys zs, readAll p (w ++ v) = xs ++ zs ∧ readAll (p.past w) v = ys ++ zs ∧
      (∀ t ∈ xs, t.Loose) ∧ ∀ t ∈ ys, t.Loose := by
  -- By the length of the whole text: a token that goes on behind the loose text changes the sides.
  induction hn : (w ++ v).length using Nat.strongRecOn generalizing p w v with
  | ind n ih =>
    cases w with
    | nil => exact ⟨[], [], _, rfl, rfl, nofun, nofun⟩
    | cons c w =>
      cases hr : readAll p (c :: w ++ v) with
      | nil => exact absurd (Token.readAll_eq_nil hr) (by simp)
      | cons t ts =>
        have hloose : t.Loose := .of_head hr (by simpa using hw c List.mem_cons_self)
        obtain ⟨hp, hne, rest, hc, rfl⟩ := readAll_eq_cons hr
        have hbehind : t.behind = p.past t.chars := by rw [behind, hp]
        have hlt : rest.length < n := by
          have hlen := congrArg List.length hc
          have hpos := List.length_pos_iff.2 hne
          rw [hn, List.length_append] at hlen
          omega
        rcases List.append_eq_append_iff.1 hc with ⟨mid, ht, hv⟩ | ⟨mid, hcw, hrest⟩
        · -- The first token ends behind the loose text.
          have hmid : ∀ c ∈ mid, isLoose c = true := fun c hc =>
            hloose c (ht ▸ List.mem_append_right _ hc)
          have hlt : (mid ++ rest).length < n := by
            rw [← hv, ← hn]
            simp only [List.length_append, List.length_cons]
            omega
          obtain ⟨xs, ys, zs, hx, hy, hlx, hly⟩ := ih _ hlt (p.past (c :: w)) mid rest hmid rfl
          refine ⟨t :: ys, xs, zs, ?_, ?_, ?_, hlx⟩
          · rw [hbehind, ht, Position.past_append, hy]
            rfl
          · rw [hv]
            exact hx
          · exact List.forall_mem_cons.2 ⟨hloose, hly⟩
        · -- The first token ends inside the loose text.
          have hmid : ∀ c ∈ mid, isLoose c = true := fun c' hc' =>
            hw c' (hcw ▸ List.mem_append_right _ hc')
          obtain ⟨xs, ys, zs, hx, hy, hlx, hly⟩ :=
            ih _ (by rw [hrest] at hlt; exact hlt) t.behind mid v hmid rfl
          refine ⟨t :: xs, ys, zs, ?_, ?_, ?_, hly⟩
          · rw [hrest, hx]
            rfl
          · rw [hcw, Position.past_append, ← hbehind]
            exact hy
          · exact List.forall_mem_cons.2 ⟨hloose, hlx⟩

theorem loose_of_read? {preferHex : Bool} {p : Position} {cs : List Char} {t : Token}
    {rest : List Char} (h : read? preferHex p cs = some (t, rest))
    (hk : t.kind.isHexNumber = true) : t.Loose := by
  cases cs with
  | nil => cases h
  | cons c cs =>
    rw [read?] at h
    obtain ⟨rfl, -⟩ := Prod.mk.inj (Option.some.inj h)
    rw [Loose, Lexeme.chars_token]
    exact Lexeme.loose_of_isHexNumber hk

/-- All marks but a few are spelled with characters that are not loose. So a smooth token is no
mark that a parser looks for when it looks ahead, and points and percent signs are the only marks
it can be. -/
def Smooth (t : Token) : Prop := ∀ m : Mark, t.kind = .mark m → m.spelling.toList.all isLoose = true

/-- A loose token of a text is spelled with loose characters if it is a mark. -/
theorem Loose.smooth {p : Position} {cs : List Char} {t : Token} (ht : t ∈ readAll p cs)
    (h : t.Loose) : t.Smooth := by
  intro m hk
  rw [Loose, text_of_mark ht hk] at h
  exact List.all_eq_true.2 h

/-- A smooth token is no bracket and no semicolon. -/
theorem Smooth.plain {t : Token} (h : t.Smooth) :
    t.kind.isBracket = false ∧ t.kind ≠ .mark .semicolon := by
  have hfirm : ∀ m : Mark, m.spelling.toList.all isLoose = true →
      (TokenKind.mark m).isBracket = false ∧ m ≠ .semicolon := by
    intro m
    cases m <;> decide
  cases hk : t.kind with
  | mark m =>
    obtain ⟨hb, hs⟩ := hfirm m (h m hk)
    exact ⟨hb, fun he => hs (TokenKind.mark.inj he)⟩
  | _ => exact ⟨rfl, nofun⟩

end Token

/-! ## The digits of a color -/

/-- **Reading the digits of a color changes smooth tokens only**: from some token on the tape is
as it was. If no digits are read the tape does not change at all. -/
theorem Attempt.hexDigits_smooth {tape : Tape} (h : tape.Lexed) :
    ∃ xs ys zs, tape.ahead = xs ++ zs ∧ (hexDigits tape).tape.ahead = ys ++ zs ∧
      (∀ t ∈ xs, t.Smooth) ∧ ∀ t ∈ ys, t.Smooth := by
  rcases hexDigits_cases h with hd | ⟨t, rest, hr, hk, hd⟩
  · exact ⟨[], [], tape.ahead, rfl, by rw [hd]; rfl, nofun, nofun⟩
  · obtain ⟨hp, -, hc⟩ := Token.read?_eq_some hr
    obtain ⟨xs, ys, zs, hx, hy, hlx, hly⟩ :=
      Token.readAll_agree tape.place t.chars rest (Token.loose_of_read? hr hk)
    rw [← hc, ← h.ahead] at hx
    rw [← hp] at hy
    refine ⟨xs, ys, zs, hx, by rw [hd]; exact hy, ?_, ?_⟩
    · intro u hu
      have hm : u ∈ Token.readAll tape.place tape.text := by
        rw [← h.ahead, hx]
        exact List.mem_append_left _ hu
      exact (hlx u hu).smooth hm
    · intro u hu
      have hm : u ∈ Token.readAll (t.position.past t.chars) rest := by
        rw [hy]
        exact List.mem_append_left _ hu
      exact (hly u hu).smooth hm

/-- **Reading the digits of a color changes no bracket and no semicolon**: from some token on the
tape is as it was, and in front of it there are neither. Invariants about open groups and about
the end of a statement need no more of a color than this. -/
theorem Attempt.hexDigits_agree {tape : Tape} (h : tape.Lexed) :
    ∃ xs ys zs, tape.ahead = xs ++ zs ∧ (hexDigits tape).tape.ahead = ys ++ zs ∧
      (∀ t ∈ xs, t.kind.isBracket = false ∧ t.kind ≠ .mark .semicolon) ∧
      ∀ t ∈ ys, t.kind.isBracket = false ∧ t.kind ≠ .mark .semicolon := by
  obtain ⟨xs, ys, zs, hx, hy, hxs, hys⟩ := hexDigits_smooth h
  exact ⟨xs, ys, zs, hx, hy, fun t ht => (hxs t ht).plain, fun t ht => (hys t ht).plain⟩

end Heddle
