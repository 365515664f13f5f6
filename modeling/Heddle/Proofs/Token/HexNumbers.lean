import Heddle.Proofs.Token.Kinds

/-!
# Hexadecimal numbers

Where hexadecimal digits are preferred, a number may have a fraction and a percent sign in these
digits, and a reading that a word character refuses falls back to the usual one, which knows the
sign `0x`. A `HexNumber` is any of these together with what stands behind it: **every run of digits
in it is as long as it can be**, and so is the number as a whole.

What follows a number is seen by its reader only as far as the text goes. If the text is cut out of
a string, the quote behind it changes nothing (`HexNumber.append_mark`).
-/

set_option autoImplicit false

namespace Heddle

open Text

/-- The rest does not go on with a point and a digit behind it. A point alone may follow a number:
it is then a mark, as in a path. -/
def Text.NoFraction (digit : Char → Bool) (rest : List Char) : Prop :=
  ∀ d cs, rest = '.' :: d :: cs → digit d = false

/-- What a number without a percent sign cannot have right behind it. -/
def Text.isNumberTail (c : Char) : Bool := isWord c || c == '%'

/-- A number in hexadecimal digits, and what it stands in front of: with a sign, or without one,
and then perhaps with a fraction and as a percentage. What is behind a percentage does not matter,
since the percent sign is its end. -/
inductive HexNumber : List Char → List Char → Prop where
  | signed {x : Char} (hx : x = 'x' ∨ x = 'X') (digits : Run isHexDigit) {rest : List Char}
      (hrest : Apart isHexDigit rest) : HexNumber ('0' :: x :: digits.chars) rest
  | percentage (n : Token.Numeral isHexDigit) (hn : n.isPercentage = true) (rest : List Char) :
      HexNumber n.chars rest
  | plain (n : Token.Numeral isHexDigit) (hn : n.isPercentage = false) {rest : List Char}
      (hrest : Apart isNumberTail rest) (hpart : n.part = none → NoFraction isHexDigit rest) :
      HexNumber n.chars rest

namespace Lexeme

/-- A point is left where it is if there is no digit behind it. The part behind the point is named
(`part`), as the cases of a number are told by it. -/
theorem fraction_spec (digit : Char → Bool) (cs : List Char) :
    ∃ part : Option (Run digit),
      (fraction digit cs).1 = (part.map fun ds => '.' :: ds.chars).getD [] ∧
        (part = none → NoFraction digit (fraction digit cs).2) := by
  unfold fraction
  split
  · split <;> rename_i hd
    · exact ⟨some (.leading hd _), rfl, fun h => nomatch h⟩
    · refine ⟨none, rfl, fun _ d' cs' he => ?_⟩
      obtain ⟨rfl, -⟩ := List.cons.inj (List.cons.inj he).2
      exact Bool.eq_false_iff.2 hd
  · rename_i hne
    exact ⟨none, rfl, fun _ d cs' he => absurd he (hne d cs')⟩

/-- What is read as a numeral goes as far as it can, if no word goes on behind it. That condition
is the one on which the reader keeps the hexadecimal reading. -/
theorem hexNumber_numeral {c : Char} (h : isHexDigit c = true) (cs : List Char)
    (hword : (fraction isHexDigit ((c :: cs).dropWhile isHexDigit)).2.head?.any isWord = false) :
    HexNumber (numeral .hexNumber isHexDigit (c :: cs)).text
      (numeral .hexNumber isHexDigit (c :: cs)).rest := by
  obtain ⟨part, hpart, hnone⟩ := fraction_spec isHexDigit ((c :: cs).dropWhile isHexDigit)
  unfold numeral
  simp only [hpart]
  generalize (fraction isHexDigit ((c :: cs).dropWhile isHexDigit)).2 = rest at *
  split
  · rw [List.append_assoc]
    exact .percentage ⟨.leading h cs, part, true⟩ rfl _
  · rename_i hpercent
    -- Neither a percent sign nor a word character follows, so nothing can be added.
    have htail : Apart isNumberTail rest := by
      intro d hd
      rw [Option.any_eq_false] at hword
      have hne : d ≠ '%' := by
        rintro rfl
        cases rest with
        | nil => cases hd
        | cons d rest =>
          cases hd
          exact hpercent rest rfl
      simp [isNumberTail, hne, hword d hd]
    have hplain := HexNumber.plain ⟨.leading h cs, part, false⟩ rfl htail hnone
    simp only [Token.Numeral.chars, Token.Numeral.signChars, Bool.false_eq_true, if_false,
      List.append_nil] at hplain
    exact hplain

/-- A number with a sign takes all digits behind it. -/
theorem hexNumber_number {cs : List Char} (h : (number cs).kind.isHexNumber = true) :
    HexNumber (number cs).text (number cs).rest := by
  unfold number at h ⊢
  split <;> rename_i hs
  · obtain ⟨x, d, ds, hx, rfl, rfl, hd⟩ := hexSign?_spec hs
    exact .signed hx (.leading hd ds) (apart_dropWhile isHexDigit _)
  · rw [hs] at h
    obtain ⟨form, hkind⟩ := kind_numeral TokenKind.number isDigit cs
    rw [hkind] at h
    cases h

/-- A run that hexadecimal digits are preferred for. If it falls back to the usual reading it is a
hexadecimal number only with the sign `0x`. -/
theorem hexNumber_hexRun {c : Char} (hc : isNameStart c = true ∨ isDigit c = true)
    {cs : List Char} (h : (hexRun (c :: cs)).kind.isHexNumber = true) :
    HexNumber (hexRun (c :: cs)).text (hexRun (c :: cs)).rest := by
  unfold hexRun at h ⊢
  simp only at h ⊢
  split <;> rename_i hw
  · rw [if_pos hw] at h
    split <;> rename_i hd
    · rw [if_pos hd] at h
      exact hexNumber_number h
    · rw [if_neg hd] at h
      cases h
  · exact hexNumber_numeral (isHexDigit_of_hexRun hc hw) cs (Bool.eq_false_iff.2 hw)

/-- Where hexadecimal digits are preferred, every hexadecimal number is such a run. No other
reader gives a token of that kind, except the reader of numbers, which is not asked then. -/
theorem scan_of_isHexNumber {position : Position} {c : Char} {cs : List Char}
    (h : (scan true position c cs).kind.isHexNumber = true) :
    scan true position c cs = hexRun (c :: cs) := by
  have hhead := head_of_isHexNumber h
  have hblank : isBlank c = false := hhead.elim isBlank_of_isNameStart isBlank_of_isDigit
  rw [scan, if_neg (by simp [hblank])] at h ⊢
  by_cases hs : isNameStart c = true
  · rw [if_pos hs] at h ⊢
    split <;> rename_i hu
    · rfl
    · rw [if_neg hu] at h
      cases h
  · rw [if_neg hs, if_pos (hhead.resolve_left hs)]
    rfl

end Lexeme

/-- **A hexadecimal number goes as far as it can**, where hexadecimal digits are preferred. So the
data of a color is determined by the text behind its sign, without the reader. -/
theorem Token.hexNumber_of_read? {p : Position} {cs rest : List Char} {t : Token}
    (h : Token.read? true p cs = some (t, rest)) (hk : t.kind.isHexNumber = true) :
    HexNumber t.chars rest := by
  cases cs with
  | nil => cases h
  | cons c cs =>
    cases h
    replace hk : (Lexeme.scan true p c cs).kind.isHexNumber = true := hk
    have hhead := Lexeme.head_of_isHexNumber hk
    have hscan := Lexeme.scan_of_isHexNumber hk
    rw [hscan] at hk
    rw [Lexeme.chars_token, hscan]
    exact Lexeme.hexNumber_hexRun hhead hk

/-! ## In front of a quote -/

/-- What stands behind the text matters only if the text is empty. So a class needs to be asked
about the one character behind it. -/
theorem Text.Apart.append_cons {p : Char → Bool} {rest : List Char} (h : Apart p rest) {c : Char}
    (hc : p c = false) (cs : List Char) : Apart p (rest ++ c :: cs) := by
  cases rest with
  | nil => exact apart_cons hc cs
  | cons d rest => exact apart_cons (h d rfl) _

/-- A quote is no digit behind a point. -/
theorem Text.NoFraction.append_mark {rest : List Char} (h : NoFraction isHexDigit rest)
    (style : QuoteStyle) (cs : List Char) : NoFraction isHexDigit (rest ++ style.mark :: cs) := by
  intro d ds he
  rcases rest with _ | ⟨e, _ | ⟨f, rest⟩⟩
  · cases style <;> cases (List.cons.inj he).1
  · obtain ⟨rfl, -⟩ := List.cons.inj (List.cons.inj he).2
    cases style <;> rfl
  · cases he
    exact h _ _ rfl

/-- A number that goes as far as it can in a text does so in front of a quote as well. -/
theorem HexNumber.append_mark {text rest : List Char} (h : HexNumber text rest)
    (style : QuoteStyle) (cs : List Char) : HexNumber text (rest ++ style.mark :: cs) := by
  cases h with
  | signed hx digits hrest =>
    exact .signed hx digits (hrest.append_cons (by cases style <;> rfl) cs)
  | percentage n hn => exact .percentage n hn _
  | plain n hn hrest hpart =>
    have htail : isNumberTail style.mark = false := by cases style <;> decide
    exact .plain n hn (hrest.append_cons htail cs) fun hnone => (hpart hnone).append_mark style cs

end Heddle
