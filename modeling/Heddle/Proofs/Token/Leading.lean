import Heddle.Proofs.Tape.Lexed
import Heddle.Proofs.Token.Loose

/-!
# Where the first token of a text ends

A reader of tokens takes as much as it can, so a text that is written down token by token is cut
the same way only if no token goes on into what follows it. `Token.Leads` says that a text is a
token in front of `rest`, and for each sort of token there is one lemma that says what `rest` must
not begin with: **only the next character matters**, and most marks do not even look at it.

The kind of a token must not depend on where it stands, which leaves out the quoted texts with
placeholders.
-/

set_option autoImplicit false

namespace Heddle

variable {rest : List Char}

namespace Text

/-- The next character, if there is one, is none of these. At the end of a text nothing can go on,
so the end is apart from every class. -/
def Apart (p : Char → Bool) (rest : List Char) : Prop := ∀ c ∈ rest.head?, p c = false

/-- Some characters of one class, at least one. That they are of the class is a part of the
structure, so what is printed with a `Run` needs no hypothesis about it. -/
structure Run (p : Char → Bool) where
  chars : List Char
  ne_nil : chars ≠ []
  all : chars.all p = true

/-- The class, character by character. -/
theorem Run.forall_mem {p : Char → Bool} (ds : Run p) : ∀ c ∈ ds.chars, p c = true :=
  List.all_eq_true.1 ds.all

/-- A character outside of the class keeps it apart from all that follows. -/
theorem apart_cons {p : Char → Bool} {c : Char} (h : p c = false) (cs : List Char) :
    Apart p (c :: cs) := by
  intro c' hc
  cases hc
  exact h

/-- What is apart from a class is apart from every smaller one. -/
theorem Apart.mono {p q : Char → Bool} (h : Apart p rest) (hq : ∀ c, q c = true → p c = true) :
    Apart q rest := by
  intro c hc
  cases hx : q c with
  | false => rfl
  | true => rw [← h c hc, hq c hx]

/-- A run takes what is of its class, if nothing of it follows. -/
theorem takeWhile_apart {p : Char → Bool} {cs : List Char} (h : ∀ c ∈ cs, p c = true)
    (hr : Apart p rest) : (cs ++ rest).takeWhile p = cs := by
  rw [List.takeWhile_append_of_pos h]
  cases rest with
  | nil => simp
  | cons c rest => simp [hr c rfl]

/-- What is left behind a run is what follows it. -/
theorem dropWhile_apart {p : Char → Bool} {cs : List Char} (h : ∀ c ∈ cs, p c = true)
    (hr : Apart p rest) : (cs ++ rest).dropWhile p = rest := by
  rw [List.dropWhile_append_of_pos h]
  cases rest with
  | nil => rfl
  | cons c rest => simp [hr c rfl]

/-- A character of a class is none of those outside of it. -/
theorem contains_eq_false_of {p : Char → Bool} {cs : List Char} (hp : cs.any p = false)
    {c : Char} (hc : p c = true) : cs.contains c = false := by
  cases hx : cs.contains c with
  | false => rfl
  | true => exact absurd hc (List.any_eq_false.1 hp c (List.contains_iff_mem.1 hx))

theorem isBlank_of_isNameStart {c : Char} (h : isNameStart c = true) : isBlank c = false :=
  isBlank_of_isLoose (isLoose_of_isWord (isWord_of_isNameStart h))

theorem isBlank_of_isDigit {c : Char} (h : isDigit c = true) : isBlank c = false :=
  isBlank_of_isLoose (isLoose_of_isDigit h)

/-- A hexadecimal digit is a letter or a decimal digit, so it is no sign and no blank. -/
theorem isNameStart_or_isDigit {c : Char} (h : isHexDigit c = true) :
    isNameStart c = true ∨ isDigit c = true := by
  have hletters :
      ∀ n ∈ List.range' 97 6 ++ List.range' 65 6, isNameStart (Char.ofNat n) = true := by
    decide
  have hletter (hn : c.toNat ∈ List.range' 97 6 ++ List.range' 65 6) : isNameStart c = true := by
    have hc := hletters _ hn
    rwa [Char.ofNat_toNat] at hc
  simp only [isHexDigit, Bool.or_eq_true, Bool.and_eq_true, decide_eq_true_eq, Char.le_def,
    UInt32.le_iff_toNat_le] at h
  rcases h with (h | ⟨h₁, h₂⟩) | ⟨h₁, h₂⟩
  · exact .inr h
  · exact .inl (hletter (List.mem_append_left _
      (List.mem_range'_1.2 ⟨h₁, Nat.lt_succ_of_le h₂⟩)))
  · exact .inl (hletter (List.mem_append_right _
      (List.mem_range'_1.2 ⟨h₁, Nat.lt_succ_of_le h₂⟩)))

theorem isNameStart_of_isDigit {c : Char} (h : isDigit c = true) : isNameStart c = false := by
  have hdigits : ∀ n ∈ List.range' 48 10, isNameStart (Char.ofNat n) = false := by decide
  have hn := hdigits c.toNat (by
    simp only [isDigit, Char.isDigit, Bool.and_eq_true, decide_eq_true_eq,
      UInt32.le_iff_toNat_le] at h
    rw [List.mem_range'_1]
    exact ⟨h.1, Nat.lt_succ_of_le h.2⟩)
  rwa [Char.ofNat_toNat] at hn

end Text

open Text

/-! ## Readers in front of what they do not take -/

namespace Lexeme

theorem run_apart (kind : TokenKind) {p : Char → Bool} {cs : List Char}
    (h : ∀ c ∈ cs, p c = true) (hr : Apart p rest) :
    run kind p (cs ++ rest) = ⟨kind, cs, rest⟩ := by
  rw [run, takeWhile_apart h hr, dropWhile_apart h hr]

theorem fraction_apart {digit : Char → Bool} (ds : Run digit) (hr : Apart digit rest) :
    fraction digit ('.' :: ds.chars ++ rest) = ('.' :: ds.chars, rest) := by
  have hall := ds.forall_mem
  obtain ⟨chars, hn, _⟩ := ds
  obtain ⟨d, cs, rfl⟩ := List.exists_cons_of_ne_nil hn
  have hd : digit d = true := hall d List.mem_cons_self
  show fraction digit ('.' :: d :: (cs ++ rest)) = _
  rw [fraction, if_pos hd, ← List.cons_append, takeWhile_apart hall hr, dropWhile_apart hall hr]

theorem fraction_of_apart (digit : Char → Bool) (hr : Apart isLoose rest) :
    fraction digit rest = ([], rest) := by
  unfold fraction
  split
  · cases hr '.' rfl
  · rfl

end Lexeme

namespace Token

/-- The text is a token of this kind in front of `rest`, wherever it stands. What is printed is
read back token by token with this relation, so it does not say what `rest` is cut into. -/
def Leads (kind : TokenKind) (text rest : List Char) : Prop :=
  ∀ p, readAll p (text ++ rest) = ⟨kind, String.ofList text, p⟩ :: readAll (p.past text) rest

/-- A token is read as its first character says. The reader must give the same at every place. -/
theorem leads_of_scan {kind : TokenKind} {c : Char} {cs : List Char}
    (h : ∀ p, Lexeme.scan false p c (cs ++ rest) = ⟨kind, c :: cs, rest⟩) :
    Leads kind (c :: cs) rest := by
  intro p
  rw [List.cons_append, readAll_cons, h p]
  rfl

/-! ## Blanks and names -/

/-- A run of blanks is one token. -/
theorem leads_blanks (ds : Run isBlank) (h : Apart isBlank rest) : Leads .blank ds.chars rest := by
  obtain ⟨cs, hne, hall⟩ := ds
  obtain ⟨c, cs, rfl⟩ := List.exists_cons_of_ne_nil hne
  have hblank : ∀ d ∈ c :: cs, isBlank d = true := List.all_eq_true.1 hall
  refine leads_of_scan fun p => ?_
  rw [Lexeme.scan, if_pos (hblank c List.mem_cons_self)]
  exact Lexeme.run_apart .blank hblank h

/-- The single blank that a printer puts between tokens. -/
theorem leads_blank (h : Apart isBlank rest) : Leads .blank [' '] rest :=
  leads_blanks ⟨[' '], nofun, by decide⟩ h

/-- A name is one token, if no word character follows. -/
theorem leads_word {c : Char} {cs : List Char} (hc : isNameStart c = true)
    (hcs : ∀ c ∈ cs, Text.isWord c = true) (h : Apart Text.isWord rest) :
    Leads .word (c :: cs) rest := by
  refine leads_of_scan fun p => ?_
  rw [Lexeme.scan, if_neg (by simp [isBlank_of_isNameStart hc]), if_pos hc, if_neg (by simp)]
  exact Lexeme.run_apart .word (List.forall_mem_cons.2 ⟨isWord_of_isNameStart hc, hcs⟩) h

/-- A name: a letter or an underscore, and word characters behind it. Names that print as keywords
are excluded where they matter, not here. -/
structure Name where
  first : Char
  others : List Char
  begins : isNameStart first = true
  goesOn : others.all Text.isWord = true

namespace Name

def chars (n : Name) : List Char := n.first :: n.others

def text (n : Name) : String := String.ofList n.chars

@[simp] theorem toList_text (n : Name) : n.text.toList = n.chars := String.toList_ofList

/-- A name in front of what does not go on with it. -/
theorem leads (n : Name) (h : Apart Text.isWord rest) : Leads .word n.chars rest :=
  leads_word n.begins (List.all_eq_true.1 n.goesOn) h

end Name

/-! ## Numbers -/

/-- A number in digits of one class: whole digits, perhaps a point with more digits, perhaps a
percent sign. Decimal and hexadecimal numbers are the two cases of one structure, and all lemmas
on numbers are about both. -/
structure Numeral (digit : Char → Bool) where
  whole : Run digit
  part : Option (Run digit)
  isPercentage : Bool

namespace Numeral

variable {digit : Char → Bool}

def partChars (n : Numeral digit) : List Char := (n.part.map fun ds => '.' :: ds.chars).getD []

def signChars (n : Numeral digit) : List Char := if n.isPercentage then ['%'] else []

def chars (n : Numeral digit) : List Char := n.whole.chars ++ (n.partChars ++ n.signChars)

def form (n : Numeral digit) : NumberForm :=
  if n.isPercentage then .percentage else if n.part.isSome then .fraction else .integer

/-- The number of these digits alone. -/
def ofRun (ds : Run digit) : Numeral digit := ⟨ds, none, false⟩

theorem chars_ofRun (ds : Run digit) : (ofRun ds).chars = ds.chars := List.append_nil _

end Numeral

/-- Digits are loose, and neither the point nor the percent sign is a digit. This is all that the
reading of a number uses of its class of digits. -/
structure IsDigits (digit : Char → Bool) : Prop where
  loose : ∀ c, digit c = true → isLoose c = true
  point : digit '.' = false
  percent : digit '%' = false

theorem isDigits_isDigit : IsDigits isDigit := ⟨fun _ => isLoose_of_isDigit, by decide, by decide⟩

theorem isDigits_isHexDigit : IsDigits isHexDigit :=
  ⟨fun _ => isLoose_of_isHexDigit, by decide, by decide⟩

/-- A number is read as it is written, if nothing loose follows: no word character, no point and
no percent sign. -/
theorem numeral_chars (kind : NumberForm → TokenKind) {digit : Char → Bool} (hd : IsDigits digit)
    (n : Numeral digit) (h : Apart isLoose rest) :
    Lexeme.numeral kind digit (n.chars ++ rest) = ⟨kind n.form, n.chars, rest⟩ := by
  obtain ⟨whole, part, isPercentage⟩ := n
  -- Each part is followed by something that is no digit: the percent sign, the point, or the
  -- rest.
  have hsign : Apart digit ((if isPercentage then ['%'] else []) ++ rest) := by
    cases isPercentage with
    | true => exact apart_cons hd.percent _
    | false => exact h.mono hd.loose
  have hpoint : Apart digit ((part.map fun ds => '.' :: ds.chars).getD [] ++
      ((if isPercentage then ['%'] else []) ++ rest)) := by
    cases part with
    | some ds => exact apart_cons hd.point _
    | none => exact hsign
  have hfraction : Lexeme.fraction digit ((part.map fun ds => '.' :: ds.chars).getD [] ++
      ((if isPercentage then ['%'] else []) ++ rest)) =
        ((part.map fun ds => '.' :: ds.chars).getD [],
          (if isPercentage then ['%'] else []) ++ rest) := by
    cases part with
    | some ds => exact Lexeme.fraction_apart ds hsign
    | none =>
      cases isPercentage with
      | true => rfl
      | false => exact Lexeme.fraction_of_apart digit h
  simp only [Numeral.chars, Numeral.partChars, Numeral.signChars, List.append_assoc]
  rw [← dropWhile_apart whole.forall_mem hpoint] at hfraction
  cases isPercentage with
  | true =>
    rw [Lexeme.numeral_of_percent kind hfraction, takeWhile_apart whole.forall_mem hpoint,
      List.append_assoc]
    rfl
  | false =>
    have hne : rest.head? ≠ some '%' := fun hp => by cases h '%' hp
    rw [Lexeme.numeral_of_ne_percent kind hfraction hne, takeWhile_apart whole.forall_mem hpoint]
    cases part <;> simp [Numeral.form]

/-- The letter in the sign of a hexadecimal number. -/
def isHexLetter (c : Char) : Bool := c == 'x' || c == 'X'

theorem isHexLetter_of_isDigit {c : Char} (h : isDigit c = true) : isHexLetter c = false := by
  cases hx : isHexLetter c with
  | false => rfl
  | true =>
    rcases Bool.or_eq_true_iff.1 hx with he | he
    · rw [beq_iff_eq.1 he] at h
      cases h
    · rw [beq_iff_eq.1 he] at h
      cases h

theorem isLoose_of_isHexLetter {c : Char} (h : isHexLetter c = true) : isLoose c = true := by
  rcases Bool.or_eq_true_iff.1 h with he | he
  · rw [beq_iff_eq.1 he]
    decide
  · rw [beq_iff_eq.1 he]
    decide

theorem hexSign?_eq_none {c : Char} {cs : List Char} (h : Apart isHexLetter cs) :
    Lexeme.hexSign? (c :: cs) = none := by
  unfold Lexeme.hexSign?
  split
  · rename_i x d cs he
    obtain ⟨rfl, rfl⟩ := List.cons.inj he
    have hx : (x == 'x' || x == 'X') = false := h x rfl
    simp [hx]
  · rfl

/-- A number with decimal digits has a digit in front, and no hexadecimal sign. A zero could be
the beginning of such a sign, but no `x` stands behind it. -/
theorem Numeral.chars_eq_cons (n : Numeral isDigit) (h : Apart isLoose rest) :
    ∃ c cs, n.chars = c :: cs ∧ isDigit c = true ∧ Apart isHexLetter (cs ++ rest) := by
  have hall := n.whole.forall_mem
  obtain ⟨⟨chars, hn, _⟩, part, isPercentage⟩ := n
  obtain ⟨c, cs, rfl⟩ := List.exists_cons_of_ne_nil hn
  refine ⟨c, _, rfl, hall c List.mem_cons_self, ?_⟩
  cases cs with
  | cons d cs => exact apart_cons (isHexLetter_of_isDigit (hall d (by simp))) _
  | nil =>
    cases part with
    | some ds => exact apart_cons (by decide) _
    | none =>
      cases isPercentage with
      | true => exact apart_cons (by decide) _
      | false => exact h.mono fun _ => isLoose_of_isHexLetter

/-- A number is one token, if nothing loose follows. -/
theorem leads_decimal (n : Numeral isDigit) (h : Apart isLoose rest) :
    Leads (.number n.form) n.chars rest := by
  have hnumeral := numeral_chars .number isDigits_isDigit n h
  obtain ⟨c, cs, he, hc, hx⟩ := n.chars_eq_cons h
  rw [he] at hnumeral ⊢
  refine leads_of_scan fun p => ?_
  rw [Lexeme.scan, if_neg (by simp [isBlank_of_isDigit hc]),
    if_neg (by simp [isNameStart_of_isDigit hc]), if_pos hc, if_neg (by simp), Lexeme.number,
    hexSign?_eq_none hx]
  exact hnumeral

/-- A number with hexadecimal digits behind its sign. It has no fraction, so a point may follow.
-/
theorem leads_hexadecimal {x : Char} (hx : isHexLetter x = true) (ds : Run isHexDigit)
    (h : Apart isHexDigit rest) :
    Leads (.hexNumber .integer) ('0' :: x :: ds.chars) rest := by
  have hall := ds.forall_mem
  obtain ⟨chars, hn, _⟩ := ds
  obtain ⟨d, cs, rfl⟩ := List.exists_cons_of_ne_nil hn
  have hsign : Lexeme.hexSign? ('0' :: (x :: d :: cs ++ rest)) =
      some (['0', x], d :: cs ++ rest) := by
    have hd : isHexDigit d = true := hall d List.mem_cons_self
    exact if_pos (Bool.and_eq_true_iff.2 ⟨hx, hd⟩)
  refine leads_of_scan fun p => ?_
  rw [Lexeme.scan, if_neg (by decide), if_neg (by decide), if_pos (by decide), if_neg (by simp),
    Lexeme.number, hsign]
  simp only [takeWhile_apart hall h, dropWhile_apart hall h]
  rfl

/-- The digits of a color, read with a preference for hexadecimal digits. The first of them may be
a letter, so without the preference they could be a word. -/
theorem read?_hexDigits (ds : Run isHexDigit) (h : Apart isLoose rest) (p : Position) :
    read? true p (ds.chars ++ rest) =
      some (⟨.hexNumber .integer, String.ofList ds.chars, p⟩, rest) := by
  have hnumeral := numeral_chars .hexNumber isDigits_isHexDigit (.ofRun ds) h
  rw [Numeral.chars_ofRun] at hnumeral
  have hall := ds.forall_mem
  obtain ⟨chars, hn, _⟩ := ds
  simp only at hnumeral hall ⊢
  have hrun : Lexeme.hexRun (chars ++ rest) = ⟨.hexNumber .integer, chars, rest⟩ := by
    have hword : rest.head?.any Text.isWord = false := by
      rw [Option.any_eq_false]
      intro c hc
      have hw : Text.isWord c = false := h.mono (fun _ => isLoose_of_isWord) c hc
      simp [hw]
    rw [Lexeme.hexRun, dropWhile_apart hall (h.mono fun _ => isLoose_of_isHexDigit),
      Lexeme.fraction_of_apart _ h]
    simp only [hword]
    exact hnumeral
  -- The reader is chosen by the first digit: a letter goes there because it is no underscore, a
  -- decimal digit in any case.
  obtain ⟨c, cs, rfl⟩ := List.exists_cons_of_ne_nil hn
  have hc : isHexDigit c = true := hall c List.mem_cons_self
  have hscan : Lexeme.scan true p c (cs ++ rest) = Lexeme.hexRun (c :: cs ++ rest) := by
    have hunderscore : (c != '_') = true := by
      refine bne_iff_ne.2 fun he => ?_
      rw [he] at hc
      cases hc
    rw [Lexeme.scan, if_neg (by simp [isBlank_of_isLoose (isLoose_of_isHexDigit hc)])]
    rcases isNameStart_or_isDigit hc with hs | hs
    · rw [if_pos hs, if_pos (by simpa using hunderscore)]
      rfl
    · rw [if_neg (by simp [isNameStart_of_isDigit hs]), if_pos hs, if_pos rfl]
      rfl
  rw [List.cons_append, read?, hscan, hrun]
  rfl

/-! ## Quoted and raw texts -/

/-- What a quoted text holds that means just itself. -/
def isPlainText (quote c : Char) : Bool := c != quote && c != '\\' && c != '%'

/-- A text without anything special goes on up to its quote, and has no placeholders. -/
theorem quotedBody?_plain (quote : Char) (position : Position) {cs : List Char}
    (h : ∀ c ∈ cs, isPlainText quote c = true) (hq : quote ≠ '\\' ∧ quote ≠ '%') :
    Lexeme.quotedBody? quote position (cs ++ quote :: rest) = some ([], cs ++ [quote], rest) := by
  induction cs generalizing position with
  | nil => simp [Lexeme.quotedBody?, hq]
  | cons c cs ih =>
    have hc := h c List.mem_cons_self
    simp only [isPlainText, Bool.and_eq_true, bne_iff_ne] at hc
    obtain ⟨⟨hquote, hslash⟩, hpercent⟩ := hc
    have := ih (position.after c) fun c hc => h c (List.mem_cons_of_mem _ hc)
    rw [List.cons_append, Lexeme.quotedBody?]
    · simp [hquote, this]
    all_goals simp_all

/-- A text between quotes in which nothing is special. With no placeholders its kind is the same
at every place, which `Leads` asks for. -/
theorem leads_quoted {cs : List Char} (h : ∀ c ∈ cs, isPlainText '\x22' c = true) :
    Leads (.quoted .double []) ('\x22' :: (cs ++ ['\x22'])) rest := by
  refine leads_of_scan fun p => ?_
  have hbody : Lexeme.quotedBody? QuoteStyle.double.mark (p.after QuoteStyle.double.mark)
      (cs ++ ['\x22'] ++ rest) = some ([], cs ++ ['\x22'], rest) := by
    rw [List.append_assoc]
    exact quotedBody?_plain _ _ h (by decide)
  rw [Lexeme.scan, if_neg (by decide), if_neg (by decide), if_neg (by decide), if_pos rfl,
    Lexeme.quoted, hbody]
  rfl

theorem rawBody?_plain {cs : List Char} (h : '\x60' ∉ cs) :
    Lexeme.rawBody? (cs ++ '\x60' :: rest) = some (cs ++ ['\x60'], rest) := by
  induction cs with
  | nil => rfl
  | cons c cs ih =>
    rw [List.mem_cons, not_or] at h
    rw [List.cons_append, Lexeme.rawBody?, if_neg (Ne.symm h.1), ih h.2]
    rfl

/-- A text between back quotes. -/
theorem leads_rawText {cs : List Char} (h : '\x60' ∉ cs) :
    Leads .rawText ('\x60' :: (cs ++ ['\x60'])) rest := by
  refine leads_of_scan fun p => ?_
  have hbody : Lexeme.rawBody? (cs ++ ['\x60'] ++ rest) = some (cs ++ ['\x60'], rest) := by
    rw [List.append_assoc]
    exact rawBody?_plain h
  rw [Lexeme.scan, if_neg (by decide), if_neg (by decide), if_neg (by decide), if_neg (by decide),
    if_neg (by decide), if_pos rfl, Lexeme.raw, hbody]

/-! ## Marks -/

/-- Whether the character makes something longer of the mark in front of it: another mark, a
comment, or a block. It is a table of the lexer's second characters, and `leads_mark` says that it
is complete. -/
def isLonger : Mark → Char → Bool
  | .equals, c => c == '=' || c == '>'
  | .minus, c => c == '>'
  | .bang, c | .greater, c => c == '='
  | .ampersand, c => c == '&'
  | .pipe, c => c == '|'
  | .dot, c | .doubleDot, c => c == '.'
  | .slash, c => c == '/' || c == '*'
  | .less, c => c == '=' || isAsciiLetter c
  | _, _ => false

/-- Only signs make something longer of a mark in front of them, except for `<`: behind that one a
letter may begin a block of another language. So what begins with a name, a quote or a bracket can
follow any other mark. -/
theorem mem_of_isLonger {m : Mark} (hm : m ≠ .less) {c : Char} (h : isLonger m c = true) :
    c ∈ ['=', '>', '&', '|', '.', '/', '*'] := by
  cases m with
  | less => exact absurd rfl hm
  | equals =>
    have hc : c = '=' ∨ c = '>' := by simpa [isLonger] using h
    rcases hc with rfl | rfl
    · decide
    · decide
  | _ => simp_all [isLonger]

/-- No name makes something longer of a mark in front of it, with the same exception: what is
printed may put a name right behind a mark (`leads_mark`). -/
theorem Name.apart (n : Name) {m : Mark} (hm : m ≠ .less) (rest : List Char) :
    Apart (isLonger m) (n.chars ++ rest) := by
  have hsigns : ['=', '>', '&', '|', '.', '/', '*'].any isNameStart = false := by decide
  refine apart_cons ?_ _
  cases hl : isLonger m n.first with
  | false => rfl
  | true => exact absurd n.begins (List.any_eq_false.1 hsigns _ (mem_of_isLonger hm hl))

/-- A mark has a first character, and only this one matters to what stands in front. The condition
is on closed terms, and is evaluated wherever two marks meet in what is printed. -/
theorem apart_mark (m : Mark) {p : Char → Bool} (h : m.spelling.toList.head?.any p = false)
    (cs : List Char) : Apart p (m.spelling.toList ++ cs) := by
  obtain ⟨d, ds, hd⟩ : ∃ d ds, m.spelling.toList = d :: ds := by cases m <;> exact ⟨_, _, rfl⟩
  rw [hd] at h ⊢
  exact apart_cons h _

/-- A blank makes nothing longer. -/
theorem isLonger_blank (m : Mark) (cs : List Char) : Apart (isLonger m) (' ' :: cs) :=
  apart_cons (by cases m <;> decide) cs

theorem operator_single {c : Char} {m : Mark} (hm : Lexeme.singleMark? c = some m)
    (h : Apart (fun d => (Lexeme.pairMark? c d).isSome) rest) :
    Lexeme.operator c rest = ⟨.mark m, [c], rest⟩ := by
  cases rest with
  | nil => simp [Lexeme.operator, Lexeme.single, hm]
  | cons d rest =>
    have hd : Lexeme.pairMark? c d = none := by simpa using h d rfl
    simp [Lexeme.operator, Lexeme.single, hm, hd]

theorem isLonger_of_pairMark? {c d : Char} {m : Mark} (hm : Lexeme.singleMark? c = some m)
    (h : (Lexeme.pairMark? c d).isSome = true) : isLonger m d = true := by
  unfold Lexeme.pairMark? at h
  split at h <;> first | (cases hm; rfl) | cases h

theorem points_dot (h : Apart (isLonger .dot) rest) :
    Lexeme.points rest = ⟨.mark .dot, ['.'], rest⟩ := by
  unfold Lexeme.points
  split
  · cases h '.' rfl
  · cases h '.' rfl
  · rfl

theorem points_doubleDot (h : Apart (isLonger .doubleDot) rest) :
    Lexeme.points ('.' :: rest) = ⟨.mark .doubleDot, ['.', '.'], rest⟩ := by
  unfold Lexeme.points
  split <;> rename_i he
  · cases he
    cases h '.' rfl
  · cases he
    rfl
  · exact absurd rfl (he _)

theorem slash_slash (h : Apart (isLonger .slash) rest) :
    Lexeme.slash rest = ⟨.mark .slash, ['/'], rest⟩ := by
  unfold Lexeme.slash
  split
  · cases h '/' rfl
  · cases h '*' rfl
  · rfl

theorem angle_less (h : Apart (isLonger .less) rest) :
    Lexeme.angle rest = ⟨.mark .less, ['<'], rest⟩ := by
  have hletter : Apart isAsciiLetter rest := h.mono fun c hc => Bool.or_eq_true_iff.2 (.inr hc)
  have hnone : Lexeme.foreign? rest = none := by
    have hnil : ∀ c ∈ ([] : List Char), isAsciiLetter c = true := nofun
    have htake : rest.takeWhile isAsciiLetter = [] := takeWhile_apart hnil hletter
    simp [Lexeme.foreign?, htake]
  unfold Lexeme.angle
  rw [hnone]
  simp only
  split
  · cases h '=' rfl
  · rfl

/-- **What stands behind a mark does not matter unless it makes something longer of it.** A mark of
several characters is read whatever follows it, and a single sign is one of those of `operator`.
Four marks have readers of their own: one or two points, a slash, and `<`. -/
theorem leads_mark (m : Mark) (h : Apart (isLonger m) rest) :
    Leads (.mark m) m.spelling.toList rest := by
  have hsingle {c : Char} (hm : Lexeme.singleMark? c = some m)
      (hc : ∀ p, Lexeme.scan false p c rest = Lexeme.operator c rest) :
      Leads (.mark m) [c] rest := by
    refine leads_of_scan fun p => ?_
    rw [List.nil_append, hc, operator_single hm (h.mono fun _ => isLonger_of_pairMark? hm)]
  cases m with
  | fatArrow | equalEqual | notEqual | greaterEqual | arrow | andAnd | orOr | lessEqual
  | ellipsis => exact leads_of_scan fun _ => rfl
  | dot => exact leads_of_scan fun p => points_dot h
  | doubleDot => exact leads_of_scan fun p => points_doubleDot h
  | slash => exact leads_of_scan fun p => slash_slash h
  | less => exact leads_of_scan fun p => angle_less h
  | _ => exact hsingle rfl fun _ => rfl

end Token

end Heddle
