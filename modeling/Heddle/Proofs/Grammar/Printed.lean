import Heddle.Proofs.Reading.Printed

/-!
# Printed lists, and the other phrases that rules share

A list is printed with a comma and a blank between its elements; in a text that has a blank between
any two tokens there is one in front of the comma, too. Both ways are one definition with a flag.
**A list is read back if its elements are**, each in front of whatever may end an element; what
that is depends on the sort of the elements and is a parameter here.
-/

set_option autoImplicit false

namespace Heddle

open Text

variable {rest : List Char}

/-! ## Printed lists -/

namespace Forest

/-- The forest with a blank in front, in a text with a blank between any two tokens. -/
def spaced (isSpaced : Bool) (f : Forest) : Forest :=
  if isSpaced then .data .whitespace " " f else f

/-- Further elements of a list, each behind a separator. -/
def further (isSpaced : Bool) (separator : Mark) (tag : DataTag) : List Forest → Forest
  | [] => .nil
  | f :: fs =>
    (data tag separator.spelling (.data .whitespace " " f)).spaced isSpaced ++
      further isSpaced separator tag fs

/-- The elements of a list, and the mark that closes it. The opening mark belongs to the rule, as
it does in `Phrase.listUpTo`. -/
def upTo (isSpaced : Bool) (closing : Mark) : List Forest → Forest
  | [] => (ofData .punctuation closing.spelling).spaced isSpaced
  | f :: fs => (f ++ (further isSpaced .comma .punctuation fs ++
      (ofData .punctuation closing.spelling).spaced isSpaced)).spaced isSpaced

end Forest

namespace Text

/-- The blank of a text with a blank between any two tokens. -/
def gap (isSpaced : Bool) : List Char := if isSpaced then [' '] else []

/-- Characters that begin trivia, make something longer of a sign in front, or close something.
None of them may stand at the beginning of an element, or the text would be cut into other tokens.
-/
def unopening : List Char := ['/', '=', '>', '.', ',', ')', ']']

/-- Whether something printed may begin with the character. -/
def isOpening (c : Char) : Bool := !isBlank c && !unopening.contains c

theorem isOpening_of {p : Char → Bool} (hp : unopening.any p = false) {c : Char}
    (hb : isBlank c = false) (hc : p c = true) : isOpening c = true := by
  rw [isOpening, hb, contains_eq_false_of hp hc]
  rfl

/-- The first character of the text may begin something printed. This one condition gives all that
a proof needs of what follows a sign: it is no blank, it makes no longer sign, and it closes
nothing. -/
def Opens (cs : List Char) : Prop := ∃ c ∈ cs.head?, isOpening c = true

theorem Opens.append {cs : List Char} (h : Opens cs) (ds : List Char) : Opens (cs ++ ds) := by
  obtain ⟨c, hc, ho⟩ := h
  obtain ⟨cs, rfl⟩ := List.head?_eq_some_iff.1 hc
  exact ⟨c, rfl, ho⟩

theorem Opens.solid {cs : List Char} (h : Opens cs) : Solid cs := by
  obtain ⟨c, hc, ho⟩ := h
  obtain ⟨cs, rfl⟩ := List.head?_eq_some_iff.1 hc
  obtain ⟨hb, hn⟩ := Bool.and_eq_true_iff.1 ho
  refine solid_cons (Bool.not_eq_true' _ ▸ hb) (fun he => ?_) cs
  rw [he] at hn
  cases hn

theorem Opens.apart {cs : List Char} (h : Opens cs) {p : Char → Bool}
    (hp : ∀ c, p c = true → c ∈ unopening) : Apart p cs := by
  intro c hc
  obtain ⟨d, hd, ho⟩ := h
  rw [Option.mem_unique hc hd]
  cases hx : p d with
  | false => rfl
  | true =>
    rw [isOpening, List.contains_iff_mem.2 (hp d hx), Bool.not_true, Bool.and_false] at ho
    cases ho

/-- What may begin something printed is none of these signs. -/
theorem Opens.otherMark {cs : List Char} (h : Opens cs) {m : Mark}
    (hm : m.spelling.toList.head?.any isOpening = false) :
    Lookahead.On (Lookahead.next (Token.isMark m)) cs false := by
  obtain ⟨c, hc, ho⟩ := h
  obtain ⟨cs, rfl⟩ := List.head?_eq_some_iff.1 hc
  refine .otherMark (fun he => ?_) cs
  rw [he] at hm
  exact absurd ho (Bool.eq_false_iff.1 hm)

/-- A name may begin something printed. -/
theorem opens_name (n : Token.Name) : Opens n.chars :=
  ⟨n.first, rfl, isOpening_of (p := isNameStart) (by decide) (isBlank_of_isNameStart n.begins)
    n.begins⟩

/-- A digit may begin something printed. -/
theorem opens_digit {c : Char} (h : isDigit c = true) (cs : List Char) : Opens (c :: cs) :=
  ⟨c, rfl, isOpening_of (p := isDigit) (by decide) (isBlank_of_isDigit h) h⟩

end Text

@[simp] theorem Forest.chars_spaced (isSpaced : Bool) (f : Forest) :
    (f.spaced isSpaced).chars = gap isSpaced ++ f.chars := by
  cases isSpaced <;> simp [spaced, gap]

/-- A blank in front does not matter for the next significant token. -/
theorem Lookahead.On.spaced {P : Token → Bool} {answer : Bool} {cs : List Char} (isSpaced : Bool)
    (hs : Solid cs) (h : On (Lookahead.significant P) cs answer) :
    On (Lookahead.significant P) (gap isSpaced ++ cs) answer := by
  cases isSpaced with
  | true => exact h.blank hs
  | false => exact h

/-- A look ahead at a mark with a blank in front, or without one. -/
theorem Lookahead.On.gapMark {test : Lookahead} {answer : Bool} (isSpaced : Bool) (m : Mark)
    (hm : Apart (Token.isLonger m) rest)
    (h : ∀ p ts, test (⟨.mark m, m.spelling, p⟩ :: ts) = answer)
    (hb : ∀ p q ts, test (⟨.blank, " ", p⟩ :: ⟨.mark m, m.spelling, q⟩ :: ts) = answer) :
    On test (gap isSpaced ++ (m.spelling.toList ++ rest)) answer := by
  cases isSpaced with
  | true => exact .ofBlankMark m hm hb
  | false => exact .ofMark m hm h

/-- The next significant token of a text that goes on with a mark. -/
theorem Lookahead.On.spacedMark {P : Token → Bool} {answer : Bool} (isSpaced : Bool) (m : Mark)
    (hm : Apart (Token.isLonger m) rest) (h : ∀ p, P ⟨.mark m, m.spelling, p⟩ = answer) :
    On (Lookahead.significant P) (gap isSpaced ++ (m.spelling.toList ++ rest)) answer :=
  .gapMark isSpaced m hm (fun p _ => h p) fun _ q _ => h q

/-- A mark and a name right behind it. -/
theorem Lookahead.On.markName {m : Mark} (hm : m ≠ .less) (n : Token.Name) (h : Apart isWord rest) :
    On (Lookahead.pair (Token.isMark m) Token.isName) (m.spelling.toList ++ (n.chars ++ rest))
      true := by
  refine .of_leads (Token.leads_mark m (n.apart hm rest)) fun p q => ?_
  rw [n.leads h q]
  exact Bool.and_eq_true_iff.2 ⟨beq_self_eq_true (TokenKind.mark m), rfl⟩

/-- Something printed that is read back in front of whatever `Ends` it. The second part is for
every text behind it, since the rest of a list is not known when an element is proved to be
readable. -/
structure Phrase.Element (o : Options) (Ends : List Char → Prop) (q : Phrase) (f : Forest) :
    Prop where
  solid : ∀ rest, Solid (f.chars ++ rest)
  reads : ∀ rest, Ends rest → q.ReadsBack o f rest

/-- An element that nothing begins that closes a list. A list that is not empty is told from an
empty one by this. -/
structure Phrase.Listed (o : Options) (Ends : List Char → Prop) (q : Phrase) (f : Forest) : Prop
    extends Phrase.Element o Ends q f where
  noClosing : ∀ m : Mark, m = .rightParen ∨ m = .rightBracket →
    ∀ rest, Lookahead.On (Lookahead.next (Token.isMark m)) (f.chars ++ rest) false

theorem Phrase.Listed.ofOpens {o : Options} {Ends : List Char → Prop} {q : Phrase} {f : Forest}
    (h : Opens f.chars) (hr : ∀ rest, Ends rest → q.ReadsBack o f rest) : Listed o Ends q f where
  solid rest := (h.append rest).solid
  noClosing m hm rest := (h.append rest).otherMark (by rcases hm with rfl | rfl <;> decide)
  reads := hr

namespace Phrase.ReadsBack

variable {o : Options} {f g : Forest} {q : Phrase}

theorem spaced (isSpaced : Bool) (hq : q.skipsTrivia = true) (hs : Solid (f.chars ++ rest))
    (h : ReadsBack o q f rest) : ReadsBack o q (f.spaced isSpaced) rest := by
  cases isSpaced with
  | true => exact blank hq hs h
  | false => exact h

/-! ## A token that has to be there -/

theorem expect {P : Token → Bool} {kind : TokenKind} {tag : DataTag} {wanted : Wanted}
    {text : String} (h : Token.Leads kind text.toList rest) (hk : kind.isTrivia = false)
    (ht : kind.role tag = tag) (hp : ∀ p, P ⟨kind, text, p⟩ = true) :
    ReadsBack o (Phrase.expect P tag wanted) (.ofData tag text) rest := by
  have hc : (Forest.ofData tag text).chars ++ rest = text.toList ++ rest := by simp
  refine afterTrivia ?_ (yes ?_ (take h ht))
  · rw [hc]
    exact h.solid hk
  · rw [hc]
    refine .of_leads h fun p _ => ?_
    rw [String.ofList_toList]
    exact hp p

theorem mark (m : Mark) (h : Apart (Token.isLonger m) rest) :
    ReadsBack o (Phrase.mark m) (.ofData .punctuation m.spelling) rest :=
  expect (Token.leads_mark m h) rfl rfl fun _ => beq_self_eq_true (TokenKind.mark m)

/-- A mark behind a blank, and what follows it. -/
theorem blankMark (m : Mark) (hm : Apart (Token.isLonger m) (f.chars ++ rest))
    (h : ReadsBack o q f rest) :
    ReadsBack o ((Phrase.mark m).andThen q)
      (.data .whitespace " " (.data .punctuation m.spelling f)) rest :=
  blank rfl (by simpa using (Token.leads_mark m hm).solid rfl) (data (mark m hm) h)

theorem name (n : Token.Name) (tag : DataTag) (wanted : Wanted) (h : Apart isWord rest) :
    ReadsBack o (Phrase.name tag wanted) (.ofData tag n.text) rest := by
  have hl : Token.Leads .word n.text.toList rest := by
    rw [n.toList_text]
    exact n.leads h
  exact expect hl rfl rfl fun _ => rfl

theorem solid_mark (m : Mark) (tag : DataTag) (hm : Apart (Token.isLonger m) (f.chars ++ rest)) :
    Solid ((Forest.data tag m.spelling f).chars ++ rest) := by
  simpa using (Token.leads_mark m hm).solid rfl

/-- A node that begins with a mark. -/
theorem markedNode {p : Production} (m : Mark) {tag : DataTag}
    (hb : p.body = (Phrase.take tag).andThen q)
    (hm : Apart (Token.isLonger m) (f.chars ++ rest)) (h : ReadsBack o q f rest) :
    ReadsBack o (.node p) (.node p.kind none (.data tag m.spelling f) .nil) rest := by
  refine node (solid_mark m tag hm) ?_
  rw [hb]
  exact data (takeMark m tag hm) h

/-- The case that a mark at the beginning of a node decides. The choice is evaluated by finding
the first case whose look says yes at the mark, for all tokens behind it. -/
theorem selectMark {cases : List (Lookahead × Phrase)} {otherwise : Phrase} {kind : NodeKind}
    {tag : DataTag} (m : Mark) (hm : Apart (Token.isLonger m) (f.chars ++ rest))
    (ht : ∀ p ts, ((cases.find? fun c => c.1 (⟨.mark m, m.spelling, p⟩ :: ts)).map (·.2)).getD
      otherwise = q)
    (h : ReadsBack o q (.node kind none (.data tag m.spelling f) .nil) rest) :
    ReadsBack o (Phrase.trivia.andThen (Phrase.oneOf cases otherwise))
      (.node kind none (.data tag m.spelling f) .nil) rest := by
  refine select (q := q) (Token.leads_mark m hm) rfl (by simp) (fun p ts => ?_) h
  rw [String.ofList_toList]
  exact ht p ts

theorem solid_name (n : Token.Name) (tag : DataTag) (hn : Apart isWord (f.chars ++ rest)) :
    Solid ((Forest.data tag n.text f).chars ++ rest) := by
  simpa using (n.leads hn).solid rfl

/-- A node that begins with a name. -/
theorem namedNode {p : Production} (n : Token.Name) {tag : DataTag}
    (hb : p.body = (Phrase.take tag).andThen q)
    (hn : Apart isWord (f.chars ++ rest)) (h : ReadsBack o q f rest) :
    ReadsBack o (.node p) (.node p.kind none (.data tag n.text f) .nil) rest := by
  refine node (solid_name n tag hn) ?_
  rw [hb]
  exact data (takeName n tag hn) h

/-- The case that a name at the beginning of a node decides. -/
theorem selectName {cases : List (Lookahead × Phrase)} {otherwise : Phrase} {kind : NodeKind}
    {tag : DataTag} (n : Token.Name) (hn : Apart isWord (f.chars ++ rest))
    (ht : ∀ p ts, ((cases.find? fun c => c.1 (⟨.word, n.text, p⟩ :: ts)).map (·.2)).getD
      otherwise = q)
    (h : ReadsBack o q (.node kind none (.data tag n.text f) .nil) rest) :
    ReadsBack o (Phrase.trivia.andThen (Phrase.oneOf cases otherwise))
      (.node kind none (.data tag n.text f) .nil) rest :=
  select (q := q) (n.leads hn) rfl (by simp) ht h

/-- What stands behind a mark that may be left out, if it is there. -/
theorem optional (m : Mark) (tag : DataTag) (hm : Apart (Token.isLonger m) (f.chars ++ rest))
    (h : ReadsBack o q f rest) :
    ReadsBack o (Phrase.optional m tag q) (.data tag m.spelling f) rest := by
  have hsolid := solid_mark m tag hm
  refine yes (.significant hsolid ?_) (afterTrivia hsolid (data (takeMark m tag hm) h))
  simpa using Lookahead.On.mark m hm

/-- The same behind a blank. -/
theorem optionalBlank (m : Mark) (tag : DataTag) (hm : Apart (Token.isLonger m) (f.chars ++ rest))
    (h : ReadsBack o q f rest) :
    ReadsBack o (Phrase.optional m tag q) (.data .whitespace " " (.data tag m.spelling f))
      rest := by
  have hsolid := solid_mark m tag hm
  refine yes ?_ (blank rfl hsolid (afterTrivia hsolid (data (takeMark m tag hm) h)))
  have hon := Lookahead.On.spacedMark (P := Token.isMark m) true m hm fun _ =>
    beq_self_eq_true (TokenKind.mark m)
  simpa [gap] using hon

/-- Nothing, if the mark is not there. -/
theorem absent {m : Mark} {tag : DataTag}
    (h : Lookahead.On (Lookahead.significant (Token.isMark m)) rest false) :
    ReadsBack o (Phrase.optional m tag q) .nil rest :=
  no h empty

/-! ## Lists -/

variable {Ends : List Char → Prop} {isSpaced : Bool}

/-- A separator ends an element, as the end of the list does. So the elements of a list need to be
readable in front of either, and of nothing else. -/
theorem ends_further {m : Mark} (hm : ∀ cs, Ends (gap isSpaced ++ (m.spelling.toList ++ ' ' :: cs)))
    (tag : DataTag) (fs : List Forest) (he : Ends rest) :
    Ends ((Forest.further isSpaced m tag fs).chars ++ rest) := by
  cases fs with
  | nil => exact he
  | cons f fs =>
    have hc : (Forest.further isSpaced m tag (f :: fs)).chars ++ rest =
        gap isSpaced ++ (m.spelling.toList ++
          ' ' :: (f.chars ++ ((Forest.further isSpaced m tag fs).chars ++ rest))) := by
      simp [Forest.further]
    rw [hc]
    exact hm _

/-- Further elements, each behind its separator, are read back if the elements are. Behind the last
one the look for a separator says no (`hstop`). -/
theorem further (hq : q.skipsTrivia = true) {m : Mark} (tag : DataTag)
    (hm : ∀ cs, Ends (gap isSpaced ++ (m.spelling.toList ++ ' ' :: cs)))
    {fs : List Forest} (h : ∀ f ∈ fs, Element o Ends q f) (he : Ends rest)
    (hstop : Lookahead.On (Lookahead.significant (Token.isMark m)) rest false) :
    ReadsBack o (Phrase.further m tag q) (Forest.further isSpaced m tag fs) rest := by
  have hl : Loops (Lookahead.significant (Token.isMark m)) (seq [.trivia, .take tag, q]) :=
    ⟨rfl, rfl⟩
  induction fs with
  | nil => exact stop hl hstop
  | cons f fs ih =>
    have hf := h f List.mem_cons_self
    have hends := ends_further hm tag fs he
    refine again hl ?_ ?_ (ih fun g hg => h g (List.mem_cons_of_mem _ hg))
    all_goals generalize (Forest.further isSpaced m tag fs).chars ++ rest = rest' at hends
    · have hc : ((Forest.data tag m.spelling (.data .whitespace " " f)).spaced isSpaced).chars ++
          rest' = gap isSpaced ++ (m.spelling.toList ++ (' ' :: (f.chars ++ rest'))) := by
        simp
      rw [hc]
      exact .spacedMark isSpaced m (Token.isLonger_blank m _) fun _ =>
        beq_self_eq_true (TokenKind.mark m)
    · have hlonger : Apart (Token.isLonger m)
          ((Forest.data .whitespace " " f).chars ++ rest') := by
        simpa using Token.isLonger_blank m (f.chars ++ rest')
      have hsolid := solid_mark m tag hlonger
      have hitem := blank hq (hf.solid rest') (hf.reads rest' hends)
      exact spaced isSpaced rfl hsolid (afterTrivia hsolid (data (takeMark m tag hlonger) hitem))

/-- **A list is read back if its elements are.** What an element has to be read in front of is a
comma or the closing mark, so elements may end where something else decides. -/
theorem listUpTo {closing : Mark} (hm : closing = .rightParen ∨ closing = .rightBracket)
    (hq : q.skipsTrivia = true)
    (hcomma : ∀ cs, Ends (gap isSpaced ++ (Mark.comma.spelling.toList ++ ' ' :: cs)))
    (hclosing : ∀ cs, Ends (gap isSpaced ++ (closing.spelling.toList ++ cs)))
    {fs : List Forest} (h : ∀ f ∈ fs, Listed o Ends q f) :
    ReadsBack o (Phrase.listUpTo closing q) (Forest.upTo isSpaced closing fs) rest := by
  have hl : Apart (Token.isLonger closing) rest := by
    rcases hm with rfl | rfl <;> exact fun _ _ => rfl
  -- The forest of the closing mark, and the text it stands for: with or without the blank in
  -- front.
  let closer := Forest.ofData .punctuation closing.spelling
  have hcloser : (closer.spaced isSpaced).chars ++ rest =
      gap isSpaced ++ (closing.spelling.toList ++ rest) := by
    simp [closer]
  have hsolid : Solid (closer.chars ++ rest) := solid_mark closing .punctuation hl
  cases fs with
  -- An empty list is told by its closing mark. Otherwise the first element has to refuse that
  -- mark, and the mark has to end the last element.
  | nil =>
    refine yes ?_ (spaced isSpaced rfl hsolid
      (afterTrivia hsolid (takeMark closing .punctuation hl)))
    show Lookahead.On _ ((closer.spaced isSpaced).chars ++ rest) _
    rw [hcloser]
    exact .spacedMark isSpaced closing hl fun _ => beq_self_eq_true (TokenKind.mark closing)
  | cons f fs =>
    have hends : Ends ((closer.spaced isSpaced).chars ++ rest) := by
      rw [hcloser]
      exact hclosing rest
    have hstop : Lookahead.On (Lookahead.significant (Token.isMark .comma))
        ((closer.spaced isSpaced).chars ++ rest) false := by
      rw [hcloser]
      refine .spacedMark isSpaced closing hl fun _ => ?_
      rcases hm with rfl | rfl <;> rfl
    have hf := h f List.mem_cons_self
    have hfs := further hq .punctuation hcomma
      (fun g hg => (h g (List.mem_cons_of_mem _ hg)).toElement) hends hstop
    have hmark := spaced isSpaced rfl hsolid (mark (o := o) closing hl)
    have hall : ReadsBack o ((commaSeparated q).andThen (Phrase.mark closing))
        (f ++ (Forest.further isSpaced .comma .punctuation fs ++ closer.spaced isSpaced)) rest := by
      rw [← Forest.append_assoc]
      refine andThen (andThen (hf.reads _ ?_) hfs) hmark
      exact ends_further hcomma .punctuation fs hends
    have hsolid := hf.solid
      ((Forest.further isSpaced .comma .punctuation fs ++ closer.spaced isSpaced).chars ++ rest)
    have hnone := hf.noClosing closing hm
      ((Forest.further isSpaced .comma .punctuation fs ++ closer.spaced isSpaced).chars ++ rest)
    -- Both facts are about the text from the first element on, which is associated otherwise
    -- there.
    rw [← List.append_assoc, ← Forest.chars_append] at hsolid hnone
    refine no ?_ (spaced isSpaced hq hsolid hall)
    rw [Forest.upTo, Forest.chars_spaced, List.append_assoc]
    exact .spaced isSpaced hsolid (.significant hsolid hnone)

/-! ## Literals that are looked into -/

/-- A quoted text without placeholders. -/
theorem quoted {named braced : Phrase} {style : QuoteStyle} {text : String}
    (h : Token.Leads (.quoted style []) text.toList rest) :
    ReadsBack o (.quoted named braced) (.ofData .stringChunk text) rest := by
  intro n p reach _
  have hc : (Forest.ofData .stringChunk text).chars = text.toList := by simp
  obtain ⟨reach', htake⟩ := Tape.take_leads h .stringChunk p reach
  have hread : (Phrase.quoted named braced).read (Production.read n) o
      (.ofText p (text.toList ++ rest) reach) =
        .ofTaken ((Tape.ofText p (text.toList ++ rest) reach).take .stringChunk) := by
    rw [Tape.take_of_cons _ (h p), Phrase.read, Attempt.quoted, Tape.ahead_ofText, h p]
    rfl
  rw [hc, hread, htake, String.ofList_toList]
  exact .data .stringChunk text _ reach'

/-- The digits of a color. -/
theorem hexDigits (ds : Run isHexDigit) (h : Apart isLoose rest) :
    ReadsBack o .hexDigits (.ofData .color (String.ofList ds.chars)) rest := by
  intro n p reach _
  let t : Token := ⟨.hexNumber .integer, String.ofList ds.chars, p⟩
  have hc : (Forest.ofData .color (String.ofList ds.chars)).chars = ds.chars := by simp
  have htape : (⟨Token.readAll t.behind rest, p.past (ds.chars ++ rest), t.stop⟩ : Tape) =
      .ofText (p.past ds.chars) rest t.stop := by
    simp [t, Tape.ofText, Token.behind, Token.chars]
  have hread : Attempt.hexDigits (.ofText p (ds.chars ++ rest) reach) =
      .ofTaken (.ofData .color t.text,
        ⟨Token.readAll t.behind rest, p.past (ds.chars ++ rest), t.stop⟩) := by
    rw [Attempt.hexDigits, Tape.place_ofText, Tape.ahead_ofText, Token.spell_readAll,
      Token.read?_hexDigits ds h]
    rfl
  rw [hc, Phrase.read, hread, htape]
  exact .data .color t.text _ t.stop

end Phrase.ReadsBack

end Heddle
