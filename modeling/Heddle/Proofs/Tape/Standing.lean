import Heddle.Proofs.Reading.Runs
import Heddle.Proofs.Token.Kinds

/-!
# Where a tape stands in a source

A reading begins with a whole source, but a placeholder is read from a text of its own, which is cut
out of a token. What is said about places and texts has to be said about the source all the same. A
tape `LiesIn` a source behind some text if what is left on it stands there, at the place that the
tape gives, and **behind it there is either nothing or the quote that closes a string**. Which
string this is belongs to the statement: it is named by the text in front of its opening quote.

Reading goes on in the same text (`LiesIn.conserves`), and the text of a placeholder is one that is
ended by the quote of the string it is in (`LiesIn.placeholder`). Where nothing is left of a tape,
its text ends at the place that `EndsText` tells. So a failure at the end of a text is known to be
at the end of the source, or at the closing quote of one particular string.
-/

set_option autoImplicit false

namespace Heddle

open Text

/-- At the place the text stands in the source. -/
def Occurs (source : String) (place : Position) (cs : List Char) : Prop :=
  ∃ front behind, (openSource source).2 = front ++ (cs ++ behind) ∧
    place = (openSource source).1.past front

/-- At the place stands the quote that closes the string which begins behind `begun`: the first
one of the style of its opening quote that no backslash hides. The plain scan `closing?` says so,
without the readers of placeholders. -/
def ClosesString (source : String) (begun : List Char) (place : Position) : Prop :=
  ∃ (style : QuoteStyle) (body rest : List Char),
    (openSource source).2 = begun ++ style.mark :: (body ++ style.mark :: rest) ∧
      Lexeme.closing? style.mark (body ++ style.mark :: rest) = some (body ++ [style.mark], rest) ∧
        place = (openSource source).1.past (begun ++ style.mark :: body)

/-- At the place ends the text that is read: the source, or the inside of the string which begins
behind the given text. -/
def EndsText (source : String) (place : Position) : Option (List Char) → Prop
  | none => place = (openSource source).1.past (openSource source).2
  | some begun => ClosesString source begun place

/-- What the plain scanner goes over up to a quote it goes over in front of anything. -/
theorem Lexeme.closing?_spec {quote : Char} {cs text rest : List Char}
    (h : closing? quote cs = some (text, rest)) :
    ∃ body, text = body ++ [quote] ∧ cs = body ++ quote :: rest ∧
      ∀ more, Passes quote body more := by
  fun_induction closing? quote cs generalizing text rest with
  | case1 | case2 => cases h
  | case3 c cs ih =>
    obtain ⟨⟨text', rest'⟩, inner, heq⟩ := Option.map_eq_some_iff.1 h
    cases heq
    obtain ⟨body, rfl, rfl, hp⟩ := ih inner
    exact ⟨'\\' :: c :: body, rfl, rfl, fun more => (hp more).hidden c⟩
  | case4 =>
    cases h
    exact ⟨[], rfl, rfl, fun more => .nil _ more⟩
  | case5 c cs h₁ h₂ hq ih =>
    obtain ⟨⟨text', rest'⟩, inner, heq⟩ := Option.map_eq_some_iff.1 h
    cases heq
    obtain ⟨body, rfl, rfl, hp⟩ := ih inner
    exact ⟨c :: body, rfl, rfl, fun more => (hp more).cons (ne_backslash h₁ h₂) hq⟩

/-- The quote of a style closes the string that it stands behind, whatever follows. -/
theorem Lexeme.Passes.closing? {style : QuoteStyle} {body : List Char}
    (h : ∀ more, Passes style.mark body more) (more : List Char) :
    Lexeme.closing? style.mark (body ++ style.mark :: more) =
      some (body ++ [style.mark], more) := by
  rw [h, closing?_cons (style.ne_mark (by simp)).symm, if_pos rfl]
  rfl

namespace Tape

/-- What is left on the tape stands in the source behind `front`. Behind it is nothing or, if the
tape is one of a string, the quote that closes the string; the string is named by the text that it
begins behind. -/
structure LiesIn (source : String) (string? : Option (List Char)) (front : List Char)
    (tape : Tape) : Prop where
  lexed : tape.Lexed
  place : tape.place = (openSource source).1.past front
  stands : ∃ behind, (openSource source).2 = front ++ (tape.text ++ behind) ∧
    (string? = none ∧ behind = [] ∨
      ∃ begun, string? = some begun ∧ ClosesString source begun tape.stop ∧
        ∃ (style : QuoteStyle) (rest : List Char), behind = style.mark :: rest)

/-- The next token is what is read first. -/
theorem Lexed.read?_eq {tape : Tape} (h : tape.Lexed) {t : Token} {ts : List Token}
    (ha : tape.ahead = t :: ts) :
    Token.read? false tape.place tape.text = some (t, Token.spell ts) := by
  rw [h.ahead] at ha
  cases hc : tape.text with
  | nil =>
    rw [hc, Token.readAll_nil] at ha
    cases ha
  | cons c cs =>
    rw [hc, Token.readAll_cons] at ha
    obtain ⟨rfl, rfl⟩ := List.cons.inj ha
    rw [Token.spell_readAll]
    rfl

namespace LiesIn

variable {source : String} {string? : Option (List Char)} {front : List Char} {tape : Tape}

/-- The whole source. -/
theorem ofSource (source : String) (reach : Nat) :
    (ofText (openSource source).1 (openSource source).2 reach).LiesIn source none [] where
  lexed := lexed_ofText _ _ _
  place := by simp
  stands := ⟨[], by simp, .inl ⟨rfl, rfl⟩⟩

/-- Reading goes on in the same text, behind what it took. So the relation is kept by every
reading, since all of them conserve the text. -/
theorem conserves {a : Attempt} (h : tape.LiesIn source string? front) (ha : a.Conserves tape) :
    a.tape.LiesIn source string? (front ++ a.trace.text) := by
  obtain ⟨behind, hsource, hbehind⟩ := h.stands
  refine ⟨ha.lexed, ?_, behind, ?_, ?_⟩
  · rw [ha.place, h.place, Position.past_append]
  · rw [hsource, ha.text, List.append_assoc, List.append_assoc]
  · rwa [ha.stop h.lexed]

/-- The next token stands where the tape is. -/
theorem occurs_head (h : tape.LiesIn source string? front) {t : Token} {ts : List Token}
    (ha : tape.ahead = t :: ts) : t.chars ≠ [] ∧ Occurs source tape.place t.chars := by
  obtain ⟨behind, hsource, -⟩ := h.stands
  obtain ⟨-, -, hne, htext⟩ := h.lexed.cons ha 0
  refine ⟨hne, front, Token.spell ts ++ behind, ?_, h.place⟩
  rw [hsource, htext, List.append_assoc]

/-- A place in the source is where the tape is, whatever is left. -/
theorem occurs_nil (h : tape.LiesIn source string? front) : Occurs source tape.place [] := by
  obtain ⟨behind, hsource, -⟩ := h.stands
  exact ⟨front, tape.text ++ behind, hsource, h.place⟩

/-- Where nothing is left, the text ends. It is this end that a message calls the end of input. -/
theorem at_end (h : tape.LiesIn source string? front) (ha : tape.ahead = []) :
    EndsText source tape.place string? := by
  obtain ⟨behind, hsource, hbehind⟩ := h.stands
  have htext := text_eq_nil ha
  have hstop : tape.stop = tape.place := by
    rw [h.lexed.stop, htext, Position.past_nil]
  rw [hstop] at hbehind
  rcases hbehind with ⟨rfl, rfl⟩ | ⟨begun, rfl, hcloses, -⟩
  · show tape.place = _
    rw [hsource, htext, List.append_nil, List.append_nil, h.place]
  · exact hcloses

/-- A string ahead: its opening quote, a body that no quote closes, and the quote that does. The
token was scanned with placeholders; that the plain scan finds the same end is a fact about
scanners (`Token.Quotes`). -/
theorem quoted_head (h : tape.LiesIn source string? front) {t : Token} {ts : List Token}
    (ha : tape.ahead = t :: ts) {style : QuoteStyle} {ps : List Placeholder}
    (hk : t.kind = .quoted style ps) :
    ∃ body, t.chars = style.mark :: body ++ [style.mark] ∧
      ClosesString source front (tape.place.past (style.mark :: body)) := by
  obtain ⟨behind, hsource, -⟩ := h.stands
  have htext := (h.lexed.cons ha 0).2.2.2
  have hd := Token.read?_describes (h.lexed.read?_eq ha)
  rw [hk] at hd
  obtain ⟨cs, hc, hclosing⟩ := hd
  obtain ⟨body, rfl, -, hpasses⟩ := Lexeme.closing?_spec hclosing
  refine ⟨body, hc, style, body, Token.spell ts ++ behind, ?_, ?_, ?_⟩
  · rw [hsource, htext, hc]
    simp
  · exact Lexeme.Passes.closing? hpasses _
  · rw [h.place, Position.past_append]

/-- The text of a placeholder is one of the string that it is in: it stands behind the characters
`xs` of the string, and the quote that closes the string is behind it. A placeholder in a
placeholder is in another string, so only the innermost one counts. -/
theorem placeholder (h : tape.LiesIn source string? front) {t : Token} {ts : List Token}
    (ha : tape.ahead = t :: ts) {style : QuoteStyle} {ps : List Placeholder}
    (hk : t.kind = .quoted style ps) {xs cs : List Char}
    (ht : t.chars = xs ++ ('%' :: cs) ++ [style.mark]) {place : Position}
    (hp : place = t.position.past xs) (reach : Nat) :
    (ofText place ('%' :: cs) reach).LiesIn source (some front) (front ++ xs) := by
  obtain ⟨behind, hsource, -⟩ := h.stands
  obtain ⟨-, hposition, -, htext⟩ := h.lexed.cons ha 0
  obtain ⟨body, hc, hcloses⟩ := h.quoted_head ha hk
  have hbody : style.mark :: body = xs ++ '%' :: cs := List.append_cancel_right (hc.symm.trans ht)
  refine ⟨lexed_ofText _ _ _, ?_, style.mark :: (Token.spell ts ++ behind), ?_, ?_⟩
  · rw [place_ofText, hp, hposition, h.place, Position.past_append]
  · rw [hsource, htext, ht, text_ofText]
    simp
  · refine .inr ⟨front, rfl, ?_, style, _, rfl⟩
    have hstop : (ofText place ('%' :: cs) reach).stop = tape.place.past (style.mark :: body) := by
      rw [hbody, Position.past_append, ← hposition, ← hp]
      rfl
    rwa [hstop]

/-- Every text that a placeholder of the next token may be read from stands in its string. -/
theorem window (h : tape.LiesIn source string? front) {isBraced : Bool} {window : Tape}
    (hw : tape.Window isBraced window) :
    ∃ xs, window.LiesIn source (some front) (front ++ xs) := by
  obtain @⟨t, ts, p, cs, ha, hp, hslice, reach⟩ := hw
  obtain ⟨ps, hps⟩ : ∃ ps, t.kind.placeholders? = some ps := by
    cases hk : t.kind.placeholders? with
    | none => rw [hk] at hp; cases hp
    | some ps => exact ⟨ps, rfl⟩
  obtain ⟨style, hk⟩ := TokenKind.placeholders?_eq_some hps
  obtain ⟨body, hc, -⟩ := h.quoted_head ha hk
  rw [hps] at hp
  obtain ⟨xs, ys, hbody, hpos, -⟩ := Token.standsIn_quoted (h.lexed.ahead ▸ ha) hk hc p hp
  have hpieces : t.chars = xs ++ ('%' :: ys) ++ [style.mark] := by rw [hc, hbody]
  have hcut : t.slice? p.position.byte (t.stop - 1) = some ('%' :: ys) := by
    have hone : 1 = byteSize [style.mark] := by cases style <;> rfl
    rw [hpos, Position.byte_past, hone]
    exact Token.slice?_inner hpieces
  obtain rfl : '%' :: ys = cs := Option.some.inj (hcut.symm.trans hslice)
  exact ⟨xs, h.placeholder ha hk hpieces hpos reach⟩

end LiesIn

end Tape

end Heddle
