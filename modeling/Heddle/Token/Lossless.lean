import Heddle.Token.Lexeme

/-!
# Scanning loses nothing

Every reader of `Heddle.Token.Lexeme` answers with a piece of the text in front of it: what it
took, followed by what it left, is what it was given (`Lexeme.cuts_scan`), and it took something
(`Lexeme.text_scan_ne_nil`). Reading a whole source ends because of these two facts, and the
tokens of a source spell the source because of the first.
-/

set_option autoImplicit false

namespace Heddle.Lexeme

open Text

/-- The lexeme is cut off the front of `cs`. -/
def Cuts (l : Lexeme) (cs : List Char) : Prop :=
  l.text ++ l.rest = cs

theorem cuts_run (kind : TokenKind) (member : Char → Bool) (cs : List Char) :
    (run kind member cs).Cuts cs :=
  List.takeWhile_append_dropWhile

theorem fraction_append (digit : Char → Bool) (cs : List Char) :
    (fraction digit cs).1 ++ (fraction digit cs).2 = cs := by
  unfold fraction
  split
  · split
    · simp only [List.cons_append, List.takeWhile_append_dropWhile]
    · rfl
  · rfl

theorem cuts_numeral (kind : NumberForm → TokenKind) (digit : Char → Bool) (cs : List Char) :
    (numeral kind digit cs).Cuts cs := by
  have whole := @List.takeWhile_append_dropWhile _ digit cs
  have part := fraction_append digit (cs.dropWhile digit)
  unfold numeral Cuts
  simp only
  split <;> rename_i rest h
  · simp only [h] at part
    simp only [List.append_assoc, List.cons_append, List.nil_append, part, whole]
  · simp only [List.append_assoc, part, whole]

theorem hexSign?_append {cs sign digits : List Char} (h : hexSign? cs = some (sign, digits)) :
    sign ++ digits = cs := by
  unfold hexSign? at h
  split at h
  · split at h
    · cases h; rfl
    · cases h
  · cases h

theorem cuts_number (cs : List Char) : (number cs).Cuts cs := by
  unfold number
  split <;> rename_i h
  · simp only [Cuts, List.append_assoc, List.takeWhile_append_dropWhile, hexSign?_append h]
  · exact cuts_numeral _ _ _

theorem cuts_hexRun (cs : List Char) : (hexRun cs).Cuts cs := by
  unfold hexRun
  simp only
  split
  · split
    · exact cuts_number cs
    · exact cuts_run _ _ _
  · exact cuts_numeral _ _ _

theorem quotedBody?_append {quote : Char} {position : Position} {cs : List Char}
    {ps : List Placeholder} {text rest : List Char}
    (h : quotedBody? quote position cs = some (ps, text, rest)) : text ++ rest = cs := by
  fun_induction quotedBody? quote position cs generalizing ps text rest with
  | case1 | case2 => cases h
  | case3 position c cs ih =>
    obtain ⟨⟨ps, text, rest⟩, body, heq⟩ := Option.map_eq_some_iff.1 h
    cases heq
    simp [ih body]
  | case4 position cs sign =>
    rename_i ih
    obtain ⟨⟨ps, text, rest⟩, body, heq⟩ := Option.map_eq_some_iff.1 h
    cases heq
    simp [ih body, sign, percent_append]
  | case5 => cases h; rfl
  | case6 position c cs _ _ _ _ ih =>
    obtain ⟨⟨ps, text, rest⟩, body, heq⟩ := Option.map_eq_some_iff.1 h
    cases heq
    simp [ih body]

theorem commentBody?_append {cs text rest : List Char}
    (h : commentBody? cs = some (text, rest)) : text ++ rest = cs := by
  fun_induction commentBody? cs generalizing text rest with
  | case1 => cases h
  | case2 => cases h; rfl
  | case3 c cs _ ih =>
    obtain ⟨⟨text, rest⟩, body, heq⟩ := Option.map_eq_some_iff.1 h
    cases heq
    simp [ih body]

theorem rawBody?_append {cs text rest : List Char}
    (h : rawBody? cs = some (text, rest)) : text ++ rest = cs := by
  fun_induction rawBody? cs generalizing text rest with
  | case1 => cases h
  | case2 => cases h; rfl
  | case3 c cs _ ih =>
    obtain ⟨⟨text, rest⟩, body, heq⟩ := Option.map_eq_some_iff.1 h
    cases heq
    simp [ih body]

theorem throughTag?_append {tag cs text rest : List Char}
    (h : throughTag? tag cs = some (text, rest)) : text ++ rest = cs := by
  fun_induction throughTag? tag cs generalizing text rest with
  | case1 => cases h; rfl
  | case2 => cases h
  | case3 c cs found =>
    cases h
    obtain ⟨behind, heq⟩ := List.isPrefixOf_iff_prefix.1 found
    simp [← heq]
  | case4 c cs _ ih =>
    obtain ⟨⟨text, rest⟩, body, heq⟩ := Option.map_eq_some_iff.1 h
    cases heq
    simp [ih body]

theorem cuts_of_foreign? {cs : List Char} {l : Lexeme} (h : foreign? cs = some l) :
    l.Cuts ('<' :: cs) := by
  have name := @List.takeWhile_append_dropWhile _ isAsciiLetter cs
  unfold foreign? at h
  simp only at h
  split at h
  · rename_i body heq
    obtain ⟨⟨text, rest⟩, through, rfl⟩ := Option.map_eq_some_iff.1 h
    rw [heq] at name
    simp only [Cuts, List.cons_append, List.append_assoc, throughTag?_append through, name]
  · cases h

theorem cuts_operator (c : Char) (cs : List Char) : (operator c cs).Cuts (c :: cs) := by
  unfold operator
  split
  · rfl
  · split <;> rfl

theorem cuts_points (cs : List Char) : (points cs).Cuts ('.' :: cs) := by
  unfold points
  split <;> rfl

theorem cuts_slash (cs : List Char) : (slash cs).Cuts ('/' :: cs) := by
  unfold slash
  split
  · simp [Cuts]
  · split <;> rename_i h
    · simp [Cuts, commentBody?_append h]
    · simp [Cuts]
  · rfl

theorem cuts_angle (cs : List Char) : (angle cs).Cuts ('<' :: cs) := by
  unfold angle
  split <;> rename_i h
  · exact cuts_of_foreign? h
  · split <;> rfl

theorem cuts_quoted (style : QuoteStyle) (position : Position) (cs : List Char) :
    (quoted style position cs).Cuts (style.mark :: cs) := by
  unfold quoted
  split <;> rename_i h
  · simp [Cuts, quotedBody?_append h]
  · simp [Cuts]

theorem cuts_raw (cs : List Char) : (raw cs).Cuts ('\x60' :: cs) := by
  unfold raw
  split <;> rename_i h
  · simp [Cuts, rawBody?_append h]
  · simp [Cuts]

/-- What was scanned, followed by what is left, is the text. All proofs about the places of tokens
start from this: where a token ends is its beginning moved past its text. -/
theorem cuts_scan (preferHex : Bool) (position : Position) (c : Char) (cs : List Char) :
    (scan preferHex position c cs).Cuts (c :: cs) := by
  unfold scan
  split
  · exact cuts_run _ _ _
  split
  · split
    · exact cuts_hexRun _
    · exact cuts_run _ _ _
  split
  · split
    · exact cuts_hexRun _
    · exact cuts_number _
  split
  · subst c; exact cuts_quoted .double position cs
  split
  · subst c; exact cuts_quoted .single position cs
  split
  · subst c; exact cuts_raw cs
  split
  · subst c; exact cuts_slash cs
  split
  · subst c; exact cuts_angle cs
  split
  · subst c; exact cuts_points cs
  · exact cuts_operator c cs

/-! ## A scan takes something -/

theorem text_run_ne_nil {kind : TokenKind} {member : Char → Bool} {c : Char} {cs : List Char}
    (h : member c = true) : (run kind member (c :: cs)).text ≠ [] := by
  simp [run, h]

theorem text_numeral_ne_nil {kind : NumberForm → TokenKind} {digit : Char → Bool}
    {cs : List Char} (h : cs.takeWhile digit ≠ [] ∨ (fraction digit cs).1 ≠ []) :
    (numeral kind digit cs).text ≠ [] := by
  by_cases whole : cs.takeWhile digit = []
  · have all : cs.dropWhile digit = cs := by
      have := @List.takeWhile_append_dropWhile _ digit cs
      simpa [whole] using this
    have part : (fraction digit cs).1 ≠ [] := h.resolve_left (· whole)
    unfold numeral
    simp only [all]
    split <;> simp [part]
  · unfold numeral
    simp only
    split <;> simp [whole]

theorem text_number_ne_nil {c : Char} {cs : List Char} (h : isDigit c = true) :
    (number (c :: cs)).text ≠ [] := by
  unfold number
  split
  · rename_i sign digits heq
    have : sign ≠ [] := by
      unfold hexSign? at heq
      split at heq
      · split at heq <;> cases heq
        simp
      · cases heq
    simp [this]
  · exact text_numeral_ne_nil (.inl (by simp [h]))

/-- A run read for hexadecimal digits is not empty when it begins with a word character. -/
theorem text_hexRun_ne_nil {c : Char} {cs : List Char} (h : isWord c = true) :
    (hexRun (c :: cs)).text ≠ [] := by
  unfold hexRun
  simp only
  split
  · split
    · rename_i digit
      exact text_number_ne_nil (by simpa using digit)
    · exact text_run_ne_nil h
  · rename_i refused
    refine text_numeral_ne_nil (.inl ?_)
    by_cases hex : isHexDigit c = true
    · simp [hex]
    · exfalso
      apply refused
      have point : c ≠ '.' := by
        rintro rfl
        revert h
        decide
      have noFraction : fraction isHexDigit (c :: cs) = ([], c :: cs) := by
        unfold fraction
        split
        · rename_i heq
          exact absurd (List.cons.inj heq).1 point
        · rfl
      simp [hex, noFraction, h]

/-- Every token has at least one character. -/
theorem text_scan_ne_nil (preferHex : Bool) (position : Position) (c : Char) (cs : List Char) :
    (scan preferHex position c cs).text ≠ [] := by
  unfold scan
  split
  · rename_i blank
    -- A run is not empty because the test that led to it holds of its first character.
    exact text_run_ne_nil blank
  split
  · rename_i start
    split
    · exact text_hexRun_ne_nil (isWord_of_isNameStart start)
    · exact text_run_ne_nil (isWord_of_isNameStart start)
  split
  · rename_i digit
    split
    · exact text_hexRun_ne_nil (isWord_of_isDigit digit)
    · exact text_number_ne_nil digit
  split
  · unfold quoted; split <;> simp
  split
  · unfold quoted; split <;> simp
  split
  · unfold raw; split <;> simp
  split
  · unfold slash
    split
    · simp
    · split <;> simp
    · simp
  split
  · unfold angle
    split
    · rename_i block found
      unfold foreign? at found
      simp only at found
      split at found
      · obtain ⟨_, _, rfl⟩ := Option.map_eq_some_iff.1 found
        simp
      · cases found
    · split <;> simp
  split
  · unfold points; split <;> simp
  · unfold operator
    split
    · simp [single]
    · split <;> simp [single]

end Heddle.Lexeme
