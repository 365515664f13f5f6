import Heddle.Proofs.Token.Exchange
import Heddle.Proofs.Token.Kinds

/-!
# A text cut short

A reader may look at more than it takes: at the character behind a mark, at the digit behind a
point or behind the sign of a hexadecimal number, and for the closing tag of a block at all that is
there. Where the text ends behind what was taken, nothing of this is seen. **Cutting the text off
behind a token leaves the token as it is** (`Lexeme.scan_clip`): where a reader saw that it cannot
go on, it does not go on in front of the end either.

This is so for the usual way of reading only. The preference for hexadecimal digits is given up
because of a letter that stands behind the token, and without the letter it is not given up.
-/

set_option autoImplicit false

namespace Heddle

open Text

/-- What stands in front of a cut is seen on both sides. -/
theorem Text.Apart.clip {p : Char → Bool} {rest beyond : List Char}
    (h : Apart p (rest ++ beyond)) : Apart p rest := by
  cases rest with
  | nil => exact nofun
  | cons c rest => exact h

/-- A run that ends in front of a cut is a run up to the cut. -/
theorem Text.span_clip {member : Char → Bool} {cs beyond rest : List Char}
    (h : (cs ++ beyond).dropWhile member = rest ++ beyond) :
    cs.takeWhile member = (cs ++ beyond).takeWhile member ∧ cs.dropWhile member = rest := by
  have hall : ∀ c ∈ (cs ++ beyond).takeWhile member, member c = true :=
    List.all_eq_true.1 List.all_takeWhile
  have hrest : Apart member rest := (h ▸ apart_dropWhile member (cs ++ beyond)).clip
  have hcut : (cs ++ beyond).takeWhile member ++ rest = cs := by
    have hall := @List.takeWhile_append_dropWhile _ member (cs ++ beyond)
    rw [h, ← List.append_assoc] at hall
    exact List.append_cancel_right hall
  generalize (cs ++ beyond).takeWhile member = taken at hall hcut
  subst hcut
  exact ⟨takeWhile_apart hall hrest, dropWhile_apart hall hrest⟩

/-- What was taken stands in front of the cut. -/
theorem Text.exists_of_dropWhile {member : Char → Bool} {d : Char} {ds beyond rest : List Char}
    (hd : member d = true) (h : (d :: ds).dropWhile member = rest ++ beyond) :
    ∃ taken, ds = taken ++ beyond := by
  refine ⟨ds.takeWhile member ++ rest, ?_⟩
  rw [List.dropWhile_cons_of_pos hd] at h
  rw [List.append_assoc, ← h, List.takeWhile_append_dropWhile]

namespace Lexeme

variable {cs beyond : List Char}

/-- The lexeme `l` of a text is that of the text cut off in front of `beyond`, if nothing of
`beyond` was taken. It is a relation of two results, so that it can be shown reader by reader. -/
def Clips (beyond : List Char) (l l' : Lexeme) : Prop :=
  ∀ rest, l.rest = rest ++ beyond → l' = { l with rest }

/-- A cut through nothing. -/
theorem clips_nil (l : Lexeme) : Clips [] l l := by
  intro rest hr
  rw [← List.append_nil rest, ← hr]

/-- What took everything took what is behind the cut, if there is anything. -/
theorem clips_of_nil {reader : List Char → Lexeme} (h : (reader (cs ++ beyond)).rest = []) :
    Clips beyond (reader (cs ++ beyond)) (reader cs) := by
  cases beyond with
  | nil =>
    rw [List.append_nil]
    exact clips_nil _
  | cons c beyond =>
    intro rest hr
    exact absurd (List.append_eq_nil_iff.1 (hr.symm.trans h)).2 (List.cons_ne_nil c beyond)

/-! ## Words and numbers -/

theorem run_clip (kind : TokenKind) (member : Char → Bool) (cs : List Char) :
    Clips beyond (run kind member (cs ++ beyond)) (run kind member cs) := by
  intro rest hr
  obtain ⟨ht, hd⟩ := span_clip hr
  rw [run, run, ht, hd]

/-- There is a fraction only where a digit follows a point. -/
theorem fraction_cases (digit : Char → Bool) (cs : List Char) :
    (∃ d ds, cs = '.' :: d :: ds ∧ digit d = true ∧
      fraction digit cs = ('.' :: (d :: ds).takeWhile digit, (d :: ds).dropWhile digit)) ∨
    (∀ d ds, cs = '.' :: d :: ds → digit d = false) ∧ fraction digit cs = ([], cs) := by
  unfold fraction
  split
  · rename_i d ds
    by_cases hd : digit d = true
    · exact .inl ⟨d, ds, rfl, hd, if_pos hd⟩
    · refine .inr ⟨fun d' ds' heq => ?_, if_neg hd⟩
      cases heq
      exact Bool.eq_false_iff.2 hd
  · rename_i hne
    exact .inr ⟨fun d ds heq => absurd heq (hne d ds), rfl⟩

theorem fraction_clip {digit : Char → Bool} {part rest : List Char}
    (h : fraction digit (cs ++ beyond) = (part, rest ++ beyond)) :
    fraction digit cs = (part, rest) := by
  rcases fraction_cases digit (cs ++ beyond) with ⟨d, ds, hcs, hd, hlong⟩ | ⟨hno, hlong⟩
  · obtain ⟨rfl, hr⟩ := Prod.mk.inj (hlong.symm.trans h)
    obtain ⟨taken, rfl⟩ := exists_of_dropWhile hd hr
    obtain rfl : cs = '.' :: d :: taken := List.append_cancel_right hcs
    obtain ⟨ht, hrest⟩ := @span_clip _ (d :: taken) _ _ hr
    rw [fraction, if_pos hd, ht, hrest]
    rfl
  · obtain ⟨rfl, hr⟩ := Prod.mk.inj (hlong.symm.trans h)
    obtain rfl : cs = rest := List.append_cancel_right hr
    rcases fraction_cases digit cs with ⟨d, ds, rfl, hd, -⟩ | ⟨-, hstops⟩
    · cases hd.symm.trans (hno d (ds ++ beyond) rfl)
    · exact hstops

/-- A number of one sort. Its fraction and its percent sign are each seen on both sides of the
cut, or on neither. -/
theorem numeral_clip (kind : NumberForm → TokenKind) (digit : Char → Bool) (cs : List Char) :
    Clips beyond (numeral kind digit (cs ++ beyond)) (numeral kind digit cs) := by
  intro rest hr
  obtain ⟨part, left, hlong⟩ : ∃ part left,
    fraction digit ((cs ++ beyond).dropWhile digit) = (part, left) := ⟨_, _, rfl⟩
  -- What is left behind the fraction ends with `beyond`, with or without a percent sign taken.
  have hstops {left' : List Char} (hl : left = left' ++ beyond) :
      cs.takeWhile digit = (cs ++ beyond).takeWhile digit ∧
        fraction digit (cs.dropWhile digit) = (part, left') := by
    have hcut := fraction_append digit ((cs ++ beyond).dropWhile digit)
    rw [hlong, hl, ← List.append_assoc] at hcut
    obtain ⟨ht, hd⟩ := span_clip hcut.symm
    rw [hl, ← hcut] at hlong
    exact ⟨ht, hd ▸ fraction_clip hlong⟩
  by_cases hp : left.head? = some '%'
  · obtain ⟨left, rfl⟩ := List.head?_eq_some_iff.1 hp
    rw [numeral_of_percent kind hlong] at hr ⊢
    obtain rfl : left = rest ++ beyond := hr
    obtain ⟨ht, hf⟩ := @hstops ('%' :: rest) rfl
    rw [numeral_of_percent kind hf, ht]
  · rw [numeral_of_ne_percent kind hlong hp] at hr ⊢
    obtain rfl : left = rest ++ beyond := hr
    obtain ⟨ht, hf⟩ := hstops rfl
    have hp' : rest.head? ≠ some '%' := fun hh => hp (by rw [List.head?_append, hh]; rfl)
    rw [numeral_of_ne_percent kind hf hp', ht]

/-- The sign of a hexadecimal number is seen with more text behind it. -/
theorem hexSign?_extend {sign digits : List Char} (h : hexSign? cs = some (sign, digits))
    (more : List Char) : hexSign? (cs ++ more) = some (sign, digits ++ more) := by
  obtain ⟨x, d, ds, hx, rfl, rfl, hd⟩ := hexSign?_spec h
  rw [← hexSign?_append h]
  simp [hexSign?, hx, hd]

/-- A number that begins with a decimal digit. Its sign may be cut off, and then the zero in front
of it was all that was taken. -/
theorem number_clip (cs : List Char) :
    Clips beyond (number (cs ++ beyond)) (number cs) := by
  have hnumeral {cs : List Char} (h : hexSign? cs = none) :
      number cs = numeral .number isDigit cs := by rw [number, h]
  have hsigned {cs sign digits : List Char} (h : hexSign? cs = some (sign, digits)) :
      number cs = ⟨.hexNumber .integer, sign ++ digits.takeWhile isHexDigit,
        digits.dropWhile isHexDigit⟩ := by rw [number, h]
  -- If the sign is not seen in the long text it is not in the short one either.
  cases hlong : hexSign? (cs ++ beyond) with
  | none =>
    have hstops : hexSign? cs = none := by
      cases hs : hexSign? cs with
      | none => rfl
      | some found => cases (hexSign?_extend hs beyond).symm.trans hlong
    rw [hnumeral hlong, hnumeral hstops]
    exact numeral_clip .number isDigit cs
  | some found =>
    obtain ⟨sign, digits⟩ := found
    rw [hsigned hlong]
    intro rest hr
    obtain ⟨x, d, ds, hx, rfl, rfl, hd⟩ := hexSign?_spec hlong
    -- At least one digit was taken, so the sign and this digit are in front of the cut.
    obtain ⟨taken, rfl⟩ := exists_of_dropWhile hd hr
    obtain rfl : ['0', x] ++ d :: taken = cs :=
      List.append_cancel_right ((List.append_assoc _ _ _).trans (hexSign?_append hlong))
    obtain ⟨ht, hrest⟩ := @span_clip _ (d :: taken) _ _ hr
    have hstops : hexSign? (['0', x] ++ d :: taken) = some (['0', x], d :: taken) := by
      simp [hexSign?, hx, hd]
    rw [hsigned hstops, ht, hrest]
    rfl

/-! ## Marks -/

/-- A second character is taken if it makes a mark with the first. -/
theorem operator_cases (c : Char) (cs : List Char) :
    (∃ d ds m, cs = d :: ds ∧ pairMark? c d = some m ∧ operator c cs = ⟨.mark m, [c, d], ds⟩) ∨
    (∀ d ∈ cs.head?, pairMark? c d = none) ∧ operator c cs = single c cs := by
  cases cs with
  | nil => exact .inr ⟨nofun, rfl⟩
  | cons d ds =>
    rw [operator]
    split <;> rename_i h
    · exact .inl ⟨d, ds, _, rfl, h, rfl⟩
    · refine .inr ⟨fun e he => ?_, rfl⟩
      cases he
      exact h

theorem operator_clip (c : Char) (cs : List Char) :
    Clips beyond (operator c (cs ++ beyond)) (operator c cs) := by
  intro rest hr
  rcases operator_cases c (cs ++ beyond) with ⟨d, ds, m, hcs, hpair, hlong⟩ | ⟨hno, hlong⟩
  · rw [hlong] at hr ⊢
    obtain rfl : ds = rest ++ beyond := hr
    obtain rfl : cs = d :: rest := List.append_cancel_right hcs
    simp only [operator, hpair]
  · rw [hlong] at hr ⊢
    obtain rfl : cs = rest := List.append_cancel_right hr
    rcases operator_cases c cs with ⟨d, ds, m, rfl, hpair, -⟩ | ⟨-, hstops⟩
    · cases hpair.symm.trans (hno d rfl)
    · exact hstops

theorem points_cases (cs : List Char) :
    (∃ ds, cs = '.' :: '.' :: ds) ∨
    (∃ ds, cs = '.' :: ds ∧ Apart (Token.isLonger .doubleDot) ds) ∨
    Apart (Token.isLonger .dot) cs := by
  have hne {c : Char} (hc : c ≠ '.') : (c == '.') = false := beq_eq_false_iff_ne.2 hc
  match cs with
  | [] => exact .inr (.inr nofun)
  | [c] =>
    by_cases hc : c = '.'
    · exact .inr (.inl ⟨[], by rw [hc], nofun⟩)
    · exact .inr (.inr (apart_cons (p := Token.isLonger .dot) (hne hc) []))
  | c :: d :: cs =>
    by_cases hc : c = '.'
    · subst hc
      by_cases hd : d = '.'
      · exact .inl ⟨cs, by rw [hd]⟩
      · exact .inr (.inl ⟨d :: cs, rfl, apart_cons (p := Token.isLonger .doubleDot) (hne hd) cs⟩)
    · exact .inr (.inr (apart_cons (p := Token.isLonger .dot) (hne hc) _))

theorem points_clip (cs : List Char) :
    Clips beyond (points (cs ++ beyond)) (points cs) := by
  intro rest hr
  rcases points_cases (cs ++ beyond) with ⟨ds, hcs⟩ | ⟨ds, hcs, ha⟩ | ha
  · rw [hcs] at hr ⊢
    obtain rfl : ds = rest ++ beyond := hr
    obtain rfl : cs = '.' :: '.' :: rest := List.append_cancel_right hcs
    rfl
  · rw [hcs, Token.points_doubleDot ha] at hr ⊢
    obtain rfl : ds = rest ++ beyond := hr
    obtain rfl : cs = '.' :: rest := List.append_cancel_right hcs
    exact Token.points_doubleDot ha.clip
  · rw [Token.points_dot ha] at hr ⊢
    obtain rfl : cs = rest := List.append_cancel_right hr
    exact Token.points_dot ha.clip

/-! ## Comments and literals -/

/-- The reader takes `l` whatever stands behind it. It holds of everything that ends with a sign
of its own. -/
def Again (reader : List Char → Lexeme) (l : Lexeme) : Prop :=
  ∃ c text, l.text = c :: text ∧ ∀ more, reader (text ++ more) = { l with rest := more }

theorem Again.clips {reader : List Char → Lexeme} {c : Char}
    (h : Again reader (reader (cs ++ beyond)))
    (hcut : (reader (cs ++ beyond)).Cuts (c :: (cs ++ beyond))) :
    Clips beyond (reader (cs ++ beyond)) (reader cs) := by
  intro rest hr
  obtain ⟨d, text, htext, hagain⟩ := h
  rw [Cuts, htext, hr, ← List.append_assoc, ← List.cons_append] at hcut
  obtain rfl : text ++ rest = cs := (List.cons.inj (List.append_cancel_right hcut)).2
  exact hagain rest

theorem quoted_again {style : QuoteStyle} {position : Position}
    (h : (quoted style position cs).kind ≠ .invalid) :
    Again (quoted style position) (quoted style position cs) := by
  have hquote : style.mark ≠ '.' := by cases style <;> decide
  have hsome {cs text rest : List Char} {ps : List Placeholder}
      (h : quotedBody? style.mark (position.after style.mark) cs = some (ps, text, rest)) :
      quoted style position cs = ⟨.quoted style ps, style.mark :: text, rest⟩ := by
    rw [quoted, h]
  cases hbody : quotedBody? style.mark (position.after style.mark) cs with
  | none => exact absurd (by rw [quoted, hbody]) h
  | some found =>
    obtain ⟨ps, text, rest⟩ := found
    rw [hsome hbody]
    exact ⟨_, text, rfl, fun more => hsome (quotedBody?_again hquote hbody more)⟩

theorem raw_again (h : (raw cs).kind ≠ .invalid) : Again raw (raw cs) := by
  have hsome {cs text rest : List Char} (h : rawBody? cs = some (text, rest)) :
      raw cs = ⟨.rawText, '\x60' :: text, rest⟩ := by rw [raw, h]
  cases hbody : rawBody? cs with
  | none => exact absurd (by rw [raw, hbody]) h
  | some found =>
    obtain ⟨text, rest⟩ := found
    rw [hsome hbody]
    exact ⟨_, text, rfl, fun more => hsome (rawBody?_again hbody more)⟩

theorem blockComment_again (h : (slash ('*' :: cs)).kind ≠ .invalid) :
    Again slash (slash ('*' :: cs)) := by
  have hsome {cs text rest : List Char} (h : commentBody? cs = some (text, rest)) :
      slash ('*' :: cs) = ⟨.blockComment, '/' :: '*' :: text, rest⟩ := by rw [slash, h]
  cases hbody : commentBody? cs with
  | none => exact absurd (by rw [slash, hbody]) h
  | some found =>
    obtain ⟨text, rest⟩ := found
    rw [hsome hbody]
    exact ⟨_, '*' :: text, rfl, fun more => hsome (commentBody?_again hbody more)⟩

/-- A block of another language is one with more text behind it. -/
theorem foreign?_extend {l : Lexeme} (h : foreign? cs = some l) (more : List Char) :
    foreign? (cs ++ more) = some (l.extend more) := by
  cases hn : (cs.takeWhile isAsciiLetter).isEmpty with
  | true =>
    rw [foreign?_of_no_tag (.inl hn)] at h
    cases h
  | false =>
    by_cases hd : (cs.dropWhile isAsciiLetter).head? = some '>'
    · obtain ⟨body, hbody⟩ := List.head?_eq_some_iff.1 hd
      obtain ⟨ht, hd⟩ := @span_append isAsciiLetter cs (by simp [hbody]) more
      rw [hbody, List.cons_append] at hd
      rw [foreign?_of_tag hn hbody] at h
      obtain ⟨⟨text, rest⟩, hthrough, rfl⟩ := Option.map_eq_some_iff.1 h
      rw [foreign?_of_tag (by rw [ht, hn]) hd, ht,
        throughTag?_extend hthrough (List.cons_ne_nil _ _)]
      rfl
    · rw [foreign?_of_no_tag (.inr hd)] at h
      cases h

theorem angle_of_foreign? {l : Lexeme} (h : foreign? cs = some l) : angle cs = l := by
  unfold angle
  rw [h]

/-- An equals sign begins no name of a language. -/
theorem angle_equals (cs : List Char) :
    angle ('=' :: cs) = ⟨.mark .lessEqual, ['<', '='], cs⟩ := rfl

/-- A block ends where it does whatever is behind it. -/
theorem foreign_again {l : Lexeme} (h : foreign? cs = some l) : Again angle l := by
  cases hn : (cs.takeWhile isAsciiLetter).isEmpty with
  | true =>
    rw [foreign?_of_no_tag (.inl hn)] at h
    cases h
  | false =>
    by_cases hd : (cs.dropWhile isAsciiLetter).head? = some '>'
    · obtain ⟨body, hbody⟩ := List.head?_eq_some_iff.1 hd
      rw [foreign?_of_tag hn hbody] at h
      obtain ⟨⟨text, rest⟩, hthrough, rfl⟩ := Option.map_eq_some_iff.1 h
      have hletters : ∀ c ∈ cs.takeWhile isAsciiLetter, isAsciiLetter c = true :=
        List.all_eq_true.1 List.all_takeWhile
      have hclose (more : List Char) : Apart isAsciiLetter ('>' :: (text ++ more)) :=
        apart_cons (by decide) _
      refine ⟨_, cs.takeWhile isAsciiLetter ++ '>' :: text, rfl, fun more => ?_⟩
      generalize cs.takeWhile isAsciiLetter = name at *
      have ht := takeWhile_apart hletters (hclose more)
      refine angle_of_foreign? ?_
      rw [List.append_assoc, List.cons_append,
        foreign?_of_tag (by rw [ht, hn]) (dropWhile_apart hletters (hclose more)), ht,
        throughTag?_again (List.cons_ne_nil _ _) hthrough]
      rfl
    · rw [foreign?_of_no_tag (.inr hd)] at h
      cases h

theorem quoted_clip (style : QuoteStyle) (position : Position) (cs : List Char) :
    Clips beyond (quoted style position (cs ++ beyond)) (quoted style position cs) := by
  by_cases hk : (quoted style position (cs ++ beyond)).kind = .invalid
  · refine clips_of_nil ?_
    unfold quoted at hk ⊢
    split at hk
    · cases hk
    · rfl
  · exact (quoted_again hk).clips (cuts_quoted style position _)

theorem raw_clip (cs : List Char) : Clips beyond (raw (cs ++ beyond)) (raw cs) := by
  by_cases hk : (raw (cs ++ beyond)).kind = .invalid
  · refine clips_of_nil ?_
    unfold raw at hk ⊢
    split at hk
    · cases hk
    · rfl
  · exact (raw_again hk).clips (cuts_raw _)

/-- What a slash begins: a comment of either sort, or nothing but itself. -/
theorem slash_cases (cs : List Char) :
    (∃ ds, cs = '/' :: ds) ∨ (∃ ds, cs = '*' :: ds) ∨ Apart (Token.isLonger .slash) cs := by
  cases cs with
  | nil => exact .inr (.inr nofun)
  | cons c ds =>
    by_cases hl : c = '/'
    · exact .inl ⟨ds, by rw [hl]⟩
    by_cases hs : c = '*'
    · exact .inr (.inl ⟨ds, by rw [hs]⟩)
    · exact .inr (.inr (apart_cons (by simp [Token.isLonger, hl, hs]) ds))

/-- A comment or the mark. A line comment goes up to the end of its line, or of the text: both are
in front of the cut. -/
theorem slash_clip (cs : List Char) : Clips beyond (slash (cs ++ beyond)) (slash cs) := by
  rcases slash_cases (cs ++ beyond) with ⟨ds, hcs⟩ | ⟨ds, hcs⟩ | ha
  · intro rest hr
    rw [hcs] at hr ⊢
    replace hr : ds.dropWhile (· != '\n') = rest ++ beyond := hr
    obtain ⟨taken, rfl⟩ : ∃ taken, ds = taken ++ beyond :=
      ⟨ds.takeWhile (· != '\n') ++ rest, by
        rw [List.append_assoc, ← hr, List.takeWhile_append_dropWhile]⟩
    obtain rfl : cs = '/' :: taken := List.append_cancel_right hcs
    obtain ⟨ht, hd⟩ := span_clip hr
    rw [slash, slash, ht, hd]
  · by_cases hk : (slash ('*' :: ds)).kind = .invalid
    · refine clips_of_nil ?_
      rw [hcs]
      unfold slash at hk ⊢
      simp only at hk ⊢
      split at hk
      · cases hk
      · rfl
    · exact Again.clips (hcs ▸ blockComment_again hk) (cuts_slash _)
  · intro rest hr
    have hplain {cs : List Char} (h : Apart (Token.isLonger .slash) cs) :
        slash cs = ⟨.mark .slash, ['/'], cs⟩ := Token.slash_slash h
    rw [hplain ha] at hr ⊢
    obtain rfl : cs = rest := List.append_cancel_right hr
    exact hplain ha.clip

theorem angle_clip (cs : List Char) : Clips beyond (angle (cs ++ beyond)) (angle cs) := by
  cases hlong : foreign? (cs ++ beyond) with
  | some l =>
    exact Again.clips (by rw [angle_of_foreign? hlong]; exact foreign_again hlong) (cuts_angle _)
  | none =>
    have hstops : foreign? cs = none := by
      cases hs : foreign? cs with
      | none => rfl
      | some l => cases (foreign?_extend hs beyond).symm.trans hlong
    intro rest hr
    by_cases hc : (cs ++ beyond).head? = some '='
    · obtain ⟨ds, hcs⟩ := List.head?_eq_some_iff.1 hc
      rw [hcs, angle_equals] at hr ⊢
      obtain rfl : ds = rest ++ beyond := hr
      obtain rfl : cs = '=' :: rest := List.append_cancel_right hcs
      exact angle_equals rest
    · rw [angle_of_none hlong hc] at hr ⊢
      obtain rfl : cs = rest := List.append_cancel_right hr
      refine angle_of_none hstops fun hh => hc ?_
      rw [List.head?_append, hh]
      rfl

/-- **A token in front of a cut is the same without what is behind the cut.** The cases are those
of `scan`, each by the lemma of its reader. -/
theorem scan_clip (position : Position) (c : Char) (cs : List Char) :
    Clips beyond (scan false position c (cs ++ beyond)) (scan false position c cs) := by
  apply scan_alike (R := Clips beyond)
  case hblank => exact fun _ => run_clip .blank isBlank (c :: cs)
  case hhex => exact fun hhex => absurd hhex Bool.false_ne_true
  case hword => exact fun _ => run_clip .word isWord (c :: cs)
  case hnumber => exact fun _ => number_clip (c :: cs)
  case hquoted => exact fun style _ => quoted_clip style position cs
  case hraw => exact fun _ => raw_clip cs
  case hslash => exact fun _ => slash_clip cs
  case hangle => exact fun _ => angle_clip cs
  case hpoints => exact fun _ => points_clip cs
  case hoperator => exact operator_clip c cs

end Lexeme

namespace Token

theorem read?_clip {p : Position} {cs beyond rest : List Char} {t : Token}
    (h : read? false p (cs ++ beyond) = some (t, rest ++ beyond)) (hcs : cs ≠ []) :
    read? false p cs = some (t, rest) := by
  obtain ⟨c, cs, rfl⟩ := List.exists_cons_of_ne_nil hcs
  rw [List.cons_append, read?] at h
  obtain ⟨rfl, hr⟩ := Prod.mk.inj (Option.some.inj h)
  rw [read?, Lexeme.scan_clip p c cs rest hr]
  rfl

/-- **The tokens of a text up to the end of one of them** are the tokens in front of that end. The
induction is on the number of tokens; cutting behind the first one and then behind the others is
cutting once. -/
theorem readAll_clip (p : Position) (cs : List Char) (i : Nat) :
    readAll p (spell ((readAll p cs).take i)) = (readAll p cs).take i := by
  induction i generalizing p cs with
  | zero => rw [List.take_zero, spell_nil, readAll_nil]
  | succ i ih =>
    cases hr : readAll p cs with
    | nil => rw [List.take_nil, spell_nil, readAll_nil]
    | cons t ts =>
      obtain ⟨rest, hread, rfl⟩ := exists_read? hr
      obtain ⟨-, hne, hcut⟩ := read?_eq_some hread
      let ts := readAll t.behind rest
      -- What is behind the first token is cut in the same place.
      have hrest : spell (ts.take i) ++ spell (ts.drop i) = rest := by
        rw [← spell_append, List.take_append_drop, spell_readAll]
      rw [hcut, ← hrest, ← List.append_assoc] at hread
      have hstops := read?_clip hread fun hnil => hne (List.append_eq_nil_iff.1 hnil).1
      rw [List.take_succ_cons, spell_cons, readAll_of_read? hstops, ih]

end Token

end Heddle
