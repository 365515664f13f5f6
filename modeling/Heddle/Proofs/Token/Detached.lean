import Heddle.Grammar.Lookahead
import Heddle.Proofs.Grammar.Disguise
import Heddle.Proofs.Token.Append
import Heddle.Proofs.Token.Leading

/-!
# Texts that what closes them leaves alone

An expression can be closed by a semicolon or by the brace of a placeholder, and its tokens must be
the same in front of either. Two things could go wrong. A text with a quote, a brace, a backslash or
a `<` may be read on into what follows, and such a text is left out (`Text.isInner`). A comment at
the end of the text may hide what follows, and then a semicolon behind the text is no token of its
own. **Where it is one, the text is `Detached`**: each of its tokens ends where it does in front of
everything that closes the text, wherever the text stands.
-/

set_option autoImplicit false

namespace Heddle

open Text

namespace Text

/-- Nothing follows, or something that closes what stands in front of it. -/
def Delimits (more : List Char) : Prop := ∀ c ∈ more.head?, c = ';' ∨ c = '\x7d'

theorem delimits_nil : Delimits [] := nofun

theorem delimits_semicolon (cs : List Char) : Delimits (';' :: cs) := fun _ hc =>
  .inl (Option.some.inj hc).symm

theorem delimits_rightBrace (cs : List Char) : Delimits ('\x7d' :: cs) := fun _ hc =>
  .inr (Option.some.inj hc).symm

theorem Delimits.apart {more : List Char} (h : Delimits more) {p : Char → Bool}
    (hp : p ';' = false ∧ p '\x7d' = false) : Apart p more := by
  intro c hc
  rcases h c hc with rfl | rfl
  · exact hp.1
  · exact hp.2

theorem Delimits.stops {more : List Char} (h : Delimits more) : Stops more := by
  intro c hc
  rcases h c hc with rfl | rfl
  · exact .inl rfl
  · exact .inr (.inr rfl)

/-- What neither ends nor hides anything inside a quoted text, and begins no block of another
language. -/
def isInner (c : Char) : Bool := !(['\x7b', '\x7d', '\x22', '\x27', '\\', '<'].contains c)

end Text

/-! ## Readers in front of what closes a text -/

namespace Lexeme

variable {cs more : List Char}

/-- A semicolon ends no comment. -/
theorem commentBody?_semicolon (h : commentBody? cs = none) :
    commentBody? (cs ++ [';']) = none := by
  fun_induction commentBody? cs with
  | case1 => decide
  | case2 => cases h
  | case3 c cs hc ih =>
    have hne : ∀ rest, c = '*' → cs ++ [';'] = '/' :: rest → False := by
      intro rest hstar hslash
      cases cs with
      | nil => cases hslash
      | cons d cs => exact hc cs hstar (by rw [(List.cons.inj hslash).1])
    rw [List.cons_append, commentBody?, ih (Option.map_eq_none_iff.1 h), Option.map_none]
    exact hne

/-- Nor does it end a raw text. -/
theorem rawBody?_semicolon (h : rawBody? cs = none) : rawBody? (cs ++ [';']) = none := by
  induction cs with
  | nil => decide
  | cons c cs ih =>
    rw [rawBody?] at h
    rw [List.cons_append, rawBody?]
    split at h
    · cases h
    · rw [if_neg ‹_›, ih (Option.map_eq_none_iff.1 h), Option.map_none]

theorem raw_delimited (hr : (raw (cs ++ [';'])).rest ≠ []) :
    raw (cs ++ more) = (raw cs).extend more := by
  cases hq : rawBody? cs with
  | none =>
    rw [raw, rawBody?_semicolon hq] at hr
    exact absurd rfl hr
  | some found => rw [raw, raw, rawBody?_extend hq, hq]; rfl

/-- What a slash begins, in front of what closes the text. A comment that is not finished in front
of the semicolon would have taken it, which `hr` excludes. -/
theorem slash_delimited (hr : (slash (cs ++ [';'])).rest ≠ []) (hm : Delimits more) :
    slash (cs ++ more) = (slash cs).extend more := by
  have hplain {cs : List Char} (h : Apart (fun c => c == '/' || c == '*') cs) :
      slash cs = ⟨.mark .slash, ['/'], cs⟩ := Token.slash_slash h
  cases cs with
  | nil =>
    rw [List.nil_append, hplain (hm.apart (by decide))]
    rfl
  | cons c cs =>
    by_cases hc : c = '/'
    · subst hc
      -- A line comment without an end of its line goes on through the semicolon.
      have hd : cs.dropWhile (· != '\n') ≠ [] := by
        intro hd
        have hall : ∀ d ∈ cs ++ [';'], (d != '\n') = true := by
          intro d hmem
          rcases List.mem_append.1 hmem with hmem | hmem
          · exact List.dropWhile_eq_nil_iff.1 hd d hmem
          · rw [List.mem_singleton.1 hmem]
            decide
        exact hr (List.dropWhile_eq_nil_iff.2 hall)
      obtain ⟨ht, hd⟩ := span_append hd more
      simp only [List.cons_append, slash, ht, hd]
      rfl
    by_cases hs : c = '*'
    · subst hs
      cases hcomment : commentBody? cs with
      | none =>
        simp only [List.cons_append, slash, commentBody?_semicolon hcomment] at hr
        exact absurd rfl hr
      | some found =>
        simp only [List.cons_append, slash, hcomment, commentBody?_extend hcomment]
        rfl
    · have happart (cs : List Char) : Apart (fun c => c == '/' || c == '*') (c :: cs) :=
        apart_cons (by simp [hc, hs]) cs
      rw [List.cons_append, hplain (happart _), hplain (happart _)]
      rfl

/-- **A token that leaves the semicolon alone is the same in front of everything that closes the
text**, and at every place. The cases are those of `scan`; those of a quote and of `<` do not
occur in such a text. -/
theorem scan_delimited {p : Position} {c : Char} (hc : isInner c = true)
    (hr : (scan false p c (cs ++ [';'])).rest ≠ []) (hm : Delimits more) (q : Position) :
    scan false q c (cs ++ more) = (scan false p c cs).extend more := by
  have hne {d : Char} (hd : isInner d = false) : c ≠ d := by
    rintro rfl
    rw [hd] at hc
    cases hc
  have hdouble : c ≠ '\x22' := hne rfl
  have hsingle : c ≠ '\x27' := hne rfl
  have hless : c ≠ '<' := hne rfl
  -- Three readings of `scan` go side by side: in front of the semicolon, in front of `more`,
  -- alone.
  unfold scan at hr ⊢
  rw [← List.cons_append]
  by_cases hblank : isBlank c = true
  · rw [if_pos hblank, if_pos hblank, run, (span_stops (hm.apart (by decide)) _).1,
      (span_stops (hm.apart (by decide)) _).2]
    rfl
  rw [if_neg hblank] at hr
  rw [if_neg hblank, if_neg hblank]
  by_cases hstart : isNameStart c = true
  · rw [if_pos hstart, if_pos hstart]
    exact word_stops hm.stops _
  rw [if_neg hstart] at hr
  rw [if_neg hstart, if_neg hstart]
  by_cases hdigit : isDigit c = true
  · rw [if_pos hdigit, if_pos hdigit]
    exact number_stops hm.stops _
  rw [if_neg hdigit, if_neg hdouble, if_neg hsingle] at hr
  rw [if_neg hdigit, if_neg hdigit, if_neg hdouble, if_neg hdouble, if_neg hsingle,
    if_neg hsingle]
  -- From here on the reader may go as far as the semicolon, so it counts that something is left.
  by_cases hraw : c = '\x60'
  · rw [if_pos hraw] at hr
    rw [if_pos hraw, if_pos hraw]
    exact raw_delimited hr
  rw [if_neg hraw] at hr
  rw [if_neg hraw, if_neg hraw]
  by_cases hslash : c = '/'
  · rw [if_pos hslash] at hr
    rw [if_pos hslash, if_pos hslash]
    exact slash_delimited hr hm
  rw [if_neg hslash, if_neg hslash, if_neg hless, if_neg hless]
  split
  · exact points_stops hm.stops cs
  · exact operator_stops hm.stops c cs

end Lexeme

/-! ## Detached texts -/

/-- A mark in a text has its characters from the text. -/
theorem Token.mem_of_mark {p : Position} {cs : List Char} {t : Token} {m : Mark} {c : Char}
    (ht : t ∈ readAll p cs) (hk : t.kind = .mark m) (hc : c ∈ m.spelling.toList) : c ∈ cs := by
  rw [← text_of_mark ht hk] at hc
  rw [← spell_readAll p cs]
  exact List.mem_flatMap.2 ⟨t, ht, hc⟩

namespace Text

/-- A text of whole tokens, each of which ends where it does whatever closes the text. The tokens
are a part of the definition, so what holds of them is shown by induction on it and no text is
scanned again. -/
inductive Detached : List Char → Prop
  | nil : Detached []
  | token {kind : TokenKind} {cs rest : List Char}
      (leads : ∀ more, Delimits more → Token.Leads kind cs (rest ++ more))
      (inner : ∀ c ∈ cs, isInner c = true) (behind : Detached rest) : Detached (cs ++ rest)

namespace Detached

variable {u : List Char}

/-- A token of one character in front. -/
theorem cons {kind : TokenKind} {c : Char}
    (hl : ∀ more, Delimits more → Token.Leads kind [c] (u ++ more)) (hc : isInner c = true)
    (hu : Detached u) : Detached (c :: u) := by
  have hinner : ∀ d ∈ [c], isInner d = true := fun d hd => List.mem_singleton.1 hd ▸ hc
  have hall : Detached ([c] ++ u) := .token hl hinner hu
  exact hall

/-- A mark of one character, again and again. -/
theorem replicate {m : Mark} {c : Char} (hm : m.spelling.toList = [c])
    (hl : ∀ d, Token.isLonger m d = false) (hc : isInner c = true) (hu : Detached u) (n : Nat) :
    Detached (List.replicate n c ++ u) := by
  induction n with
  | zero => exact hu
  | succ n ih => exact .cons (fun more _ => hm ▸ Token.leads_mark m fun d _ => hl d) hc ih

/-- **A text is detached if a semicolon behind it is a token of its own.** The induction is on the
length of the text. Its first token has left the semicolon alone, as otherwise nothing would be
left for it, so it is the same in front of everything that closes; and what is left of the text
has the same semicolon behind it. -/
theorem of_finished {p : Position} (hu : ∀ c ∈ u, isInner c = true)
    (hf : Finished (Token.readAll p (u ++ [';']))) : Detached u := by
  generalize hn : u.length = n
  induction n using Nat.strong_induction_on generalizing u p with
  | h n ih =>
    cases u with
    | nil => exact .nil
    | cons c cs =>
      rw [List.cons_append, Token.readAll_cons] at hf
      have hcut := Lexeme.cuts_scan false p c (cs ++ [';'])
      have hrest : (Lexeme.scan false p c (cs ++ [';'])).rest ≠ [] := by
        -- The semicolon itself would be the first token.
        intro hr
        rw [hr, Token.readAll_nil] at hf
        rw [Lexeme.Cuts, hr, List.append_nil, Lexeme.text_scan_mark hf.of_singleton] at hcut
        have hlength := congrArg List.length hcut
        simp [Mark.spelling] at hlength
      have hscan {more : List Char} (hm : Delimits more) (q : Position) :=
        Lexeme.scan_delimited (hu c List.mem_cons_self) hrest hm q
      let l := Lexeme.scan false p c cs
      have htext : l.text ++ l.rest = c :: cs := Lexeme.cuts_scan false p c cs
      have hmem {d : Char} (hd : d ∈ l.text ++ l.rest) : isInner d = true :=
        hu d (htext ▸ hd)
      rw [← htext]
      refine @Detached.token l.kind _ _ (fun more hm q => ?_)
        (fun d hd => hmem (List.mem_append_left _ hd)) ?_
      · rw [← List.append_assoc, htext, List.cons_append, Token.readAll_cons, hscan hm q]
        rfl
      · refine ih l.rest.length ?_ (p := p.past l.text)
          (fun d hd => hmem (List.mem_append_right _ hd)) ?_ rfl
        · have hlength := congrArg List.length htext
          have hpos : 0 < l.text.length :=
            List.length_pos_iff.2 (Lexeme.text_scan_ne_nil false p c cs)
          rw [List.length_append] at hlength
          omega
        · have htail := hf.tail
          rw [hscan (delimits_semicolon []) p] at htail
          exact htail

theorem isInner_of_mem (h : Detached u) {c : Char} (hc : c ∈ u) : isInner c = true := by
  induction h with
  | nil => cases hc
  | token leads inner behind ih => exact (List.mem_append.1 hc).elim (inner c) ih

/-- The tokens of what closes the text follow those of the text. -/
theorem readAll (h : Detached u) {more : List Char} (hm : Delimits more) (p : Position) :
    Token.readAll p (u ++ more) = Token.readAll p u ++ Token.readAll (p.past u) more := by
  induction h generalizing p with
  | nil =>
    rw [Token.readAll_nil]
    rfl
  | @token kind cs rest leads inner behind ih =>
    have hnil := leads [] delimits_nil p
    rw [List.append_nil] at hnil
    rw [List.append_assoc, leads more hm p, ih, hnil, Position.past_append]
    rfl

theorem finished (h : Detached u) (p : Position) : Finished (Token.readAll p (u ++ [';'])) := by
  intro t ht
  have hsemicolon : Token.readAll (p.past u) [';'] = [⟨.mark .semicolon, ";", p.past u⟩] := by
    rw [Token.readAll_cons, Lexeme.scan_semicolon, Token.readAll_nil]
    rfl
  rw [h.readAll (delimits_semicolon []), hsemicolon, List.getLast?_concat] at ht
  rw [← Option.some.inj ht]

/-- The tokens are the same wherever the text stands. -/
theorem unplaced (h : Detached u) (p q : Position) :
    (Token.readAll p u).map (·.unplaced) = (Token.readAll q u).map (·.unplaced) := by
  induction h generalizing p q with
  | nil => rw [Token.readAll_nil, Token.readAll_nil]
  | @token kind cs rest leads inner behind ih =>
    have hleads := leads [] delimits_nil
    rw [List.append_nil] at hleads
    rw [hleads p, hleads q, List.map_cons, List.map_cons, ih (p.past cs) (q.past cs)]
    rfl

/-- A mark of other characters is not among the tokens. -/
theorem ne_mark (h : Detached u) {m : Mark} (hm : ∃ c ∈ m.spelling.toList, isInner c = false)
    {p : Position} {t : Token} (ht : t ∈ Token.readAll p u) : t.kind ≠ .mark m := by
  intro hk
  obtain ⟨c, hc, hinner⟩ := hm
  rw [h.isInner_of_mem (Token.mem_of_mark ht hk hc)] at hinner
  cases hinner

/-- There are no braces among them, nor in front of a semicolon behind the text. -/
theorem isMark_brace (h : Detached u) {m : Mark} (hm : m = .leftBrace ∨ m = .rightBrace)
    {p : Position} {t : Token} (ht : t ∈ Token.readAll p (u ++ [';'])) : t.isMark m = false := by
  refine beq_eq_false_iff_ne.2 ?_
  rw [h.readAll (delimits_semicolon [])] at ht
  rcases List.mem_append.1 ht with ht | ht
  · refine h.ne_mark ?_ ht
    rcases hm with rfl | rfl
    · exact ⟨'\x7b', by simp [Mark.spelling], rfl⟩
    · exact ⟨'\x7d', by simp [Mark.spelling], rfl⟩
  · rw [Token.readAll_cons, Lexeme.scan_semicolon, Token.readAll_nil, List.mem_singleton] at ht
    rw [ht]
    rcases hm with rfl | rfl <;> exact nofun

end Detached

/-- A token without quotes is no quoted text. -/
theorem placeholders?_of_leads {kind : TokenKind} {cs rest : List Char}
    (h : Token.Leads kind cs rest) (hc : ∀ c ∈ cs, isInner c = true) :
    kind.placeholders? = none := by
  cases kind with
  | quoted style ps =>
    have hread := h .origin
    obtain ⟨-, hne, -⟩ := Token.readAll_eq_cons hread
    obtain ⟨c, rest', he, ht⟩ := Token.exists_scan hread
    obtain ⟨d, ds, rfl⟩ : ∃ d ds, cs = d :: ds := by
      refine List.exists_cons_of_ne_nil fun hnil => hne ?_
      rw [hnil]
      rfl
    obtain ⟨rfl, -⟩ := List.cons.inj he
    have hkind := congrArg Token.kind ht
    obtain ⟨rfl, -⟩ := Lexeme.scan_quoted hkind.symm
    have hmark := hc style.mark List.mem_cons_self
    cases style <;> cases hmark
  | _ => rfl

end Text

end Heddle
