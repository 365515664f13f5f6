import Heddle.Proofs.Grammar.Local
import Heddle.Proofs.Grammar.Rules
import Heddle.Proofs.Token.Append
import Heddle.Proofs.Token.Loose
import Heddle.Proofs.Tree.Pruned

/-!
# More text behind a finished one

A reading that makes no mistake reads a finished text as it would if more text followed: it takes
the same, reports the same, and leaves what it left with the additional text behind it.

The reading looks ahead without bound, so this needs more than that the looks are `StopsAtEnd`: they
are so where every bracket ahead is closed in order, and where there is something ahead at all.
`Standing` says both of a tape in terms of the `Hold` that the condition of a rule carries. **That
an error-free reading leaves every bracket closed is not assumed but comes out of the reading**: a
construct that succeeds takes as many brackets as it closes, so what is open in front of it is open
behind it, and this goes through the whole text to its end, where nothing is open.
-/

set_option autoImplicit false

namespace Heddle

/-! ## Attempts without errors -/

namespace Attempt

/-- Nothing went wrong, inside the attempt or with it. A list of statements never fails, so of a
text it is the second part that counts. -/
structure Clean (a : Attempt) : Prop where
  succeeds : a.failure = none
  silent : a.trace.diagnostics = []

theorem Clean.of_behind {a : Attempt} {lead : Trace} (h : (a.behind lead).Clean) : a.Clean := by
  obtain ⟨hf, hs⟩ := h
  rw [trace_behind, Trace.diagnostics_append, List.append_eq_nil_iff] at hs
  exact ⟨hf, hs.2⟩

/-- What is clean as a whole is clean in both parts. The third part says what the whole is then,
which saves every user the case distinction. -/
theorem Clean.of_andThen {a : Attempt} {next : Tape → Attempt} (h : (a.andThen next).Clean) :
    a.Clean ∧ (next a.tape).Clean ∧ a.andThen next = (next a.tape).behind a.trace := by
  obtain ⟨hf, hs⟩ := h
  obtain ⟨ha, hn, he⟩ := andThen_succeeds hf
  rw [he, trace_behind, Trace.diagnostics_append, List.append_eq_nil_iff] at hs
  exact ⟨⟨ha, hs.1⟩, ⟨hn, hs.2⟩, he⟩

theorem Clean.of_framed {a : Attempt} {file : Option String} {kind : NodeKind} {start : Position}
    (h : (a.framed file kind start).Clean) : a.Clean := by
  obtain ⟨hf, hs⟩ := h
  rw [failure_framed] at hf
  refine ⟨hf, ?_⟩
  simpa [framed, hf] using hs

/-- A statement that had to be skipped is not without an error. -/
theorem Clean.of_recovered {a : Attempt} {file : Option String} {inBlock : Bool}
    (h : (recovered file inBlock a).Clean) : a.Clean ∧ recovered file inBlock a = a := by
  unfold recovered at h ⊢
  split at h <;> rename_i hf
  · have hs := h.of_behind.silent
    rw [recover, trace_behind, Trace.diagnostics_append] at hs
    cases hs
  · exact ⟨h, rfl⟩

end Attempt

/-! ## Tapes with more text -/

namespace Tape

/-- The tape of a text that is followed by more. That it is the tape of the longer text has to be
proved (`extend_eq`), since the last token could have gone on. -/
def extend (tape : Tape) (more : List Char) : Tape :=
  ⟨tape.ahead ++ Token.readAll tape.stop more, tape.stop.past more, tape.reach⟩

variable {tape : Tape} (more : List Char)

theorem ahead_extend : (tape.extend more).ahead = tape.ahead ++ Token.readAll tape.stop more := rfl

theorem ahead_extend_of_cons {t : Token} {ts : List Token} (ha : tape.ahead = t :: ts) :
    (tape.extend more).ahead = t :: (ts ++ Token.readAll tape.stop more) := by
  rw [ahead_extend, ha, List.cons_append]

theorem extend_eq (h : tape.Lexed) (hs : Token.Seam tape.ahead more)
    (hm : ¬ ['<', '/'] <:+: more) :
    tape.extend more = .ofText tape.place (tape.text ++ more) tape.reach := by
  rw [h.ahead] at hs
  rw [ofText, Token.readAll_append hs hm, Position.past_append, ← h.ahead, ← h.stop]
  rfl

theorem lexed_extend (h : tape.Lexed) (hs : Token.Seam tape.ahead more)
    (hm : ¬ ['<', '/'] <:+: more) : (tape.extend more).Lexed := by
  rw [extend_eq more h hs hm]
  exact lexed_ofText _ _ _

/-- More text begins where the tape stops. -/
theorem place_extend : (tape.extend more).place = tape.place := by
  unfold place
  rw [ahead_extend]
  cases tape.ahead with
  | cons t ts => rfl
  | nil =>
    cases hr : Token.readAll tape.stop more with
    | nil =>
      rw [Token.readAll_eq_nil hr]
      rfl
    | cons t ts => exact (Token.readAll_eq_cons hr).1

theorem take_extend (tag : DataTag) (hn : tape.ahead ≠ []) :
    (tape.extend more).take tag = ((tape.take tag).1, (tape.take tag).2.extend more) := by
  obtain ⟨t, ts, ha⟩ := List.exists_cons_of_ne_nil hn
  rw [take_of_cons tag ha, take_of_cons tag (ahead_extend_of_cons more ha)]
  rfl

theorem takeMany_extend (tag : DataTag) {n : Nat} (hn : n ≤ tape.ahead.length) :
    (tape.extend more).takeMany tag n =
      ((tape.takeMany tag n).1, (tape.takeMany tag n).2.extend more) := by
  induction n generalizing tape with
  | zero => rfl
  | succ n ih =>
    have hne : tape.ahead ≠ [] := by
      rintro he
      rw [he] at hn
      exact Nat.not_succ_le_zero _ hn
    have hle : n ≤ (tape.take tag).2.ahead.length := by
      rw [ahead_take, List.length_tail]
      omega
    rw [takeMany_succ, takeMany_succ, take_extend more tag hne, ih hle]

/-- The trivia in front of a text that is not all trivia ends in it. -/
theorem takeTrivia_extend_of_ne (hd : tape.ahead.dropWhile Token.isTrivia ≠ []) :
    (tape.extend more).takeTrivia = (tape.takeTrivia.1, tape.takeTrivia.2.extend more) := by
  have hw : (tape.extend more).ahead.takeWhile (·.kind.isTrivia) =
      tape.ahead.takeWhile (·.kind.isTrivia) := by
    rw [ahead_extend, List.takeWhile_append, if_neg]
    intro hl
    -- All trivia would be the whole text.
    have hall := congrArg List.length (List.takeWhile_append_dropWhile
      (p := Token.isTrivia) (l := tape.ahead))
    rw [List.length_append] at hall
    exact hd (List.length_eq_zero_iff.1 (Nat.add_eq_left.1 (hall.trans hl.symm)))
  rw [takeTrivia, takeTrivia, hw]
  exact takeMany_extend more .whitespace (List.takeWhile_prefix _).length_le

/-- The trivia in front of a finished text ends in it, since its semicolon is none. -/
theorem takeTrivia_extend (hf : Finished tape.ahead) (hn : tape.ahead ≠ []) :
    (tape.extend more).takeTrivia = (tape.takeTrivia.1, tape.takeTrivia.2.extend more) :=
  takeTrivia_extend_of_ne more (hf.dropWhile_ne_nil hn)

end Tape

/-- The attempt on a text that is followed by more. -/
def Attempt.extend (a : Attempt) (more : List Char) : Attempt :=
  { a with tape := a.tape.extend more }

/-! ## Standing in a finished text -/

/-- The tape is the rest of a finished text. The brackets that are open in front of it are those
of the hold and `outer` around them; the hold is the part that the rule itself knows of. -/
structure Standing (g : Hold) (outer : List Mark) (tape : Tape) : Prop where
  nested : nest (g.opened ++ outer) tape.ahead = some []
  finished : Finished tape.ahead
  done : tape.ahead = [] → g.done = true

namespace Standing

variable {g : Hold} {outer : List Mark} {tape : Tape}

/-- Where something has to follow, something does. -/
theorem ahead_ne_nil (h : Standing g outer tape) (hl : g.Live) : tape.ahead ≠ [] := by
  intro he
  rcases hl with hd | ho
  · rw [h.done he] at hd
    cases hd
  · have hn := h.nested
    rw [he] at hn
    exact ho (List.append_eq_nil_iff.1 (Option.some.inj hn)).1

/-- No look ahead sees what is behind the text, as long as something of the text has to follow. -/
theorem look (h : Standing g outer tape) (hl : g.Live) {test : Lookahead} (ht : test.Local)
    (more : List Char) : test (tape.extend more).ahead = test tape.ahead :=
  ht.stopsAtEnd _ _ _ (.inl ⟨h.ahead_ne_nil hl, h.finished, h.nested⟩)

/-- What a rule has opened is around the constructs in it. -/
theorem inward (h : Standing g outer tape) (hl : g.Live) :
    Standing .start (g.opened ++ outer) tape :=
  ⟨h.nested, h.finished, fun he => absurd he (h.ahead_ne_nil hl)⟩

end Standing

namespace Attempt

/-! ## Readers that look inside tokens -/

/-- The reader takes the token to pieces and sees nothing else. Quoted texts and blocks of other
languages are read in this way, so what follows them does not matter for a simple reason. -/
def TakesApart (read : Tape → Attempt) (t : Token) : Prop :=
  ∃ trace, ∀ (tape : Tape) ts, tape.ahead = t :: ts →
    read tape = ofTaken (trace, { tape with ahead := ts, reach := t.stop })

theorem takesApart_foreign {t : Token} (h : t.isForeign = true) : TakesApart foreign t := by
  cases hk : t.kind with
  | foreign language =>
    refine ⟨(foreign ⟨[t], t.behind, 0⟩).trace, fun tape ts ha => ?_⟩
    simp only [foreign, ha, hk, ofTaken]
  | _ => simp [Token.isForeign, hk] at h

theorem takesApart_quoted (file : Option String) (inside : Bool → Tape → Attempt) {t : Token}
    (h : t.isQuoted = true) : TakesApart (quoted file inside) t := by
  cases hk : t.kind with
  | quoted style ps =>
    refine ⟨(quoted file inside ⟨[t], t.behind, 0⟩).trace, fun tape ts ha => ?_⟩
    simp only [quoted, ha, hk]
    cases ps <;> rfl
  | _ => simp [Token.isQuoted, TokenKind.placeholders?, hk] at h

/-- The semicolon of a text is behind all that the digits of a color cut anew. -/
theorem hexDigits_seam {tape : Tape} (h : tape.Lexed) (hf : Finished tape.ahead)
    (hn : tape.ahead ≠ []) : ∃ xs ys zs, tape.ahead = xs ++ zs ∧
      (hexDigits tape).tape.ahead = ys ++ zs ∧ zs ≠ [] ∧
      ∀ t ∈ ys, t.kind.isBracket = false ∧ t.kind ≠ .mark .semicolon := by
  obtain ⟨xs, ys, zs, hx, hy, hxs, hys⟩ := hexDigits_agree h
  refine ⟨xs, ys, zs, hx, hy, ?_, hys⟩
  rintro rfl
  obtain ⟨u, hu, hk⟩ := hf.exists_last hn
  rw [hx, List.append_nil] at hu
  exact (hxs u hu).2 hk

theorem finished_hexDigits {tape : Tape} (h : tape.Lexed) (hf : Finished tape.ahead)
    (hn : tape.ahead ≠ []) :
    Finished (hexDigits tape).tape.ahead ∧ (hexDigits tape).tape.ahead ≠ [] := by
  obtain ⟨xs, ys, zs, hx, hy, hzs, -⟩ := hexDigits_seam h hf hn
  rw [hy]
  exact ⟨(hx ▸ hf).right.behind hzs ys, fun he => hzs (List.append_eq_nil_iff.1 he).2⟩

/-- What is ahead of a color is sealed if it can not go on with what follows. -/
theorem sealed_text {tape : Tape} {more : List Char} (h : tape.Lexed)
    (hs : Token.Seam tape.ahead more) (hn : tape.ahead ≠ []) : Text.Sealed tape.text :=
  Token.sealed_of_seam (h.ahead ▸ hs) fun he => hn (h.ahead_eq_nil he)

/-- The digits of a color are the same whatever follows, if neither the text in front of them nor
that behind them can go on with it. Both seams are needed because the text is cut anew behind the
digits. -/
theorem hexDigits_extend {tape : Tape} {more : List Char} (h : tape.Lexed)
    (hs : Token.Seam tape.ahead more) (hrest : Token.Seam (hexDigits tape).tape.ahead more)
    (hn : tape.ahead ≠ []) (hf : (hexDigits tape).failure = none)
    (hm : ¬ ['<', '/'] <:+: more) :
    hexDigits (tape.extend more) =
      { hexDigits tape with tape := (hexDigits tape).tape.extend more } := by
  rcases hexDigits_cases h with he | ⟨t, rest, hr, hk, he⟩
  · rw [he] at hf
    cases hf
  obtain ⟨hp, -, hc⟩ := Token.read?_eq_some hr
  have hspell : Token.spell (tape.extend more).ahead = tape.text ++ more := by
    rw [Tape.ahead_extend, Token.spell_append, Token.spell_readAll]
    rfl
  replace hrest : Token.Seam (Token.readAll t.behind rest) more := by
    rw [he] at hrest
    exact hrest
  have hstop : tape.stop = t.behind.past rest := by
    rw [h.stop, hc, Position.past_append, Token.behind, hp]
  rw [he]
  unfold Attempt.hexDigits
  rw [Tape.place_extend, hspell, Token.read?_append (sealed_text h hs hn) hr hk hm]
  simp only [if_pos hk, Token.readAll_append hrest hm, Tape.extend, ofTaken, Tape.ofText, hstop]

/-- Digits that are there with more text behind them are there without. -/
theorem hexDigits_of_extend {tape : Tape} {more : List Char} (h : tape.Lexed)
    (hs : Token.Seam tape.ahead more) (hn : tape.ahead ≠ []) (hm : ¬ ['<', '/'] <:+: more)
    (hf : (hexDigits (tape.extend more)).failure = none) : (hexDigits tape).failure = none := by
  rcases hexDigits_cases (tape.lexed_extend more h hs hm) with he | ⟨t, rest, hr, hk, -⟩
  · rw [he] at hf
    cases hf
  have htext : (tape.extend more).text = tape.text ++ more := by
    rw [Tape.text, Tape.ahead_extend, Token.spell_append, Token.spell_readAll]
    rfl
  rw [tape.place_extend more, htext] at hr
  obtain ⟨t', rest', hr', hk'⟩ := Token.read?_of_append (sealed_text h hs hn) hr hk
  unfold Attempt.hexDigits
  rw [show Token.read? true tape.place (Token.spell tape.ahead) = some (t', rest') from hr']
  simp only [if_pos hk']
  rfl

/-- The attempt `a` that `read` made on the tape goes from one hold to another, and whatever
follows a finished text, `read` makes the same attempt. The first three parts are what makes the
next step stand in a finished text again. -/
structure Extends (read : Tape → Attempt) (tape : Tape) (a : Attempt) (g g' : Hold) : Prop where
  nested : ∀ outer, nest (g.opened ++ outer) tape.ahead = nest (g'.opened ++ outer) a.tape.ahead
  finished : ∀ outer, Standing g outer tape → Finished a.tape.ahead
  done : ∀ outer, Standing g outer tape → a.tape.ahead = [] → g'.done = true
  agrees : ∀ outer, Standing g outer tape → ∀ more, ¬ ['<', '/'] <:+: more →
    read (tape.extend more) = a.extend more

namespace Extends

variable {read next : Tape → Attempt} {tape : Tape} {a b : Attempt} {g g₁ g₂ : Hold}
  {outer : List Mark}

theorem standing (h : Extends read tape a g g₁) (hs : Standing g outer tape) :
    Standing g₁ outer a.tape :=
  ⟨(h.nested outer).symm.trans hs.nested, h.finished outer hs, h.done outer hs⟩

theorem nothing (tape : Tape) (g : Hold) :
    Extends (fun tape => ofTaken (.nil, tape)) tape (ofTaken (.nil, tape)) g g :=
  ⟨fun _ => rfl, fun _ hs => hs.finished, fun _ hs => hs.done, fun _ _ _ _ => rfl⟩

/-- One attempt behind the other. -/
theorem behind (h : Extends read tape a g g₁) (hf : a.failure = none)
    (hn : Extends next a.tape b g₁ g₂) :
    Extends (fun tape => (read tape).andThen next) tape (b.behind a.trace) g g₂ := by
  refine ⟨fun outer => (h.nested outer).trans (hn.nested outer), ?_, ?_, ?_⟩
  · intro outer hs
    exact hn.finished outer (h.standing hs)
  · intro outer hs
    exact hn.done outer (h.standing hs)
  · intro outer hs more hm
    show (read (tape.extend more)).andThen next = _
    have hx : (a.extend more).failure = none := hf
    rw [h.agrees outer hs more hm, andThen_of_none hx]
    show (next (a.tape.extend more)).behind a.trace = _
    rw [hn.agrees outer (h.standing hs) more hm]
    rfl

/-- The same reading in another form. -/
theorem congr {read' : Tape → Attempt} (h : Extends read tape a g g₁)
    (hr : ∀ outer, Standing g outer tape → ∀ more, ¬ ['<', '/'] <:+: more →
      read' (tape.extend more) = read (tape.extend more)) : Extends read' tape a g g₁ :=
  ⟨h.nested, h.finished, h.done, fun outer hs more hm =>
    (hr outer hs more hm).trans (h.agrees outer hs more hm)⟩

/-- A reading that goes one of two ways, and the same way if more text follows. -/
theorem exists_of_branch {Q : Hold → List Token → Prop} {way : Bool} {yes no : Tape → Attempt}
    (hread : read tape = if way then yes tape else no tape)
    (hmore : ∀ outer, Standing g outer tape → ∀ more, read (tape.extend more) =
      if way then yes (tape.extend more) else no (tape.extend more))
    (hy : way = true → (yes tape).Clean →
      ∃ g', Q g' (yes tape).tape.ahead ∧ Extends yes tape (yes tape) g g')
    (hn : way = false → (no tape).Clean →
      ∃ g', Q g' (no tape).tape.ahead ∧ Extends no tape (no tape) g g')
    (hclean : (read tape).Clean) :
    ∃ g', Q g' (read tape).tape.ahead ∧ Extends read tape (read tape) g g' := by
  rw [hread] at hclean ⊢
  cases way with
  | true =>
    obtain ⟨g', hQ, hx⟩ := hy rfl hclean
    exact ⟨g', hQ, hx.congr fun outer hs more _ => hmore outer hs more⟩
  | false =>
    obtain ⟨g', hQ, hx⟩ := hn rfl hclean
    exact ⟨g', hQ, hx.congr fun outer hs more _ => hmore outer hs more⟩

/-- A token that a rule takes, with the brackets that it opens or closes. -/
theorem take {tag : DataTag} {t : Token} {ts : List Token} (ha : tape.ahead = t :: ts)
    (hg : g.take tag t.kind = some g₁) :
    Extends (fun tape => ofTaken (tape.take tag)) tape (ofTaken (tape.take tag)) g g₁ := by
  have hx : (tape.take tag).2.ahead = ts := by rw [Tape.ahead_take, ha, List.tail_cons]
  have hturn := Hold.turn_of_take hg
  have hfinished (outer : List Mark) (hs : Standing g outer tape) : Finished (t :: ts) :=
    ha ▸ hs.finished
  refine ⟨?_, ?_, ?_, ?_⟩
  · intro outer
    show nest _ _ = nest _ (tape.take tag).2.ahead
    rw [hx, ha, nest_cons, TokenKind.turn_append hturn.1]
    rfl
  · intro outer hs
    show Finished (tape.take tag).2.ahead
    rw [hx]
    exact (hfinished outer hs).tail
  · intro outer hs he
    rw [tape_ofTaken, hx] at he
    subst he
    -- The last token is the semicolon, which is what the hold says.
    rw [hturn.2, (hfinished outer hs).of_singleton]
    rfl
  · intro outer hs more _
    show ofTaken ((tape.extend more).take tag) = _
    rw [Tape.take_extend more tag (by rw [ha]; exact List.cons_ne_nil _ _)]
    rfl

theorem trivia (tape : Tape) (hl : g.Live) :
    Extends (fun tape => ofTaken tape.takeTrivia) tape (ofTaken tape.takeTrivia) g g := by
  have hx := tape.ahead_takeTrivia
  refine ⟨?_, ?_, ?_, ?_⟩
  · intro outer
    show _ = nest _ tape.takeTrivia.2.ahead
    rw [hx, nest_dropWhile]
  · intro outer hs
    show Finished tape.takeTrivia.2.ahead
    rw [hx]
    exact hs.finished.dropWhile _
  · intro outer hs he
    rw [tape_ofTaken, hx] at he
    exact absurd he (hs.finished.dropWhile_ne_nil (hs.ahead_ne_nil hl))
  · intro outer hs more _
    show ofTaken (tape.extend more).takeTrivia = _
    rw [Tape.takeTrivia_extend more hs.finished (hs.ahead_ne_nil hl)]
    rfl

/-- A reading of one token that is neither a bracket nor a semicolon. -/
theorem token {t : Token} {ts : List Token} (ha : tape.ahead = t :: ts)
    (hk : t.kind.isBracket = false ∧ t.kind ≠ .mark .semicolon) (hr : TakesApart read t) :
    Extends read tape (read tape) g ⟨g.opened, false⟩ := by
  obtain ⟨trace, hr⟩ := hr
  have hx : (read tape).tape.ahead = ts := by rw [hr tape ts ha]; rfl
  refine ⟨?_, ?_, ?_, ?_⟩
  · intro outer
    rw [hx, ha, nest_cons, TokenKind.turn_of_not_isBracket hk.1]
    rfl
  · intro outer hs
    rw [hx]
    exact (ha ▸ hs.finished : Finished (t :: ts)).tail
  · intro outer hs he
    rw [hx] at he
    subst he
    -- A text that ends here would end without its semicolon.
    exact absurd (ha ▸ hs.finished : Finished [t]).of_singleton hk.2
  · intro outer hs more _
    rw [hr tape ts ha, hr _ _ (Tape.ahead_extend_of_cons more ha)]
    rfl

theorem foreign {t : Token} {ts : List Token} (ha : tape.ahead = t :: ts)
    (hf : t.isForeign = true) : Extends foreign tape (foreign tape) g ⟨g.opened, false⟩ :=
  token ha (Token.plain_isForeign t hf) (takesApart_foreign hf)

theorem quoted {file : Option String} {inside : Bool → Tape → Attempt}
    (hq : Lookahead.next Token.isQuoted tape.ahead = true) :
    Extends (quoted file inside) tape (quoted file inside tape) g ⟨g.opened, false⟩ := by
  obtain ⟨t, ts, ha, ht⟩ := Lookahead.exists_of_next hq
  exact token ha (Token.plain_isQuoted t ht) (takesApart_quoted file inside ht)

/-- The digits of a color end in front of the semicolon at the latest. -/
theorem hexDigits (h : tape.Lexed) (hf : (hexDigits tape).failure = none) :
    Extends hexDigits tape (hexDigits tape) g ⟨g.opened, false⟩ := by
  obtain ⟨xs, ys, zs, hx, hy, hxs, hys⟩ := hexDigits_agree h
  have hn : tape.ahead ≠ [] := by
    intro hn
    rw [Attempt.hexDigits, hn] at hf
    cases hf
  refine ⟨?_, fun outer hs => (finished_hexDigits h hs.finished hn).1, ?_, ?_⟩
  · intro outer
    rw [hx, hy, nest_of_plain fun t ht => (hxs t ht).1, nest_of_plain fun t ht => (hys t ht).1]
  · exact fun outer hs hd => absurd hd (finished_hexDigits h hs.finished hn).2
  · intro outer hs more hm
    exact hexDigits_extend h (.of_finished hs.finished more)
      (.of_finished (finished_hexDigits h hs.finished hn).1 more) hn hf hm

/-- What is said of a construct by itself holds whatever the rule around it has opened. The
brackets of that rule are around it and untouched. -/
theorem raise {done : Bool} (h : Extends read tape a .start ⟨[], done⟩) (hl : g.Live) :
    Extends read tape a g ⟨g.opened, done⟩ :=
  ⟨fun outer => h.nested (g.opened ++ outer), fun _ hs => h.finished _ (hs.inward hl),
    fun _ hs => h.done _ (hs.inward hl), fun _ hs => h.agrees _ (hs.inward hl)⟩

theorem framed (h : Extends read tape a g g₁) (file : Option String) (kind : NodeKind) :
    Extends (fun tape => (read tape).framed file kind tape.place) tape
      (a.framed file kind tape.place) g g₁ := by
  refine ⟨?_, ?_, ?_, ?_⟩
  · intro outer
    rw [tape_framed]
    exact h.nested outer
  · intro outer hs
    rw [tape_framed]
    exact h.finished outer hs
  · intro outer hs
    rw [tape_framed]
    exact h.done outer hs
  · intro outer hs more hm
    show (read (tape.extend more)).framed file kind (tape.extend more).place = _
    rw [h.agrees outer hs more hm, Tape.place_extend]
    unfold Attempt.framed Attempt.extend
    cases a.failure <;> rfl

/-- A construct goes on like its inside. -/
theorem enter {p : Production} {o : Options} {inside : Tape → Attempt} {done : Bool}
    (h : tape.Lexed) (hc : (p.enter o inside tape).Clean)
    (hi : ∀ start : Tape, start.Lexed → start.ahead = p.front tape.ahead → (inside start).Clean →
      Extends inside start (inside start) .start ⟨[], done⟩) :
    Extends (p.enter o inside) tape (p.enter o inside tape) .start ⟨[], done⟩ := by
  have hl : Hold.start.Live := Hold.live_of_not_done _
  have henter := p.enter_eq o inside
  cases hk : p.keepsTrivia with
  | true =>
    simp only [hk, if_true] at henter
    rw [henter] at hc ⊢
    rw [funext henter]
    exact (hi tape h (by rw [Production.front, if_pos hk]) hc.of_framed).framed _ _
  | false =>
    simp only [hk, Bool.false_eq_true, if_false] at henter
    rw [henter] at hc ⊢
    rw [funext henter]
    obtain ⟨-, hb, he⟩ := hc.of_andThen
    have hlexed := (Attempt.conserves.takeTrivia tape h).lexed
    have hfront : tape.takeTrivia.2.ahead = p.front tape.ahead := by
      rw [Tape.ahead_takeTrivia, Production.front, hk]
      rfl
    rw [he]
    exact (trivia tape hl).behind rfl ((hi _ hlexed hfront hb.of_framed).framed _ _)

end Extends

/-! ## Lists of statements -/

/-- The attempt `a` that `read` made on the tape ends a list of statements or stops at the end of
the text, and whatever follows a finished text, `read` goes on from there. Unlike `Extends` it
lets the reading go on into what follows, as a list of statements does. -/
structure Continues (read : Tape → Attempt) (inBlock : Bool) (tape : Tape) (a : Attempt) :
    Prop where
  ends : EndsList inBlock a.tape.ahead
  nested : ∀ opened, nest opened tape.ahead = nest opened a.tape.ahead
  finished : ∀ opened, nest opened tape.ahead = some [] → Finished tape.ahead →
    Finished a.tape.ahead
  agrees : ∀ opened, nest opened tape.ahead = some [] → Finished tape.ahead →
    ∀ more, ¬ ['<', '/'] <:+: more →
      read (tape.extend more) = (read (a.tape.extend more)).behind a.trace

/-- Where a list ends is seen at its next token. -/
theorem endsList_append {inBlock : Bool} {ts : List Token} (hn : ts ≠ []) (more : List Token) :
    EndsList inBlock (ts ++ more) ↔ EndsList inBlock ts := by
  obtain ⟨t, ts, rfl⟩ := List.exists_cons_of_ne_nil hn
  simp [EndsList]

theorem takeTrivia_of_nil {tape : Tape}
    (h : tape.ahead.takeWhile (·.kind.isTrivia) = []) : tape.takeTrivia = (.nil, tape) := by
  rw [Tape.takeTrivia, h]
  rfl

section statements

variable {file : Option String} {inBlock : Bool} {statement : Tape → Attempt} {tape : Tape}

/-- The brace that ends the list is in front. -/
theorem statements_of_brace {t : Token} {ts : List Token} (ha : tape.ahead = t :: ts)
    (hk : t.kind = .mark .rightBrace) (rounds : Nat) :
    statements file true statement rounds tape = ofTaken (.nil, tape) := by
  have ht : tape.takeTrivia = (.nil, tape) :=
    takeTrivia_of_nil (by rw [ha, List.takeWhile_cons_of_neg (by simp [hk, TokenKind.isTrivia])])
  rw [statements_of_ends (by rw [ht]; exact .inr ⟨rfl, t, ts, ha, hk⟩), ht]

theorem Continues.stop (he : EndsList inBlock tape.takeTrivia.2.ahead) :
    Continues (fun tape => statements file inBlock statement tape.size tape) inBlock tape
      (ofTaken tape.takeTrivia) := by
  have hx := tape.ahead_takeTrivia
  refine ⟨he, fun opened => ?_, fun opened _ hf => ?_, fun opened hs hf more hm => ?_⟩
  · rw [tape_ofTaken, hx, nest_dropWhile]
  · show Finished tape.takeTrivia.2.ahead
    rw [hx]
    exact hf.dropWhile _
  by_cases hn : tape.ahead = []
  · have ht : tape.takeTrivia = (.nil, tape) := takeTrivia_of_nil (by rw [hn]; rfl)
    rw [ht]
    rfl
  · obtain he | ⟨rfl, t, ts, ha, hk⟩ := he
    · exact absurd (hx.symm.trans he) (hf.dropWhile_ne_nil hn)
    -- The brace that ends the list is there whatever follows the text.
    have hmore := Tape.ahead_extend_of_cons more ha
    have hfirst := Tape.takeTrivia_extend more hf hn
    simp only [tape_ofTaken, trace_ofTaken]
    rw [statements_of_ends (by rw [hfirst]; exact .inr ⟨rfl, t, _, hmore, hk⟩), hfirst,
      statements_of_brace hmore hk]
    simp [behind, ofTaken]

/-- The step of a list of statements: one statement more in front of a list that goes on. The
statement leaves nothing open, so behind it the text is finished as it was in front of it. -/
theorem Continues.next {b : Attempt} {g : Hold} (h : tape.Lexed)
    (hc : ∀ tape, tape.Lexed → Conserves tape (statement tape))
    (hp : ∀ tape, tape.Lexed → Progress tape (statement tape))
    (hn : ¬ EndsList inBlock tape.takeTrivia.2.ahead)
    (hb : tape.takeTrivia.2.ahead.head?.any (·.isMark .rightBrace) = false)
    (hclean : (statement tape.takeTrivia.2).Clean)
    (hs : Extends statement tape.takeTrivia.2 (statement tape.takeTrivia.2) .start g)
    (hg : g.opened = [])
    (ih : Continues (fun tape => statements file inBlock statement tape.size tape) inBlock
      (statement tape.takeTrivia.2).tape b) :
    Continues (fun tape => statements file inBlock statement tape.size tape) inBlock tape
      ((b.behind (statement tape.takeTrivia.2).trace).behind tape.takeTrivia.1) := by
  have hl : tape.takeTrivia.2.Lexed := (conserves.takeTrivia tape h).lexed
  have hahead : tape.takeTrivia.2.ahead ≠ [] := fun he => hn (.inl he)
  have hne : tape.ahead ≠ [] := (conserves.takeTrivia tape h).ne_nil hahead
  -- The trivia and the statement behind it are one step of the list.
  have hstep := (Extends.trivia tape (Hold.live_of_not_done [])).behind rfl hs
  have hnested (opened : List Mark) :
      nest opened tape.ahead = nest opened (statement tape.takeTrivia.2).tape.ahead := by
    have hall := hstep.nested opened
    rw [hg] at hall
    exact hall
  have hstart {opened : List Mark} (hs : nest opened tape.ahead = some [])
      (hf : Finished tape.ahead) : Standing .start opened tape :=
    ⟨hs, hf, fun he => absurd he hne⟩
  -- The rest of the list is known by the induction hypothesis to go on; what is left is the step
  -- in front of it, on the tape with more text.
  refine ⟨ih.ends, fun opened => (hnested opened).trans (ih.nested opened), ?_, ?_⟩
  · intro opened ho hf
    exact ih.finished opened ((hnested opened).symm.trans ho) (hstep.finished _ (hstart ho hf))
  · intro opened ho hf more hm
    have hfirst := Tape.takeTrivia_extend more hf hne
    have hread := hs.agrees opened
      ((Extends.trivia tape (Hold.live_of_not_done [])).standing (hstart ho hf)) more hm
    have hrecovered : recovered file inBlock ((statement tape.takeTrivia.2).extend more) =
        (statement tape.takeTrivia.2).extend more := by
      unfold recovered
      rw [show ((statement tape.takeTrivia.2).extend more).failure = none from hclean.succeeds]
    show statements file inBlock statement (tape.extend more).size (tape.extend more) = _
    rw [statements_eq hc hp (Tape.lexed_extend more h (.of_finished hf more) hm), hfirst, hread,
      hrecovered,
      andThen_of_none (show ((statement tape.takeTrivia.2).extend more).failure = none from
        hclean.succeeds)]
    · have hrest : statements file inBlock statement _ _ = behind b.trace _ :=
        ih.agrees opened ((hnested opened).symm.trans ho) (hstep.finished _ (hstart ho hf)) more hm
      show behind _ (behind _ (statements file inBlock statement
        ((statement tape.takeTrivia.2).tape.extend more).size
        ((statement tape.takeTrivia.2).tape.extend more))) = _
      rw [hrest]
      simp [behind, Attempt.extend, Trace.append_assoc]
    · rw [hfirst]
      exact fun he => hn ((endsList_append hahead _).1 he)
    · rw [hfirst]
      obtain ⟨t, ts, ha⟩ := List.exists_cons_of_ne_nil hahead
      rw [ha] at hb
      rw [Tape.ahead_extend, ha]
      exact hb

/-- A list of statements goes on behind a finished text if its statements do. -/
theorem continues_statements (hc : ∀ tape, tape.Lexed → Conserves tape (statement tape))
    (hp : ∀ tape, tape.Lexed → Progress tape (statement tape))
    (hs : ∀ tape, tape.Lexed → (statement tape).Clean → ∃ g : Hold, g.opened = [] ∧
      Extends statement tape (statement tape) .start g)
    (h : tape.Lexed)
    (ht : (statements file inBlock statement tape.size tape).trace.diagnostics = []) :
    Continues (fun tape => statements file inBlock statement tape.size tape) inBlock tape
      (statements file inBlock statement tape.size tape) := by
  refine statements_rule (P := fun tape a => a.trace.diagnostics = [] → Continues
    (fun tape => statements file inBlock statement tape.size tape) inBlock tape a) hc hp
    (fun tape _ he _ => .stop he) ?_ ?_ h (Nat.le_refl _) ht
  · -- A brace that closes nothing is an error.
    intro tape b _ _ _ r _ ht
    simp only [r, recover, trace_behind, Trace.diagnostics_append, List.append_eq_nil_iff] at ht
    cases ht.2.1.1
  · intro tape b h hn hb r ih ht
    rw [trace_behind, trace_behind, Trace.diagnostics_append, Trace.diagnostics_append,
      List.append_eq_nil_iff, List.append_eq_nil_iff] at ht
    obtain ⟨-, hr, hbt⟩ := ht
    obtain ⟨hclean, he⟩ := Clean.of_recovered
      (⟨failure_recovered _ _ _, hr⟩ : (recovered file inBlock (statement _)).Clean)
    have hl : tape.takeTrivia.2.Lexed := (conserves.takeTrivia tape h).lexed
    obtain ⟨g, hg, hg'⟩ := hs _ hl hclean
    replace ih := ih hbt
    simp only [r, he] at ih ⊢
    exact .next h hc hp hn hb hclean hg' hg ih

/-- Inside a block the list ends at a brace, and what follows the text is not seen. So a block
extends, although the list in it only continues. -/
theorem Continues.block {a : Attempt} {g : Hold}
    (h : Continues (fun tape => statements file true statement tape.size tape) true tape a)
    (hf : a.failure = none) (ho : g.opened ≠ []) :
    Extends (fun tape => statements file true statement tape.size tape) tape a g
      ⟨g.opened, true⟩ := by
  refine ⟨fun outer => h.nested _, fun outer hs => h.finished _ hs.nested hs.finished,
    fun _ _ _ => rfl, fun outer hs more hm => ?_⟩
  have hnested := (h.nested _).symm.trans hs.nested
  obtain he | ⟨-, t, ts, ha, hk⟩ := h.ends
  · rw [he] at hnested
    exact absurd (List.append_eq_nil_iff.1 (Option.some.inj hnested)).1 ho
  have hrest : statements file true statement (a.tape.extend more).size (a.tape.extend more) =
      ofTaken (.nil, a.tape.extend more) :=
    statements_of_brace (Tape.ahead_extend_of_cons more ha) hk _
  rw [h.agrees _ hs.nested hs.finished more hm, hrest]
  simp [behind, Attempt.extend, ofTaken, hf]

end statements

/-! ## Phrases -/

/-- What the reading of a phrase relies on: what is known of the constructs inside it. They are
taken to begin with nothing open, and `Extends.raise` puts them into the rule around them. -/
structure Extendable (descend : Options → Production → Tape → Attempt) : Prop where
  conserves : ∀ o p tape, tape.Lexed → Conserves tape (descend o p tape)
  progress : ∀ o p tape, p.takes = true → tape.Lexed → Progress tape (descend o p tape)
  construct : ∀ o p tape, tape.Lexed → p.opening (p.front tape.ahead) = true →
    (descend o p tape).Clean →
      Extends (descend o p) tape (descend o p tape) .start ⟨[], p.terminated⟩

namespace Extendable

variable {descend : Options → Production → Tape → Attempt} (hd : Extendable descend)
include hd

theorem conserves_phrase (q : Phrase) (o : Options) {tape : Tape} (h : tape.Lexed) :
    Conserves tape (q.read descend o tape) :=
  Attempt.conserves.phrase hd.conserves q o tape h

/-- A loop whose look says no, and one that goes on behind a round. -/
theorem repeating {test : Lookahead} {body : Phrase} {o : Options} (hl : test.Local)
    (hb : body.takes = true) (ht : test [] = false) {g : Hold} (hg : g.done = false)
    (ih : ∀ tape : Tape, tape.Lexed → test tape.ahead = true → (body.read descend o tape).Clean →
      Extends (body.read descend o) tape (body.read descend o tape) g g)
    {tape : Tape} (h : tape.Lexed)
    (hclean : ((Phrase.repeating test body).read descend o tape).Clean) :
    test ((Phrase.repeating test body).read descend o tape).tape.ahead = false ∧
    Extends ((Phrase.repeating test body).read descend o) tape
      ((Phrase.repeating test body).read descend o tape) g g := by
  have hc (tape : Tape) (h : tape.Lexed) := hd.conserves_phrase body o h
  have hp (tape : Tape) (h : tape.Lexed) :=
    progress_phrase hd.conserves hd.progress body hb o h
  have hone {tape : Tape} (h : tape.Lexed) {outer : List Mark} (hs : Standing g outer tape)
      {more : List Char} (hm : ¬ ['<', '/'] <:+: more) :
      (Phrase.repeating test body).read descend o (tape.extend more) =
        if test tape.ahead then
          (body.read descend o (tape.extend more)).andThen
            ((Phrase.repeating test body).read descend o)
        else ofTaken (.nil, tape.extend more) := by
    rw [← hs.look (.inl hg) hl more]
    exact repeating_eq ht hc hp (tape.lexed_extend more h (.of_finished hs.finished more) hm)
  -- Along with the extension it is shown that the look says no behind the loop, which the
  -- condition of the rule wants to know.
  refine repeating_rule (P := fun tape a => a.Clean → test a.tape.ahead = false ∧
    Extends ((Phrase.repeating test body).read descend o) tape a g g) ht hc hp ?_ ?_ ?_ h
    (Nat.le_refl _) hclean
  · intro tape h hn _
    refine ⟨hn, (Extends.nothing tape g).congr fun outer hs more hm => ?_⟩
    rw [hone h hs hm, if_neg (by simp [hn])]
  · intro tape f h _ hf hclean
    rw [hclean.succeeds] at hf
    cases hf
  · intro tape b h hy hf ih' hclean
    obtain ⟨hfb, hsb⟩ := hclean
    rw [trace_behind, Trace.diagnostics_append, List.append_eq_nil_iff] at hsb
    obtain ⟨hn, hb⟩ := ih' ⟨hfb, hsb.2⟩
    have hfirst := ih tape h hy ⟨hf, hsb.1⟩
    refine ⟨hn, (hfirst.behind hf hb).congr fun outer hs more hm => ?_⟩
    rw [hone h hs hm, if_pos hy]

/-- **A phrase that makes no mistake goes on behind a finished text**, and its condition says
what holds behind it. -/
theorem phrase (q : Phrase) (hq : q.Looks Lookahead.Local) (o : Options) {tape : Tape}
    (h : tape.Lexed) {g : Hold} {Q : Hold → List Token → Prop} (hw : q.wp Q g tape.ahead)
    (hclean : (q.read descend o tape).Clean) :
    ∃ g', Q g' (q.read descend o tape).tape.ahead ∧
      Extends (q.read descend o) tape (q.read descend o tape) g g' := by
  -- The condition of the phrase is followed along with its reading: it gives the hold behind each
  -- step, and with it that something has to follow.
  induction q generalizing tape g Q with
  | empty => exact ⟨g, hw, .nothing tape g⟩
  | take tag =>
    obtain ⟨t, rest, ha, g', hg, hQ⟩ := hw
    refine ⟨g', ?_, .take ha hg⟩
    show Q g' (tape.take tag).2.ahead
    rw [Tape.ahead_take, ha]
    exact hQ
  | trivia =>
    refine ⟨g, ?_, .trivia tape hw.1⟩
    show Q g tape.takeTrivia.2.ahead
    rw [Tape.ahead_takeTrivia]
    exact hw.2
  | node p =>
    obtain ⟨hl, ho, hQ⟩ := hw
    exact ⟨⟨g.opened, p.terminated⟩, hQ _, (hd.construct o p tape h ho hclean).raise hl⟩
  | andThen first second ih₁ ih₂ =>
    obtain ⟨hc₁, hc₂, he⟩ := hclean.of_andThen
    obtain ⟨g₁, hQ₁, hx₁⟩ := ih₁ hq.1 h hw hc₁
    obtain ⟨g₂, hQ₂, hx₂⟩ := ih₂ hq.2 (hd.conserves_phrase first o h).lexed hQ₁ hc₂
    rw [Phrase.read, he]
    exact ⟨g₂, hQ₂, hx₁.behind hc₁.succeeds hx₂⟩
  | choose test yes no ihy ihn =>
    obtain ⟨hl, hy, hn⟩ := hw
    -- The look says the same of the longer text, so both readings go the same way.
    exact Extends.exists_of_branch rfl
      (fun outer hs more => by rw [Phrase.read, hs.look hl hq.1 more])
      (fun ht hclean => ihy hq.2.1 h (hy ht) hclean)
      (fun ht hclean => ihn hq.2.2 h (hn ht) hclean) hclean
  | repeating test body ih =>
    -- The hold in front of a round is the hold behind it, so the loop keeps it.
    obtain ⟨hg, ht, hb, hagain, hQ⟩ := hw
    obtain ⟨hn, hx⟩ := hd.repeating hq.1 hb ht hg (fun tape h hy hclean => by
      obtain ⟨g', rfl, hx⟩ := ih hq.2 h (hagain _ hy) hclean
      exact hx) h hclean
    exact ⟨g, hQ _ hn, hx⟩
  | spacedCalls yes no ihy ihn =>
    obtain ⟨hy, hn⟩ := hw
    exact Extends.exists_of_branch rfl (fun _ _ _ => rfl)
      (fun _ hclean => ihy hq.1 h hy hclean) (fun _ hclean => ihn hq.2 h hn hclean) hclean
  | expected wanted => cases hclean.succeeds
  | orphan => cases hclean.succeeds
  | statements inBlock statement ih =>
    -- The block is open around its statements, so the text does not end among them.
    obtain ⟨rfl, ho, ht, -, hs, hQ⟩ := hw
    have hall : Continues ((Phrase.statements true statement).read descend o) true tape
        ((Phrase.statements true statement).read descend o tape) :=
      continues_statements (fun tape h => hd.conserves_phrase statement o h)
        (fun tape h => progress_phrase hd.conserves hd.progress statement ht o h)
        (fun tape h hclean => ih hq h (hs _) hclean) h hclean.silent
    have hne : g.opened ≠ [] := fun he => by rw [he] at ho; cases ho
    exact ⟨⟨g.opened, true⟩, hQ _, hall.block hclean.succeeds hne⟩
  | quoted => exact hw.elim
  | hexDigits => exact ⟨⟨g.opened, false⟩, hw _, .hexDigits h hclean.succeeds⟩
  | foreign =>
    obtain ⟨t, rest, ha, hf, hQ⟩ := hw
    refine ⟨⟨g.opened, false⟩, ?_, .foreign ha hf⟩
    show Q _ (Attempt.foreign tape).tape.ahead
    rw [ahead_foreign ha hf]
    exact hQ

end Extendable

/-! ## Constructs -/

/-- **Every construct goes on behind a finished text**, however deep nodes may nest. The induction
is on the levels, and its step is the rule of each construct with local looks. -/
theorem extendable (n : Nat) : Extendable (Production.read n) := by
  induction n with
  | zero =>
    refine ⟨fun o p tape => Attempt.conserves.read 0 o p tape,
      fun o p tape hp h => progress_read 0 o hp h, fun o p tape h _ hclean => ?_⟩
    apply Extends.enter h hclean
    intro start _ _ hclean
    cases hclean.succeeds
  | succ n ih =>
    refine ⟨fun o p tape => Attempt.conserves.read (n + 1) o p tape,
      fun o p tape hp h => progress_read (n + 1) o hp h, fun o p tape h ho hclean => ?_⟩
    apply Extends.enter h hclean
    intro start hl ha hclean
    rw [← ha] at ho
    by_cases hs : p = .string
    · obtain rfl := hs
      exact Extends.quoted ho
    · obtain ⟨⟨opened, done⟩, ⟨rfl, hdone⟩, hx⟩ :=
        ih.phrase p.body p.local_body o hl (Production.wp_body hs ho) hclean
      exact ⟨hx.nested, hx.finished, fun outer hs he => hdone (hx.done outer hs he), hx.agrees⟩

/-- **Error-free statements are read alike whatever follows them**, and they close all they open.
The composition of two sources (`Document.Composition`) is this with the second source behind the
first. -/
theorem continues_document (n : Nat) (o : Options) {tape : Tape} (h : tape.Lexed)
    (ht : ((Phrase.statements false .statement).read (Production.read n) o
      tape).trace.diagnostics = []) :
    Continues ((Phrase.statements false .statement).read (Production.read n) o) false tape
      ((Phrase.statements false .statement).read (Production.read n) o tape) := by
  have hx := extendable n
  refine continues_statements (fun tape h => hx.conserves_phrase .statement o h)
    (fun tape h => progress_statement n o h) (fun tape h hclean => ?_) h ht
  exact hx.phrase .statement Phrase.local_statement o h (Phrase.wp_statement _) hclean

end Attempt

end Heddle
