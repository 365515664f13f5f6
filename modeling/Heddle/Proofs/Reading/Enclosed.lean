import Heddle.Proofs.Grammar.Groups
import Heddle.Proofs.Reading.Extension

/-!
# What is read inside a group

A reading inside of parentheses, brackets or braces does not see what follows the group. So **what
follows can be exchanged**: a construct that is read without errors in front of one text is read
alike in front of another one, and it leaves the same of the group (`Attempt.Exchanges`).

The texts that are exchanged here are those that can follow the selectors of a statement, a brace
or an arrow and whatever is behind it. What is read ends with a blank, so no token goes on into
them.

Unlike with a finished text (`Attempt.Extends`), that the brackets ahead are closed in order is
given, and that the reading makes no mistake is given of the text with something behind it. Each
step first shows that the two readings agree, and only then that the one without the other text
makes no mistake either.
-/

set_option autoImplicit false

namespace Heddle

open Lookahead

/-! ## Tapes inside a group -/

/-- A text that can follow selectors and a blank: nothing, or a brace or an arrow comes first. The
first two parts say that the tokens in front stay as they are, the third one what a look may meet.
-/
structure Barred (stop : Position) (more : List Char) : Prop where
  tagless : ¬ ['<', '/'] <:+: more
  apart : ∀ c ∈ more.head?, Text.isBlank c = false
  bar : ∀ t ∈ (Token.readAll stop more).head?, t.isBar = true

namespace Barred

variable {stop : Position} {more : List Char}

theorem nothing : Barred stop [] := by
  refine ⟨by simp, nofun, ?_⟩
  rw [Token.readAll_nil]
  exact nofun

theorem not_isTrivia (h : Barred stop more) {t : Token} (ht : t ∈ (Token.readAll stop more).head?) :
    t.isTrivia = false := by
  rcases kind_of_isBar (h.bar t ht) with hk | hk <;> rw [Token.isTrivia, hk] <;> rfl

end Barred

/-- The tape ends with a blank, where all that is open in front of it is closed. It is the
invariant of the tape; only the list `s` changes with the tokens taken. -/
structure Inside (stop : Position) (s : List Mark) (tape : Tape) : Prop where
  lexed : tape.Lexed
  stop : tape.stop = stop
  nested : nest s tape.ahead = some []
  blank : ∀ t ∈ tape.ahead.getLast?, t.kind = .blank

namespace Inside

variable {stop : Position} {more : List Char} {s s' : List Mark} {tape : Tape}

theorem seam (h : Inside stop s tape) (hm : Barred stop more) : Token.Seam tape.ahead more :=
  fun t ht => .inr ⟨h.blank t ht, hm.apart⟩

theorem extended (h : Inside stop s tape) (hm : Barred stop more) : (tape.extend more).Lexed :=
  tape.lexed_extend more h.lexed (h.seam hm) hm.tagless

/-- What is left of the tape behind some of its tokens. -/
theorem rest {a : Attempt} (h : Inside stop s tape) (hc : Attempt.Conserves tape a)
    {u : List Token} (ha : tape.ahead = u ++ a.tape.ahead)
    (hn : nest s' a.tape.ahead = some []) : Inside stop s' a.tape := by
  refine ⟨hc.lexed, (hc.stop h.lexed).trans h.stop, hn, fun t ht => ?_⟩
  apply h.blank t
  rw [ha, List.getLast?_append, Option.mem_def.1 ht]
  rfl

theorem takeTrivia_extend (h : Inside stop s tape) (hm : Barred stop more) :
    (tape.extend more).takeTrivia = (tape.takeTrivia.1, tape.takeTrivia.2.extend more) := by
  have hw : (tape.extend more).ahead.takeWhile (·.kind.isTrivia) =
      tape.ahead.takeWhile (·.kind.isTrivia) := by
    rw [Tape.ahead_extend, List.takeWhile_append, h.stop]
    split <;> rename_i hall
    · -- All that is left is trivia, and what follows begins with none.
      have hmore : (Token.readAll stop more).takeWhile (·.kind.isTrivia) = [] := by
        cases hr : Token.readAll stop more with
        | nil => rfl
        | cons t ts =>
          have ht := hm.not_isTrivia (t := t) (by rw [hr]; rfl)
          exact List.takeWhile_cons_of_neg (by simpa [Token.isTrivia] using ht)
      rw [hmore, List.append_nil]
      exact ((List.takeWhile_prefix _).eq_of_length hall).symm
    · rfl
  rw [Tape.takeTrivia, Tape.takeTrivia, hw]
  exact tape.takeMany_extend more .whitespace (List.takeWhile_prefix _).length_le

end Inside

theorem Tape.extend_nil (tape : Tape) : tape.extend [] = tape := by
  simp [Tape.extend, Token.readAll_nil]

/-! ## Exchanging what follows -/

namespace Attempt

/-- What `read` makes of the tape does not depend on what follows it, and what it has taken does
not matter to what a statement reaches first, `k` groups being open around those of `s`. -/
structure Exchanges (k : Nat) (stop : Position) (read : Tape → Attempt) (tape : Tape)
    (s s' : List Mark) : Prop where
  agrees : ∀ more, Barred stop more → read (tape.extend more) = (read tape).extend more
  inside : Inside stop s' (read tape).tape
  passes : ∀ ts, reachesFirst (groups s + k) (tape.ahead ++ ts) =
    reachesFirst (groups s' + k) ((read tape).tape.ahead ++ ts)

namespace Exchanges

variable {k : Nat} {stop : Position} {more : List Char} {read next : Tape → Attempt} {tape : Tape}
  {s s' s₁ s₂ : List Mark}

theorem clean (h : Exchanges k stop read tape s s') (hm : Barred stop more)
    (hc : (read (tape.extend more)).Clean) : (read tape).Clean := by
  rw [h.agrees more hm] at hc
  exact ⟨hc.succeeds, hc.silent⟩

theorem nothing (h : Inside stop s tape) :
    Exchanges k stop (fun tape => ofTaken (.nil, tape)) tape s s :=
  ⟨fun _ _ => rfl, h, fun _ => rfl⟩

/-- One reading behind the other. -/
theorem andThen (h : Exchanges k stop read tape s s₁) (hf : (read tape).failure = none)
    (hn : Exchanges k stop next (read tape).tape s₁ s₂) :
    Exchanges k stop (fun tape => (read tape).andThen next) tape s s₂ := by
  have hread : (read tape).andThen next = (next (read tape).tape).behind (read tape).trace :=
    andThen_of_none hf _
  refine ⟨fun more hm => ?_, ?_, fun ts => ?_⟩
  · have hx : ((read tape).extend more).failure = none := hf
    show (read (tape.extend more)).andThen next = ((read tape).andThen next).extend more
    rw [h.agrees more hm, andThen_of_none hx, hread]
    show (next ((read tape).tape.extend more)).behind (read tape).trace = _
    rw [hn.agrees more hm]
    rfl
  · show Inside stop s₂ ((read tape).andThen next).tape
    rw [hread]
    exact hn.inside
  · show _ = reachesFirst _ (((read tape).andThen next).tape.ahead ++ ts)
    rw [hread]
    exact (h.passes ts).trans (hn.passes ts)

/-- The same reading in another form, for example a loop and its first round. -/
theorem congr {read' : Tape → Attempt} (h : Exchanges k stop read tape s s')
    (hr : ∀ more, Barred stop more → read' (tape.extend more) = read (tape.extend more)) :
    Exchanges k stop read' tape s s' := by
  have hbase : read' tape = read tape := by
    have hnil := hr [] .nothing
    rwa [tape.extend_nil] at hnil
  refine ⟨fun more hm => ?_, ?_, fun ts => ?_⟩
  · rw [hr more hm, h.agrees more hm, hbase]
  · rw [hbase]
    exact h.inside
  · rw [hbase]
    exact h.passes ts

/-- A reading that goes one of two ways, and the same way whatever follows the tape. `Q` is what is
to be said of the tokens behind it. -/
theorem exists_of_branch {α : Type} {Q : α → List Token → Prop} {open' : α → List Mark}
    {way : Bool} {yes no : Tape → Attempt}
    (hread : ∀ more, read (tape.extend more) =
      if way then yes (tape.extend more) else no (tape.extend more))
    (hy : way = true → (yes (tape.extend more)).Clean →
      ∃ a, Q a (yes tape).tape.ahead ∧ Exchanges k stop yes tape s (open' a))
    (hn : way = false → (no (tape.extend more)).Clean →
      ∃ a, Q a (no tape).tape.ahead ∧ Exchanges k stop no tape s (open' a))
    (hc : (read (tape.extend more)).Clean) :
    ∃ a, Q a (read tape).tape.ahead ∧ Exchanges k stop read tape s (open' a) := by
  have hbase := hread []
  rw [tape.extend_nil] at hbase
  rw [hread] at hc
  rw [hbase]
  cases way with
  | true =>
    obtain ⟨a, hQ, hx⟩ := hy rfl hc
    exact ⟨a, hQ, hx.congr fun more _ => hread more⟩
  | false =>
    obtain ⟨a, hQ, hx⟩ := hn rfl hc
    exact ⟨a, hQ, hx.congr fun more _ => hread more⟩

theorem take {t : Token} {ts : List Token} (h : Inside stop s tape) (ha : tape.ahead = t :: ts)
    (ht : t.kind.turn s = some s') (hk : t.isLandmark = false ∨ 0 < groups s + k)
    (tag : DataTag) : Exchanges k stop (fun tape => ofTaken (tape.take tag)) tape s s' := by
  have hx : (ofTaken (tape.take tag)).tape.ahead = ts := by
    rw [tape_ofTaken, Tape.ahead_take, ha, List.tail_cons]
  refine ⟨fun more _ => ?_, h.rest (u := [t]) (Conserves.take tag h.lexed) ?_ ?_, fun us => ?_⟩
  · show ofTaken ((tape.extend more).take tag) = _
    rw [tape.take_extend more tag (by rw [ha]; exact List.cons_ne_nil _ _)]
    rfl
  · rw [hx]
    exact ha
  · have hn := h.nested
    rw [ha, nest_cons, ht] at hn
    rw [hx]
    exact hn
  · rw [hx, ha]
    exact reachesFirst_turn ht hk (ts ++ us)

theorem trivia (h : Inside stop s tape) :
    Exchanges k stop (fun tape => ofTaken tape.takeTrivia) tape s s := by
  have hx : (ofTaken tape.takeTrivia).tape.ahead = tape.ahead.dropWhile Token.isTrivia :=
    tape.ahead_takeTrivia
  refine ⟨fun more hm => ?_, h.rest (u := tape.ahead.takeWhile Token.isTrivia)
    (conserves.takeTrivia tape h.lexed) ?_ ?_, fun us => ?_⟩
  · show ofTaken (tape.extend more).takeTrivia = _
    rw [h.takeTrivia_extend hm]
    rfl
  · rw [hx, List.takeWhile_append_dropWhile]
  · rw [hx]
    exact (nest_dropWhile s tape.ahead).trans h.nested
  · rw [hx]
    exact (reachesFirst_dropWhile _ _ _).symm

/-- A reading of one token that is no bracket. -/
theorem token {t : Token} {ts : List Token} (h : Inside stop s tape) (ha : tape.ahead = t :: ts)
    (hb : t.kind.isBracket = false) (hk : 0 < groups s + k) (hr : TakesApart read t)
    (hc : Conserves tape (read tape)) : Exchanges k stop read tape s s := by
  obtain ⟨trace, hr⟩ := hr
  have hx : (read tape).tape.ahead = ts := by rw [hr tape ts ha]; rfl
  have ht := TokenKind.turn_of_not_isBracket hb s
  refine ⟨fun more _ => ?_, h.rest (u := [t]) hc ?_ ?_, fun us => ?_⟩
  · rw [hr tape ts ha, hr _ _ (Tape.ahead_extend_of_cons more ha)]
    rfl
  · rw [hx]
    exact ha
  · have hn := h.nested
    rw [ha, nest_cons, ht] at hn
    rw [hx]
    exact hn
  · rw [hx, ha]
    exact reachesFirst_turn ht (.inr hk) (ts ++ us)

/-- Tokens that are no brackets are not seen from inside a group. -/
theorem reachesFirst_of_plain {xs : List Token} (h : ∀ t ∈ xs, t.kind.isBracket = false)
    (hk : 0 < groups s + k) (ts : List Token) :
    reachesFirst (groups s + k) (xs ++ ts) = reachesFirst (groups s + k) ts := by
  induction xs with
  | nil => rfl
  | cons t xs ih =>
    obtain ⟨ht, hxs⟩ := List.forall_mem_cons.1 h
    rw [List.cons_append, reachesFirst_turn (TokenKind.turn_of_not_isBracket ht s) (.inr hk),
      ih hxs]

/-- The digits of a color end in front of the bracket that closes the group. This is the one step
that cuts the text ahead anew, so what follows has to be shown not to change the cut. -/
theorem hexDigits (h : Inside stop s tape) (hs : s ≠ []) (hk : 0 < groups s + k)
    (hm : Barred stop more) (hc : (hexDigits (tape.extend more)).Clean) :
    Exchanges k stop hexDigits tape s s := by
  have hn := ne_nil_of_nest hs h.nested
  have hf := hexDigits_of_extend h.lexed (h.seam hm) hn hm.tagless hc.succeeds
  obtain ⟨xs, ys, zs, hx, hy, hxs, hys⟩ := hexDigits_agree h.lexed
  have hzs : nest s zs = some [] := by
    have hall := h.nested
    rwa [hx, nest_of_plain fun t ht => (hxs t ht).1] at hall
  have hblank : ∀ t ∈ zs.getLast?, t.kind = .blank := fun t ht => h.blank t (by
    rw [hx, List.getLast?_append, Option.mem_def.1 ht]
    rfl)
  have hinside : Inside stop s (Attempt.hexDigits tape).tape := by
    have hconserves := Conserves.hexDigits h.lexed
    refine ⟨hconserves.lexed, (hconserves.stop h.lexed).trans h.stop, ?_, fun t ht => ?_⟩
    · rw [hy, nest_of_plain fun t ht => (hys t ht).1]
      exact hzs
    · rw [hy, List.getLast?_append] at ht
      obtain ⟨u, hu⟩ := Option.isSome_iff_exists.1
        (List.getLast?_isSome.2 (ne_nil_of_nest hs hzs))
      rw [hu] at ht
      exact Option.some.inj ht ▸ hblank u hu
  refine ⟨fun more hm => ?_, hinside, fun us => ?_⟩
  · exact hexDigits_extend h.lexed (h.seam hm) (hinside.seam hm) hn hf hm.tagless
  · rw [hx, hy, List.append_assoc, List.append_assoc,
      reachesFirst_of_plain (fun t ht => (hxs t ht).1) hk,
      reachesFirst_of_plain (fun t ht => (hys t ht).1) hk]

theorem framed (h : Exchanges k stop read tape s s') (file : Option String) (kind : NodeKind) :
    Exchanges k stop (fun tape => (read tape).framed file kind tape.place) tape s s' := by
  refine ⟨fun more hm => ?_, ?_, fun ts => ?_⟩
  · show (read (tape.extend more)).framed file kind (tape.extend more).place = _
    rw [h.agrees more hm, Tape.place_extend]
    unfold Attempt.framed Attempt.extend
    cases (read tape).failure <;> rfl
  · rw [tape_framed]
    exact h.inside
  · rw [tape_framed]
    exact h.passes ts

/-- What follows a construct can be exchanged like what follows its inside. -/
theorem enter {p : Production} {o : Options} {inside : Tape → Attempt} (h : Inside stop s tape)
    (hm : Barred stop more) (hc : (p.enter o inside (tape.extend more)).Clean)
    (hi : ∀ start : Tape, Inside stop s start → start.ahead = p.front tape.ahead →
      (inside (start.extend more)).Clean → Exchanges k stop inside start s s') :
    Exchanges k stop (p.enter o inside) tape s s' := by
  have henter := p.enter_eq o inside
  cases hk : p.keepsTrivia with
  | true =>
    simp only [hk, if_true] at henter
    rw [henter] at hc
    rw [funext henter]
    exact (hi tape h (by rw [Production.front, if_pos hk]) hc.of_framed).framed _ _
  | false =>
    simp only [hk, Bool.false_eq_true, if_false] at henter
    rw [henter] at hc
    rw [funext henter]
    obtain ⟨-, hb, -⟩ := hc.of_andThen
    have htrivia : Exchanges k stop _ tape s s := .trivia h
    have hfront : tape.takeTrivia.2.ahead = p.front tape.ahead := by
      rw [Tape.ahead_takeTrivia, Production.front, hk]
      rfl
    rw [h.takeTrivia_extend hm] at hb
    exact htrivia.andThen rfl ((hi _ htrivia.inside hfront hb.of_framed).framed _ _)

end Exchanges

/-! ## Phrases -/

/-- What the constructs inside a phrase have to be like. It is asked for inside of a group only,
so that the look for landmarks can not see past it. -/
structure Exchangeable (k : Nat) (stop : Position)
    (descend : Options → Production → Tape → Attempt) : Prop where
  conserves : ∀ o p tape, tape.Lexed → Conserves tape (descend o p tape)
  progress : ∀ o p tape, p.takes = true → tape.Lexed → Progress tape (descend o p tape)
  construct : ∀ o p s (tape : Tape) more, s ≠ [] → 0 < groups s + k → Inside stop s tape →
    Barred stop more → p.opening (p.front tape.ahead) = true →
    (descend o p (tape.extend more)).Clean → Exchanges k stop (descend o p) tape s s

namespace Exchangeable

variable {k : Nat} {stop : Position} {descend : Options → Production → Tape → Attempt}
  {more : List Char} {o : Options} {s : List Mark}

/-- A loop whose look says no, and one that goes on behind a round. -/
theorem repeating (hd : Exchangeable k stop descend) {test : Lookahead} {body : Phrase}
    (ht : test [] = false) (hb : body.takes = true) (hm : Barred stop more)
    (hl : ∀ (tape : Tape) more, Inside stop s tape → Barred stop more →
      test (tape.extend more).ahead = test tape.ahead)
    (ih : ∀ tape : Tape, Inside stop s tape → test tape.ahead = true →
      (body.read descend o (tape.extend more)).Clean →
        Exchanges k stop (body.read descend o) tape s s)
    {tape : Tape} (h : Inside stop s tape)
    (hc : ((Phrase.repeating test body).read descend o (tape.extend more)).Clean) :
    test ((Phrase.repeating test body).read descend o tape).tape.ahead = false ∧
      Exchanges k stop ((Phrase.repeating test body).read descend o) tape s s := by
  have hconserves (tape : Tape) (h : tape.Lexed) : Conserves tape (body.read descend o tape) :=
    Attempt.conserves.phrase hd.conserves body o tape h
  have hprogress (tape : Tape) (h : tape.Lexed) : Progress tape (body.read descend o tape) :=
    progress_phrase hd.conserves hd.progress body hb o h
  have hone {tape : Tape} (h : Inside stop s tape) {more : List Char} (hm : Barred stop more) :
      (Phrase.repeating test body).read descend o (tape.extend more) =
        if test tape.ahead then
          (body.read descend o (tape.extend more)).andThen
            ((Phrase.repeating test body).read descend o)
        else ofTaken (.nil, tape.extend more) := by
    rw [← hl tape more h hm]
    exact repeating_eq ht hconserves hprogress (h.extended hm)
  -- The loop is followed on the longer tape, of which it is known that it makes no mistake. The
  -- shorter tape is what is left of it without the text behind.
  refine repeating_rule (P := fun long a => ∀ tape, long = tape.extend more →
    Inside stop s tape → a.Clean →
      test ((Phrase.repeating test body).read descend o tape).tape.ahead = false ∧
        Exchanges k stop ((Phrase.repeating test body).read descend o) tape s s)
    ht hconserves hprogress ?_ ?_ ?_ (h.extended hm) (Nat.le_refl _) tape rfl h hc
  -- The look says no, in front of either tape.
  · rintro _ - hn tape rfl h -
    rw [hl tape more h hm] at hn
    have hx : Exchanges k stop ((Phrase.repeating test body).read descend o) tape s s :=
      (Exchanges.nothing h).congr fun more hm => by rw [hone h hm, if_neg (by simp [hn])]
    have hread := hone h .nothing
    rw [if_neg (by simp [hn]), tape.extend_nil] at hread
    exact ⟨by rw [hread]; exact hn, hx⟩
  · rintro _ f - - hf tape rfl - hclean
    rw [hclean.succeeds] at hf
    cases hf
  -- A round, and the loop behind it.
  · rintro _ b - hy hf ih' tape rfl h hclean
    rw [hl tape more h hm] at hy
    obtain ⟨hfb, hsb⟩ := hclean
    rw [trace_behind, Trace.diagnostics_append, List.append_eq_nil_iff] at hsb
    have hfirst := ih tape h hy ⟨hf, hsb.1⟩
    have hrest := hfirst.agrees more hm
    obtain ⟨hn, hagain⟩ := ih' _ (by rw [hrest]; rfl) hfirst.inside ⟨hfb, hsb.2⟩
    have hfailure := (hfirst.clean hm ⟨hf, hsb.1⟩).succeeds
    have hx : Exchanges k stop ((Phrase.repeating test body).read descend o) tape s s :=
      (hfirst.andThen hfailure hagain).congr fun more hm => by rw [hone h hm, if_pos hy]
    have hread := hone h .nothing
    rw [if_pos hy, tape.extend_nil, andThen_of_none hfailure] at hread
    exact ⟨by rw [hread]; exact hn, hx⟩

/-- The statements of a block end at its brace, whatever follows the block. -/
theorem statements (hd : Exchangeable k stop descend) {statement : Phrase}
    (hb : statement.takes = true) (hm : Barred stop more) (hs : s ≠ [])
    (ih : ∀ tape : Tape, Inside stop s tape →
      (statement.read descend o (tape.extend more)).Clean →
        Exchanges k stop (statement.read descend o) tape s s)
    {tape : Tape} (h : Inside stop s tape)
    (hc : ((Phrase.statements true statement).read descend o (tape.extend more)).Clean) :
    Exchanges k stop ((Phrase.statements true statement).read descend o) tape s s := by
  have hconserves (tape : Tape) (h : tape.Lexed) : Conserves tape (statement.read descend o tape) :=
    Attempt.conserves.phrase hd.conserves statement o tape h
  have hprogress (tape : Tape) (h : tape.Lexed) : Progress tape (statement.read descend o tape) :=
    progress_phrase hd.conserves hd.progress statement hb o h
  have hahead {tape : Tape} (h : Inside stop s tape) : tape.takeTrivia.2.ahead ≠ [] := by
    rw [Tape.ahead_takeTrivia]
    exact dropWhile_of_nest hs h.nested
  -- As for loops, the longer tape is followed. Its list of statements makes no mistake, so there
  -- is no recovery to compare.
  refine statements_rule (P := fun long a => ∀ tape, long = tape.extend more →
    Inside stop s tape → a.trace.diagnostics = [] →
      Exchanges k stop ((Phrase.statements true statement).read descend o) tape s s)
    hconserves hprogress ?_ ?_ ?_ (h.extended hm) (Nat.le_refl _) tape rfl h hc.silent
  · rintro _ - he tape rfl h -
    rw [h.takeTrivia_extend hm] at he
    replace he := (endsList_append (hahead h) _).1 he
    refine (Exchanges.trivia h).congr fun more hm => statements_of_ends ?_ _
    rw [h.takeTrivia_extend hm]
    exact (endsList_append (hahead h) _).2 he
  · exact fun _ _ _ hf => nomatch hf
  · rintro _ b - hn hbrace r ih' tape rfl h hclean
    simp only [r, h.takeTrivia_extend hm] at hn hbrace ih' hclean
    rw [trace_behind, trace_behind, Trace.diagnostics_append, Trace.diagnostics_append,
      List.append_eq_nil_iff, List.append_eq_nil_iff] at hclean
    obtain ⟨-, hr, hbt⟩ := hclean
    obtain ⟨hfirst, he⟩ := Clean.of_recovered
      (⟨failure_recovered _ _ _, hr⟩ : (recovered o.file true (statement.read _ _ _)).Clean)
    rw [he] at ih'
    have htrivia : Exchanges k stop _ tape s s := .trivia h
    have hread : Exchanges k stop (statement.read descend o) tape.takeTrivia.2 s s :=
      ih _ htrivia.inside hfirst
    have hagain := ih' _ (by rw [hread.agrees more hm]; rfl) hread.inside hbt
    have hfailure := (hread.clean hm hfirst).succeeds
    have hnext := (endsList_append (hahead h) _).not.1 hn
    refine (htrivia.andThen rfl (hread.andThen hfailure hagain)).congr fun more hm => ?_
    -- The statement does not fail, so nothing is skipped.
    have hx : ((statement.read descend o tape.takeTrivia.2).extend more).failure = none := hfailure
    have hrecovered : recovered o.file true
        ((statement.read descend o tape.takeTrivia.2).extend more) =
          (statement.read descend o tape.takeTrivia.2).extend more := by
      rw [recovered, hx]
    show Attempt.statements o.file true (statement.read descend o) (tape.extend more).size
      (tape.extend more) = _
    rw [statements_eq hconserves hprogress (h.extended hm), h.takeTrivia_extend hm,
      hread.agrees more hm, hrecovered, @andThen_of_none (ofTaken _) rfl, tape_ofTaken,
      trace_ofTaken, hread.agrees more hm]
    · rfl
    · rw [h.takeTrivia_extend hm]
      exact (endsList_append (hahead h) _).not.2 hnext
    · rw [h.takeTrivia_extend hm]
      obtain ⟨t, ts, ha⟩ := List.exists_cons_of_ne_nil (hahead h)
      rw [Tape.ahead_extend, ha] at hbrace ⊢
      exact hbrace

/-- **A phrase inside of a group is read alike whatever follows the group.** Its looks are such
that nothing behind `outer` answers them. `P` stands for this property of looks, since inside of a
block another one is needed than inside of brackets. -/
theorem phrase (hd : Exchangeable k stop descend) (hm : Barred stop more) (q : Phrase)
    (hq : q.Looks Local) {outer : List Mark} (hn : outer ≠ []) (hk : 0 < groups outer + k)
    {P : Lookahead → Prop} (hP : ∀ test, P test → ∀ opened ts more,
      nest (opened ++ outer) ts = some [] → test (ts ++ more) = test ts) (ho : q.OwnLooks P)
    {g : Hold} {tape : Tape} (h : Inside stop (g.opened ++ outer) tape)
    {Q : Hold → List Token → Prop} (hw : q.wp Q g tape.ahead)
    (hc : (q.read descend o (tape.extend more)).Clean) :
    ∃ g', Q g' (q.read descend o tape).tape.ahead ∧
      Exchanges k stop (q.read descend o) tape (g.opened ++ outer) (g'.opened ++ outer) := by
  -- The condition of the phrase is followed along with its reading. It says which brackets of the
  -- rule are open, and with `outer` behind them these are what is open on the tape.
  induction q generalizing outer P tape g Q with
  | empty => exact ⟨g, hw, .nothing h⟩
  | take tag =>
    obtain ⟨t, rest, ha, g', hg, hQ⟩ := hw
    refine ⟨g', ?_, .take h ha (TokenKind.turn_append (Hold.turn_of_take hg).1 outer)
      (.inr (groups_pos_append hk _)) tag⟩
    show Q g' (tape.take tag).2.ahead
    rw [Tape.ahead_take, ha]
    exact hQ
  | trivia =>
    refine ⟨g, ?_, .trivia h⟩
    show Q g tape.takeTrivia.2.ahead
    rw [Tape.ahead_takeTrivia]
    exact hw.2
  | node p =>
    obtain ⟨-, hop, hQ⟩ := hw
    exact ⟨⟨g.opened, p.terminated⟩, hQ _,
      hd.construct o p _ tape more (by simp [hn]) (groups_pos_append hk _) h hm hop hc⟩
  | andThen first second ih₁ ih₂ =>
    obtain ⟨hc₁, hc₂, -⟩ := hc.of_andThen
    obtain ⟨g₁, hQ₁, hx₁⟩ := ih₁ hq.1 hn hk hP ho.1 h hw hc₁
    rw [hx₁.agrees more hm] at hc₂
    obtain ⟨g₂, hQ₂, hx₂⟩ := ih₂ hq.2 hn hk hP ho.2 hx₁.inside hQ₁ hc₂
    have hf := (hx₁.clean hm hc₁).succeeds
    refine ⟨g₂, ?_, hx₁.andThen hf hx₂⟩
    rw [Phrase.read, andThen_of_none hf]
    exact hQ₂
  | choose test yes no ihy ihn =>
    obtain ⟨-, hy, hno⟩ := hw
    -- The look is answered by the tokens of the group, so both tapes go the same way.
    have hone (more : List Char) :
        (Phrase.choose test yes no).read descend o (tape.extend more) =
          if test tape.ahead then yes.read descend o (tape.extend more)
          else no.read descend o (tape.extend more) := by
      rw [Phrase.read, Tape.ahead_extend, hP test ho.1 _ _ _ h.nested]
    exact Exchanges.exists_of_branch hone
      (fun ht hc => ihy hq.2.1 hn hk hP ho.2.1 h (hy ht) hc)
      (fun ht hc => ihn hq.2.2 hn hk hP ho.2.2 h (hno ht) hc) hc
  -- The condition of a loop says that a round leaves the brackets as they are.
  | repeating test body ih =>
    obtain ⟨-, ht, hb, hagain, hQ⟩ := hw
    obtain ⟨hstop, hx⟩ := hd.repeating ht hb hm (fun _ _ h _ => hP test ho.1 _ _ _ h.nested)
      (fun tape h hy hc => by
        obtain ⟨g', rfl, hx⟩ := ih hq.2 hn hk hP ho.2 h (hagain _ hy) hc
        exact hx) h hc
    exact ⟨g, hQ _ hstop, hx⟩
  -- The option decides alike on both tapes.
  | spacedCalls yes no ihy ihn =>
    obtain ⟨hy, hno⟩ := hw
    exact Exchanges.exists_of_branch (fun _ => rfl)
      (fun _ hc => ihy hq.1 hn hk hP ho.1 h hy hc)
      (fun _ hc => ihn hq.2 hn hk hP ho.2 h hno hc) hc
  | expected wanted => cases hc.succeeds
  | orphan => cases hc.succeeds
  | statements inBlock statement ih =>
    obtain ⟨rfl, hb, ht, -, hs, hQ⟩ := hw
    obtain ⟨rest, hrest⟩ := List.head?_eq_some_iff.1 hb
    refine ⟨⟨g.opened, true⟩, hQ _, hd.statements ht hm (by simp [hn]) (fun tape h hc => ?_) h hc⟩
    -- The looks of statements are answered at the brace of the block at the latest.
    have hstops (test : Lookahead) (ht : StopsAtEnd test) (opened : List Mark)
        (ts more : List Token) (hts : nest (opened ++ (g.opened ++ outer)) ts = some []) :
        test (ts ++ more) = test ts := by
      rw [hrest] at hts
      exact ht ts more opened (.inr ⟨_, hts⟩)
    obtain ⟨⟨opened, done⟩, rfl, hx⟩ := @ih hq (g.opened ++ outer) (by simp [hn])
      (groups_pos_append hk _) StopsAtEnd hstops (Phrase.Looks.own (fun _ => Local.stopsAtEnd) hq)
      .start tape h _ (hs _) hc
    exact hx
  | quoted => exact hw.elim
  | hexDigits =>
    exact ⟨⟨g.opened, false⟩, hw _, .hexDigits h (by simp [hn]) (groups_pos_append hk _) hm hc⟩
  | foreign =>
    obtain ⟨t, rest, ha, hf, hQ⟩ := hw
    refine ⟨⟨g.opened, false⟩, ?_,
      .token h ha (Token.plain_isForeign t hf).1 (groups_pos_append hk _)
        (takesApart_foreign hf) (.foreign h.lexed)⟩
    show Q _ (Attempt.foreign tape).tape.ahead
    rw [ahead_foreign ha hf]
    exact hQ

end Exchangeable

/-- **What follows a group can be exchanged for every construct inside of it**, however deep nodes
may nest. `Reading.Selectors` uses it for the arguments and filters of selectors. -/
theorem exchangeable (k : Nat) (stop : Position) (n : Nat) :
    Exchangeable k stop (Production.read n) := by
  induction n with
  | zero =>
    refine ⟨fun o p tape => conserves.read 0 o p tape,
      fun o p tape hp h => progress_read 0 o hp h, fun o p s tape more _ _ h hm _ hc => ?_⟩
    exact Exchanges.enter h hm hc fun start _ _ hc => nomatch hc.succeeds
  | succ n ih =>
    refine ⟨fun o p tape => conserves.read (n + 1) o p tape,
      fun o p tape hp h => progress_read (n + 1) o hp h, fun o p s tape more hs hk h hm ho hc => ?_⟩
    refine Exchanges.enter h hm hc fun start hi ha hc => ?_
    rw [← ha] at ho
    by_cases hp : p = .string
    · obtain rfl := hp
      obtain ⟨t, ts, ha, ht⟩ := exists_of_next ho
      exact .token hi ha (Token.plain_isQuoted t ht).1 hk (takesApart_quoted o.file _ ht)
        (conserves.phrase (conserves.read n) _ o start hi.lexed)
    · obtain ⟨⟨opened, done⟩, ⟨rfl, -⟩, hx⟩ := ih.phrase hm p.body p.local_body hs hk
        (fun test ht opened ts more hts => ht ts more _ (by simp [hs]) hts) p.stopsAtClosing_body
        (g := .start) hi (Production.wp_body hp ho) hc
      exact hx

end Attempt

end Heddle
