import Heddle.Proofs.Grammar.Groups
import Heddle.Proofs.Reading.Extension

/-!
# What is read of a value is passed over by the look for its end

Whether a statement is an assignment depends on where the value behind the sign ends: it has to end
before any block begins (`isValue`). The look counts parentheses and brackets and knows nothing of
expressions, so what it makes of the tokens of an expression has to be compared with what the rules
make of them.

Inside of a group the look waits for the group to end, and **every construct that is read without
errors closes the groups it opens** (`Attempt.passes_inside`). This goes through blocks as well, and
the statements in them: the look sees none of their braces and semicolons.
-/

set_option autoImplicit false

namespace Heddle

open Lookahead

/-- Whether the look for the end of a value does something at the token outside of groups. Inside
of one it does nothing but count. -/
def Token.isValueMark (t : Token) : Bool :=
  [.semicolon, .rightBrace, .leftBrace, .atSign].any t.isMark

namespace Lookahead

/-- A value ends before any block in front of some tokens if it does so behind them, `d` groups
being open in front and `d'` behind. Only this direction is needed: behind the value there is its
semicolon. -/
def Passes (d : Nat) (ts : List Token) (d' : Nat) (us : List Token) : Prop :=
  isValue d' us = true → isValue d ts = true

namespace Passes

variable {d d₁ d' : Nat} {ts us vs : List Token}

theorem refl (d : Nat) (ts : List Token) : Passes d ts d ts := id

theorem trans (h : Passes d ts d₁ us) (h' : Passes d₁ us d' vs) : Passes d ts d' vs :=
  fun hv => h (h' hv)

theorem of_eq (h : isValue d ts = isValue d' us) : Passes d ts d' us := fun hv => h.trans hv

end Passes

/-- A token counts, or it is not seen: no mark ends a value inside of a group. What the rule knows
is which brackets are open, what the look knows is how many groups. -/
theorem isValue_turn {t : Token} {s s' : List Mark} (h : t.kind.turn s = some s') {k : Nat}
    (hk : t.isValueMark = false ∨ 0 < groups s + k) (ts : List Token) :
    isValue (groups s + k) (t :: ts) = isValue (groups s' + k) ts := by
  have hg := groups_turn h
  rw [isValue]
  split <;> rename_i ho
  · rw [if_pos ho] at hg
    rw [hg, Nat.add_right_comm]
  rw [if_neg ho] at hg
  split <;> rename_i hc
  · rw [if_pos hc] at hg
    have hpos := groups_pos h hc
    rw [hg, Nat.sub_add_comm hpos]
  rw [if_neg hc] at hg
  rw [hg]
  rcases hk with hk | hk
  · simp only [Token.isValueMark, List.any_cons, List.any_nil, Bool.or_eq_false_iff] at hk
    obtain ⟨hs, hr, hl, ha, -⟩ := hk
    simp [hs, hr, hl, ha]
  · rw [if_pos (by simpa using Nat.ne_of_gt hk)]

/-- A token that is neither a bracket nor a mark of values is not seen. -/
theorem isValue_plain {t : Token} (hb : t.kind.isBracket = false) {d : Nat}
    (hd : t.isValueMark = false ∨ 0 < d) (ts : List Token) :
    isValue d (t :: ts) = isValue d ts := by
  have hturn := @isValue_turn t [] [] (TokenKind.turn_of_not_isBracket hb []) d
    (hd.imp_right fun hd => Nat.lt_of_lt_of_le hd (Nat.le_add_left _ _)) ts
  rwa [show groups [] + d = d from Nat.zero_add d] at hturn

theorem isValue_append_plain {xs : List Token} {d : Nat}
    (h : ∀ t ∈ xs, t.kind.isBracket = false ∧ (t.isValueMark = false ∨ 0 < d)) (ts : List Token) :
    isValue d (xs ++ ts) = isValue d ts := by
  induction xs with
  | nil => rfl
  | cons t xs ih =>
    obtain ⟨⟨hb, hd⟩, hxs⟩ := List.forall_mem_cons.1 h
    rw [List.cons_append, isValue_plain hb hd, ih hxs]

theorem isValueMark_of_not_isMark {t : Token} (h : t.kind.isMark = false) :
    t.isValueMark = false := by
  obtain ⟨kind, text, position⟩ := t
  cases kind <;> first | rfl | cases h

theorem isValueMark_of_isTrivia {t : Token} (h : t.isTrivia = true) : t.isValueMark = false := by
  refine isValueMark_of_not_isMark ?_
  obtain ⟨kind, text, position⟩ := t
  cases kind <;> first | rfl | cases h

theorem isValue_dropWhile (d : Nat) (ts : List Token) :
    isValue d (ts.dropWhile Token.isTrivia) = isValue d ts := by
  have hall : isValue d (ts.takeWhile Token.isTrivia ++ ts.dropWhile Token.isTrivia) =
      isValue d (ts.dropWhile Token.isTrivia) := by
    refine isValue_append_plain (fun t ht => ?_) _
    have htrivia := List.all_eq_true.1 List.all_takeWhile t ht
    exact ⟨(Token.plain_isTrivia t htrivia).1, .inl (isValueMark_of_isTrivia htrivia)⟩
  rw [List.takeWhile_append_dropWhile] at hall
  exact hall.symm

end Lookahead

/-! ## Inside of a group -/

namespace Attempt

/-- The digits of a color are passed over wherever they are. -/
theorem passes_hexDigits {tape : Tape} (h : tape.Lexed) (d : Nat) :
    Passes d tape.ahead d (hexDigits tape).tape.ahead := by
  have hmark : ∀ m ∈ [Mark.semicolon, .rightBrace, .leftBrace, .atSign],
      m.spelling.toList.all Text.isLoose = false := by decide
  have hplain {ts : List Token} (hs : ∀ t ∈ ts, t.Smooth) (t : Token) (ht : t ∈ ts) :
      t.kind.isBracket = false ∧ (t.isValueMark = false ∨ 0 < d) := by
    refine ⟨(hs t ht).plain.1, .inl (Bool.eq_false_iff.2 fun hv => ?_)⟩
    obtain ⟨m, hm, hk⟩ := List.any_eq_true.1 hv
    have hloose := hs t ht m (Token.kind_of_isMark hk)
    rw [hmark m hm] at hloose
    cases hloose
  obtain ⟨xs, ys, zs, hx, hy, hxs, hys⟩ := hexDigits_smooth h
  apply Passes.of_eq
  rw [hx, hy, isValue_append_plain (hplain hxs), isValue_append_plain (hplain hys)]

/-- What the constructs inside a phrase have to be like: read inside of a group, they are passed
over. `Reading.Expressions` adds what holds outside of groups. -/
structure PassesInside (descend : Options → Production → Tape → Attempt) : Prop where
  conserves : ∀ o p tape, tape.Lexed → Conserves tape (descend o p tape)
  progress : ∀ o p tape, p.takes = true → tape.Lexed → Progress tape (descend o p tape)
  construct : ∀ o p (tape : Tape) d, 0 < d → tape.Lexed → p.opening (p.front tape.ahead) = true →
    (descend o p tape).Clean → Passes d tape.ahead d (descend o p tape).tape.ahead

namespace PassesInside

variable {descend : Options → Production → Tape → Attempt} (hd : PassesInside descend)
include hd

/-- A loop whose rounds are passed over is passed over, and it ends where its look ahead says no. -/
theorem repeating {test : Lookahead} {body : Phrase} (ht : test [] = false)
    (hb : body.takes = true) {o : Options} {d : Nat}
    (hround : ∀ tape : Tape, tape.Lexed → test tape.ahead = true →
      (body.read descend o tape).Clean →
      Passes d tape.ahead d (body.read descend o tape).tape.ahead)
    {tape : Tape} (h : tape.Lexed)
    (hc : ((Phrase.repeating test body).read descend o tape).Clean) :
    test ((Phrase.repeating test body).read descend o tape).tape.ahead = false ∧
      Passes d tape.ahead d ((Phrase.repeating test body).read descend o tape).tape.ahead := by
  refine repeating_rule (P := fun tape a => a.Clean → test a.tape.ahead = false ∧
    Passes d tape.ahead d a.tape.ahead) ht
    (fun tape h => Attempt.conserves.phrase hd.conserves body o tape h)
    (fun tape h => progress_phrase hd.conserves hd.progress body hb o h)
    (fun tape _ hn _ => ⟨hn, .refl _ _⟩) ?_ ?_ h (Nat.le_refl _) hc
  · intro tape f _ _ hf hc
    rw [hc.succeeds] at hf
    cases hf
  · intro tape b h hy hf ih hc
    obtain ⟨hfb, hsb⟩ := hc
    rw [trace_behind, Trace.diagnostics_append, List.append_eq_nil_iff] at hsb
    obtain ⟨hn, hrest⟩ := ih ⟨hfb, hsb.2⟩
    exact ⟨hn, (hround tape h hy ⟨hf, hsb.1⟩).trans hrest⟩

/-- A list of statements is passed over if its statements are. -/
theorem statements {statement : Phrase} (ht : statement.takes = true) {o : Options} {d : Nat}
    (hs : ∀ tape : Tape, tape.Lexed → (statement.read descend o tape).Clean →
      Passes d tape.ahead d (statement.read descend o tape).tape.ahead)
    {tape : Tape} (h : tape.Lexed)
    (hc : ((Phrase.statements true statement).read descend o tape).Clean) :
    Passes d tape.ahead d ((Phrase.statements true statement).read descend o tape).tape.ahead := by
  have htrivia (tape : Tape) : Passes d tape.ahead d tape.takeTrivia.2.ahead := by
    rw [Tape.ahead_takeTrivia]
    exact .of_eq (isValue_dropWhile d tape.ahead).symm
  refine statements_rule (P := fun tape a => a.trace.diagnostics = [] →
    Passes d tape.ahead d a.tape.ahead)
    (fun tape h => Attempt.conserves.phrase hd.conserves statement o tape h)
    (fun tape h => progress_phrase hd.conserves hd.progress statement ht o h)
    (fun tape _ _ _ => htrivia tape) ?_ ?_ h (Nat.le_refl _) hc.silent
  · intro _ _ _ hblock
    cases hblock
  intro tape b h _ _ r ih hsilent
  rw [trace_behind, trace_behind, Trace.diagnostics_append, Trace.diagnostics_append,
    List.append_eq_nil_iff, List.append_eq_nil_iff] at hsilent
  obtain ⟨-, hr, hb⟩ := hsilent
  obtain ⟨hclean, he⟩ := Clean.of_recovered (⟨failure_recovered _ _ _, hr⟩ :
    (recovered o.file true (statement.read descend o tape.takeTrivia.2)).Clean)
  have hl : tape.takeTrivia.2.Lexed := (Attempt.conserves.takeTrivia tape h).lexed
  have hrest := ih hb
  simp only [r, he] at hrest ⊢
  exact ((htrivia tape).trans (hs _ hl hclean)).trans hrest

/-- **A phrase that is read inside of a group is passed over**, and the groups that it leaves open
are counted. -/
theorem phrase (q : Phrase) {o : Options} {tape : Tape} (h : tape.Lexed) {k : Nat} (hk : 0 < k)
    {g : Hold} {Q : Hold → List Token → Prop} (hw : q.wp Q g tape.ahead)
    (hc : (q.read descend o tape).Clean) :
    ∃ g', Q g' (q.read descend o tape).tape.ahead ∧
      Passes (groups g.opened + k) tape.ahead (groups g'.opened + k)
        (q.read descend o tape).tape.ahead := by
  have hpos (g : Hold) : 0 < groups g.opened + k := Nat.lt_of_lt_of_le hk (Nat.le_add_left _ _)
  -- The condition of the phrase says which brackets are open behind each step; the groups among
  -- them are what the look has counted.
  induction q generalizing o tape k g Q with
  | empty => exact ⟨g, hw, .refl _ _⟩
  | take tag =>
    obtain ⟨t, rest, ha, g', hg, hQ⟩ := hw
    have hx : (tape.take tag).2.ahead = rest := by rw [Tape.ahead_take, ha]; rfl
    refine ⟨g', hx ▸ hQ, ?_⟩
    show Passes _ tape.ahead _ (tape.take tag).2.ahead
    rw [hx, ha]
    exact .of_eq (isValue_turn (Hold.turn_of_take hg).1 (.inr (hpos g)) rest)
  | trivia =>
    have hx : tape.takeTrivia.2.ahead = tape.ahead.dropWhile Token.isTrivia := tape.ahead_takeTrivia
    refine ⟨g, ?_, ?_⟩
    · show Q g tape.takeTrivia.2.ahead
      rw [hx]
      exact hw.2
    · show Passes _ tape.ahead _ tape.takeTrivia.2.ahead
      rw [hx]
      exact .of_eq (isValue_dropWhile _ _).symm
  | node p =>
    obtain ⟨-, ho, hQ⟩ := hw
    exact ⟨⟨g.opened, p.terminated⟩, hQ _, hd.construct o p tape _ (hpos g) h ho hc⟩
  | andThen first second ih₁ ih₂ =>
    obtain ⟨hc₁, hc₂, he⟩ := hc.of_andThen
    obtain ⟨g₁, hQ₁, hx₁⟩ := ih₁ h hk hw hc₁ hpos
    have hl := (Attempt.conserves.phrase hd.conserves first o tape h).lexed
    obtain ⟨g₂, hQ₂, hx₂⟩ := ih₂ hl hk hQ₁ hc₂ hpos
    rw [Phrase.read, he]
    exact ⟨g₂, hQ₂, hx₁.trans hx₂⟩
  | choose test yes no ihy ihn =>
    obtain ⟨-, hy, hno⟩ := hw
    rw [Phrase.read] at hc ⊢
    cases ht : test tape.ahead with
    | true =>
      rw [ht] at hc
      exact ihy h hk (hy ht) hc hpos
    | false =>
      rw [ht] at hc
      exact ihn h hk (hno ht) hc hpos
  | repeating test body ih =>
    obtain ⟨-, ht, hb, hagain, hQ⟩ := hw
    obtain ⟨hends, hx⟩ := hd.repeating ht hb (fun tape h hy hc => by
      -- The hold in front of a round is the hold behind it, so the loop keeps it.
      obtain ⟨g', rfl, hx⟩ := ih h hk (hagain _ hy) hc hpos
      exact hx) h hc
    exact ⟨g, hQ _ hends, hx⟩
  | spacedCalls yes no ihy ihn =>
    obtain ⟨hy, hno⟩ := hw
    rw [Phrase.read] at hc ⊢
    cases ho : o.spacedCalls with
    | true =>
      rw [ho] at hc
      exact ihy h hk hy hc hpos
    | false =>
      rw [ho] at hc
      exact ihn h hk hno hc hpos
  | expected wanted => cases hc.succeeds
  | orphan => cases hc.succeeds
  | statements inBlock statement ih =>
    obtain ⟨rfl, -, ht, -, hs, hQ⟩ := hw
    refine ⟨⟨g.opened, true⟩, hQ _, hd.statements ht (fun tape h hc => ?_) h hc⟩
    -- A statement begins with nothing open, whatever is open around it.
    obtain ⟨⟨opened, done⟩, rfl, hx⟩ := ih h (hpos g) (hs _) hc fun g' =>
      Nat.lt_of_lt_of_le (hpos g) (Nat.le_add_left _ _)
    simpa [groups, Hold.start] using hx
  | quoted => exact hw.elim
  | hexDigits => exact ⟨⟨g.opened, false⟩, hw _, passes_hexDigits h _⟩
  | foreign =>
    obtain ⟨t, rest, ha, hf, hQ⟩ := hw
    have hx : (Attempt.foreign tape).tape.ahead = rest := ahead_foreign ha hf
    refine ⟨⟨g.opened, false⟩, ?_, ?_⟩
    · show Q _ (Attempt.foreign tape).tape.ahead
      rw [hx]
      exact hQ
    · show Passes _ tape.ahead _ (Attempt.foreign tape).tape.ahead
      rw [hx, ha]
      exact .of_eq (isValue_plain (Token.plain_isForeign t hf).1 (.inr (hpos g)) rest)

end PassesInside

/-- A construct is passed over like its inside. -/
theorem passes_enter {p : Production} {o : Options} {inside : Tape → Attempt} {tape : Tape}
    (h : tape.Lexed) {d : Nat} (hc : (p.enter o inside tape).Clean)
    (hi : ∀ start : Tape, start.Lexed → start.ahead = p.front tape.ahead → (inside start).Clean →
      Passes d start.ahead d (inside start).tape.ahead) :
    Passes d tape.ahead d (p.enter o inside tape).tape.ahead := by
  have henter := p.enter_eq o inside tape
  cases hk : p.keepsTrivia with
  | true =>
    simp only [hk, if_true] at henter
    rw [henter] at hc ⊢
    rw [tape_framed]
    exact hi tape h (by rw [Production.front, if_pos hk]) hc.of_framed
  | false =>
    simp only [hk, Bool.false_eq_true, if_false] at henter
    rw [henter] at hc ⊢
    obtain ⟨-, hb, he⟩ := hc.of_andThen
    have hfront : tape.takeTrivia.2.ahead = p.front tape.ahead := by
      rw [Tape.ahead_takeTrivia, Production.front, hk]
      rfl
    have hinside := hi _ (Attempt.conserves.takeTrivia tape h).lexed hfront hb.of_framed
    rw [he, tape_behind, tape_framed]
    refine .trans (.of_eq ?_) hinside
    show _ = isValue d tape.takeTrivia.2.ahead
    rw [Tape.ahead_takeTrivia]
    exact (isValue_dropWhile d tape.ahead).symm

/-- **Every construct that is read inside of a group is passed over**, however deep nodes may
nest. -/
theorem passes_inside (n : Nat) : PassesInside (Production.read n) := by
  induction n with
  | zero =>
    refine ⟨fun o p tape => conserves.read 0 o p tape,
      fun o p tape hp h => progress_read 0 o hp h, fun o p tape d _ h _ hc => ?_⟩
    exact passes_enter h hc fun _ _ _ hc => nomatch hc.succeeds
  | succ n ih =>
    refine ⟨fun o p tape => conserves.read (n + 1) o p tape,
      fun o p tape hp h => progress_read (n + 1) o hp h, fun o p tape d hd h ho hc => ?_⟩
    refine passes_enter h hc fun start hl ha hc => ?_
    rw [← ha] at ho
    by_cases hp : p = .string
    · obtain rfl := hp
      obtain ⟨t, ts, ha, ht⟩ := exists_of_next ho
      obtain ⟨trace, hr⟩ := takesApart_quoted o.file _ ht
      rw [show Production.body .string = Phrase.quoted _ _ from rfl, Phrase.read, hr start ts ha,
        ha]
      exact .of_eq (isValue_plain (Token.plain_isQuoted t ht).1 (.inr hd) ts)
    · obtain ⟨⟨opened, done⟩, ⟨rfl, -⟩, hx⟩ := ih.phrase p.body hl hd (Production.wp_body hp ho) hc
      simpa [groups, Hold.start] using hx

end Attempt

end Heddle
