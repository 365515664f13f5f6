import Heddle.Proofs.Grammar.Children
import Heddle.Proofs.Grammar.Types
import Heddle.Proofs.Reading.Derived
import Heddle.Proofs.Reading.Extension
import Heddle.Proofs.Reading.Reported

/-!
# A statement that fails does so by itself

A statement that makes a mistake is read up to the mistake, and what follows its semicolon has no
part in this: **it is read alike by itself and in front of more text**, if that text closes all it
opens. Both readings take the same and fail at the same place or not at all.

They may differ in what they expected there. The reader of a bracket in a type looks for a colon as
far as the text goes, and it may find one behind the semicolon. It then wants a colon behind the
first type in the bracket where it would want the closing bracket by itself, but there is neither.
So what is said of the two readings (`Attempt.Isolated`) is that they leave the same on the tape
and the same in the tree and report the same inside of texts, and only of those that succeed that
they are the same.

Another reader could go past the semicolon. That none does is a matter of the rules, and of no look
ahead: no token that a rule takes can be a semicolon, unless the rule ends with it.
-/

set_option autoImplicit false

namespace Heddle

open Lookahead Text
open Ending (plain_ne_semicolon type_ne_semicolon)

/-! ## The end of a statement -/

/-- What follows a statement that ends at `stop`. It can not end a block of another language that
the statement seems to open, and no look that goes on into it is left inside a group. -/
structure Follows (stop : Position) (more : List Char) : Prop where
  tagless : ¬ ['<', '/'] <:+: more
  closed : nest [] (Token.readAll stop more) = some []

namespace Tape

/-- The tape holds the rest of one statement at the most, which ends at `stop`. -/
structure Pends (stop : Position) (tape : Tape) : Prop where
  lexed : tape.Lexed
  stop : tape.stop = stop
  pending : Pending tape.ahead

end Tape

namespace Attempt

variable {stop : Position} {more : List Char} {tape : Tape} {e e' : Ending} {a b : Attempt}

theorem Conserves.pends (hc : Conserves tape a) (h : tape.Pends stop)
    (hp : Pending a.tape.ahead) : a.tape.Pends stop :=
  ⟨hc.lexed, (hc.stop h.lexed).trans h.stop, hp⟩

end Attempt

namespace Tape.Pends

variable {stop : Position} {more : List Char} {tape : Tape} (h : tape.Pends stop)
include h

/-- No look but one sees what follows. -/
theorem look (hm : Follows stop more) (test : Lookahead) [test.StopsAtPending] :
    test (tape.extend more).ahead = test tape.ahead :=
  StopsAtPending.append h.pending (h.stop ▸ hm.closed)

/-- What is in front of the place of a tape, or at it, is in front of the end. -/
theorem before {d : Diagnostic} (hd : d.UpTo tape.place) : d.Before stop := by
  rw [← h.stop, h.lexed.stop]
  exact hd.before fun ht => h.pending.ne_nil (h.lexed.ahead_eq_nil ht)

theorem extended (hm : Follows stop more) : (tape.extend more).Lexed :=
  tape.lexed_extend more h.lexed (.of_finished h.pending.finished more) hm.tagless

end Tape.Pends

/-! ## Two readings of a statement -/

namespace Attempt

/-- The attempt `a` on the rest of a statement and the attempt `b` on the same with more text
behind it are alike. They leave a rest of the statement, unless they end with its semicolon. The
traces are compared as a whole only after a success; after a failure the tree, the errors and the
tape are. -/
structure Isolated (stop : Position) (more : List Char) (e : Ending) (a b : Attempt) : Prop where
  tape : b.tape = a.tape.extend more
  failure : b.failure.isSome = a.failure.isSome
  trace : a.failure = none → b.trace = a.trace
  forest : b.trace.forest = a.trace.forest
  diagnostics : b.trace.diagnostics = a.trace.diagnostics
  before : ∀ d ∈ a.trace.diagnostics, d.Before stop
  rest : a.tape.Pends stop ∨ e = .semicolon ∧ a.failure = none ∧ a.tape.ahead = []

namespace Isolated

variable {stop : Position} {more : List Char} {tape : Tape} {e e' : Ending} {a b : Attempt}

/-- The same was taken, and nothing was wrong with it. -/
theorem of_taken {taken : Trace × Tape} (hd : taken.1.diagnostics = [])
    (h : taken.2.Pends stop ∨ e = .semicolon ∧ taken.2.ahead = []) :
    Isolated stop more e (ofTaken taken) (ofTaken (taken.1, taken.2.extend more)) :=
  ⟨rfl, rfl, fun _ => rfl, rfl, rfl, by rw [trace_ofTaken, hd]; exact nofun,
    h.imp_right fun h => ⟨h.1, rfl, h.2⟩⟩

theorem nothing (h : tape.Pends stop) :
    Isolated stop more e (ofTaken (.nil, tape)) (ofTaken (.nil, tape.extend more)) :=
  .of_taken rfl (.inl h)

theorem fail (h : tape.Pends stop) (f f' : Failure) :
    Isolated stop more e (Attempt.fail f tape) (Attempt.fail f' (tape.extend more)) :=
  ⟨rfl, rfl, nofun, rfl, rfl, nofun, .inl h⟩

/-- Only what ends with its semicolon can end there. What comes behind a part that does not still
has a rest of the statement ahead. -/
theorem pends (h : Isolated stop more e a b) (he : e ≠ .semicolon ∨ a.failure ≠ none) :
    a.tape.Pends stop := by
  refine h.rest.resolve_right fun ⟨hs, hf, _⟩ => ?_
  exact he.elim (· hs) (· hf)

/-- What does not end with its semicolon may be said to end anyhow. -/
theorem raise (h : Isolated stop more e a b) (he : e ≠ .semicolon ∨ a.failure ≠ none) :
    Isolated stop more e' a b :=
  ⟨h.tape, h.failure, h.trace, h.forest, h.diagnostics, h.before, .inl (h.pends he)⟩

/-- With the same in front. -/
theorem behind (h : Isolated stop more e a b) {lead : Trace}
    (hl : ∀ d ∈ lead.diagnostics, d.Before stop) :
    Isolated stop more e (a.behind lead) (b.behind lead) := by
  refine ⟨h.tape, h.failure, fun hf => congrArg (lead ++ ·) (h.trace hf), ?_, ?_, ?_, h.rest⟩
  · simp only [trace_behind, Trace.forest_append, h.forest]
  · simp only [trace_behind, Trace.diagnostics_append, h.diagnostics]
  · intro d hd
    rw [trace_behind, Trace.diagnostics_append] at hd
    exact (List.mem_append.1 hd).elim (hl d) (h.before d)

/-- Both readings go on behind a part, or neither does. -/
theorem andThen {next next' : Tape → Attempt} (h : Isolated stop more e a b)
    (he : e ≠ .semicolon)
    (hn : a.failure = none → Isolated stop more e' (next a.tape) (next' (a.tape.extend more))) :
    Isolated stop more e' (a.andThen next) (b.andThen next') := by
  cases hf : a.failure with
  | some f =>
    obtain ⟨f', hf'⟩ := Option.isSome_iff_exists.1 (h.failure.trans (by rw [hf]; rfl))
    rw [andThen_of_some hf, andThen_of_some hf']
    exact h.raise (.inl he)
  | none =>
    have hf' : b.failure = none := Option.not_isSome_iff_eq_none.1 (by simp [h.failure, hf])
    rw [andThen_of_none hf, andThen_of_none hf', h.trace hf, h.tape]
    exact (hn hf).behind h.before

/-- As the inside of a node. Of what failed there is no node, of whatever kind, which is why a map
and an array may be compared. -/
theorem framed (h : Isolated stop more e a b) (file : Option String) {kind kind' : NodeKind}
    (hk : a.failure = none → kind' = kind) (start : Position) :
    Isolated stop more e (a.framed file kind start) (b.framed file kind' start) := by
  have hrest : (a.framed file kind start).tape.Pends stop ∨ e = .semicolon ∧
      (a.framed file kind start).failure = none ∧ (a.framed file kind start).tape.ahead = [] := by
    rw [tape_framed, failure_framed]
    exact h.rest
  refine ⟨by simp only [tape_framed, h.tape], by simp only [failure_framed, h.failure], ?_, ?_,
    by simp only [diagnostics_framed, h.diagnostics], by simpa using h.before, hrest⟩
  · intro hf
    rw [failure_framed] at hf
    have hf' : b.failure = none := Option.not_isSome_iff_eq_none.1 (by simp [h.failure, hf])
    simp only [Attempt.framed, hf, hf', hk hf, h.trace hf, h.tape]
    rfl
  · cases hf : a.failure with
    | some f =>
      obtain ⟨f', hf'⟩ := Option.isSome_iff_exists.1 (h.failure.trans (by rw [hf]; rfl))
      simp [Attempt.framed, hf, hf', Trace.ofNode, Trace.forest]
    | none =>
      have hf' : b.failure = none := Option.not_isSome_iff_eq_none.1 (by simp [h.failure, hf])
      simp only [Attempt.framed, hf, hf', hk hf, h.trace hf, h.tape]
      rfl

/-! ### Single tokens -/

/-- A token that does not end the statement. -/
theorem take {P : Token → Bool} (h : tape.Pends stop) (hp : Token.Inner P)
    (hg : next P tape.ahead = true) (tag : DataTag) :
    Isolated stop more e (ofTaken (tape.take tag)) (ofTaken ((tape.extend more).take tag)) := by
  obtain ⟨t, ts, ha, ht⟩ := exists_of_next hg
  rw [tape.take_extend more tag h.pending.ne_nil]
  refine .of_taken (tape.diagnostics_take tag) (.inl ?_)
  refine (Conserves.take tag h.lexed).pends h ?_
  rw [tape_ofTaken, Tape.ahead_take, ha]
  exact (ha ▸ h.pending).tail (beq_eq_false_iff_ne.2 (hp t ht))

/-- The token that ends the statement. -/
theorem takeSemicolon (h : tape.Pends stop)
    (hg : next (Token.isMark .semicolon) tape.ahead = true) (tag : DataTag) :
    Isolated stop more .semicolon (ofTaken (tape.take tag))
      (ofTaken ((tape.extend more).take tag)) := by
  obtain ⟨t, ts, ha, ht⟩ := exists_of_next hg
  rw [tape.take_extend more tag h.pending.ne_nil]
  refine .of_taken (tape.diagnostics_take tag) (.inr ⟨rfl, ?_⟩)
  rw [Tape.ahead_take, ha]
  rcases (ha ▸ h.pending).cases_head with ⟨-, he⟩ | ⟨⟨hs, -⟩, -⟩
  · exact he
  · rw [ht] at hs
    cases hs

theorem takeTrivia (h : tape.Pends stop) :
    Isolated stop more e (ofTaken tape.takeTrivia) (ofTaken (tape.extend more).takeTrivia) := by
  rw [tape.takeTrivia_extend more h.pending.finished h.pending.ne_nil]
  refine .of_taken (Tape.diagnostics_takeMany _ _ _) (.inl ?_)
  refine (conserves.takeTrivia tape h.lexed).pends h ?_
  rw [tape_ofTaken, Tape.ahead_takeTrivia]
  exact h.pending.dropWhile

/-- A token that is taken to pieces, with errors in it perhaps. -/
theorem apart {read : Tape → Attempt} {t : Token} {ts : List Token} (h : tape.Pends stop)
    (ha : tape.ahead = t :: ts) (hk : t.kind ≠ .mark .semicolon) (hr : TakesApart read t)
    (hd : ∀ d ∈ (read tape).trace.diagnostics, d.Before stop) :
    Isolated stop more e (read tape) (read (tape.extend more)) := by
  obtain ⟨trace, hr⟩ := hr
  have hread := hr tape ts ha
  have hlong : read (tape.extend more) = ofTaken (trace, (read tape).tape.extend more) := by
    rw [hr _ _ (Tape.ahead_extend_of_cons more ha), hread]
    rfl
  have hpends : (read tape).tape.Pends stop := by
    rw [hread]
    exact ⟨h.lexed.tail ha t.stop, h.stop, (ha ▸ h.pending).tail (beq_eq_false_iff_ne.2 hk)⟩
  have htrace : trace = (read tape).trace := by rw [hread]; rfl
  have hfailure : (read tape).failure = none := by rw [hread]; rfl
  rw [hlong, htrace]
  exact ⟨rfl, by rw [hfailure]; rfl, fun _ => rfl, rfl, rfl, hd, .inl hpends⟩

theorem foreign (h : tape.Pends stop) (hg : next Token.isForeign tape.ahead = true) :
    Isolated stop more e (Attempt.foreign tape) (Attempt.foreign (tape.extend more)) := by
  obtain ⟨t, ts, ha, ht⟩ := exists_of_next hg
  refine .apart h ha (Token.plain_isForeign t ht).2 (takesApart_foreign ht) ?_
  rw [diagnostics_foreign]
  exact nofun

/-- The digits of a color are there with more text behind them if and only if they are there
without. -/
theorem hexDigits (h : tape.Pends stop) (hm : Follows stop more) :
    Isolated stop more e (Attempt.hexDigits tape) (Attempt.hexDigits (tape.extend more)) := by
  have hf := h.pending.finished
  have hn := h.pending.ne_nil
  cases hs : (Attempt.hexDigits tape).failure with
  | none =>
    have hsilent : (Attempt.hexDigits tape).trace.diagnostics = [] := by
      rcases hexDigits_cases h.lexed with he | ⟨t, rest, -, -, he⟩ <;> (rw [he]; rfl)
    -- Behind the digits other tokens may be ahead, but from `zs` on they are those of the source,
    -- and the semicolon is among these.
    obtain ⟨xs, ys, zs, hx, hy, hzs, hys⟩ := hexDigits_seam h.lexed hf hn
    rw [hexDigits_extend h.lexed (.of_finished hf more)
      (.of_finished (finished_hexDigits h.lexed hf hn).1 more) hn hs hm.tagless]
    refine ⟨rfl, rfl, fun _ => rfl, rfl, rfl, by rw [hsilent]; exact nofun, .inl ?_⟩
    refine (Conserves.hexDigits h.lexed).pends h ?_
    rw [hy]
    exact ((hx ▸ h.pending).right hzs).behind hys
  | some f =>
    have hstops : Attempt.hexDigits tape = Attempt.fail (tape.missing .hexColor) tape := by
      rcases hexDigits_cases h.lexed with he | ⟨t, rest, -, -, he⟩
      · exact he
      · rw [he] at hs
        cases hs
    -- Digits that are found only with more text would go over the semicolon.
    have hlong : Attempt.hexDigits (tape.extend more) =
        Attempt.fail ((tape.extend more).missing .hexColor) (tape.extend more) := by
      rcases hexDigits_cases (h.extended hm) with he | ⟨t, rest, -, -, he⟩
      · exact he
      have hfound := hexDigits_of_extend h.lexed (.of_finished hf more) hn hm.tagless
        (by rw [he]; rfl)
      rw [hs] at hfound
      cases hfound
    rw [hstops, hlong]
    exact .fail h _ _

end Isolated

/-! ## Phrases -/

/-- What the constructs inside a phrase have to be like. The second of the two conditions on
constructs is the exception that `bracketType` needs. -/
structure Isolates (stop : Position) (more : List Char)
    (descend : Options → Production → Tape → Attempt) : Prop where
  conserves : ∀ o p tape, tape.Lexed → Conserves tape (descend o p tape)
  progress : ∀ o p tape, p.takes = true → tape.Lexed → Progress tape (descend o p tape)
  construct : ∀ o p (tape : Tape), tape.Pends stop → p.seen (p.front tape.ahead) = true →
    Isolated stop more p.ending (descend o p tape) (descend o p (tape.extend more))
  /-- A colon that is found behind the semicolon makes no difference but in what is expected. -/
  bracket : ∀ o (tape : Tape), tape.Pends stop →
    next (Token.isMark .leftBracket) tape.ahead = true →
    isMapType tape.ahead = false → isMapType (tape.extend more).ahead = true →
      Isolated stop more .plain (descend o .arrayType tape) (descend o .mapType (tape.extend more))

variable {stop : Position} {more : List Char}
  {descend : Options → Production → Tape → Attempt}

/-- A colon that is seen is seen whatever follows. -/
theorem hasColon_of_front {depth : Nat} {ts : List Token} (h : hasColon depth ts = true)
    (more : List Token) : hasColon depth (ts ++ more) = true := by
  induction ts generalizing depth with
  | nil => cases h
  | cons t ts ih =>
    rw [List.cons_append]
    simp only [hasColon] at h ⊢
    split <;> rename_i hopen
    · exact ih (by rwa [if_pos hopen] at h)
    rw [if_neg hopen] at h
    split <;> rename_i hparen
    · exact ih (by rwa [if_pos hparen] at h)
    rw [if_neg hparen] at h
    split <;> rename_i hbracket
    · rw [if_pos hbracket] at h
      cases depth with
      | zero => cases h
      | succ depth => exact ih h
    rw [if_neg hbracket] at h
    split <;> rename_i hcolon
    · rfl
    · exact ih (by rwa [if_neg hcolon] at h)

theorem isMapType_of_front {ts : List Token} (h : isMapType ts = true) (more : List Token) :
    isMapType (ts ++ more) = true := by
  cases ts with
  | nil => cases h
  | cons t ts =>
    obtain ⟨ht, hc⟩ := Bool.and_eq_true_iff.1 h
    exact Bool.and_eq_true_iff.2 ⟨ht, hasColon_of_front hc more⟩

namespace Isolates

variable (hd : Isolates stop more descend) (hm : Follows stop more)
include hd hm

/-- A loop in a broken statement. Its look says the same on both tapes, so both loops have the
same rounds, up to one that fails. -/
theorem repeating {test : Lookahead} [test.StopsAtPending] {body : Phrase} {e e' : Ending}
    (o : Options)
    (ht : test [] = false) (hb : body.takes = true)
    (he : e ≠ .semicolon)
    (ih : ∀ tape : Tape, tape.Pends stop → test tape.ahead = true →
      Isolated stop more e (body.read descend o tape) (body.read descend o (tape.extend more)))
    {tape : Tape} (h : tape.Pends stop) :
    Isolated stop more e' ((Phrase.repeating test body).read descend o tape)
      ((Phrase.repeating test body).read descend o (tape.extend more)) := by
  have hc (tape : Tape) (h : tape.Lexed) : Conserves tape (body.read descend o tape) :=
    Attempt.conserves.phrase hd.conserves body o tape h
  have hp (tape : Tape) (h : tape.Lexed) : Progress tape (body.read descend o tape) :=
    progress_phrase hd.conserves hd.progress body hb o h
  have hone {tape : Tape} (h : tape.Pends stop) :
      (Phrase.repeating test body).read descend o (tape.extend more) =
        if test tape.ahead then (body.read descend o (tape.extend more)).andThen
          ((Phrase.repeating test body).read descend o)
        else ofTaken (.nil, tape.extend more) := by
    rw [← h.look hm test]
    exact repeating_eq ht hc hp (h.extended hm)
  -- The loop of the statement by itself is followed, and round by round the other one with it.
  refine repeating_rule (P := fun tape a => tape.Pends stop → Isolated stop more e' a
    ((Phrase.repeating test body).read descend o (tape.extend more))) ht hc hp ?_ ?_ ?_ h.lexed
    (Nat.le_refl _) h
  · intro tape _ hg h
    rw [hone h, if_neg (by simp [hg])]
    exact .nothing h
  · intro tape f _ hg hf h
    rw [hone h, if_pos hg, ← andThen_of_some hf fun tape => ofTaken (.nil, tape)]
    exact (ih tape h hg).andThen he fun hn => by rw [hn] at hf; cases hf
  · intro tape b _ hg hf hb h
    rw [hone h, if_pos hg, ← andThen_of_none hf fun _ => b]
    exact (ih tape h hg).andThen he fun _ => hb ((ih tape h hg).pends (.inl he))

omit hm in
/-- A type in brackets. A colon behind the semicolon may be taken for one in the bracket, and then
the longer text is read as a map where the statement by itself is read as an array. -/
theorem bracketType (o : Options) {tape : Tape} (h : tape.Pends stop)
    (hg : next (Token.isMark .leftBracket) tape.ahead = true) :
    Isolated stop more .plain
      ((Phrase.choose isMapType (.node .mapType) (.node .arrayType)).read descend o tape)
      ((Phrase.choose isMapType (.node .mapType) (.node .arrayType)).read descend o
        (tape.extend more)) := by
  have hseen {p : Production} (hp : p.seen = next (Token.isMark .leftBracket)) :
      p.seen (p.front tape.ahead) = true := by
    rw [p.front_of_firm (Token.firm_isMark _) hg, hp]
    exact hg
  show Isolated _ _ _ (if isMapType tape.ahead then _ else _)
    (if isMapType (tape.extend more).ahead then _ else _)
  cases hstops : isMapType tape.ahead with
  | true =>
    have hlong : isMapType (tape.extend more).ahead = true := isMapType_of_front hstops _
    rw [if_pos rfl, if_pos hlong]
    exact hd.construct o .mapType tape h (hseen rfl)
  | false =>
    rw [if_neg Bool.false_ne_true]
    cases hlong : isMapType (tape.extend more).ahead with
    | true => exact hd.bracket o tape h hg hstops hlong
    | false => exact hd.construct o .arrayType tape h (hseen rfl)

/-- Further elements, each behind a separator, with trivia in front of it. -/
theorem further {element : Phrase} {m : Mark} (hs : m ≠ .semicolon) (tag : DataTag) (o : Options)
    (ih : ∀ tape : Tape, tape.Pends stop →
      Isolated stop more .type (element.read descend o tape)
        (element.read descend o (tape.extend more)))
    {tape : Tape} (h : tape.Pends stop) :
    Isolated stop more .type ((Phrase.further m tag element).read descend o tape)
      ((Phrase.further m tag element).read descend o (tape.extend more)) := by
  refine hd.repeating hm o rfl rfl type_ne_semicolon (fun tape h hg => ?_) h
  have htrivia : Isolated stop more .plain _ _ := .takeTrivia h
  refine htrivia.andThen plain_ne_semicolon fun _ => ?_
  have htake : Isolated stop more .plain _ _ :=
    .take (htrivia.pends (.inl plain_ne_semicolon)) (Token.inner_isMark hs) ?_ tag
  · exact htake.andThen plain_ne_semicolon fun _ =>
      ih _ (htake.pends (.inl plain_ne_semicolon))
  · rw [tape_ofTaken, Tape.ahead_takeTrivia]
    exact (next_dropWhile _ _).trans hg

omit hd hm in
/-- There is no brace in front of the semicolon, so a block fails before it begins. -/
theorem failure_leftBrace (o : Options) {tape : Tape} (h : tape.Pends stop) :
    ((Phrase.mark .leftBrace).read descend o tape).failure ≠ none := by
  refine failure_mark .leftBrace o (Bool.eq_false_iff.2 fun hbrace => ?_)
  rw [← next_dropWhile] at hbrace
  obtain ⟨t, ts, ha, ht⟩ := exists_of_next hbrace
  have hno := (h.pending.dropWhile.not_isBrace (ha ▸ List.mem_cons_self)).1
  rw [ht] at hno
  cases hno

/-- **A phrase is read alike in front of more text.** The induction is on what the phrase spells,
since the spelling says where the phrase may end: only with a semicolon can the statement end in
it, and then nothing of its rule follows. -/
theorem phrase {given : Lookahead} {q : Phrase} {r : Rule} {e : Ending}
    (hq : Phrase.Spells given q r e) (o : Options) {tape : Tape} (h : tape.Pends stop)
    (hg : given tape.ahead = true) :
    Isolated stop more e (q.read descend o tape) (q.read descend o (tape.extend more)) := by
  induction hq generalizing tape with
  | empty _ => exact .nothing h
  | @take P tag r hp _ => exact .take h hp hg tag
  | @takeSemicolon tag r _ => exact .takeSemicolon h hg tag
  | @takeFirst P R tag q r r' e hp _ _ ih =>
    have hfirst : Isolated stop more .plain _ _ := .take h hp (next_of_pair hg) tag
    refine hfirst.andThen plain_ne_semicolon fun _ => ih (hfirst.pends (.inl plain_ne_semicolon)) ?_
    rw [tape_ofTaken, Tape.ahead_take]
    exact next_tail_of_pair hg
  | trivia hg' _ ih =>
    have hfirst : Isolated stop more .plain _ _ := .takeTrivia h
    refine hfirst.andThen plain_ne_semicolon fun _ => ih (hfirst.pends (.inl plain_ne_semicolon)) ?_
    rw [tape_ofTaken, Tape.ahead_takeTrivia]
    exact hg' _ hg
  | node _ => exact hd.construct o _ tape h hg
  | andThen _ _ ih₁ ih₂ =>
    have hfirst := ih₁ h hg
    exact hfirst.andThen plain_ne_semicolon fun _ =>
      ih₂ (hfirst.pends (.inl plain_ne_semicolon)) rfl
  | @choose given test _ yes no r e _ _ ihy ihn =>
    -- More text does not change what the look says, so both readings go the same way.
    rw [Phrase.read, Phrase.read, h.look hm test]
    split <;> rename_i ht
    · exact ihy h (by simp [hg, ht])
    · exact ihn h (by simp [hg, ht])
  | bracketType _ _ => exact hd.bracketType o h hg
  | repeating ht hb _ ih =>
    exact hd.repeating hm o ht hb plain_ne_semicolon
      (fun tape h hg => ih h hg) h
  | repeatingSeen ht hb _ ih =>
    exact hd.repeating hm o ht hb plain_ne_semicolon
      (fun tape h hg => ih h hg) h
  | spacedCalls _ _ ihy ihn =>
    rw [Phrase.read, Phrase.read]
    split
    · exact ihy h hg
    · exact ihn h hg
  | expected _ _ => exact .fail h _ _
  | orphan _ => exact .fail h _ _
  -- No block is begun while a statement pends: there is no brace ahead.
  | block _ _ _ _ _ ih _ _ =>
    exact (ih h rfl).andThen plain_ne_semicolon fun hf => absurd hf (failure_leftBrace o h)
  | hexDigits _ => exact .hexDigits h hm
  | foreign => exact .foreign h hg
  -- A type may have gone up to the semicolon, and then a loop behind it does not begin.
  | furtherTypes _ hs _ _ _ ih₁ ih₂ =>
    have hfirst := ih₁ h hg
    exact hfirst.andThen type_ne_semicolon fun _ =>
      hd.further hm hs _ o (fun _ h => ih₂ h rfl) (hfirst.pends (.inl type_ne_semicolon))
  | refusing _ _ _ ih₁ ih₂ =>
    have hfirst := ih₁ h hg
    exact hfirst.andThen type_ne_semicolon fun _ => ih₂ (hfirst.pends (.inl type_ne_semicolon)) rfl
  | impossible hg' _ _ _ => rw [hg'] at hg; cases hg
  | under _ hs ih => exact ih h (hs _ hg)
  | weaken _ _ ih => exact ih h hg
  | loosen _ _ ih => exact (ih h hg).raise (.inl plain_ne_semicolon)

end Isolates

/-! ## Constructs -/

variable {tape : Tape} {e : Ending}

/-- Two constructs are alike if their insides are. They may differ if they fail. -/
theorem Isolated.enter {p p' : Production} (o : Options) {inside inside' : Tape → Attempt}
    (hk : p'.keepsTrivia = p.keepsTrivia) (h : tape.Pends stop)
    (hi : ∀ start : Tape, start.Pends stop → start.ahead = p.front tape.ahead →
      Isolated stop more e (inside start) (inside' (start.extend more)) ∧
        ((inside start).failure = none → p'.kind = p.kind)) :
    Isolated stop more e (p.enter o inside tape) (p'.enter o inside' (tape.extend more)) := by
  have hnode (start : Tape) (hs : start.Pends stop) (ha : start.ahead = p.front tape.ahead) :
      Isolated stop more e ((inside start).framed o.file p.kind start.place)
        ((inside' (start.extend more)).framed o.file p'.kind (start.extend more).place) := by
    obtain ⟨hin, hkind⟩ := hi start hs ha
    rw [start.place_extend more]
    exact hin.framed o.file hkind _
  rw [Production.enter_eq, Production.enter_eq, hk]
  cases hp : p.keepsTrivia with
  | true => exact hnode tape h (by rw [Production.front, if_pos hp])
  | false =>
    rw [if_neg Bool.false_ne_true, if_neg Bool.false_ne_true]
    have htrivia : Isolated stop more .plain _ _ := .takeTrivia h
    refine htrivia.andThen plain_ne_semicolon fun _ =>
      hnode _ (htrivia.pends (.inl plain_ne_semicolon)) ?_
    rw [tape_ofTaken, Tape.ahead_takeTrivia, Production.front, if_neg (by simp [hp])]
    rfl

/-- A quoted text is read by itself anyway, and its errors are inside of it. -/
theorem isolated_string (n : Nat) (o : Options) (h : tape.Pends stop)
    (hg : next Token.isQuoted tape.ahead = true) :
    Isolated stop more e (Production.string.body.read (Production.read n) o tape)
      (Production.string.body.read (Production.read n) o (tape.extend more)) := by
  obtain ⟨t, ts, ha, ht⟩ := exists_of_next hg
  refine .apart h ha (Token.plain_isQuoted t ht).2 (takesApart_quoted _ _ ht) fun d hd => ?_
  have hc := conserves.phrase (fun o p tape => conserves.read n o p tape) Production.string.body o
    tape h.lexed
  rw [← h.stop, ← hc.stop h.lexed, hc.lexed.stop]
  refine (before_quoted (fun isBraced window => ?_) h.lexed d hd).past _
  have hread (q : Phrase) (hq : q.placeholdersAreSigned = true) (o : Options) :
      (q.read (Production.read n) o window).Stops ∧
        (window.Lexed → Reports window (q.read (Production.read n) o window)) :=
    @GrammarInvariant.phrase o.file _ reports _
      (fun o' ho p => reports.read n o' ho p) q hq o rfl window
  split
  · exact hread _ rfl _
  · exact hread _ rfl _

/-- In a bracket that would have a key and a value inside if the text went on there is neither a
colon behind the first type, nor is it closed. -/
theorem isolated_key {n : Nat} (hd : Isolates stop more (Production.read n))
    (hm : Follows stop more) (o : Options) (h : tape.Pends stop)
    (hstops : hasColon 0 tape.ahead = false) (hlong : hasColon 0 (tape.extend more).ahead = true)
    (q : Phrase) :
    Isolated stop more .plain
        ((Phrase.andThen .type (.mark .rightBracket)).read (Production.read n) o tape)
        ((Phrase.andThen .type (.andThen (.mark .colon) q)).read (Production.read n) o
          (tape.extend more)) ∧
      ((Phrase.andThen .type (.mark .rightBracket)).read (Production.read n) o tape).failure ≠
        none := by
  have hkey : Isolated stop more .type (Phrase.type.read (Production.read n) o tape)
      (Phrase.type.read (Production.read n) o (tape.extend more)) :=
    hd.phrase hm (@Phrase.spells_type Phrase.unseen) o h rfl
  have hbehind := hkey.pends (.inl type_ne_semicolon)
  -- What was seen of a colon in front of the type is what is seen behind it.
  have hmarks (hf : (Phrase.type.read (Production.read n) o tape).failure = none) :
      significant (Token.isMark .colon)
          (Phrase.type.read (Production.read n) o tape).tape.ahead = false ∧
        significant (Token.isMark .rightBracket)
          (Phrase.type.read (Production.read n) o tape).tape.ahead = false := by
    have hf' : (Phrase.type.read (Production.read n) o (tape.extend more)).failure = none :=
      Option.not_isSome_iff_eq_none.1 (by simp [hkey.failure, hf])
    have hafter := hasColon_type n o hf
    have hafter' := hasColon_type n o hf'
    rw [hstops] at hafter
    rw [hlong, hkey.tape] at hafter'
    rw [← hbehind.look hm (significant (Token.isMark .rightBracket))]
    refine ⟨Bool.eq_false_iff.2 fun hc => ?_, Bool.eq_false_iff.2 fun hc => ?_⟩
    · rw [hasColon_of_colon hc] at hafter
      cases hafter
    · rw [hasColon_of_rightBracket hc] at hafter'
      cases hafter'
  -- Neither mark follows the type, so both readings fail there: the one for want of a bracket,
  -- the other for want of a colon.
  refine ⟨hkey.andThen type_ne_semicolon fun hf => ?_, fun hf => ?_⟩
  · obtain ⟨hcolon, hbracket⟩ := hmarks hf
    generalize (Phrase.type.read (Production.read n) o tape).tape = rest at *
    show Isolated _ _ _ _
      (((Phrase.mark .colon).read (Production.read n) o (rest.extend more)).andThen _)
    rw [read_mark_of_not .rightBracket o hbracket,
      read_mark_of_not .colon o ((hbehind.look hm _).trans hcolon), andThen_of_some rfl,
      rest.takeTrivia_extend more hbehind.pending.finished hbehind.pending.ne_nil]
    have htrivia : Isolated stop more .plain _ _ := .takeTrivia hbehind
    refine (Isolated.fail (htrivia.pends (.inl plain_ne_semicolon)) _ _).behind ?_
    rw [Tape.takeTrivia, Tape.diagnostics_takeMany]
    exact List.forall_mem_nil _
  · obtain ⟨hfirst, hsecond, -⟩ := andThen_succeeds hf
    exact failure_mark .rightBracket o (hmarks hfirst).2 hsecond

/-- A bracket that has a colon inside only if the text goes on fails whichever way it is read. It
is read as an array by itself and as a map with the text behind it, and both fail behind the first
type. -/
theorem isolated_bracket {n : Nat} (hd : Isolates stop more (Production.read n))
    (hm : Follows stop more) (o : Options) (h : tape.Pends stop)
    (hg : next (Token.isMark .leftBracket) tape.ahead = true)
    (hstops : isMapType tape.ahead = false) (hlong : isMapType (tape.extend more).ahead = true) :
    Isolated stop more .plain (Production.arrayType.body.read (Production.read n) o tape)
        (Production.mapType.body.read (Production.read n) o (tape.extend more)) ∧
      (Production.arrayType.body.read (Production.read n) o tape).failure ≠ none := by
  obtain ⟨t, ts, ha, ht⟩ := exists_of_next hg
  have htake : Isolated stop more .plain (ofTaken (tape.take .punctuation))
      (ofTaken ((tape.extend more).take .punctuation)) :=
    .take h (Token.inner_isMark (by decide)) hg .punctuation
  have hfalse : hasColon 0 (tape.take .punctuation).2.ahead = false := by
    rw [ha] at hstops
    rw [Tape.ahead_take, ha]
    simpa [isMapType, ht] using hstops
  have htrue : hasColon 0 ((tape.take .punctuation).2.extend more).ahead = true := by
    rw [Tape.ahead_extend_of_cons more ha] at hlong
    rw [Tape.take_of_cons .punctuation ha]
    exact (Bool.and_eq_true_iff.1 hlong).2
  have hkey := isolated_key hd hm o (htake.pends (.inl plain_ne_semicolon)) hfalse htrue
    (.andThen .type (.mark .rightBracket))
  refine ⟨htake.andThen plain_ne_semicolon fun _ => hkey.1, fun hf => ?_⟩
  exact hkey.2 (andThen_succeeds hf).2.1

/-- **Every construct is read alike in front of more text**, however deep nodes may nest.
`Document.Isolation` adds the recovery behind the failure. -/
theorem isolates_read (hm : Follows stop more) (n : Nat) :
    Isolates stop more (Production.read n) := by
  induction n with
  | zero =>
    refine ⟨conserves.read 0, fun o p tape hp h => progress_read 0 o hp h, ?_, ?_⟩
    · exact fun o p tape h _ => .enter o rfl h fun start hs _ => ⟨.fail hs _ _, fun _ => rfl⟩
    · exact fun o tape h _ _ _ => .enter o rfl h fun start hs _ => ⟨.fail hs _ _, nofun⟩
  | succ n ih =>
    refine ⟨conserves.read (n + 1), fun o p tape hp h => progress_read (n + 1) o hp h, ?_, ?_⟩
    · intro o p tape h hg
      refine .enter o rfl h fun start hs ha => ⟨?_, fun _ => rfl⟩
      rw [← ha] at hg
      by_cases hp : p = .string
      · subst hp
        exact isolated_string n o hs hg
      · exact ih.phrase hm (Production.spells_body hp) o hs hg
    · intro o tape h hg hstops hlong
      refine .enter o rfl h fun start hs ha => ?_
      have hfront : start.ahead = tape.ahead :=
        ha.trans (Production.front_of_firm .arrayType (Token.firm_isMark _) hg)
      have hmore : (start.extend more).ahead = (tape.extend more).ahead := by
        rw [Tape.ahead_extend, Tape.ahead_extend, hfront, hs.stop, h.stop]
      rw [← hfront] at hg hstops
      obtain ⟨hi, hne⟩ := isolated_bracket ih hm o hs hg hstops (hmore ▸ hlong)
      exact ⟨hi, fun hf => absurd hf hne⟩

end Attempt

end Heddle
