import Heddle.Proofs.Reading.Conservation

/-!
# Rounds are never used up

Repetitions are counted: they go on for at most as many rounds as there are bytes ahead. The count
is there so that a reading ends by its very form, and it must never be what ends it, or text would
be left behind that the rules do not stop at. So every round has to take something. `Phrase.takes`
says of which phrases this can be seen from their form, and `Production.takes` of which constructs;
**the body of every loop in the grammar is among them**.

It can not be seen of a selector, since one that is only parts is a loop that might be empty if it
were not for the look ahead in front of it. No loop has a bare selector as its body.
-/

set_option autoImplicit false

namespace Heddle

open Text

/-- Whether a success takes something, as far as the form of the rule shows it. -/
def Production.takes : Production → Bool
  | selector | selectorChain => false
  | _ => true

/-- Whether a success takes something, as far as the form of the phrase shows it. -/
def Phrase.takes : Phrase → Bool
  | take _ | quoted _ _ | hexDigits | foreign | expected _ | orphan => true
  | empty | trivia | repeating _ _ | statements _ _ => false
  | node p => p.takes
  | andThen first second => first.takes || second.takes
  | choose _ yes no => yes.takes && no.takes
  | spacedCalls yes no => yes.takes && no.takes

theorem Production.takes_body {p : Production} (h : p.takes = true) : p.body.takes = true := by
  cases p <;> first | rfl | cases h

namespace Attempt

/-- A success takes something, unless there is nothing. It is stated in terms of the text that was
reported, since `Conserves` then turns it into fewer bytes ahead. -/
def Progress (tape : Tape) (a : Attempt) : Prop :=
  a.failure = none → tape.ahead ≠ [] → a.trace.text ≠ []

theorem Progress.of_failure {tape : Tape} {a : Attempt} {f : Failure} (h : a.failure = some f) :
    Progress tape a := by
  intro hn
  rw [h] at hn
  cases hn

/-- What took nothing left all there was. -/
theorem Conserves.ahead_eq {tape : Tape} {a : Attempt} (h : tape.Lexed) (ha : Conserves tape a)
    (ht : a.trace.text = []) : a.tape.ahead = tape.ahead := by
  have hx := ha.text
  have hp := ha.place
  rw [ht] at hx hp
  rw [ha.lexed.ahead, h.ahead, hx, hp]
  rfl

/-- A reading only goes forward. -/
theorem Conserves.byte_le {tape : Tape} {a : Attempt} (ha : Conserves tape a) :
    tape.place.byte ≤ a.tape.place.byte := by
  rw [ha.place, Position.byte_past]
  exact Nat.le_add_right _ _

/-- What is left was there. -/
theorem Conserves.ne_nil {tape : Tape} {a : Attempt} (ha : Conserves tape a)
    (hn : a.tape.ahead ≠ []) : tape.ahead ≠ [] := by
  intro he
  have ht := ha.text
  rw [Tape.text_eq_nil he] at ht
  exact hn (ha.lexed.ahead_eq_nil (List.append_eq_nil_iff.1 ht.symm).2)

/-- What took something went strictly forward. -/
theorem Conserves.byte_lt {tape : Tape} {a : Attempt} (ha : Conserves tape a)
    (ht : a.trace.text ≠ []) : tape.place.byte < a.tape.place.byte := by
  rw [ha.place, Position.byte_past]
  cases hx : a.trace.text with
  | nil => exact absurd hx ht
  | cons c cs =>
    have := c.utf8Size_pos
    rw [byteSize_cons]
    omega

/-- What is left is never more than there was, so rounds that sufficed for it suffice behind it. -/
theorem Conserves.size_le {tape : Tape} {a : Attempt} (ha : Conserves tape a) :
    a.tape.size ≤ tape.size := by
  rw [Tape.size_eq, Tape.size_eq, ha.text, byteSize_append]
  exact Nat.le_add_left _ _

/-- What took something left less. The number of rounds of a loop is measured by this size. -/
theorem Conserves.size_lt {tape : Tape} {a : Attempt} (ha : Conserves tape a)
    (ht : a.trace.text ≠ []) : a.tape.size < tape.size := by
  rw [Tape.size_eq, Tape.size_eq, ha.text, byteSize_append]
  cases hx : a.trace.text with
  | nil => exact absurd hx ht
  | cons c cs =>
    have := c.utf8Size_pos
    rw [byteSize_cons]
    omega

/-- It is enough that one of two attempts takes something. -/
theorem Progress.andThen {tape : Tape} {a : Attempt} {next : Tape → Attempt} (h : tape.Lexed)
    (ha : Conserves tape a) (hp : Progress tape a ∨ Progress a.tape (next a.tape)) :
    Progress tape (a.andThen next) := by
  cases hf : a.failure with
  | some f =>
    rw [andThen_of_some hf]
    exact .of_failure hf
  | none =>
    rw [andThen_of_none hf]
    intro hb hn hx
    have hx : (a.trace ++ (next a.tape).trace).text = [] := hx
    rw [Trace.text_append, List.append_eq_nil_iff] at hx
    rcases hp with hp | hp
    · exact hp hf hn hx.1
    · rw [← ha.ahead_eq h hx.1] at hn
      exact hp hb hn hx.2

theorem Progress.framed {tape : Tape} {a : Attempt} (ha : Progress tape a)
    (file : Option String) (kind : NodeKind) (start : Position) :
    Progress tape (a.framed file kind start) := by
  intro hf hn
  rw [failure_framed] at hf
  rw [text_framed]
  exact ha hf hn

theorem Progress.take (tag : DataTag) {tape : Tape} (h : tape.Lexed) :
    Progress tape (ofTaken (tape.take tag)) := by
  intro _ hn
  cases ha : tape.ahead with
  | nil => exact absurd ha hn
  | cons t ts =>
    simp only [ofTaken, Tape.take, ha, Trace.text_ofData]
    exact (h.cons ha 0).2.2.1

/-- What looks inside a token takes it. -/
theorem Progress.token {tape : Tape} {a : Attempt} (h : tape.Lexed) (ha : Conserves tape a)
    {t : Token} {ts : List Token} (ht : tape.ahead = t :: ts) (hb : a.tape.ahead = ts) :
    Progress tape a := by
  intro _ _ hx
  obtain ⟨-, -, hn, hc⟩ := h.cons ht 0
  rw [ha.text, hx, List.nil_append, Tape.text, hb] at hc
  exact hn (List.self_eq_append_left.1 hc)

/-! ## Every phrase that takes something -/

theorem Progress.quoted {file : Option String} {read : Bool → Tape → Attempt}
    (hr : ∀ isBraced window, window.Lexed → Conserves window (read isBraced window)) {tape : Tape}
    (h : tape.Lexed) : Progress tape (quoted file read tape) := by
  have hc : Conserves tape (Attempt.quoted file read tape) := .quoted hr h
  cases ha : tape.ahead with
  | nil => exact fun _ hn => absurd ha hn
  | cons t ts =>
    refine .token h hc ha ?_
    simp only [Attempt.quoted, ha]
    split
    · rfl
    · rfl

theorem Progress.hexDigits (tape : Tape) : Progress tape (hexDigits tape) := by
  unfold Attempt.hexDigits
  split
  · rename_i t rest hr
    split
    · intro _ _
      simp only [ofTaken, Trace.text_ofData]
      exact (Token.read?_eq_some hr).2.1
    · exact .of_failure rfl
  · exact .of_failure rfl

theorem Progress.foreign {tape : Tape} (h : tape.Lexed) : Progress tape (foreign tape) := by
  have hc := Conserves.foreign h
  unfold Attempt.foreign at hc ⊢
  split at hc
  · exact .of_failure rfl
  rename_i t ts ha
  split at hc
  · exact .token h hc ha rfl
  · exact .of_failure rfl

/-- A phrase that takes something by its form goes forward unless it fails. Loops and trivia may
take nothing, so `Phrase.takes` does not count them. -/
theorem progress_phrase {descend : Options → Production → Tape → Attempt}
    (hc : ∀ o p tape, tape.Lexed → Conserves tape (descend o p tape))
    (hp : ∀ o p tape, p.takes = true → tape.Lexed → Progress tape (descend o p tape))
    (q : Phrase) (hq : q.takes = true) (o : Options) {tape : Tape} (h : tape.Lexed) :
    Progress tape (q.read descend o tape) := by
  induction q generalizing o tape with
  | empty | trivia | repeating | statements => cases hq
  | take tag => exact .take tag h
  | node p => exact hp o p tape hq h
  | andThen first second ih₁ ih₂ =>
    have ha := conserves.phrase hc first o tape h
    refine .andThen h ha ?_
    -- One of the two phrases is enough, since the other one does not go back.
    rcases Bool.or_eq_true _ _ ▸ hq with h₁ | h₂
    · exact .inl (ih₁ h₁ o h)
    · exact .inr (ih₂ h₂ o ha.lexed)
  | choose test yes no ihy ihn =>
    obtain ⟨hy, hn⟩ := Bool.and_eq_true_iff.1 hq
    rw [Phrase.read]
    split
    · exact ihy hy o h
    · exact ihn hn o h
  | spacedCalls yes no ihy ihn =>
    obtain ⟨hy, hn⟩ := Bool.and_eq_true_iff.1 hq
    rw [Phrase.read]
    split
    · exact ihy hy o h
    · exact ihn hn o h
  | expected wanted => exact .of_failure rfl
  | orphan => exact .of_failure rfl
  | quoted named braced =>
    refine .quoted (fun isBraced window hw => ?_) h
    split
    · exact conserves.phrase hc braced _ window hw
    · exact conserves.phrase hc named _ window hw
  | hexDigits => exact .hexDigits _
  | foreign => exact .foreign h

theorem Progress.enter {p : Production} {o : Options} {inside : Tape → Attempt}
    (hi : ∀ tape, tape.Lexed → Progress tape (inside tape)) {tape : Tape} (h : tape.Lexed) :
    Progress tape (p.enter o inside tape) := by
  rw [Production.enter_eq]
  split
  · exact (hi tape h).framed _ _ _
  · have ht := conserves.takeTrivia tape h
    exact .andThen h ht (.inr ((hi _ ht.lexed).framed _ _ _))

theorem progress_read (n : Nat) (o : Options) {p : Production} (hp : p.takes = true) {tape : Tape}
    (h : tape.Lexed) : Progress tape (p.read n o tape) := by
  induction n generalizing o p tape with
  | zero => exact .enter (fun tape _ => .of_failure rfl) h
  | succ n ih =>
    refine .enter (fun tape ht => ?_) h
    exact progress_phrase (fun o p tape => conserves.read n o p tape)
      (fun o p tape hp ht => ih o hp ht) p.body (Production.takes_body hp) o ht

/-! ## Loops -/

/-- **The rule for loops.** Rounds do not occur in it: a loop whose rounds all take something goes
on until its look ahead says no or a round fails. All later inductions over loops go through this
rule, with a relation `P` between the tape in front and the whole attempt. -/
theorem repeating_rule {test : Lookahead} {body : Tape → Attempt} (ht : test [] = false)
    (hc : ∀ tape, tape.Lexed → Conserves tape (body tape))
    (hp : ∀ tape, tape.Lexed → Progress tape (body tape)) {P : Tape → Attempt → Prop}
    (hstop : ∀ tape, tape.Lexed → test tape.ahead = false → P tape (ofTaken (.nil, tape)))
    (hfail : ∀ tape f, tape.Lexed → test tape.ahead = true → (body tape).failure = some f →
      P tape (body tape))
    (hagain : ∀ tape b, tape.Lexed → test tape.ahead = true → (body tape).failure = none →
      P (body tape).tape b → P tape (b.behind (body tape).trace))
    {rounds : Nat} {tape : Tape} (h : tape.Lexed) (hr : tape.size ≤ rounds) :
    P tape (repeating test body rounds tape) := by
  induction rounds generalizing tape with
  | zero =>
    apply hstop tape h
    rw [h.size_eq_zero (Nat.le_zero.1 hr)]
    exact ht
  | succ n ih =>
    rw [repeating]
    cases hg : test tape.ahead with
    | false => exact hstop tape h hg
    | true =>
      rw [if_pos rfl]
      cases hf : (body tape).failure with
      | some f =>
        rw [andThen_of_some hf]
        exact hfail tape f h hg hf
      | none =>
        rw [andThen_of_none hf]
        have hb := hc tape h
        have hn : tape.ahead ≠ [] := by
          intro he
          rw [he, ht] at hg
          cases hg
        have hlt := hb.size_lt (hp tape h hf hn)
        exact hagain tape _ h hg hf (ih hb.lexed (by omega))

/-- A loop with enough rounds is one with more. -/
theorem repeating_rounds {test : List Token → Bool} {body : Tape → Attempt} (ht : test [] = false)
    (hc : ∀ tape, tape.Lexed → Conserves tape (body tape))
    (hp : ∀ tape, tape.Lexed → Progress tape (body tape)) {rounds : Nat} {tape : Tape}
    (h : tape.Lexed) (hr : tape.size ≤ rounds) :
    repeating test body rounds tape = repeating test body tape.size tape := by
  refine repeating_rule (P := fun tape a => ∀ rounds, tape.size ≤ rounds →
    repeating test body rounds tape = a) ht hc hp ?_ ?_ ?_ h (Nat.le_refl _) rounds hr
  · intro tape _ hg rounds _
    cases rounds with
    | zero => rfl
    | succ n => simp [repeating, hg]
  · intro tape f h hg hf rounds hr
    cases rounds with
    | zero =>
      rw [h.size_eq_zero (Nat.le_zero.1 hr), ht] at hg
      cases hg
    | succ n => rw [repeating, if_pos hg, andThen_of_some hf]
  · intro tape b h hg hf ih rounds hr
    have hn : tape.ahead ≠ [] := by
      intro he
      rw [he, ht] at hg
      cases hg
    have hlt := (hc tape h).size_lt (hp tape h hf hn)
    cases rounds with
    | zero => omega
    | succ n => rw [repeating, if_pos hg, andThen_of_none hf, ih n (by omega)]

/-- A round of a loop, without rounds. It is the equation one would have liked to define the loop
by. -/
theorem repeating_eq {test : List Token → Bool} {body : Tape → Attempt} (ht : test [] = false)
    (hc : ∀ tape, tape.Lexed → Conserves tape (body tape))
    (hp : ∀ tape, tape.Lexed → Progress tape (body tape)) {tape : Tape} (h : tape.Lexed) :
    repeating test body tape.size tape =
      if test tape.ahead then
        (body tape).andThen fun tape => repeating test body tape.size tape
      else ofTaken (.nil, tape) := by
  rw [← repeating_rounds ht hc hp h (Nat.le_succ _), repeating]
  have hb := hc tape h
  cases hf : (body tape).failure with
  | some f => rw [andThen_of_some hf, andThen_of_some hf]
  | none =>
    rw [andThen_of_none hf, andThen_of_none hf, repeating_rounds ht hc hp hb.lexed hb.size_le]

/-- Where a list of statements ends: at the end of the text, or at the brace that closes the block
it is in. Outside of a block a brace ends nothing. -/
def EndsList (inBlock : Bool) (ts : List Token) : Prop :=
  ts = [] ∨ inBlock = true ∧ ∃ t rest, ts = t :: rest ∧ t.kind = .mark .rightBrace

theorem not_endsList_of_ne_nil {ts : List Token} (h : ts ≠ []) : ¬ EndsList false ts := by
  rintro (he | ⟨he, -⟩)
  · exact h he
  · cases he

/-- At a brace that closes nothing a list does not end. -/
theorem not_endsList_of_stray {ts : List Token} (h : ts.head?.any (·.isMark .rightBrace) = true) :
    ¬ EndsList false ts := by
  refine not_endsList_of_ne_nil fun he => ?_
  rw [he] at h
  cases h

/-- Neither does it, in a block or outside of one, at any other token. -/
theorem not_endsList_of_kind {inBlock : Bool} {t : Token} {ts : List Token}
    (h : t.kind ≠ .mark .rightBrace) : ¬ EndsList inBlock (t :: ts) := by
  rintro (he | ⟨-, t', ts', he, hk⟩)
  · cases he
  · cases he
    exact h hk

/-- Behind an error something is skipped, unless a list of statements ends there. So recovery is
progress, too. -/
theorem skipped_pos {inBlock : Bool} {ts : List Token} (h : ¬ EndsList inBlock ts) :
    0 < Tape.skipped inBlock 0 ts := by
  cases ts with
  | nil => exact absurd (.inl rfl) h
  | cons t ts =>
    rw [Tape.skipped]
    split
    · rename_i hk
      cases inBlock with
      | false => exact Nat.one_pos
      | true => exact absurd (.inr ⟨rfl, t, ts, rfl, hk⟩) h
    · split
      · exact Nat.succ_pos _
      · split
        · exact Nat.one_pos
        · exact Nat.succ_pos _

theorem text_recover_ne_nil {file : Option String} {inBlock : Bool} {f : Failure} {tape : Tape}
    (h : tape.Lexed) (hn : ¬ EndsList inBlock tape.ahead) :
    (recover file inBlock f tape).trace.text ≠ [] := by
  show (_ ++ _ : Trace).text ≠ []
  rw [Trace.text_append, Trace.text_error, List.nil_append, text_framed]
  obtain ⟨n, hs⟩ := Nat.exists_eq_add_one_of_ne_zero (Nat.ne_of_gt (skipped_pos hn))
  rw [hs, ofTaken_takeMany_succ, andThen_of_none rfl, trace_behind, Trace.text_append]
  intro hx
  refine Progress.take .invalid h rfl ?_ (List.append_eq_nil_iff.1 hx).1
  intro he
  exact hn (.inl he)

theorem Conserves.recovered {tape : Tape} {a : Attempt} (ha : Conserves tape a)
    (file : Option String) (inBlock : Bool) : Conserves tape (recovered file inBlock a) := by
  unfold Attempt.recovered
  split
  · exact ha.behind (.recover ha.lexed file inBlock _)
  · exact ha

/-- A statement that is not at the end of the list takes something or makes the reader skip
something. -/
theorem text_recovered_ne_nil {file : Option String} {inBlock : Bool} {tape : Tape} {a : Attempt}
    (h : tape.Lexed) (ha : Conserves tape a) (hp : Progress tape a)
    (hn : ¬ EndsList inBlock tape.ahead) : (recovered file inBlock a).trace.text ≠ [] := by
  have hne : tape.ahead ≠ [] := fun he => hn (.inl he)
  unfold recovered
  split <;> rename_i hf
  · rw [trace_behind, Trace.text_append]
    intro hx
    obtain ⟨hx₁, hx₂⟩ := List.append_eq_nil_iff.1 hx
    by_cases he : EndsList inBlock a.tape.ahead
    · rw [ha.ahead_eq h hx₁] at he
      exact hn he
    · exact text_recover_ne_nil ha.lexed he hx₂
  · exact hp hf hne

/-- **The rule for lists of statements**, again without rounds. A list ends, or it goes on behind
something skipped or read: a brace that closes nothing, or a statement. As with loops, what is to
be proved of lists is a relation `P` that the three cases have to keep. -/
theorem statements_rule {file : Option String} {inBlock : Bool} {statement : Tape → Attempt}
    (hc : ∀ tape, tape.Lexed → Conserves tape (statement tape))
    (hp : ∀ tape, tape.Lexed → Progress tape (statement tape)) {P : Tape → Attempt → Prop}
    (hend : ∀ tape, tape.Lexed → EndsList inBlock tape.takeTrivia.2.ahead →
      P tape (ofTaken tape.takeTrivia))
    (hstray : ∀ tape b, tape.Lexed → inBlock = false →
      tape.takeTrivia.2.ahead.head?.any (·.isMark .rightBrace) = true →
      let r := recover file false (tape.takeTrivia.2.failure .strayBrace) tape.takeTrivia.2
      P r.tape b → P tape ((b.behind r.trace).behind tape.takeTrivia.1))
    (hnext : ∀ tape b, tape.Lexed → ¬ EndsList inBlock tape.takeTrivia.2.ahead →
      tape.takeTrivia.2.ahead.head?.any (·.isMark .rightBrace) = false →
      let r := recovered file inBlock (statement tape.takeTrivia.2)
      P r.tape b → P tape ((b.behind r.trace).behind tape.takeTrivia.1))
    {rounds : Nat} {tape : Tape} (h : tape.Lexed) (hr : tape.size ≤ rounds) :
    P tape (statements file inBlock statement rounds tape) := by
  -- The induction is on the rounds. Each case but the end takes something, so the rounds that are
  -- left suffice for the rest of the list.
  induction rounds generalizing tape with
  | zero =>
    refine hend tape h (.inl ?_)
    rw [Tape.takeTrivia, h.size_eq_zero (Nat.le_zero.1 hr)]
    exact h.size_eq_zero (Nat.le_zero.1 hr)
  | succ n ih =>
    rw [statements, andThen_of_none rfl, tape_ofTaken, trace_ofTaken]
    have ht := conserves.takeTrivia tape h
    have hl : tape.takeTrivia.2.Lexed := ht.lexed
    have hsize : tape.takeTrivia.2.size ≤ tape.size := ht.size_le
    have hnothing : (ofTaken (.nil, tape.takeTrivia.2)).behind tape.takeTrivia.1 =
        ofTaken tape.takeTrivia := by
      simp [behind, ofTaken]
    split <;> rename_i ha
    · rw [hnothing]
      exact hend tape h (.inl ha)
    rename_i t ts
    split <;> rename_i hk
    -- A brace is next: it ends the list inside a block, and is skipped as an error outside.
    · have hmark : tape.takeTrivia.2.ahead.head?.any (·.isMark .rightBrace) = true := by
        simp [ha, hk, Token.isMark]
      cases inBlock with
      | true =>
        rw [if_pos rfl, hnothing]
        exact hend tape h (.inr ⟨rfl, t, ts, ha, hk⟩)
      | false =>
        have hb := Conserves.recover hl file false
          (tape.takeTrivia.2.failure .strayBrace)
        have hlt := hb.size_lt (text_recover_ne_nil hl (not_endsList_of_stray hmark))
        rw [if_neg (by simp), andThen_of_none rfl]
        exact hstray tape _ h rfl hmark (ih hb.lexed (by omega))
    -- Anything else begins a statement, which is read or skipped.
    · have hmark : tape.takeTrivia.2.ahead.head?.any (·.isMark .rightBrace) = false := by
        simp [ha, hk, Token.isMark]
      have hn : ¬ EndsList inBlock tape.takeTrivia.2.ahead := ha ▸ not_endsList_of_kind hk
      have ha' := hc _ hl
      have hb := ha'.recovered file inBlock
      have hlt := hb.size_lt (text_recovered_ne_nil hl ha' (hp _ hl) hn)
      rw [andThen_of_none (failure_recovered _ _ _)]
      exact hnext tape _ h hn hmark (ih hb.lexed (by omega))

/-- A list of statements that ends here. -/
theorem statements_of_ends {file : Option String} {inBlock : Bool} {statement : Tape → Attempt}
    {tape : Tape} (he : EndsList inBlock tape.takeTrivia.2.ahead) (rounds : Nat) :
    statements file inBlock statement rounds tape = ofTaken tape.takeTrivia := by
  cases rounds with
  | zero => rfl
  | succ n =>
    rw [statements, andThen_of_none rfl, tape_ofTaken, trace_ofTaken]
    rcases he with he | ⟨rfl, t, ts, he, hk⟩
    · simp [he, behind, ofTaken]
    · simp [he, hk, behind, ofTaken]

/-- A list of statements that goes on with a statement. -/
theorem statements_of_next {file : Option String} {inBlock : Bool} {statement : Tape → Attempt}
    {tape : Tape} (he : ¬ EndsList inBlock tape.takeTrivia.2.ahead)
    (hb : tape.takeTrivia.2.ahead.head?.any (·.isMark .rightBrace) = false) (rounds : Nat) :
    statements file inBlock statement (rounds + 1) tape =
      ((recovered file inBlock (statement tape.takeTrivia.2)).andThen
        (statements file inBlock statement rounds)).behind tape.takeTrivia.1 := by
  rw [statements, andThen_of_none rfl, tape_ofTaken, trace_ofTaken]
  split <;> rename_i ha
  · exact absurd (.inl ha) he
  · rename_i t ts
    have hk : t.kind ≠ .mark .rightBrace := by
      rw [ha] at hb
      exact beq_eq_false_iff_ne.1 hb
    rw [if_neg hk]

/-- A list of statements that goes on behind a brace that closes nothing. -/
theorem statements_of_stray {file : Option String} {statement : Tape → Attempt} {tape : Tape}
    (hb : tape.takeTrivia.2.ahead.head?.any (·.isMark .rightBrace) = true) (rounds : Nat) :
    statements file false statement (rounds + 1) tape =
      ((recover file false (tape.takeTrivia.2.failure .strayBrace) tape.takeTrivia.2).andThen
        (statements file false statement rounds)).behind tape.takeTrivia.1 := by
  rw [statements, andThen_of_none rfl, tape_ofTaken, trace_ofTaken]
  split <;> rename_i ha
  · rw [ha] at hb
    cases hb
  · rename_i t ts
    have hk : t.kind = .mark .rightBrace := by
      rw [ha] at hb
      exact beq_iff_eq.1 hb
    rw [if_pos hk, if_neg (by simp)]

/-- A list of statements with enough rounds is one with more. -/
theorem statements_rounds {file : Option String} {inBlock : Bool} {statement : Tape → Attempt}
    (hc : ∀ tape, tape.Lexed → Conserves tape (statement tape))
    (hp : ∀ tape, tape.Lexed → Progress tape (statement tape)) {rounds : Nat} {tape : Tape}
    (h : tape.Lexed) (hr : tape.size ≤ rounds) :
    statements file inBlock statement rounds tape =
      statements file inBlock statement tape.size tape := by
  have hsize {tape : Tape} (h : tape.Lexed) : tape.takeTrivia.2.size ≤ tape.size :=
    (conserves.takeTrivia tape h).size_le
  -- By the rule for lists of statements. Each step takes some text, so what is left needs fewer
  -- rounds and those that remain are enough.
  refine statements_rule (P := fun tape a => ∀ rounds, tape.size ≤ rounds →
    statements file inBlock statement rounds tape = a) hc hp ?_ ?_ ?_ h (Nat.le_refl _) rounds hr
  · intro tape _ he rounds _
    exact statements_of_ends he rounds
  · intro tape b h hin hb r ih rounds hr
    obtain rfl := hin
    have hl : tape.takeTrivia.2.Lexed := (conserves.takeTrivia tape h).lexed
    have hlt := (Conserves.recover hl file false (tape.takeTrivia.2.failure .strayBrace)).size_lt
      (text_recover_ne_nil hl (not_endsList_of_stray hb))
    have hlt := Nat.lt_of_lt_of_le hlt (Nat.le_trans (hsize h) hr)
    cases rounds with
    | zero => omega
    | succ n => rw [statements_of_stray hb, andThen_of_none rfl, ih n (Nat.le_of_lt_succ hlt)]
  · intro tape b h hn hb r ih rounds hr
    have hl : tape.takeTrivia.2.Lexed := (conserves.takeTrivia tape h).lexed
    have hlt := ((hc _ hl).recovered file inBlock).size_lt
      (text_recovered_ne_nil hl (hc _ hl) (hp _ hl) hn)
    have hlt := Nat.lt_of_lt_of_le hlt (Nat.le_trans (hsize h) hr)
    cases rounds with
    | zero => omega
    | succ n =>
      rw [statements_of_next hn hb, andThen_of_none (failure_recovered _ _ _),
        ih n (Nat.le_of_lt_succ hlt)]

/-- A statement of a list, without rounds. -/
theorem statements_eq {file : Option String} {inBlock : Bool} {statement : Tape → Attempt}
    (hc : ∀ tape, tape.Lexed → Conserves tape (statement tape))
    (hp : ∀ tape, tape.Lexed → Progress tape (statement tape)) {tape : Tape} (h : tape.Lexed)
    (he : ¬ EndsList inBlock tape.takeTrivia.2.ahead)
    (hb : tape.takeTrivia.2.ahead.head?.any (·.isMark .rightBrace) = false) :
    statements file inBlock statement tape.size tape =
      ((recovered file inBlock (statement tape.takeTrivia.2)).andThen fun tape =>
        statements file inBlock statement tape.size tape).behind tape.takeTrivia.1 := by
  have ht := conserves.takeTrivia tape h
  have hr : Conserves tape.takeTrivia.2 (recovered file inBlock (statement tape.takeTrivia.2)) :=
    (hc _ ht.lexed).recovered file inBlock
  have hle : (recovered file inBlock (statement tape.takeTrivia.2)).tape.size ≤ tape.size :=
    Nat.le_trans hr.size_le ht.size_le
  rw [← statements_rounds hc hp h (Nat.le_succ _), statements_of_next he hb,
    andThen_of_none (failure_recovered _ _ _), andThen_of_none (failure_recovered _ _ _),
    statements_rounds hc hp hr.lexed hle]

end Attempt

end Heddle
