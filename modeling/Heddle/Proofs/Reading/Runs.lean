import Heddle.Proofs.Reading.Progress

/-!
# Readings that are not counted

Two counts see to it that a reading ends: a loop has as many rounds as there are bytes ahead, and a
construct has an allowance of levels. Only the second belongs to the language. A loop goes on for as
long as its look ahead says yes, and a list of statements up to its end, however many rounds that
takes.

`Phrase.Runs` is the reading without counts of rounds: one rule for each way that a phrase can go,
and what is known of nesting is the number of nodes that are open. **The rules for loops ask of
every round that does not end the loop that it goes strictly forward**, and of a list of statements
that each statement does so together with what is skipped behind it. Such a reading is built from
its parts in finitely many steps, so that there is one (`runs_read`) says two things: that the loops
end, and that all their rounds go forward. And there is no other (`eq_read_of_runs`).
-/

set_option autoImplicit false

namespace Heddle

/-- What a placeholder of the next token is read from: the text from its percent sign up to the
closing quote of the whole. What was reached is left open, since it differs from placeholder to
placeholder. -/
inductive Tape.Window (tape : Tape) : Bool → Tape → Prop where
  | mk {t : Token} {rest : List Token} {p : Placeholder} {cs : List Char}
      (ht : tape.ahead = t :: rest) (hp : p ∈ t.kind.placeholders?.getD [])
      (hs : t.slice? p.position.byte (t.stop - 1) = some cs) (reach : Nat) :
      Window tape p.braced (.ofText p.position cs reach)

/-- The trivia in front of a construct that goes to its parent, and where the construct begins. -/
def Production.lead (p : Production) (tape : Tape) : Trace × Tape :=
  if p.keepsTrivia then (.nil, tape) else tape.takeTrivia

/-- A brace that closes nothing, and what is skipped with it. -/
def Attempt.stray (file : Option String) (tape : Tape) : Attempt :=
  recover file false (tape.failure .strayBrace) tape

open Attempt in
/-- What becomes of a phrase while `depth` nodes below the document are open. The rules have no
fuel: a loop that went on for ever would have no derivation. -/
inductive Phrase.Runs : Nat → Options → Phrase → Tape → Attempt → Prop where
  | empty {depth : Nat} {o : Options} {tape : Tape} : Runs depth o empty tape (ofTaken (.nil, tape))
  | take {depth : Nat} {o : Options} {tag : DataTag} {tape : Tape} :
      Runs depth o (take tag) tape (ofTaken (tape.take tag))
  | trivia {depth : Nat} {o : Options} {tape : Tape} :
      Runs depth o trivia tape (ofTaken tape.takeTrivia)
  | node {depth : Nat} {o : Options} {p : Production} {tape : Tape} {a : Attempt}
      (hd : depth < maxNesting) (ha : Runs (depth + 1) o p.body (p.lead tape).2 a) :
      Runs depth o (node p) tape
        ((a.framed o.file p.kind (p.lead tape).2.place).behind (p.lead tape).1)
  /-- A node too many is begun and given up at once. -/
  | tooDeep {depth : Nat} {o : Options} {p : Production} {tape : Tape}
      (hd : maxNesting ≤ depth) :
      Runs depth o (node p) tape
        (((fail ((p.lead tape).2.failure .tooDeep) (p.lead tape).2).framed o.file p.kind
          (p.lead tape).2.place).behind (p.lead tape).1)
  | andThen {depth : Nat} {o : Options} {first second : Phrase} {tape : Tape} {a b : Attempt}
      (ha : Runs depth o first tape a) (hf : a.failure = none) (hb : Runs depth o second a.tape b) :
      Runs depth o (andThen first second) tape (b.behind a.trace)
  | broken {depth : Nat} {o : Options} {first second : Phrase} {tape : Tape} {a : Attempt}
      {f : Failure} (ha : Runs depth o first tape a) (hf : a.failure = some f) :
      Runs depth o (andThen first second) tape a
  | yes {depth : Nat} {o : Options} {test : Lookahead} {yes no : Phrase} {tape : Tape} {a : Attempt}
      (ht : test tape.ahead = true) (ha : Runs depth o yes tape a) :
      Runs depth o (choose test yes no) tape a
  | no {depth : Nat} {o : Options} {test : Lookahead} {yes no : Phrase} {tape : Tape} {a : Attempt}
      (ht : test tape.ahead = false) (ha : Runs depth o no tape a) :
      Runs depth o (choose test yes no) tape a
  | stop {depth : Nat} {o : Options} {test : Lookahead} {body : Phrase} {tape : Tape}
      (ht : test tape.ahead = false) :
      Runs depth o (repeating test body) tape (ofTaken (.nil, tape))
  | brokenRound {depth : Nat} {o : Options} {test : Lookahead} {body : Phrase} {tape : Tape}
      {a : Attempt} {f : Failure} (ht : test tape.ahead = true) (ha : Runs depth o body tape a)
      (hf : a.failure = some f) : Runs depth o (repeating test body) tape a
  /-- A round that does not end the loop goes strictly forward. -/
  | round {depth : Nat} {o : Options} {test : Lookahead} {body : Phrase} {tape : Tape}
      {a b : Attempt} (ht : test tape.ahead = true) (ha : Runs depth o body tape a)
      (hf : a.failure = none) (hm : tape.place.byte < a.tape.place.byte)
      (hb : Runs depth o (repeating test body) a.tape b) :
      Runs depth o (repeating test body) tape (b.behind a.trace)
  | spacedCalls {depth : Nat} {o : Options} {yes no : Phrase} {tape : Tape} {a : Attempt}
      (ha : Runs depth o (if o.spacedCalls then yes else no) tape a) :
      Runs depth o (spacedCalls yes no) tape a
  | expected {depth : Nat} {o : Options} {wanted : Wanted} {tape : Tape} :
      Runs depth o (expected wanted) tape (fail (tape.missing wanted) tape)
  | orphan {depth : Nat} {o : Options} {tape : Tape} :
      Runs depth o orphan tape
        (fail (tape.failure (.orphan ((tape.ahead.head?.map (·.text)).getD ""))) tape)
  | ends {depth : Nat} {o : Options} {inBlock : Bool} {statement : Phrase} {tape : Tape}
      (he : EndsList inBlock tape.takeTrivia.2.ahead) :
      Runs depth o (statements inBlock statement) tape (ofTaken tape.takeTrivia)
  /-- A brace that closes nothing is skipped, so this goes strictly forward as well. -/
  | stray {depth : Nat} {o : Options} {statement : Phrase} {tape : Tape} {b : Attempt}
      (hb : tape.takeTrivia.2.ahead.head?.any (·.isMark .rightBrace) = true)
      (hm : tape.takeTrivia.2.place.byte < (stray o.file tape.takeTrivia.2).tape.place.byte)
      (hrest : Runs depth o (statements false statement) (stray o.file tape.takeTrivia.2).tape b) :
      Runs depth o (statements false statement) tape
        ((b.behind (stray o.file tape.takeTrivia.2).trace).behind tape.takeTrivia.1)
  /-- A statement that fails at once, or behind which nothing is skipped, goes strictly forward with
  the other of the two. -/
  | next {depth : Nat} {o : Options} {inBlock : Bool} {statement : Phrase} {tape : Tape}
      {a b : Attempt} (he : ¬ EndsList inBlock tape.takeTrivia.2.ahead)
      (hb : tape.takeTrivia.2.ahead.head?.any (·.isMark .rightBrace) = false)
      (ha : Runs depth o statement tape.takeTrivia.2 a)
      (hm : tape.takeTrivia.2.place.byte < (recovered o.file inBlock a).tape.place.byte)
      (hrest : Runs depth o (statements inBlock statement) (recovered o.file inBlock a).tape b) :
      Runs depth o (statements inBlock statement) tape
        ((b.behind (recovered o.file inBlock a).trace).behind tape.takeTrivia.1)
  /-- Reading a quoted text goes back into the token for each placeholder. -/
  | quoted {depth : Nat} {o : Options} {named braced : Phrase} {tape : Tape}
      {read : Bool → Tape → Attempt}
      (hr : ∀ isBraced window, tape.Window isBraced window →
        Runs depth { o with spacedCalls := false } (if isBraced then braced else named) window
          (read isBraced window)) :
      Runs depth o (quoted named braced) tape (Attempt.quoted o.file read tape)
  | hexDigits {depth : Nat} {o : Options} {tape : Tape} :
      Runs depth o hexDigits tape (Attempt.hexDigits tape)
  | foreign {depth : Nat} {o : Options} {tape : Tape} :
      Runs depth o foreign tape (Attempt.foreign tape)

/-! ## Loops that go forward -/

namespace Phrase

/-- Whether every loop in the phrase can be seen to end: nothing is repeated at the end of the
text, and every round takes something. This is what `repeating_rule` and `statements_rule` ask
for. -/
def advances : Phrase → Bool
  | repeating test body => !test [] && body.takes && body.advances
  | statements _ statement => statement.takes && statement.advances
  | andThen first second => first.advances && second.advances
  | choose _ yes no | spacedCalls yes no => yes.advances && no.advances
  | quoted named braced => named.advances && braced.advances
  | empty | take _ | trivia | node _ | expected _ | orphan | hexDigits | foreign => true

end Phrase

/-- **Every loop of the grammar goes forward**: those of chains, switches, arguments, arrays,
expressions and types, and the lists of statements. -/
theorem Production.advances_body (p : Production) : p.body.advances = true := by
  cases p <;> rfl

theorem Production.enter_lead (p : Production) (o : Options) (inside : Tape → Attempt)
    (tape : Tape) :
    p.enter o inside tape =
      ((inside (p.lead tape).2).framed o.file p.kind (p.lead tape).2.place).behind
        (p.lead tape).1 := rfl

theorem Production.lexed_lead (p : Production) {tape : Tape} (h : tape.Lexed) :
    (p.lead tape).2.Lexed := by
  unfold lead
  split
  · exact h
  · exact (Attempt.conserves.takeTrivia tape h).lexed

namespace Attempt

theorem stray_forward {file : Option String} {tape : Tape} (h : tape.Lexed)
    (hb : tape.ahead.head?.any (·.isMark .rightBrace) = true) :
    tape.place.byte < (stray file tape).tape.place.byte :=
  (Conserves.recover h file false _).byte_lt (text_recover_ne_nil h (not_endsList_of_stray hb))

/-! A quoted text depends on no other readings than those of its placeholders. -/

theorem placeholder_congr {file : Option String} {read read' : Tape → Attempt} {t : Token}
    {p : Placeholder}
    (hr : ∀ cs reach, t.slice? p.position.byte (t.stop - 1) = some cs →
      read (.ofText p.position cs reach) = read' (.ofText p.position cs reach)) (reach : Nat) :
    placeholder file read t reach p = placeholder file read' t reach p := by
  unfold placeholder
  cases hs : t.slice? p.position.byte (t.stop - 1) with
  | none => rfl
  | some cs => simp only [hr cs reach hs]

theorem interpolated_congr (file : Option String) {read read' : Bool → Tape → Attempt}
    {t : Token} {ps : List Placeholder}
    (hr : ∀ p ∈ ps, ∀ cs reach, t.slice? p.position.byte (t.stop - 1) = some cs →
      read p.braced (.ofText p.position cs reach) = read' p.braced (.ofText p.position cs reach))
    (start reach : Nat) :
    interpolated file read t start reach ps = interpolated file read' t start reach ps := by
  induction ps generalizing start reach with
  | nil => rfl
  | cons p ps ih =>
    have hrest := ih fun p hp => hr p (List.mem_cons_of_mem _ hp)
    rw [interpolated, interpolated, placeholder_congr (hr p List.mem_cons_self)]
    simp only [hrest]

theorem quoted_congr {file : Option String} {read read' : Bool → Tape → Attempt} {tape : Tape}
    (hr : ∀ isBraced window, tape.Window isBraced window →
      read isBraced window = read' isBraced window) :
    quoted file read tape = quoted file read' tape := by
  unfold quoted
  cases ht : tape.ahead with
  | nil => rfl
  | cons t rest =>
    simp only
    cases hps : t.kind.placeholders?.getD [] with
    | nil => rfl
    | cons p ps =>
      have hcongr := interpolated_congr file
        (fun q (hq : q ∈ p :: ps) cs reach hs => hr q.braced _ (.mk ht (hps ▸ hq) hs reach))
        t.position.byte t.stop
      simp only [hcongr]

open Classical in
/-- Nothing is read but the texts of placeholders, so whatever else would be read may be taken for
nothing at all. Properties of placeholders then need to hold of these texts only. -/
theorem exists_windowed (file : Option String) (read : Bool → Tape → Attempt) (tape : Tape) :
    ∃ read', quoted file read tape = quoted file read' tape ∧ ∀ isBraced window,
      tape.Window isBraced window ∧ read' isBraced window = read isBraced window ∨
        read' isBraced window = ofTaken (.nil, window) := by
  refine ⟨fun isBraced window =>
    if tape.Window isBraced window then read isBraced window else ofTaken (.nil, window), ?_, ?_⟩
  · exact quoted_congr fun isBraced window hw => (if_pos hw).symm
  · intro isBraced window
    by_cases hw : tape.Window isBraced window
    · exact .inl ⟨hw, if_pos hw⟩
    · exact .inr (if_neg hw)

end Attempt

namespace Phrase

open Attempt Text

theorem conserves_read (n : Nat) (q : Phrase) (o : Options) (tape : Tape) (h : tape.Lexed) :
    Conserves tape (q.read (Production.read n) o tape) :=
  conserves.phrase (conserves.read n) q o tape h

theorem progress_read (n : Nat) {q : Phrase} (hq : q.takes = true) (o : Options) (tape : Tape)
    (h : tape.Lexed) : Progress tape (q.read (Production.read n) o tape) :=
  progress_phrase (conserves.read n) (fun o _ _ hp ht => Attempt.progress_read n o hp ht) q hq o h

variable {n depth : Nat}

/-- A phrase is read without counts of rounds if the constructs inside it are. -/
theorem runs_phrase
    (hd : ∀ o p tape, tape.Lexed → Runs depth o (.node p) tape (Production.read n o p tape))
    (q : Phrase) (hq : q.advances = true) (o : Options) (tape : Tape) (h : tape.Lexed) :
    Runs depth o q tape (q.read (Production.read n) o tape) := by
  -- The rule for loops does the work: where a round goes on, it has taken something, so the place
  -- is further on.
  induction q generalizing o tape with
  | empty => exact .empty
  | take tag => exact .take
  | trivia => exact .trivia
  | node p => exact hd o p tape h
  | andThen first second ih₁ ih₂ =>
    obtain ⟨h₁, h₂⟩ := Bool.and_eq_true_iff.1 hq
    have ha := ih₁ h₁ o tape h
    rw [Phrase.read]
    cases hf : (first.read (Production.read n) o tape).failure with
    | none =>
      rw [andThen_of_none hf]
      exact .andThen ha hf (ih₂ h₂ o _ (conserves_read n first o tape h).lexed)
    | some f =>
      rw [andThen_of_some hf]
      exact .broken ha hf
  | choose test yes no ihy ihn =>
    obtain ⟨hy, hn⟩ := Bool.and_eq_true_iff.1 hq
    rw [Phrase.read]
    split <;> rename_i ht
    · exact .yes ht (ihy hy o tape h)
    · exact .no (eq_false_of_ne_true ht) (ihn hn o tape h)
  | repeating test body ih =>
    simp only [advances, Bool.and_eq_true, Bool.not_eq_true'] at hq
    obtain ⟨⟨hends, htakes⟩, hbody⟩ := hq
    refine repeating_rule (P := Runs depth o (.repeating test body)) hends (conserves_read n body o)
      (progress_read n htakes o) ?_ ?_ ?_ h (Nat.le_refl _)
    · intro tape _ ht
      exact .stop ht
    · intro tape f h ht hf
      exact .brokenRound ht (ih hbody o tape h) hf
    · intro tape b h ht hf hb
      have hne : tape.ahead ≠ [] := by
        rintro he
        rw [he, hends] at ht
        cases ht
      have hm := (conserves_read n body o tape h).byte_lt (progress_read n htakes o tape h hf hne)
      exact .round ht (ih hbody o tape h) hf hm hb
  | spacedCalls yes no ihy ihn =>
    obtain ⟨hy, hn⟩ := Bool.and_eq_true_iff.1 hq
    apply Runs.spacedCalls
    rw [Phrase.read]
    split
    · exact ihy hy o tape h
    · exact ihn hn o tape h
  | expected wanted => exact .expected
  | orphan => exact .orphan
  -- A list of statements goes forward by what it takes or by what is skipped.
  | statements inBlock statement ih =>
    obtain ⟨htakes, hbody⟩ := Bool.and_eq_true_iff.1 hq
    refine statements_rule (P := Runs depth o (.statements inBlock statement))
      (conserves_read n statement o) (progress_read n htakes o) ?_ ?_ ?_ h (Nat.le_refl _)
    · intro tape _ he
      exact .ends he
    · rintro tape b h rfl hb r hrest
      have hl := (conserves.takeTrivia tape h).lexed
      exact .stray hb (stray_forward hl hb) hrest
    · intro tape b h he hb r hrest
      have hl := (conserves.takeTrivia tape h).lexed
      have hs := conserves_read n statement o _ hl
      have hm := (hs.recovered o.file inBlock).byte_lt
        (text_recovered_ne_nil hl hs (progress_read n htakes o _ hl) he)
      exact .next he hb (ih hbody o _ hl) hm hrest
  | quoted named braced ihn ihb =>
    obtain ⟨hn, hb⟩ := Bool.and_eq_true_iff.1 hq
    apply Runs.quoted
    rintro isBraced window ⟨-, -, -, reach⟩
    split
    · exact ihb hb _ _ (Tape.lexed_ofText _ _ _)
    · exact ihn hn _ _ (Tape.lexed_ofText _ _ _)
  | hexDigits => exact .hexDigits
  | foreign => exact .foreign

/-- **Every construct is read without counts of rounds**, as deep as nodes may nest. Here the
reading with rounds is an outcome of the relation; that it is the only one is `eq_read_of_runs`.
-/
theorem runs_read (n depth : Nat) (hn : depth + n = maxNesting) (o : Options) (p : Production)
    (tape : Tape) (h : tape.Lexed) : Runs depth o (.node p) tape (Production.read n o p tape) := by
  induction n generalizing depth o p tape with
  | zero =>
    rw [Production.read, Production.enter_lead]
    exact .tooDeep (Nat.le_of_eq hn.symm)
  | succ n ih =>
    rw [Production.read, Production.enter_lead]
    have hdeeper := ih (depth + 1) (by omega)
    refine .node (by omega) ?_
    exact runs_phrase hdeeper p.body p.advances_body o _ (p.lexed_lead h)

/-! ## There is no other reading -/

/-- One round of a loop. -/
theorem read_repeating {test : Lookahead} {body : Phrase}
    (hq : (repeating test body).advances = true) (o : Options) {tape : Tape} (h : tape.Lexed) :
    (repeating test body).read (Production.read n) o tape =
      if test tape.ahead then (body.read (Production.read n) o tape).andThen
        ((repeating test body).read (Production.read n) o)
      else ofTaken (.nil, tape) := by
  simp only [advances, Bool.and_eq_true, Bool.not_eq_true'] at hq
  obtain ⟨⟨hends, htakes⟩, -⟩ := hq
  exact repeating_eq hends (conserves_read n body o) (progress_read n htakes o) h

/-- A brace that closes nothing, in a list of statements. -/
theorem read_statements_stray {statement : Phrase}
    (hq : (statements false statement).advances = true) (o : Options) {tape : Tape} (h : tape.Lexed)
    (hb : tape.takeTrivia.2.ahead.head?.any (·.isMark .rightBrace) = true) :
    (statements false statement).read (Production.read n) o tape =
      ((stray o.file tape.takeTrivia.2).andThen
        ((statements false statement).read (Production.read n) o)).behind tape.takeTrivia.1 := by
  have htakes := (Bool.and_eq_true_iff.1 hq).1
  have hc := conserves_read n statement o
  have hp := progress_read n htakes o
  have ht := conserves.takeTrivia tape h
  have hr : Conserves tape.takeTrivia.2 (stray o.file tape.takeTrivia.2) :=
    .recover ht.lexed o.file false _
  have hle : (stray o.file tape.takeTrivia.2).tape.size ≤ tape.size :=
    Nat.le_trans hr.size_le ht.size_le
  rw [Phrase.read, ← statements_rounds hc hp h (Nat.le_succ _), statements_of_stray hb]
  show (Attempt.andThen (stray o.file tape.takeTrivia.2) _).behind _ = _
  rw [andThen_of_none rfl, andThen_of_none rfl, statements_rounds hc hp hr.lexed hle]
  rfl

/-- A statement of a list, and what is skipped behind it. -/
theorem read_statements_next {inBlock : Bool} {statement : Phrase}
    (hq : (statements inBlock statement).advances = true) (o : Options) {tape : Tape}
    (h : tape.Lexed) (he : ¬ EndsList inBlock tape.takeTrivia.2.ahead)
    (hb : tape.takeTrivia.2.ahead.head?.any (·.isMark .rightBrace) = false) :
    (statements inBlock statement).read (Production.read n) o tape =
      ((recovered o.file inBlock (statement.read (Production.read n) o tape.takeTrivia.2)).andThen
        ((statements inBlock statement).read (Production.read n) o)).behind tape.takeTrivia.1 :=
  statements_eq (conserves_read n statement o)
    (progress_read n (Bool.and_eq_true_iff.1 hq).1 o) h he hb

/-- **What runs is the reading** with as many levels as may still be opened. With `runs_read` this
makes the relation a function, without saying so in its rules. -/
theorem eq_read_of_runs {o : Options} {q : Phrase} {tape : Tape} {a : Attempt}
    (h : Runs depth o q tape a) (hq : q.advances = true) (ht : tape.Lexed)
    (hn : depth + n = maxNesting) : a = q.read (Production.read n) o tape := by
  -- The induction is on the run. Each rule is one unfolding of the reading; for loops it is the
  -- equation without rounds.
  induction h generalizing n with
  | empty | take | trivia | expected | orphan | hexDigits | foreign => rfl
  | @node depth o p tape a hd ha ih =>
    obtain ⟨m, rfl⟩ : ∃ m, n = m + 1 := Nat.exists_eq_add_one_of_ne_zero (by omega)
    obtain rfl := ih p.advances_body (p.lexed_lead ht) (n := m) (by omega)
    rfl
  | @tooDeep depth o p tape hd =>
    obtain rfl : n = 0 := by omega
    rfl
  | @andThen depth o first second tape a b ha hf hb iha ihb =>
    obtain ⟨h₁, h₂⟩ := Bool.and_eq_true_iff.1 hq
    obtain rfl := iha h₁ ht hn
    obtain rfl := ihb h₂ (conserves_read n first o tape ht).lexed hn
    rw [Phrase.read, andThen_of_none hf]
  | @broken depth o first second tape a f ha hf iha =>
    obtain rfl := iha (Bool.and_eq_true_iff.1 hq).1 ht hn
    rw [Phrase.read, andThen_of_some hf]
  | yes hg ha ih =>
    rw [Phrase.read, if_pos hg]
    exact ih (Bool.and_eq_true_iff.1 hq).1 ht hn
  | no hg ha ih =>
    rw [Phrase.read, if_neg (by simp [hg])]
    exact ih (Bool.and_eq_true_iff.1 hq).2 ht hn
  | stop hg =>
    rw [read_repeating hq _ ht, if_neg (by simp [hg])]
  | brokenRound hg ha hf iha =>
    obtain rfl := iha (Bool.and_eq_true_iff.1 hq).2 ht hn
    rw [read_repeating hq _ ht, if_pos hg, andThen_of_some hf]
  | @round depth o test body tape a b hg ha hf hm hb iha ihb =>
    obtain rfl := iha (Bool.and_eq_true_iff.1 hq).2 ht hn
    obtain rfl := ihb hq (conserves_read n body o tape ht).lexed hn
    rw [read_repeating hq o ht, if_pos hg, andThen_of_none hf]
  | @spacedCalls depth o yes no tape a ha ih =>
    obtain ⟨hy, hno⟩ := Bool.and_eq_true_iff.1 hq
    rw [Phrase.read]
    split <;> rename_i hs
    · rw [if_pos hs] at ih
      exact ih hy ht hn
    · rw [if_neg hs] at ih
      exact ih hno ht hn
  | ends he => exact (statements_of_ends he _).symm
  | @stray depth o statement tape b hb hm hrest ih =>
    have hl := (conserves.takeTrivia tape ht).lexed
    have hr : Conserves tape.takeTrivia.2 (Attempt.stray o.file tape.takeTrivia.2) :=
      .recover hl o.file false _
    obtain rfl := ih hq hr.lexed hn
    rw [read_statements_stray hq o ht hb, andThen_of_none rfl]
  | @next depth o inBlock statement tape a b he hb ha hm hrest iha ih =>
    obtain ⟨htakes, hbody⟩ := Bool.and_eq_true_iff.1 hq
    have hl := (conserves.takeTrivia tape ht).lexed
    obtain rfl := iha hbody hl hn
    obtain rfl := ih hq ((conserves_read n statement o _ hl).recovered o.file inBlock).lexed hn
    rw [read_statements_next hq o ht he hb, andThen_of_none (failure_recovered _ _ _)]
  | @quoted depth o named braced tape read hr ih =>
    obtain ⟨hnamed, hbraced⟩ := Bool.and_eq_true_iff.1 hq
    apply quoted_congr
    intro isBraced window hw
    have hlexed : window.Lexed := by
      obtain ⟨-, -, -, reach⟩ := hw
      exact Tape.lexed_ofText _ _ _
    cases isBraced with
    | true => exact ih true window hw hbraced hlexed hn
    | false => exact ih false window hw hnamed hlexed hn

end Phrase

end Heddle
