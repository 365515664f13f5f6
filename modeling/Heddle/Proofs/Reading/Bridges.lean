import Heddle.Proofs.Document.Locations
import Heddle.Proofs.Grammar.Rules
import Heddle.Proofs.Reading.Gap

/-!
# Readings across a gap

What the two readings of a gap come to, phrase by phrase and rule by rule. Rules that take trivia
as a whole are read alike because their steps are (`Phrase.clearsTrivia`). The others take tokens
that a look ahead has seen, and what was seen is then no trivia (`Phrase.Bridges`).

One look tells trivia apart: **a call without parentheses needs a blank right behind its name**.
If the gap begins with a blank in one text and with a comment in the other one, and a name stands
in front of it, then a call may begin there in the first text only, and from then on the readings
are different. So there are two outcomes, and the second one says where it came to this
(`Gap.Calls`). If the gap begins with a blank in both texts, it does not occur.
-/

set_option autoImplicit false

namespace Heddle

open Token Lookahead
open Attempt (Conserves Progress)

namespace Gap

/-- In the second text a call without parentheses begins with a name that ends at the gap. -/
def Calls (g : Gap) (tape' : Tape) (a' : Attempt) : Prop :=
  (∀ t ∈ g.left.head?, t.kind ≠ .blank) ∧
  ∃ before after place, ∃ name : Token,
    a'.trace.events = before ++ .start .singleArgumentCall :: after ∧
      name.isName = true ∧
        read? false place (name.chars ++ g.rightText) = some (name, g.rightText) ∧
      tape'.text = Event.chars before ++ (name.chars ++ g.rightText)

/-- The two readings are alike, unless a call without parentheses begins in front of the gap. The
second case ends the comparison: nothing is said of what is read behind it. -/
def Outcome (g : Gap) (tape' : Tape) (a a' : Attempt) : Prop := g.Alike a a' ∨ g.Calls tape' a'

variable {g : Gap} {tape tape' : Tape} {a a' : Attempt}

/-! ## Attempts -/

namespace Calls

theorem append (h : g.Calls tape' a') {b' : Attempt} {more : Trace}
    (hb : b'.trace = a'.trace ++ more) : g.Calls tape' b' := by
  obtain ⟨hk, before, after, place, name, he, hn, hr, ht⟩ := h
  refine ⟨hk, before, after ++ more.events, place, name, ?_, hn, hr, ht⟩
  rw [hb, Trace.events_append, he, List.append_assoc, List.cons_append]

theorem behind {start : Tape} {lead : Attempt} (hc : Conserves start lead)
    (h : g.Calls lead.tape a') : g.Calls start (a'.behind lead.trace) := by
  obtain ⟨hk, before, after, place, name, he, hn, hr, ht⟩ := h
  refine ⟨hk, lead.trace.events ++ before, after, place, name, ?_, hn, hr, ?_⟩
  · rw [Attempt.trace_behind, Trace.events_append, he, List.append_assoc]
  · rw [hc.text, ht, Event.chars_append, Trace.chars_events]
    simp only [List.append_assoc]

theorem andThen (h : g.Calls tape' a') (next : Tape → Attempt) :
    g.Calls tape' (a'.andThen next) := by
  cases hf : a'.failure with
  | none =>
    rw [Attempt.andThen_of_none hf]
    exact h.append rfl
  | some f => rwa [Attempt.andThen_of_some hf]

theorem framed (h : g.Calls tape' a') (file : Option String) (kind : NodeKind)
    (start : Position) : g.Calls tape' (a'.framed file kind start) := by
  obtain ⟨hk, before, after, place, name, he, hn, hr, ht⟩ := h
  have hnode (more : Trace) (committed : Bool) :
      (Trace.ofNode kind (a'.trace ++ more) committed).events =
        (.start kind :: before) ++ .start .singleArgumentCall ::
          (after ++ more.events ++ .stop kind :: (if committed then [.commit] else [])) := by
    simp [Trace.ofNode, Trace.events, he]
  unfold Attempt.framed
  split
  · have hfailed := hnode .nil false
    rw [Trace.append_nil] at hfailed
    exact ⟨hk, _, _, place, name, hfailed, hn, hr, ht⟩
  · exact ⟨hk, _, _, place, name, hnode _ true, hn, hr, ht⟩

theorem recovered (h : g.Calls tape' a') (file : Option String) (inBlock : Bool) :
    g.Calls tape' (.recovered file inBlock a') := by
  unfold Attempt.recovered
  split
  · exact h.append rfl
  · exact h

end Calls

namespace Outcome

theorem alike (h : g.Alike a a') : g.Outcome tape' a a' := .inl h

/-- One attempt behind another. If the first ends the comparison, so does the whole; if not, the
second is compared from across the gap. -/
theorem andThen (hc : Conserves tape' a') (h : g.Outcome tape' a a')
    {next next' : Tape → Attempt}
    (hn : a.failure = none → g.Across a.tape a'.tape →
      g.Outcome a'.tape (next a.tape) (next' a'.tape)) :
    g.Outcome tape' (a.andThen next) (a'.andThen next') := by
  rcases h with h | h
  · cases hf : a.failure with
    | none =>
      rw [Attempt.andThen_of_none hf, Attempt.andThen_of_none (h.failure_eq_none.2 hf)]
      exact (hn hf h.tape).imp h.behind (.behind hc)
    | some f =>
      obtain ⟨f', hf'⟩ := Option.isSome_iff_exists.1 (h.failure.trans (by rw [hf]; rfl))
      rw [Attempt.andThen_of_some hf, Attempt.andThen_of_some hf']
      exact .inl h
  · exact .inr (h.andThen next')

theorem framed (h : g.Outcome tape' a a') (file : Option String) (kind : NodeKind)
    (start start' : Position) :
    g.Outcome tape' (a.framed file kind start) (a'.framed file kind start') :=
  h.imp (·.framed file kind start start') (·.framed file kind start')

/-- What is skipped behind a failure is skipped in both. -/
theorem recovered (h : g.Outcome tape' a a') (file : Option String) (inBlock : Bool) :
    g.Outcome tape' (.recovered file inBlock a) (.recovered file inBlock a') := by
  rcases h with h | h
  · refine .inl ?_
    unfold Attempt.recovered
    cases hf : a.failure with
    | none =>
      simp only [h.failure_eq_none.2 hf]
      exact h
    | some f =>
      obtain ⟨f', hf'⟩ := Option.isSome_iff_exists.1 (h.failure.trans (by rw [hf]; rfl))
      simp only [hf']
      exact h.behind (.recover h.tape file inBlock f f')
  · exact .inr (h.recovered file inBlock)

/-- Rounds that both loops may use. -/
theorem repeating {test : Lookahead} {body : Tape → Attempt}
    (ht : ∀ tape tape', g.Across tape tape' → test tape'.ahead = test tape.ahead)
    (hc : ∀ tape : Tape, tape.Lexed → Conserves tape (body tape))
    (hb : ∀ tape tape', g.Across tape tape' → test tape.ahead = true →
      g.Outcome tape' (body tape) (body tape'))
    (rounds : Nat) (h : g.Across tape tape') :
    g.Outcome tape' (.repeating test body rounds tape) (.repeating test body rounds tape') := by
  induction rounds generalizing tape tape' with
  | zero => exact .inl (.nothing h)
  | succ n ih =>
    rw [Attempt.repeating, Attempt.repeating, ht _ _ h]
    cases hg : test tape.ahead with
    | true => exact (hb _ _ h hg).andThen (hc _ h.lexed.2) fun _ hx => ih hx
    | false => exact .inl (.nothing h)

/-- Lists of statements bridge the gap if their statements do. The gap may be in front of a
statement, in one or behind all of them, and the rounds go side by side on both sides. -/
theorem statements {statement : Tape → Attempt}
    (hc : ∀ tape : Tape, tape.Lexed → Conserves tape (statement tape))
    (hs : ∀ tape tape', g.Across tape tape' → g.Outcome tape' (statement tape) (statement tape'))
    (file : Option String) (inBlock : Bool) (rounds : Nat) (h : g.Across tape tape') :
    g.Outcome tape' (.statements file inBlock statement rounds tape)
      (.statements file inBlock statement rounds tape') := by
  induction rounds generalizing tape tape' with
  | zero => exact .inl (.takeTrivia h)
  | succ n ih =>
    have htrivia {tape : Tape} (h : tape.Lexed) : Conserves tape (.ofTaken tape.takeTrivia) :=
      Attempt.conserves.takeTrivia tape h
    rw [Attempt.statements, Attempt.statements]
    refine (Outcome.alike (.takeTrivia h)).andThen (htrivia h.lexed.2) fun _ hx => ?_
    generalize (Attempt.ofTaken tape.takeTrivia).tape = tape at hx
    generalize (Attempt.ofTaken tape'.takeTrivia).tape = tape' at hx
    -- Whether a statement begins on one side it does on the other: there are as many tokens, and
    -- the look for a brace says the same.
    have hbrace := hx.look (ignoresDisguise_next fun f t => isMark_disguise f t .rightBrace)
    have hlength := hx.length
    cases ha : tape.ahead with
    | nil =>
      rw [ha, List.length_nil, List.length_eq_zero_iff] at hlength
      rw [hlength]
      exact .inl (.nothing hx)
    | cons t ts =>
      obtain ⟨t', ts', ha'⟩ : ∃ t' ts', tape'.ahead = t' :: ts' := by
        refine List.exists_cons_of_ne_nil fun hn => ?_
        rw [ha, hn] at hlength
        cases hlength
      have hmark : t'.kind = .mark .rightBrace ↔ t.kind = .mark .rightBrace := by
        rw [ha, ha'] at hbrace
        have hiff := Bool.eq_iff_iff.1 hbrace
        simpa [next, isMark] using hiff
      rw [ha']
      simp only [hmark]
      split
      · split
        · exact .inl (.nothing hx)
        · exact (Outcome.alike (.recover hx file false _ _)).andThen
            (.recover hx.lexed.2 file false _) fun _ hx => ih hx
      · have hstatement := hc _ hx.lexed.2
        exact ((hs _ _ hx).recovered file inBlock).andThen
          (hstatement.recovered file inBlock) fun _ hx => ih hx

end Outcome

/-- What is known of the constructs inside a phrase. `outcome` is what is to be proved, and `call`
is what makes a call without parentheses visible in the events. -/
structure Crossing (g : Gap) (descend : Options → Production → Tape → Attempt) : Prop where
  conserves : ∀ o p (tape : Tape), tape.Lexed → Conserves tape (descend o p tape)
  progress : ∀ o p (tape : Tape), p.takes = true → tape.Lexed → Progress tape (descend o p tape)
  moved : ∀ d o p (tape tape' : Tape), tape.Moved d tape' →
    (descend o p tape).Moved d (descend o p tape')
  outcome : ∀ o p tape tape', g.Across tape tape' →
    (p.isGuarded = true → p.opening (p.front tape.ahead) = true) →
    g.Outcome tape' (descend o p tape) (descend o p tape')
  call : ∀ o (tape : Tape), next isTrivia tape.ahead = false → ∃ after,
    (descend o .singleArgumentCall tape).trace.events = .start .singleArgumentCall :: after

end Gap

/-! ## Phrases -/

namespace Phrase

open Gap (Crossing)

/-- Read where `given` was seen, the phrase bridges the gap. The rules below follow the forms of
phrases and are used for the sighted rules only. -/
def Bridges (g : Gap) (descend : Options → Production → Tape → Attempt) (given : Lookahead)
    (q : Phrase) : Prop :=
  ∀ o tape tape', g.Across tape tape' → given tape.ahead = true →
    g.Outcome tape' (q.read descend o tape) (q.read descend o tape')

/-- Behind all trivia there is none. -/
theorem next_isTrivia_dropWhile (ts : List Token) :
    next isTrivia (ts.dropWhile isTrivia) = false := by
  rw [next_dropWhile, significant]
  cases hf : ts.find? (!·.isTrivia) with
  | none => rfl
  | some t => simpa using List.find?_some hf

/-- A phrase that ends by taking trivia leaves none. -/
theorem next_isTrivia_of_endsInTrivia (descend : Options → Production → Tape → Attempt) {q : Phrase}
    (hq : q.endsInTrivia = true) (o : Options) (tape : Tape)
    (hf : (q.read descend o tape).failure = none) :
    next isTrivia (q.read descend o tape).tape.ahead = false := by
  induction q generalizing tape with
  | trivia =>
    show next isTrivia tape.takeTrivia.2.ahead = false
    rw [Tape.ahead_takeTrivia]
    exact next_isTrivia_dropWhile _
  | andThen first second ih₁ ih₂ =>
    obtain ⟨-, hf₂, heq⟩ := Attempt.andThen_succeeds hf
    rw [Phrase.read, heq]
    exact ih₂ hq _ hf₂
  | _ => cases hq

namespace Bridges

variable {g : Gap} {descend : Options → Production → Tape → Attempt} {given : Lookahead}
  {q r : Phrase}

theorem under {seen : Lookahead} (h : Bridges g descend given q)
    (hs : ∀ ts, seen ts = true → given ts = true) : Bridges g descend seen q :=
  fun o tape tape' hx hg => h o tape tape' hx (hs _ hg)

/-- A loop with rounds enough for both texts. -/
theorem repeating_size {test : Lookahead} {body : Tape → Attempt} (ht : test [] = false)
    (hc : ∀ tape : Tape, tape.Lexed → Conserves tape (body tape))
    (hp : ∀ tape : Tape, tape.Lexed → Progress tape (body tape))
    (hl : ∀ tape tape', g.Across tape tape' → test tape'.ahead = test tape.ahead)
    (hb : ∀ tape tape', g.Across tape tape' → test tape.ahead = true →
      g.Outcome tape' (body tape) (body tape'))
    {tape tape' : Tape} (h : g.Across tape tape') :
    g.Outcome tape' (.repeating test body tape.size tape)
      (.repeating test body tape'.size tape') := by
  rw [← Attempt.repeating_rounds ht hc hp h.lexed.1 (Nat.le_max_left tape.size tape'.size),
    ← Attempt.repeating_rounds ht hc hp h.lexed.2 (Nat.le_max_right tape.size tape'.size)]
  exact .repeating hl hc hb _ h

theorem statements_size {statement : Tape → Attempt}
    (hc : ∀ tape : Tape, tape.Lexed → Conserves tape (statement tape))
    (hp : ∀ tape : Tape, tape.Lexed → Progress tape (statement tape))
    (hs : ∀ tape tape', g.Across tape tape' → g.Outcome tape' (statement tape) (statement tape'))
    (file : Option String) (inBlock : Bool) {tape tape' : Tape} (h : g.Across tape tape') :
    g.Outcome tape' (.statements file inBlock statement tape.size tape)
      (.statements file inBlock statement tape'.size tape') := by
  rw [← Attempt.statements_rounds hc hp h.lexed.1 (Nat.le_max_left tape.size tape'.size),
    ← Attempt.statements_rounds hc hp h.lexed.2 (Nat.le_max_right tape.size tape'.size)]
  exact .statements hc hs file inBlock _ h

section

variable (hd : Crossing g descend)
include hd

/-- **Phrases that take trivia as a whole bridge the gap.** All other rules of the grammar are
done by this one proof. -/
theorem of_clearsTrivia {cleared : Bool} (hq : q.clearsTrivia cleared = true)
    (hl : q.Looks IgnoresDisguise) (hf : q.Looks Local)
    (hs : cleared = true → ∀ ts, given ts = true → next isTrivia ts = false) :
    Bridges g descend given q := by
  intro o tape tape' hx hg
  replace hs : cleared = true → next isTrivia tape.ahead = false := fun h => hs h _ hg
  clear hg
  have hno {P : Prop} (h : false = true) : P := absurd h Bool.false_ne_true
  -- The induction is on the phrase, for every value of `cleared` at once. The hypothesis `hs` is
  -- what a token may rely on: behind cleared trivia the next token is none, so it is the same
  -- token in both texts.
  induction q generalizing cleared o tape tape' with
  | empty => exact .inl (.nothing hx)
  | take tag => exact .inl (.take hx (hs hq) tag)
  | trivia => exact .inl (.takeTrivia hx)
  | node p =>
    refine hd.outcome o p tape tape' hx fun hp => ?_
    rw [clearsTrivia, hp] at hq
    cases hq
  -- Only a first phrase that ends in trivia clears it for the second.
  | andThen first second ih₁ ih₂ =>
    obtain ⟨hq₁, hq₂⟩ := Bool.and_eq_true_iff.1 hq
    have hc := Attempt.conserves.phrase hd.conserves first o tape' hx.lexed.2
    refine (ih₁ hq₁ hl.1 hf.1 o tape tape' hx hs).andThen hc fun hok hx => ?_
    exact ih₂ hq₂ hl.2 hf.2 o _ _ hx fun hset =>
      next_isTrivia_of_endsInTrivia descend hset o tape hok
  | choose test yes no ihy ihn =>
    obtain ⟨hqy, hqn⟩ := Bool.and_eq_true_iff.1 hq
    rw [Phrase.read, Phrase.read, hx.look hl.1]
    split
    · exact ihy hqy hl.2.1 hf.2.1 o tape tape' hx hs
    · exact ihn hqn hl.2.2 hf.2.2 o tape tape' hx hs
  | repeating test body ih =>
    obtain ⟨hq, hbody⟩ := Bool.and_eq_true_iff.1 hq
    obtain ⟨ht, htakes⟩ := Bool.and_eq_true_iff.1 hq
    exact repeating_size (Bool.not_eq_true' _ ▸ ht)
      (fun tape h => Attempt.conserves.phrase hd.conserves body o tape h)
      (fun tape h => Attempt.progress_phrase hd.conserves hd.progress body htakes o h)
      (fun tape tape' hx => hx.look hl.1)
      (fun tape tape' hx _ => ih hbody hl.2 hf.2 o tape tape' hx hno) hx
  | spacedCalls yes no ihy ihn =>
    obtain ⟨hqy, hqn⟩ := Bool.and_eq_true_iff.1 hq
    rw [Phrase.read, Phrase.read]
    split
    · exact ihy hqy hl.1 hf.1 o tape tape' hx hs
    · exact ihn hqn hl.2 hf.2 o tape tape' hx hs
  | expected wanted => exact .inl (.fail hx _ _)
  | orphan => exact .inl (.fail hx _ _)
  | statements inBlock statement ih =>
    obtain ⟨htakes, hstatement⟩ := Bool.and_eq_true_iff.1 hq
    exact statements_size
      (fun tape h => Attempt.conserves.phrase hd.conserves statement o tape h)
      (fun tape h => Attempt.progress_phrase hd.conserves hd.progress statement htakes o h)
      (fun tape tape' hx => ih hstatement hl hf o tape tape' hx hno) _ _ hx
  -- The inside of a quoted text lies on one side of the gap, so its placeholders are moved and
  -- not compared across.
  | quoted named braced =>
    refine .inl (.quoted hx (hs hq) (fun d isBraced tape tape' hm => ?_) o.file)
    split
    · exact .phrase (hd.moved d) braced hf.2 _ hm
    · exact .phrase (hd.moved d) named hf.1 _ hm
  | hexDigits => exact .inl (.hexDigits hx)
  | foreign => exact .inl (.foreign hx)

/-- One phrase behind another one that has left `behind` to be seen. -/
theorem seq {behind : Lookahead} (h₁ : Bridges g descend given q)
    (hb : ∀ o (tape : Tape), given tape.ahead = true →
      (q.read descend o tape).failure = none → behind (q.read descend o tape).tape.ahead = true)
    (h₂ : Bridges g descend behind r) : Bridges g descend given (.andThen q r) := by
  intro o tape tape' hx hg
  have hc := Attempt.conserves.phrase hd.conserves q o tape' hx.lexed.2
  exact (h₁ o tape tape' hx hg).andThen hc fun hf hx => h₂ o _ _ hx (hb o tape hg hf)

theorem andThen (h₁ : Bridges g descend given q) (h₂ : Bridges g descend unseen r) :
    Bridges g descend given (.andThen q r) := seq hd h₁ (fun _ _ _ _ => rfl) h₂

omit hd in
/-- A token that was seen and is no trivia. -/
theorem take {P : Token → Bool} (hp : Firm P) (tag : DataTag) :
    Bridges g descend (next P) (.take tag) := by
  intro o tape tape' hx hg
  obtain ⟨t, ts, ha, ht⟩ := exists_of_next hg
  exact .inl (.take hx (by rw [ha]; exact hp t ht) tag)

/-- Two tokens that were seen, the first of which is taken. -/
theorem takeFirst {P R : Token → Bool} (hp : Firm P) (tag : DataTag)
    (h : Bridges g descend (next R) q) :
    Bridges g descend (pair P R) (.andThen (.take tag) q) := by
  refine seq hd ((take hp tag).under fun _ => next_of_pair) (fun o tape hg _ => ?_) h
  show next R (tape.take tag).2.ahead = true
  rw [Tape.ahead_take]
  exact next_tail_of_pair hg

omit hd in
theorem choose {test : Lookahead} {yes no : Phrase} (ht : test.IgnoresDisguise)
    (hy : Bridges g descend (fun ts => given ts && test ts) yes)
    (hn : Bridges g descend (fun ts => given ts && !test ts) no) :
    Bridges g descend given (.choose test yes no) := by
  intro o tape tape' hx hg
  rw [Phrase.read, Phrase.read, hx.look ht]
  split <;> rename_i h
  · exact hy o tape tape' hx (Bool.and_eq_true_iff.2 ⟨hg, h⟩)
  · exact hn o tape tape' hx (Bool.and_eq_true_iff.2 ⟨hg, by simpa using h⟩)

omit hd in
theorem either {test : Lookahead} {yes no : Phrase} (ht : test.IgnoresDisguise)
    (hy : Bridges g descend test yes) (hn : Bridges g descend unseen no) :
    Bridges g descend given (.choose test yes no) :=
  choose ht (hy.under fun _ h => (Bool.and_eq_true_iff.1 h).2) (hn.under fun _ _ => rfl)

omit hd in
theorem case {test : Lookahead} {yes otherwise : Phrase} {cases : List (Lookahead × Phrase)}
    (ht : test.IgnoresDisguise) (hy : Bridges g descend test yes)
    (ho : Bridges g descend unseen (oneOf cases otherwise)) :
    Bridges g descend given (oneOf ((test, yes) :: cases) otherwise) := either ht hy ho

omit hd in
theorem empty : Bridges g descend given empty := fun _ _ _ hx _ => .inl (.nothing hx)

omit hd in
theorem expected (wanted : Wanted) : Bridges g descend given (expected wanted) :=
  fun _ _ _ hx _ => .inl (.fail hx _ _)

theorem node {p : Production} (ho : p.isGuarded = true → ∀ ts, given ts = true →
    p.opening (p.front ts) = true) : Bridges g descend given (.node p) :=
  fun o tape tape' hx hg => hd.outcome o p tape tape' hx fun hp => ho hp _ hg

/-- A construct of two tokens that were seen, the first of which is no trivia. -/
theorem nodePair {p : Production} {P R : Token → Bool} (hp : Firm P) (ho : p.opening = pair P R) :
    Bridges g descend (pair P R) (.node p) :=
  node hd fun _ ts h => by rw [p.front_of_firm hp (next_of_pair h), ho]; exact h

theorem repeating {test : Lookahead} (ht : test [] = false) (hq : q.takes = true)
    (hl : test.IgnoresDisguise) (h : Bridges g descend test q) :
    Bridges g descend given (.repeating test q) :=
  fun o _ _ hx _ => repeating_size ht
    (fun tape h => Attempt.conserves.phrase hd.conserves q o tape h)
    (fun _ h => Attempt.progress_phrase hd.conserves hd.progress q hq o h)
    (fun _ _ hx => hx.look hl) (fun tape tape' hx hg => h o tape tape' hx hg) hx

end

end Bridges

/-! ## Selectors and paths -/

section

variable {g : Gap} {descend : Options → Production → Tape → Attempt} {given : Lookahead}
  (hd : Crossing g descend)
include hd

theorem bridges_arguments : Bridges g descend given arguments :=
  .of_clearsTrivia hd clearsTrivia_arguments ignoresDisguise_arguments local_arguments nofun

theorem bridges_selectorPart : Bridges g descend isSelectorPart selectorPart := by
  have hleft {test : Lookahead} {q : Phrase} {given : Lookahead} (h : Bridges g descend test q) :
      Bridges g descend (fun ts => given ts && test ts) q :=
    h.under fun _ h => (Bool.and_eq_true_iff.1 h).2
  have hpair (m : Mark) : (pair (isMark m) isName).IgnoresDisguise :=
    ignoresDisguise_pair (fun f t => isMark_disguise f t m) isName_disguise
  refine .choose (hpair _) (hleft ?_) (.choose (hpair _) (hleft ?_) (.choose (hpair _) (hleft ?_)
    (.node hd nofun)))
  · exact .takeFirst hd (firm_isMark .dot) _ (.take firm_isName _)
  · exact .takeFirst hd (firm_isMark .hash) _ (.take firm_isName _)
  · exact .nodePair hd (firm_isMark .colon) rfl

omit hd in
theorem ignoresDisguise_isSelectorPart : isSelectorPart.IgnoresDisguise := by
  have hpair (m : Mark) : (pair (isMark m) isName).IgnoresDisguise :=
    ignoresDisguise_pair (fun f t => isMark_disguise f t m) isName_disguise
  exact (((hpair .dot).or (hpair .hash)).or (hpair .colon)).or
    (ignoresDisguise_next fun f t => isMark_disguise f t .leftBracket)

theorem bridges_selectorParts : Bridges g descend given selectorParts :=
  .repeating hd rfl rfl ignoresDisguise_isSelectorPart (bridges_selectorPart hd)

omit hd in
/-- Where no call may be written without parentheses, a name is taken alone. -/
theorem read_spacedCall (tag : DataTag) (o : Options) (tape : Tape) :
    (oneOf [(isSpacedCall, .spacedCalls (.node .singleArgumentCall) (.take tag)),
      (next isName, .take tag)] (.expected .name)).read descend o tape =
    if isSpacedCall tape.ahead && o.spacedCalls then descend o .singleArgumentCall tape
    else (oneOf [(next isName, .take tag)] (.expected .name)).read descend o tape := by
  simp only [oneOf, List.foldr_cons, List.foldr_nil, Phrase.read, Bool.and_eq_true]
  by_cases hs : isSpacedCall tape.ahead = true
  · simp only [hs, if_true, true_and, next_of_isSpacedCall hs]
  · simp only [hs, Bool.false_eq_true, if_false, false_and]

/-- A name with a blank behind it is the one place where the readings can part. In the first text
a call begins, in the second a name stands alone: it is the second outcome. -/
theorem bridges_segment (tag : DataTag) : Bridges g descend given (segment tag) := by
  have hname : Bridges g descend unseen (oneOf [(next isName, .take tag)] (.expected .name)) :=
    .case (ignoresDisguise_next isName_disguise) (.take firm_isName tag) (.expected _)
  refine .case ignoresDisguise_isCall (.node hd nofun) fun o tape tape' hx _ => ?_
  rw [read_spacedCall, read_spacedCall]
  rcases hx.isSpacedCall with heq | ⟨hblank, hno, hnext, name, hword, htext, hread⟩
  · rw [heq]
    split
    · exact hd.outcome o _ tape tape' hx nofun
    · exact hname o tape tape' hx rfl
  · rw [hno, Bool.false_and, if_neg nofun]
    split
    · have hfirst := (hx.look (ignoresDisguise_next isName_disguise)).trans hnext
      obtain ⟨t, ts, ha, ht⟩ := exists_of_next hfirst
      obtain ⟨after, hafter⟩ := hd.call o tape' (by rw [ha]; exact firm_isName t ht)
      rw [htext] at hread
      exact .inr ⟨hblank, [], after, tape'.place, name, hafter, hword, hread, htext⟩
    · exact hname o tape tape' hx rfl

/-- What stands between two selectors. -/
theorem bridges_combination : Bridges g descend given
    (.choose isDescendant (.node .descendant) (.node .combinator)) :=
  .either ignoresDisguise_isDescendant
    (.node hd fun _ _ h => (Bool.and_eq_true_iff.1 h).1) (.node hd nofun)

/-- A further name of a path, or an index. -/
theorem bridges_step : Bridges g descend given
    (.choose (pair (isMark .dot) isName) (seq [.take .punctuation, segment .propertyName])
      (.node .indexAccessor)) :=
  .either (ignoresDisguise_pair (fun f t => isMark_disguise f t .dot) isName_disguise)
    (.takeFirst hd (firm_isMark .dot) _ ((bridges_segment hd _).under fun _ _ => rfl))
    (.node hd nofun)

end

end Phrase

/-! ## The rules -/

/-- Taking trivia one by one takes all of it. -/
theorem Attempt.repeating_isTrivia (tag : DataTag) {tape : Tape} (h : tape.Lexed) :
    repeating (next isTrivia) (fun tape => ofTaken (tape.take tag)) tape.size tape =
      ofTaken (tape.takeMany tag (tape.ahead.takeWhile isTrivia).length) := by
  have hround {tape : Tape} (h : tape.Lexed) :
      repeating (next isTrivia) (fun tape => ofTaken (tape.take tag)) tape.size tape = _ :=
    repeating_eq rfl (fun tape h => Conserves.take tag h) (fun tape h => Progress.take tag h) h
  generalize ha : tape.ahead = ts
  induction ts generalizing tape with
  | nil =>
    rw [hround h, ha]
    rfl
  | cons t ts ih =>
    rw [hround h, ha, List.takeWhile_cons]
    cases ht : t.isTrivia with
    | false => rw [if_neg (by simp [next, ht]), if_neg Bool.false_ne_true]; rfl
    | true =>
      have hahead : (tape.take tag).2.ahead = ts := by rw [Tape.ahead_take, ha]; rfl
      have hrest := ih (Conserves.take tag h).lexed hahead
      rw [tape_ofTaken] at hrest
      rw [if_pos (by simp [next, ht]), if_pos rfl, List.length_cons, ofTaken_takeMany_succ,
        andThen_of_none rfl, andThen_of_none rfl, tape_ofTaken, hrest]

/-- What is known where the rule of a construct is read: there is no trivia in front that it does
not keep, and what its callers have seen if it is guarded. -/
def Production.known (p : Production) : Lookahead := fun ts =>
  (p.keepsTrivia || !next isTrivia ts) && (!p.isGuarded || p.opening ts)

namespace Production

open Phrase
open Gap (Crossing)

variable {g : Gap} {descend : Options → Production → Tape → Attempt} (hd : Crossing g descend)
include hd

/-- **Every rule bridges the gap.** Rules that take all trivia do so by their form; those of
selectors, of calls without parentheses and of value paths are taken one by one, since the gap may
be where they look. -/
theorem bridges_body (p : Production) : Bridges g descend p.known p.body := by
  have hopening {p : Production} (hp : p.isGuarded = true) {ts : List Token}
      (h : p.known ts = true) : p.opening ts = true := by
    simpa [known, hp] using (Bool.and_eq_true_iff.1 h).2
  -- The rules that take trivia as a whole are one case. The sighted ones follow, each by the
  -- rules of `Bridges`.
  cases hs : p.isSighted with
  | false =>
    refine .of_clearsTrivia hd (clearsTrivia_body hs) (ignoresDisguise_body hs) p.local_body
      fun _ ts h => ?_
    have hkeeps : p.keepsTrivia = false := by cases p <;> first | rfl | cases hs
    simpa [hkeeps] using (Bool.and_eq_true_iff.1 h).1
  | true =>
    cases p with
    | selector =>
      have hhead : (next fun t => t.isName || t.isMark .star).IgnoresDisguise := by simp
      refine .case hhead ?_ (.case ignoresDisguise_isObject ?_ (.case ?_ (bridges_selectorParts hd)
        (.expected _)))
      · exact .andThen hd (.take (firm_or firm_isName (firm_isMark .star)) _)
          (bridges_selectorParts hd)
      · exact .andThen hd (.nodePair hd (firm_isMark .atSign) rfl) (bridges_selectorParts hd)
      · exact ignoresDisguise_isSelectorPart
    | objectSelector =>
      have hword : Firm isObjectWord := fun t h => firm_isName t (Bool.and_eq_true_iff.1 h).1
      refine Bridges.under ?_ fun _ => hopening rfl
      exact .takeFirst hd (firm_isMark .atSign) _ (.take hword _)
    | flag =>
      refine Bridges.under ?_ fun _ => hopening rfl
      refine .takeFirst hd (firm_isMark .colon) _ (.andThen hd (.take firm_isName _) ?_)
      exact .either (ignoresDisguise_next fun f t => isMark_disguise f t .leftParen)
        (bridges_arguments hd) .empty
    -- The trivia itself is what this construct takes, token by token; in both texts the loop
    -- takes all of it.
    | descendant =>
      have hall (o : Options) {tape : Tape} (h : tape.Lexed)
          (ht : next isTrivia tape.ahead = true) :
          descendant.body.read descend o tape =
            .ofTaken (tape.takeMany .combinator (tape.ahead.takeWhile isTrivia).length) := by
        rw [← Attempt.repeating_isTrivia _ h, Attempt.repeating_eq rfl
          (fun tape h => Attempt.Conserves.take _ h) (fun tape h => Progress.take _ h) h, if_pos ht]
        rfl
      intro o tape tape' hx hg
      have ht : next isTrivia tape.ahead = true := hopening rfl hg
      have htrivia : ∀ (f : Disguise) t, (f.map t).isTrivia = t.isTrivia := fun f => f.isTrivia_map
      rw [hall o hx.lexed.1 ht,
        hall o hx.lexed.2 ((hx.look (ignoresDisguise_next htrivia)).trans ht)]
      exact .inl (.takeAll hx _)
    | selectorChain =>
      refine .andThen hd (.node hd nofun) (.repeating hd rfl rfl ?_
        (.andThen hd (bridges_combination hd) (.node hd nofun)))
      exact ignoresDisguise_isDescendant.or (ignoresDisguise_significant isCombinator_disguise)
    | valuePath =>
      refine .andThen hd (.either ignoresDisguise_isObject (.nodePair hd (firm_isMark .atSign) rfl)
        (bridges_segment hd _)) (.repeating hd rfl rfl ?_ (bridges_step hd))
      exact .or (ignoresDisguise_pair (fun f t => isMark_disguise f t .dot) isName_disguise)
        (ignoresDisguise_next fun f t => isMark_disguise f t .leftBracket)
    | _ => cases hs

end Production

/-! ## Constructs -/

namespace Gap

variable {g : Gap} {tape tape' : Tape} {p : Production} {o : Options} {inside : Tape → Attempt}

/-- A construct bridges the gap if its inside does. -/
theorem Outcome.enter (hi : ∀ tape tape', g.Across tape tape' → p.known tape.ahead = true →
      g.Outcome tape' (inside tape) (inside tape'))
    (h : g.Across tape tape')
    (ho : p.isGuarded = true → p.opening (p.front tape.ahead) = true) :
    g.Outcome tape' (p.enter o inside tape) (p.enter o inside tape') := by
  have hknown {ts : List Token} (hk : p.keepsTrivia = true ∨ next isTrivia ts = false)
      (hg : p.isGuarded = true → p.opening ts = true) : p.known ts = true := by
    rw [Production.known, Bool.and_eq_true_iff, Bool.or_eq_true_iff, Bool.or_eq_true_iff,
      Bool.not_eq_true', Bool.not_eq_true']
    refine ⟨hk, ?_⟩
    cases hp : p.isGuarded with
    | true => exact .inr (hg hp)
    | false => exact .inl rfl
  rw [Production.enter_eq, Production.enter_eq]
  split <;> rename_i hk
  · rw [Production.front, if_pos hk] at ho
    exact (hi _ _ h (hknown (.inl hk) ho)).framed _ _ _ _
  · rw [Production.front, if_neg hk] at ho
    refine (Outcome.alike (.takeTrivia h)).andThen (Attempt.conserves.takeTrivia _ h.lexed.2)
      fun _ hx => (hi _ _ hx ?_).framed _ _ _ _
    rw [Attempt.tape_ofTaken, Tape.ahead_takeTrivia]
    exact hknown (.inr (Phrase.next_isTrivia_dropWhile _)) ho

/-- Without trivia in front, a construct is reported at once. -/
theorem exists_events_enter (h : next isTrivia tape.ahead = false) (hp : p.keepsTrivia = false) :
    ∃ after, (p.enter o inside tape).trace.events = .start p.kind :: after := by
  have hnone : (tape.ahead.takeWhile (·.kind.isTrivia)).length = 0 := by
    cases ha : tape.ahead with
    | nil => rfl
    | cons t ts =>
      rw [ha] at h
      have ht : t.kind.isTrivia = false := h
      rw [List.takeWhile_cons, ht, if_neg nofun]
      rfl
  have htrivia : tape.takeTrivia = (.nil, tape) := by rw [Tape.takeTrivia, hnone, Tape.takeMany]
  rw [Production.enter_eq, if_neg (by simp [hp]), Attempt.andThen_of_none rfl, Attempt.tape_ofTaken,
    Attempt.trace_behind, Attempt.trace_ofTaken, htrivia]
  unfold Attempt.framed
  split <;> exact ⟨_, rfl⟩

/-- **Constructs bridge the gap**, however deep nodes may nest. `Document.Trivia` applies it to
whole sources, once for blanks and once for comments. -/
theorem crossing (g : Gap) (n : Nat) : Crossing g (Production.read n) := by
  have hother (n : Nat) (h : ∀ o (p : Production) tape tape', g.Across tape tape' →
      (p.isGuarded = true → p.opening (p.front tape.ahead) = true) →
      g.Outcome tape' (p.read n o tape) (p.read n o tape')) : Crossing g (Production.read n) := by
    refine ⟨Attempt.conserves.read n, fun o p tape hp hl => Attempt.progress_read n o hp hl,
      fun d o p tape tape' hm => .read n o p hm, h, fun o tape ht => ?_⟩
    cases n <;> exact exists_events_enter ht rfl
  induction n with
  | zero =>
    exact hother 0 fun o p tape tape' hx ho =>
      .enter (fun tape tape' hx _ => .inl (.fail hx _ _)) hx ho
  | succ n ih =>
    exact hother (n + 1) fun o p tape tape' hx ho =>
      .enter (fun tape tape' hx hg => Production.bridges_body ih p o tape tape' hx hg) hx ho

/-- **Statements bridge the gap.** `Document.Trivia` applies it to a source and the same source
with another gap. -/
theorem statements_outcome (o : Options) (h : g.Across tape tape') :
    g.Outcome tape' ((Phrase.statements false .statement).read (Production.read maxNesting) o tape)
      ((Phrase.statements false .statement).read (Production.read maxNesting) o tape') :=
  have hclears : (Phrase.statements false .statement).clearsTrivia false = true := rfl
  Phrase.Bridges.of_clearsTrivia (g.crossing maxNesting) hclears Phrase.ignoresDisguise_statement
    Phrase.local_statement nofun o tape tape' h (Eq.refl (Phrase.unseen tape.ahead))

end Gap

end Heddle
