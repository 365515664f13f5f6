import Heddle.Reading

/-!
# What every reading keeps

A reading is put together from a handful of steps: take a token, fail, go on behind an attempt,
make a node of an attempt, skip behind an error, and look inside three kinds of tokens. A property
of attempts that each of these steps keeps is a property of the reading of every phrase, of every
construct and of a whole source. `Attempt.Invariant` lists the steps and `Attempt.Invariant.read`
draws the conclusion.

A phrase makes no nodes itself, and it never fails because they nest too deep. So what is said of
the nodes that are open around it is kept by fewer steps: `Attempt.PhraseInvariant` lists those.
Quoted texts are not among them, since a rule that has none owes nothing for them (`Phrase.quotes`).

**The grammar plays no part in this.** Nothing is asked about which rule refers to which, so a
property that is proved here holds for every grammar that can be written as phrases. What depends
on the rules themselves needs to know what a look ahead has seen, and that is not said here.
-/

set_option autoImplicit false

namespace Heddle

/-- A construct is read behind the trivia in front of it, unless it keeps the trivia. -/
theorem Production.enter_eq (p : Production) (o : Options) (inside : Tape → Attempt)
    (tape : Tape) :
    p.enter o inside tape =
      if p.keepsTrivia then (inside tape).framed o.file p.kind tape.place
      else (Attempt.ofTaken tape.takeTrivia).andThen fun tape =>
        (inside tape).framed o.file p.kind tape.place := by
  unfold Production.enter
  cases p.keepsTrivia <;> rfl

namespace Attempt

theorem andThen_of_none {a : Attempt} (h : a.failure = none) (next : Tape → Attempt) :
    a.andThen next = (next a.tape).behind a.trace := by
  simp [andThen, h, behind]

theorem andThen_of_some {a : Attempt} {f : Failure} (h : a.failure = some f)
    (next : Tape → Attempt) : a.andThen next = a := by
  simp [andThen, h]

/-- What succeeds as a whole has succeeded in both parts. Proofs about successful readings take
`andThen` apart by this. -/
theorem andThen_succeeds {a : Attempt} {next : Tape → Attempt}
    (h : (a.andThen next).failure = none) :
    a.failure = none ∧ (next a.tape).failure = none ∧
      a.andThen next = (next a.tape).behind a.trace := by
  cases hf : a.failure with
  | none =>
    rw [andThen_of_none hf] at h ⊢
    exact ⟨rfl, h, rfl⟩
  | some f =>
    rw [andThen_of_some hf, hf] at h
    cases h

@[simp] theorem trace_ofTaken (taken : Trace × Tape) : (ofTaken taken).trace = taken.1 := rfl

@[simp] theorem tape_ofTaken (taken : Trace × Tape) : (ofTaken taken).tape = taken.2 := rfl

@[simp] theorem failure_ofTaken (taken : Trace × Tape) : (ofTaken taken).failure = none := rfl

@[simp] theorem trace_behind (lead : Trace) (a : Attempt) :
    (a.behind lead).trace = lead ++ a.trace := rfl

@[simp] theorem tape_behind (lead : Trace) (a : Attempt) : (a.behind lead).tape = a.tape := rfl

@[simp] theorem failure_behind (lead : Trace) (a : Attempt) :
    (a.behind lead).failure = a.failure := rfl

/-- A node changes neither the tape nor whether the attempt failed. -/
@[simp] theorem tape_framed (file : Option String) (kind : NodeKind) (start : Position)
    (a : Attempt) : (a.framed file kind start).tape = a.tape := by
  unfold framed
  split
  · rfl
  · rfl

@[simp] theorem failure_framed (file : Option String) (kind : NodeKind) (start : Position)
    (a : Attempt) : (a.framed file kind start).failure = a.failure := by
  unfold framed
  split
  · rfl
  · rfl

theorem ofTaken_takeMany_succ (tag : DataTag) (n : Nat) (tape : Tape) :
    ofTaken (tape.takeMany tag (n + 1)) =
      (ofTaken (tape.take tag)).andThen fun tape => ofTaken (tape.takeMany tag n) := rfl

theorem failure_recovered (file : Option String) (inBlock : Bool) (a : Attempt) :
    (recovered file inBlock a).failure = none := by
  unfold recovered
  split
  · rfl
  · assumption

/-- No failure gets out of a list of statements. Blocks and documents rely on it: their reading
goes on to the closing brace or to the end. -/
theorem failure_statements (file : Option String) (inBlock : Bool) (statement : Tape → Attempt)
    (rounds : Nat) (tape : Tape) :
    (statements file inBlock statement rounds tape).failure = none := by
  induction rounds generalizing tape with
  | zero => rfl
  | succ n ih =>
    rw [statements, andThen_of_none rfl, failure_behind]
    split
    · rfl
    split
    · split
      · rfl
      · rw [andThen_of_none rfl]
        exact ih _
    · rw [andThen_of_none (failure_recovered _ _ _)]
      exact ih _

/-! ## Phrases -/

/-- A step that the reading of every phrase is made of keeps `J`, the making of nodes apart. A
phrase never fails because nodes nest too deep, and what is skipped stands behind the attempt that
failed. -/
structure PhraseInvariant (file : Option String) (J : Tape → Attempt → Prop) : Prop where
  nothing : ∀ tape, J tape (ofTaken (.nil, tape))
  take : ∀ tag tape, J tape (ofTaken (tape.take tag))
  fail : ∀ {cause} tape, cause ≠ .tooDeep → J tape (fail (tape.failure cause) tape)
  behind : ∀ {tape a b}, J tape a → J a.tape b → J tape (b.behind a.trace)
  recovered : ∀ {inBlock tape a}, J tape a → J tape (recovered file inBlock a)
  hexDigits : ∀ tape, J tape (hexDigits tape)
  foreign : ∀ tape, J tape (foreign tape)

/-- A quoted text keeps what the readings of its placeholders keep. It is a separate condition
since for some properties it holds in the node of a quoted text only. -/
def KeepsQuoted (file : Option String) (J : Tape → Attempt → Prop) : Prop :=
  ∀ {read tape}, (∀ isBraced window, J window (read isBraced window)) →
    J tape (quoted file read tape)

end Attempt

/-- Whether a quoted text is taken apart in the phrase. -/
def Phrase.quotes : Phrase → Bool
  | quoted .. => true
  | andThen first second => first.quotes || second.quotes
  | choose _ yes no | spacedCalls yes no => yes.quotes || no.quotes
  | repeating _ body => body.quotes
  | statements _ statement => statement.quotes
  | empty | take _ | trivia | node _ | expected _ | orphan | hexDigits | foreign => false

/-- Only the construct that is a quoted text takes one apart. -/
theorem Production.quotes_body {p : Production} (h : p.body.quotes = true) : p = .string := by
  cases p <;> first | rfl | cases h

/-- Only it makes a node for one. -/
theorem Production.kind_eq_string {p : Production} (h : p.kind = .string) : p = .string := by
  cases p <;> first | rfl | cases h

namespace Attempt

namespace PhraseInvariant

variable {file : Option String} {J : Tape → Attempt → Prop} (hJ : PhraseInvariant file J)
include hJ

/-- Going on: an attempt that failed stays as it is. -/
theorem next {tape : Tape} {a : Attempt} {next : Tape → Attempt} (ha : J tape a)
    (hn : ∀ tape, J tape (next tape)) : J tape (a.andThen next) := by
  cases hf : a.failure with
  | none =>
    rw [andThen_of_none hf]
    exact hJ.behind ha (hn a.tape)
  | some f =>
    rw [andThen_of_some hf]
    exact ha

theorem takeMany (tag : DataTag) (n : Nat) (tape : Tape) :
    J tape (ofTaken (tape.takeMany tag n)) := by
  induction n generalizing tape with
  | zero => exact hJ.nothing tape
  | succ n ih =>
    rw [ofTaken_takeMany_succ]
    exact hJ.next (hJ.take tag tape) ih

theorem takeTrivia (tape : Tape) : J tape (ofTaken tape.takeTrivia) :=
  hJ.takeMany _ _ tape

theorem repeating {test : List Token → Bool} {body : Tape → Attempt}
    (hb : ∀ tape, J tape (body tape)) (rounds : Nat) (tape : Tape) :
    J tape (repeating test body rounds tape) := by
  induction rounds generalizing tape with
  | zero => exact hJ.nothing tape
  | succ n ih =>
    rw [Attempt.repeating]
    split
    · exact hJ.next (hb tape) ih
    · exact hJ.nothing tape

/-- A brace that closes nothing is skipped like a statement that fails at once. -/
theorem stray (tape : Tape) : J tape (recover file false (tape.failure .strayBrace) tape) :=
  hJ.recovered (hJ.fail tape (by decide))

theorem statements {inBlock : Bool} {statement : Tape → Attempt}
    (hs : ∀ tape, J tape (statement tape)) (rounds : Nat) (tape : Tape) :
    J tape (statements file inBlock statement rounds tape) := by
  induction rounds generalizing tape with
  | zero => exact hJ.takeTrivia tape
  | succ n ih =>
    rw [Attempt.statements]
    apply hJ.next (hJ.takeTrivia tape)
    intro tape
    split
    · exact hJ.nothing tape
    split
    · split
      · exact hJ.nothing tape
      · exact hJ.next (hJ.stray tape) ih
    · exact hJ.next (hJ.recovered (hs tape)) ih

/-- Every phrase keeps what the constructs inside it keep. This is the one induction over phrases;
a property of readings is proved by checking the steps and citing it. -/
theorem phrase {descend : Options → Production → Tape → Attempt}
    (hd : ∀ o : Options, o.file = file → ∀ p tape, J tape (descend o p tape)) (q : Phrase)
    (hq : q.quotes = true → KeepsQuoted file J) (o : Options) (ho : o.file = file) (tape : Tape) :
    J tape (q.read descend o tape) := by
  induction q generalizing o tape with
  | empty => exact hJ.nothing tape
  | take tag => exact hJ.take tag tape
  | trivia => exact hJ.takeTrivia tape
  | node p => exact hd o ho p tape
  | andThen first second ih₁ ih₂ =>
    exact hJ.next (ih₁ (fun h => hq (by simp [Phrase.quotes, h])) o ho tape)
      (ih₂ (fun h => hq (by simp [Phrase.quotes, h])) o ho)
  | choose test yes no ihy ihn =>
    rw [Phrase.read]
    split
    · exact ihy (fun h => hq (by simp [Phrase.quotes, h])) o ho tape
    · exact ihn (fun h => hq (by simp [Phrase.quotes, h])) o ho tape
  | repeating test body ih => exact hJ.repeating (ih hq o ho) _ tape
  | spacedCalls yes no ihy ihn =>
    rw [Phrase.read]
    split
    · exact ihy (fun h => hq (by simp [Phrase.quotes, h])) o ho tape
    · exact ihn (fun h => hq (by simp [Phrase.quotes, h])) o ho tape
  | expected wanted => exact hJ.fail tape (by simp)
  | orphan => exact hJ.fail tape (by simp)
  | statements inBlock statement ih =>
    subst ho
    exact hJ.statements (ih hq o rfl) _ tape
  | quoted named braced ihn ihb =>
    -- Placeholders are read with other options, and from windows. This is why options and tape
    -- vary in the induction, and why quoted texts have a step of their own.
    subst ho
    apply hq rfl
    intro isBraced window
    split
    · exact ihb (fun _ => hq rfl) { o with spacedCalls := false } rfl window
    · exact ihn (fun _ => hq rfl) { o with spacedCalls := false } rfl window
  | hexDigits => exact hJ.hexDigits tape
  | foreign => exact hJ.foreign tape

end PhraseInvariant

/-! ## Constructs -/

/-- A step that every reading is made of keeps `J`. The fields are in the order of the
constructors of `Phrase`, with the two steps of constructs among them. -/
structure Invariant (J : Tape → Attempt → Prop) : Prop where
  nothing : ∀ tape, J tape (ofTaken (.nil, tape))
  take : ∀ tag tape, J tape (ofTaken (tape.take tag))
  fail : ∀ f tape, J tape (fail f tape)
  behind : ∀ {tape a b}, J tape a → J a.tape b → J tape (b.behind a.trace)
  framed : ∀ {file} {p : Production} {tape a}, J tape a →
    J tape (a.framed file p.kind tape.place)
  recover : ∀ file inBlock f tape, J tape (recover file inBlock f tape)
  quoted : ∀ {file read tape}, (∀ isBraced window, J window (read isBraced window)) →
    J tape (quoted file read tape)
  hexDigits : ∀ tape, J tape (hexDigits tape)
  foreign : ∀ tape, J tape (foreign tape)

namespace Invariant

variable {J : Tape → Attempt → Prop} (hJ : Invariant J)
include hJ

theorem recovered {file : Option String} {inBlock : Bool} {tape : Tape} {a : Attempt}
    (ha : J tape a) : J tape (recovered file inBlock a) := by
  unfold Attempt.recovered
  split
  · exact hJ.behind ha (hJ.recover _ _ _ _)
  · exact ha

/-- The steps of a phrase are among those of every reading. -/
theorem ofPhrases (file : Option String) : PhraseInvariant file J where
  nothing := hJ.nothing
  take := hJ.take
  fail tape _ := hJ.fail _ tape
  behind := hJ.behind
  recovered := hJ.recovered
  hexDigits := hJ.hexDigits
  foreign := hJ.foreign

theorem takeTrivia (tape : Tape) : J tape (ofTaken tape.takeTrivia) :=
  (hJ.ofPhrases none).takeTrivia tape

/-- Every phrase keeps what the constructs inside it keep. -/
theorem phrase {descend : Options → Production → Tape → Attempt}
    (hd : ∀ o p tape, J tape (descend o p tape)) (q : Phrase) (o : Options) (tape : Tape) :
    J tape (q.read descend o tape) :=
  (hJ.ofPhrases o.file).phrase (fun o _ => hd o) q (fun _ => hJ.quoted) o rfl tape

theorem enter (p : Production) (o : Options) {inside : Tape → Attempt}
    (hi : ∀ tape, J tape (inside tape)) (tape : Tape) : J tape (p.enter o inside tape) := by
  rw [Production.enter_eq]
  split
  · exact hJ.framed (hi tape)
  · exact (hJ.ofPhrases none).next (hJ.takeTrivia tape) fun tape => hJ.framed (hi tape)

/-- Every construct keeps it, however deep nodes may nest. The induction is on the levels that are
left. -/
theorem read (n : Nat) (o : Options) (p : Production) (tape : Tape) :
    J tape (Production.read n o p tape) := by
  induction n generalizing o p tape with
  | zero => exact hJ.enter p o (fun tape => hJ.fail _ tape) tape
  | succ n ih => exact hJ.enter p o (hJ.phrase ih p.body o) tape

end Invariant

end Attempt

end Heddle
