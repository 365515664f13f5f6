import Mathlib.Data.List.DropRight
import Heddle.Proofs.Reading.Extension

/-!
# Reading with and without calls that have no parentheses

Whether a name, a blank and an argument make a call is up to an option, and two readings of one
source, one with the option and one without it, are compared here. They are the same up to the
first such call. From there on **the reading without the option is doomed**: it has taken the name
alone and stands in front of the argument, and there is nothing in the grammar that takes one
there. No operator, no separator and no closing mark begins an argument, so every rule that a value
can stand in gives up or gets past nothing, until one gives up that has to.

So there are two judgements. `Phrase.Endures` is about the reading without the option alone: what
becomes of it in front of an argument. `Phrase.Parallel` is about both. Each of them comes in two
sorts, for a reading that has failed and for one that is still in front of the argument; only a few
constructs, those that a value can end with, are of the second sort (`Production.endsWithValue`).
-/

set_option autoImplicit false

namespace Heddle

open Lookahead Token

/-- A call without parentheses was begun. -/
def Trace.OpensSpacedCall (t : Trace) : Prop := .start .singleArgumentCall ∈ t.events

/-- The tape is in front of something that can begin an argument, with trivia before it perhaps.
-/
def Tape.AtArgument (tape : Tape) : Prop := significant beginsArgument tape.ahead = true

/-! ## Looks in front of an argument -/

/-- The predicate asks for marks only. All that a rule looks for behind a value is of this form,
and no mark begins an argument. -/
def Token.Marking (P : Token → Bool) : Prop := ∀ t, P t = true → t.kind.isMark = true

theorem Token.marking_isMark (m : Mark) : Marking (isMark m) :=
  fun _ h => kind_of_isMark h ▸ rfl

theorem Token.marking_or {P R : Token → Bool} (hp : Marking P) (hr : Marking R) :
    Marking fun t => P t || R t := fun t h => (Bool.or_eq_true_iff.1 h).elim (hp t) (hr t)

theorem Token.marking_any (ms : List Mark) : Marking fun t => ms.any t.isMark := by
  intro t h
  obtain ⟨m, -, hm⟩ := List.any_eq_true.1 h
  exact marking_isMark m t hm

namespace Tape.AtArgument

variable {tape : Tape} {P : Token → Bool}

/-- No mark begins an argument, and none is trivia. -/
theorem not_next (hp : Marking P) (h : tape.AtArgument) : next P tape.ahead = false := by
  rw [AtArgument, ← next_dropWhile] at h
  cases ha : tape.ahead with
  | nil => rfl
  | cons t ts =>
    refine Bool.eq_false_iff.2 fun hP => ?_
    have hm : t.kind.isMark = true := hp t hP
    have ht : t.isTrivia = false := by
      rw [isTrivia]
      cases hk : t.kind <;> simp_all [TokenKind.isMark, TokenKind.isTrivia]
    rw [ha, List.dropWhile_cons, if_neg (by simp [ht])] at h
    replace h : t.beginsArgument = true := h
    rw [beginsArgument, hm] at h
    cases h

theorem takeTrivia (h : tape.AtArgument) : tape.takeTrivia.2.AtArgument := by
  rw [AtArgument, ← next_dropWhile] at h ⊢
  rw [ahead_takeTrivia]
  exact (congrArg (next beginsArgument) (List.dropWhile_idempotent isTrivia tape.ahead)).trans h

theorem not_significant (hp : Marking P) (h : tape.AtArgument) :
    significant P tape.ahead = false := by
  rw [← next_dropWhile]
  have hn := h.takeTrivia.not_next hp
  rwa [ahead_takeTrivia] at hn

end Tape.AtArgument

/-! ## Attempts -/

namespace Attempt

/-- The first attempt has begun a call. The second one is in error, or, if it is `open`, still in
front of the argument. An attempt that reported an error or failed need not be in front of
anything. -/
def Forks (isOpen : Bool) (a a' : Attempt) : Prop :=
  a.trace.OpensSpacedCall ∧ (a'.Clean → isOpen = true ∧ a'.tape.AtArgument)

/-- Both attempts are the same up to the first call without parentheses. -/
def Parallel (isOpen : Bool) (a a' : Attempt) : Prop := a = a' ∨ Forks isOpen a a'

/-- In front of an argument the reader fails, or, if it is `open`, gets past nothing. -/
def Endures (isOpen : Bool) (read : Tape → Attempt) : Prop :=
  ∀ tape : Tape, tape.AtArgument → (read tape).Clean →
    isOpen = true ∧ (read tape).tape.AtArgument

theorem opens_append {t u : Trace} (h : t.OpensSpacedCall ∨ u.OpensSpacedCall) :
    (t ++ u).OpensSpacedCall := by
  rw [Trace.OpensSpacedCall, Trace.events_append]
  exact List.mem_append.2 h

theorem opens_framed {a : Attempt} (file : Option String) (kind : NodeKind) (start : Position)
    (h : a.trace.OpensSpacedCall ∨ kind = .singleArgumentCall) :
    (a.framed file kind start).trace.OpensSpacedCall := by
  have hnode (inside : Trace) (committed : Bool)
      (hi : inside.OpensSpacedCall ∨ kind = .singleArgumentCall) :
      (Trace.ofNode kind inside committed).OpensSpacedCall := by
    rw [Trace.OpensSpacedCall, Trace.ofNode, Trace.events]
    rcases hi with hi | rfl
    · exact List.mem_append_left _ (List.mem_cons_of_mem _ (List.mem_append_left _ hi))
    · exact List.mem_append_left _ List.mem_cons_self
  unfold framed
  split
  · exact hnode _ _ h
  · exact hnode _ _ (h.imp_left fun h => opens_append (.inl h))

theorem opens_andThen {a : Attempt} (h : a.trace.OpensSpacedCall) (next : Tape → Attempt) :
    (a.andThen next).trace.OpensSpacedCall := by
  unfold andThen
  split
  · exact h
  · exact opens_append (.inl h)

namespace Parallel

variable {isOpen isOpen₁ : Bool} {a a' : Attempt}

theorem refl (a : Attempt) : Parallel isOpen a a := .inl rfl

theorem behind (h : Parallel isOpen a a') (lead : Trace) :
    Parallel isOpen (a.behind lead) (a'.behind lead) := by
  rcases h with rfl | ⟨ho, hc⟩
  · exact .inl rfl
  · exact .inr ⟨opens_append (.inr ho), fun h => hc h.of_behind⟩

/-- Behind two attempts of which the second one is still in front of the argument, it has to
endure it. -/
theorem andThen {next next' : Tape → Attempt} (h₁ : Parallel isOpen₁ a a')
    (h₂ : ∀ tape, Parallel isOpen (next tape) (next' tape))
    (he : isOpen₁ = true → Endures isOpen next') :
    Parallel isOpen (a.andThen next) (a'.andThen next') := by
  rcases h₁ with rfl | ⟨ho, hc⟩
  · cases hf : a.failure with
    | some f => exact .inl (by rw [andThen_of_some hf, andThen_of_some hf])
    | none =>
      rw [andThen_of_none hf, andThen_of_none hf]
      exact (h₂ a.tape).behind a.trace
  · refine .inr ⟨opens_andThen ho next, fun h => ?_⟩
    obtain ⟨hc₁, hc₂, heq⟩ := h.of_andThen
    obtain ⟨hopen, hat⟩ := hc hc₁
    rw [heq]
    exact he hopen _ hat hc₂

/-- Behind the same attempt. -/
theorem after (a : Attempt) {next next' : Tape → Attempt}
    (h : ∀ tape, Parallel isOpen (next tape) (next' tape)) :
    Parallel isOpen (a.andThen next) (a.andThen next') := by
  have hsame : Parallel false a a := refl a
  exact hsame.andThen h nofun

theorem framed (h : Parallel isOpen a a') (file : Option String) (kind : NodeKind)
    (start : Position) :
    Parallel isOpen (a.framed file kind start) (a'.framed file kind start) := by
  rcases h with rfl | ⟨ho, hc⟩
  · exact .inl rfl
  · refine .inr ⟨opens_framed _ _ _ (.inl ho), fun h => ?_⟩
    rw [tape_framed]
    exact hc h.of_framed

theorem repeating {test : List Token → Bool} {body body' : Tape → Attempt}
    (hb : ∀ tape, Parallel isOpen₁ (body tape) (body' tape)) (hw : isOpen₁ = true → isOpen = true)
    (ht : isOpen₁ = true → ∀ tape : Tape, tape.AtArgument → test tape.ahead = false)
    (rounds : Nat) (tape : Tape) :
    Parallel isOpen (repeating test body rounds tape) (repeating test body' rounds tape) := by
  induction rounds generalizing tape with
  | zero => exact .refl _
  | succ n ih =>
    rw [Attempt.repeating, Attempt.repeating]
    split
    · refine (hb tape).andThen ih fun hopen tape hat _ => ?_
      -- In front of an argument there is no further round.
      have hdone : Attempt.repeating test body' n tape = ofTaken (.nil, tape) := by
        cases n with
        | zero => rfl
        | succ n => rw [Attempt.repeating, ht hopen tape hat, if_neg (by simp)]
      rw [hdone]
      exact ⟨hw hopen, hat⟩
    · exact .refl _

/-- A statement that failed makes an error, so nothing has to endure it. -/
theorem recovered (h : Parallel false a a') (file : Option String) (inBlock : Bool) :
    Parallel false (recovered file inBlock a) (recovered file inBlock a') := by
  rcases h with rfl | ⟨ho, hc⟩
  · exact .inl rfl
  · refine .inr ⟨?_, fun h => ?_⟩
    · unfold Attempt.recovered
      split
      · exact opens_append (.inl ho)
      · exact ho
    · cases (hc h.of_recovered.1).1

theorem statements {file : Option String} {inBlock : Bool} {statement statement' : Tape → Attempt}
    (hs : ∀ tape, Parallel false (statement tape) (statement' tape)) (rounds : Nat) (tape : Tape) :
    Parallel isOpen (statements file inBlock statement rounds tape)
      (statements file inBlock statement' rounds tape) := by
  induction rounds generalizing tape with
  | zero => exact .refl _
  | succ n ih =>
    rw [Attempt.statements, Attempt.statements]
    refine after _ fun tape => ?_
    split
    · exact .refl _
    split
    · split
      · exact .refl _
      · exact after _ ih
    · exact ((hs tape).recovered file inBlock).andThen ih fun h => absurd h Bool.false_ne_true

end Parallel

end Attempt

/-! ## Phrases -/

/-- The constructs that can end with a value. -/
def Production.endsWithValue : Production → Bool
  | expression | unary | argument | valuePath | singleArgumentCall => true
  | _ => false

namespace Attempt

/-- What is known of the constructs inside a phrase. Blocks are named because a block may stand
behind a value, and has to fail in front of an argument. -/
structure Diverging (file : Option String) (descend : Options → Production → Tape → Attempt) :
    Prop where
  parallel : ∀ p tape, Parallel p.endsWithValue (descend ⟨file, true⟩ p tape)
    (descend ⟨file, false⟩ p tape)
  block : Endures false (descend ⟨file, false⟩ .block)
  call : ∀ tape, (descend ⟨file, true⟩ .singleArgumentCall tape).trace.OpensSpacedCall

end Attempt

namespace Phrase

open Attempt (Diverging)

variable {file : Option String} {descend : Options → Production → Tape → Attempt}

/-- In front of an argument, and without calls that have no parentheses, the phrase fails, or, if
it is open, gets past nothing. -/
def Endures (file : Option String) (descend : Options → Production → Tape → Attempt)
    (isOpen : Bool) (q : Phrase) : Prop := Attempt.Endures isOpen (q.read descend ⟨file, false⟩)

/-- With and without calls that have no parentheses the phrase is read alike up to the first. -/
def Parallel (file : Option String) (descend : Options → Production → Tape → Attempt)
    (isOpen : Bool) (q : Phrase) : Prop :=
  ∀ tape, Attempt.Parallel isOpen (q.read descend ⟨file, true⟩ tape)
    (q.read descend ⟨file, false⟩ tape)

namespace Endures

variable {isOpen : Bool} {q r : Phrase}

theorem trivia : Endures file descend true trivia := fun _ h _ => ⟨rfl, h.takeTrivia⟩

theorem expected (wanted : Wanted) : Endures file descend isOpen (expected wanted) :=
  fun _ _ hc => nomatch hc.succeeds

theorem block (hd : Diverging file descend) : Endures file descend false (.node .block) := hd.block

/-- What fails in front of an argument is not gone on behind. -/
theorem fails (h : Endures file descend false q) :
    Endures file descend isOpen (.andThen q r) := by
  intro tape hat hc
  cases (h tape hat hc.of_andThen.1).1

theorem andThen (h₁ : Endures file descend true q) (h₂ : Endures file descend isOpen r) :
    Endures file descend isOpen (.andThen q r) := by
  intro tape hat hc
  obtain ⟨hc₁, hc₂, he⟩ := hc.of_andThen
  rw [Phrase.read, he]
  exact h₂ _ (h₁ tape hat hc₁).2 hc₂

theorem otherwise {test : Lookahead} {yes no : Phrase}
    (ht : ∀ tape : Tape, tape.AtArgument → test tape.ahead = false)
    (hn : Endures file descend isOpen no) : Endures file descend isOpen (.choose test yes no) := by
  intro tape hat hc
  rw [Phrase.read, ht tape hat, if_neg Bool.false_ne_true] at hc ⊢
  exact hn tape hat hc

theorem repeating {test : Lookahead} {body : Phrase}
    (ht : ∀ tape : Tape, tape.AtArgument → test tape.ahead = false) :
    Endures file descend true (.repeating test body) := by
  intro tape hat _
  have hdone (rounds : Nat) : Attempt.repeating test (body.read descend ⟨file, false⟩) rounds tape =
      .ofTaken (.nil, tape) := by
    cases rounds with
    | zero => rfl
    | succ n => rw [Attempt.repeating, ht tape hat, if_neg Bool.false_ne_true]
  rw [Phrase.read, hdone]
  exact ⟨rfl, hat⟩

/-- A mark that has to be there is not. -/
theorem mark (m : Mark) : Endures file descend false (mark m) :=
  andThen trivia (otherwise (fun _ h => h.not_next (marking_isMark m)) (expected _))

theorem terminator : Endures file descend false terminator :=
  otherwise (fun _ h => h.not_significant (marking_isMark _)) (mark _)

theorem further (separator : Mark) (tag : DataTag) (element : Phrase) :
    Endures file descend true (further separator tag element) :=
  repeating fun _ h => h.not_significant (marking_isMark separator)

end Endures

/-- Whether nothing in the phrase can end with a value, so that all of it is settled by the
constructs. A phrase of this form is the same for both readings or in error for the second. -/
def isClosed : Phrase → Bool
  | node p => !p.endsWithValue
  | andThen first second => first.isClosed && second.isClosed
  | choose _ yes no => yes.isClosed && no.isClosed
  | repeating _ body => body.isClosed
  | statements _ statement => statement.isClosed
  | spacedCalls .. => false
  | empty | take _ | trivia | expected _ | orphan | quoted .. | hexDigits | foreign => true

/-- Whether a value can stand at the end of the phrase, and nowhere else in it. -/
def endsOpen : Phrase → Bool
  | node _ => true
  | andThen first second => first.isClosed && second.endsOpen
  | choose _ yes no => yes.endsOpen && no.endsOpen
  | q => q.isClosed

namespace Parallel

variable {isOpen isOpen₁ : Bool} {q r : Phrase}

theorem toOpen (h : Parallel file descend isOpen q) : Parallel file descend true q :=
  fun tape => (h tape).imp_right fun ⟨ho, hc⟩ => ⟨ho, fun h => ⟨rfl, (hc h).2⟩⟩

/-- Without calls in them, both readings are the same. -/
theorem same (h : ∀ tape, q.read descend ⟨file, true⟩ tape = q.read descend ⟨file, false⟩ tape) :
    Parallel file descend isOpen q := fun tape => .inl (h tape)

theorem node (hd : Diverging file descend) (p : Production) :
    Parallel file descend p.endsWithValue (.node p) := hd.parallel p

theorem andThen (h₁ : Parallel file descend isOpen₁ q) (h₂ : Parallel file descend isOpen r)
    (he : isOpen₁ = true → Endures file descend isOpen r) :
    Parallel file descend isOpen (.andThen q r) :=
  fun tape => (h₁ tape).andThen h₂ he

theorem choose {test : Lookahead} {yes no : Phrase} (hy : Parallel file descend isOpen yes)
    (hn : Parallel file descend isOpen no) :
    Parallel file descend isOpen (.choose test yes no) := by
  intro tape
  rw [Phrase.read, Phrase.read]
  split
  · exact hy tape
  · exact hn tape

theorem repeating {test : Lookahead} {body : Phrase} (hb : Parallel file descend isOpen body)
    (ht : isOpen = true → ∀ tape : Tape, tape.AtArgument → test tape.ahead = false) :
    Parallel file descend isOpen (.repeating test body) :=
  fun tape => .repeating hb id ht _ tape

/-- Where nothing ends with a value, nothing is in front of an argument. -/
theorem closed (hd : Diverging file descend) (hq : q.isClosed = true) :
    Parallel file descend false q := by
  induction q with
  | node p =>
    have hp := node hd p
    rwa [show p.endsWithValue = false by simpa [isClosed] using hq] at hp
  | andThen first second ih₁ ih₂ =>
    obtain ⟨h₁, h₂⟩ := Bool.and_eq_true_iff.1 hq
    exact andThen (ih₁ h₁) (ih₂ h₂) nofun
  | choose test yes no ihy ihn =>
    obtain ⟨hy, hn⟩ := Bool.and_eq_true_iff.1 hq
    exact choose (ihy hy) (ihn hn)
  | repeating test body ih => exact repeating (ih hq) nofun
  | statements inBlock statement ih => exact fun tape => .statements (ih hq) _ tape
  | spacedCalls => cases hq
  | _ => exact same fun _ => rfl

theorem behind (hd : Diverging file descend) (hq : q.isClosed = true)
    (hr : Parallel file descend isOpen r) : Parallel file descend isOpen (.andThen q r) :=
  (closed hd hq).andThen hr nofun

/-- Behind a value at the end, nothing has to endure it. -/
theorem ends (hd : Diverging file descend) (hq : q.endsOpen = true) :
    Parallel file descend true q := by
  induction q with
  | node p => exact (node hd p).toOpen
  | andThen first second _ ih =>
    obtain ⟨h₁, h₂⟩ := Bool.and_eq_true_iff.1 hq
    exact behind hd h₁ (ih h₂)
  | choose test yes no ihy ihn =>
    obtain ⟨hy, hn⟩ := Bool.and_eq_true_iff.1 hq
    exact choose (ihy hy) (ihn hn)
  | _ => exact (closed hd hq).toOpen

/-- A value, and something behind it that fails in front of an argument. Most rules with a value
in them are of this form. -/
theorem value (hd : Diverging file descend) (hq : q.endsOpen = true)
    (hr : Parallel file descend false r) (he : Endures file descend false r) :
    Parallel file descend false (.andThen q r) := (ends hd hq).andThen hr fun _ => he

theorem commaSeparated (hd : Diverging file descend) (hq : q.endsOpen = true) :
    Parallel file descend true (commaSeparated q) :=
  (ends hd hq).andThen (repeating (ends hd (by exact hq)) fun _ _ h =>
    h.not_significant (marking_isMark _)) fun _ => .further _ _ _

theorem listUpTo (hd : Diverging file descend) (closing : Mark) (hq : q.endsOpen = true) :
    Parallel file descend false (listUpTo closing q) :=
  choose (closed hd rfl) ((commaSeparated hd hq).andThen (closed hd rfl) fun _ => .mark closing)

end Parallel

/-! ## The rules of the language -/

section rules

variable (hd : Diverging file descend)
include hd

theorem parallel_operation : Parallel file descend true operation := by
  have hm : Marking fun t => t.isOperator || t.isComparator :=
    marking_or (marking_any _) (marking_any _)
  refine (Parallel.ends hd rfl).andThen (.repeating (.ends hd rfl) ?_) fun _ => .repeating ?_
  · exact fun _ _ h => h.not_significant hm
  · exact fun _ h => h.not_significant hm

theorem parallel_arguments : Parallel file descend false arguments :=
  .behind hd rfl (.listUpTo hd _ rfl)

theorem parallel_condition : Parallel file descend false condition :=
  .behind hd rfl (.value hd rfl (.closed hd rfl) (.mark _))

/-- **Here the readings part**: one begins a call, and the other takes the name alone, behind which
it stands in front of the argument. -/
theorem parallel_segment (tag : DataTag) : Parallel file descend true (segment tag) := by
  refine .choose (Parallel.closed hd rfl).toOpen fun tape => ?_
  cases hs : isSpacedCall tape.ahead with
  | false =>
    refine .inl ?_
    simp only [List.foldr_cons, List.foldr_nil, Phrase.read, hs, Bool.false_eq_true, if_false]
  | true =>
    simp only [List.foldr_cons, List.foldr_nil, Phrase.read, hs, Bool.false_eq_true, if_true,
      if_false]
    refine .inr ⟨hd.call tape, fun _ => ⟨rfl, ?_⟩⟩
    obtain ⟨t, u, ts, ha, -, hblank, harg⟩ := exists_of_isSpacedCall hs
    -- The blank behind the name is trivia, so what begins the argument is significant.
    have hu : u.isTrivia = true := by
      rw [isTrivia, hblank]
      rfl
    rw [Attempt.tape_ofTaken, Tape.AtArgument, Tape.ahead_take, ha]
    simpa [significant, hu] using harg

end rules

end Phrase

open Phrase in
/-- **Every rule but those of the constructs that end with a value fails in front of an
argument**. -/
theorem Production.parallel_body {file : Option String}
    {descend : Options → Production → Tape → Attempt} (hd : Attempt.Diverging file descend)
    (p : Production) : Parallel file descend p.endsWithValue p.body := by
  -- A value and the mark that closes the construct.
  have hclosed (m : Mark) : Parallel file descend false (.andThen (.node .expression) (mark m)) :=
    .value hd rfl (.closed hd rfl) (.mark m)
  -- The constructs with a value in them, each with what stands behind the value. In all others no
  -- value is at the end of anything, and they are closed.
  cases p
  case assignment =>
    refine .value hd rfl (.behind hd rfl (.value hd rfl (.closed hd rfl) .terminator)) ?_
    refine .fails (.otherwise (fun _ h => ?_) (.expected _))
    exact h.not_significant (marking_or (marking_isMark _) (marking_isMark _))
  case declaration =>
    exact .behind hd rfl (.behind hd rfl (.behind hd rfl
      (.value hd rfl (.closed hd rfl) (.mark _))))
  case ifStatement =>
    exact .behind hd rfl ((parallel_condition hd).andThen (.closed hd rfl) nofun)
  case switchStatement =>
    exact .behind hd rfl ((parallel_condition hd).andThen (.closed hd rfl) nofun)
  case caseBranch =>
    exact .behind hd rfl ((Parallel.commaSeparated hd rfl).andThen (.closed hd rfl)
      fun _ => .block hd)
  case loopStatement =>
    have hcondition : Parallel file descend false
        (.choose (significant (isMark .leftParen)) condition empty) :=
      .choose (parallel_condition hd) (.closed hd rfl)
    exact .behind hd rfl (hcondition.andThen (.closed hd rfl) nofun)
  case forStatement =>
    exact .behind hd rfl (.behind hd rfl (.behind hd rfl (.behind hd rfl
      (.value hd rfl (.closed hd rfl) (.fails (.mark _))))))
  case returnStatement =>
    exact .behind hd rfl (.value hd rfl (.closed hd rfl) .terminator)
  case needs =>
    exact .behind hd rfl (.behind hd rfl (.value hd rfl (.closed hd rfl) (.mark _)))
  case selectorCall =>
    exact .behind hd rfl (.behind hd rfl (.behind hd rfl
      ((parallel_arguments hd).andThen (.closed hd rfl) nofun)))
  case flag =>
    exact .behind hd rfl (.behind hd rfl (.choose (parallel_arguments hd) (.closed hd rfl)))
  case filter => exact .behind hd rfl (hclosed _)
  case expression => exact parallel_operation hd
  case expressionStatement =>
    exact (parallel_operation hd).andThen (.closed hd rfl) fun _ => .mark _
  case parenthesized => exact .behind hd rfl (hclosed _)
  case array => exact .behind hd rfl (.listUpTo hd _ rfl)
  case newObject =>
    exact .behind hd rfl (.behind hd rfl (.choose (parallel_arguments hd) (.closed hd rfl)))
  case builtinCall => exact .behind hd rfl (.behind hd rfl (parallel_arguments hd))
  case functionCall => exact .behind hd rfl (parallel_arguments hd)
  case indexAccessor => exact .behind hd rfl (hclosed _)
  case unary => exact .ends hd rfl
  case argument => exact .ends hd rfl
  case singleArgumentCall => exact .ends hd rfl
  case valuePath =>
    have hstep : ∀ tape : Tape, tape.AtArgument → (pair (isMark .dot) isName tape.ahead ||
        next (isMark .leftBracket) tape.ahead) = false := by
      intro tape h
      refine Bool.or_eq_false_iff.2
        ⟨Bool.eq_false_iff.2 fun hp => ?_, h.not_next (marking_isMark _)⟩
      cases (next_of_pair hp).symm.trans (h.not_next (marking_isMark _))
    have hhead : Parallel file descend true
        (.choose isObject (.node .objectSelector) (segment .varName)) :=
      .choose (Parallel.closed hd rfl).toOpen (parallel_segment hd _)
    refine hhead.andThen ?_ fun _ => .repeating hstep
    refine .repeating (.choose ?_ (Parallel.closed hd rfl).toOpen) fun _ => hstep
    exact .behind hd rfl (parallel_segment hd _)
  all_goals exact .closed hd rfl

/-! ## Constructs -/

namespace Attempt

theorem parallel_enter (p : Production) (file : Option String) {isOpen : Bool}
    {inside inside' : Tape → Attempt} (hi : ∀ tape, Parallel isOpen (inside tape) (inside' tape))
    (tape : Tape) :
    Parallel isOpen (p.enter ⟨file, true⟩ inside tape) (p.enter ⟨file, false⟩ inside' tape) := by
  rw [Production.enter_eq, Production.enter_eq]
  split
  · exact (hi tape).framed _ _ _
  · exact .after _ fun tape => (hi tape).framed _ _ _

theorem endures_enter {p : Production} (hp : p.keepsTrivia = false) (o : Options)
    {inside : Tape → Attempt} (hi : Endures false inside) :
    Endures false (p.enter o inside) := by
  intro tape hat hc
  rw [Production.enter_eq, hp, if_neg Bool.false_ne_true] at hc
  exact nomatch (hi _ hat.takeTrivia hc.of_andThen.2.1.of_framed).1

theorem opens_enter (o : Options) (inside : Tape → Attempt) (tape : Tape) :
    (Production.singleArgumentCall.enter o inside tape).trace.OpensSpacedCall :=
  opens_append (.inr (opens_framed _ _ _ (.inr rfl)))

/-- **With and without calls that have no parentheses, every construct is read alike up to the
first such call, and is in error from there on without them.** `Document.SpacedCalls` compares
whole sources by it. -/
theorem diverging (file : Option String) (n : Nat) : Diverging file (Production.read n) := by
  induction n with
  | zero =>
    exact ⟨fun p tape => parallel_enter p file (fun _ => .refl _) tape,
      endures_enter rfl _ fun _ _ hc => (nomatch hc.succeeds), opens_enter _ _⟩
  | succ n ih =>
    refine ⟨fun p tape => parallel_enter p file (p.parallel_body ih) tape,
      endures_enter rfl _ ?_, opens_enter _ _⟩
    exact Phrase.Endures.fails (.mark .leftBrace)

end Attempt

end Heddle
