import Heddle.Proofs.Grammar.Balanced
import Heddle.Proofs.Reading.Leaves
import Heddle.Proofs.Reading.Spelled
import Heddle.Proofs.Token.Kinds

/-!
# What combines two selectors

Two constructs become the node that combines two selectors: a sign, and the trivia that stands for
a descendant. Both take what is ahead without a look, so what they leave behind is up to the look
ahead of the chain around them. `Phrase.Joins` carries it from the choice to the construct, and
**no rule begins one of the two where it has not been seen** (`Production.joins_body`).

A property of readings that rests on this does not have to go through the phrases once more.
Constructs that were not seen may as well come to nothing (`Phrase.read_joining`), and then the
property is one that every phrase keeps.
-/

set_option autoImplicit false

namespace Heddle

open Lookahead Token Text

/-! ## What is left of a combination -/

/-- A piece of the trivia between two selectors: a run of blanks combines them, a comment is just
a comment. -/
inductive Element.Separates : Element → Prop where
  | blanks (run : Run isBlank) : Separates (.data .combinator (String.ofList run.chars))
  | lineComment {cs : List Char} (h : '\n' ∉ cs) :
      Separates (.data .comment (String.ofList ('/' :: '/' :: cs)))
  | blockComment {body : List Char} (h : ¬ ['*', '/'] <:+: body ++ ['*']) :
      Separates (.data .comment (String.ofList ('/' :: '*' :: (body ++ ['*', '/']))))

/-- What combines two selectors: one sign, or trivia and nothing else. In the second case there
may be comments only, and then nothing in the node says that it combines. -/
inductive Forest.Combines : Forest → Prop where
  | sign {m : Mark} (hm : m ∈ [Mark.greater, .plus, .tilde]) :
      Combines (.ofData .combinator m.spelling)
  | gap {f : Forest} (hn : f ≠ .nil) (hs : ∀ e ∈ f.toList, e.Separates) : Combines f

/-- Trivia that is taken as a combinator. -/
theorem Element.separates_of_isTrivia {p : Position} {cs : List Char} {t : Token}
    (ht : t ∈ Token.readAll p cs) (h : t.isTrivia = true) :
    (Element.data (t.kind.role .combinator) t.text).Separates := by
  obtain ⟨q, c, rest, rfl⟩ := exists_scan_of_mem ht
  have hd := Lexeme.described_scan false q c rest
  generalize Lexeme.scan false q c rest = l at *
  obtain ⟨kind, text, rest⟩ := l
  change TokenKind.isTrivia kind = true at h
  change TokenKind.Describes false text rest kind at hd
  change (Element.data (kind.role .combinator) (String.ofList text)).Separates
  cases kind with
  | blank =>
    obtain ⟨⟨run, rfl⟩, -⟩ := hd
    exact .blanks run
  | lineComment =>
    obtain ⟨cs, rfl, hcs, -⟩ := hd
    exact .lineComment hcs
  | blockComment =>
    obtain ⟨body, rfl, hbody⟩ := hd
    exact .blockComment hbody
  | _ => cases h

/-! ## The look ahead in front of a joint -/

/-- The constructs that combine two selectors. -/
def Production.isJoint : Production → Bool
  | combinator | descendant => true
  | _ => false

theorem Production.isJoint_iff (p : Production) : p.isJoint = true ↔ p.kind = .combinator := by
  cases p <;> decide

/-- The construct is no joint, or it has been seen. -/
def Production.mayJoin (p : Production) (ts : List Token) : Bool :=
  !p.isJoint || p.opening (p.front ts)

/-- In front of tokens that `given` has seen, no joint of the phrase is begun without a look. As
with `Balanced`, what was seen is handed to the first of two phrases only. -/
def Phrase.Joins : Lookahead → Phrase → Prop
  | given, node p => ∀ ts, given ts = true → p.mayJoin ts = true
  | given, andThen first second => first.Joins given ∧ second.Joins unseen
  | given, choose test yes no =>
    yes.Joins (fun ts => given ts && test ts) ∧ no.Joins (fun ts => given ts && !test ts)
  | _, repeating test body => body.Joins test
  | given, spacedCalls yes no => yes.Joins given ∧ no.Joins given
  | _, statements _ statement => statement.Joins unseen
  | _, quoted named braced => named.Joins unseen ∧ braced.Joins unseen
  | _, empty | _, take _ | _, trivia | _, expected _ | _, orphan | _, hexDigits | _, foreign => True

namespace Phrase

/-- Whether there is no joint in the phrase. -/
def isJointless : Phrase → Bool
  | node p => !p.isJoint
  | andThen first second => first.isJointless && second.isJointless
  | choose _ yes no | spacedCalls yes no => yes.isJointless && no.isJointless
  | repeating _ body => body.isJointless
  | statements _ statement => statement.isJointless
  | quoted named braced => named.isJointless && braced.isJointless
  | empty | take _ | trivia | expected _ | orphan | hexDigits | foreign => true

/-- Nothing has to be seen of the other constructs. -/
theorem joins_of_isJointless {q : Phrase} (h : q.isJointless = true) {given : Lookahead} :
    q.Joins given := by
  induction q generalizing given with
  | node p => exact fun ts _ => Bool.or_eq_true_iff.2 (.inl h)
  | andThen _ _ ih₁ ih₂ | choose _ _ _ ih₁ ih₂ | spacedCalls _ _ ih₁ ih₂ | quoted _ _ ih₁ ih₂ =>
    obtain ⟨h₁, h₂⟩ := Bool.and_eq_true_iff.1 h
    exact ⟨ih₁ h₁, ih₂ h₂⟩
  | repeating _ _ ih | statements _ _ ih => exact ih h
  | empty | take | trivia | expected | orphan | hexDigits | foreign => trivial

end Phrase

/-- **A joint is begun only where it has been seen**: a chain looks for one of the two and then
tells them apart. -/
theorem Production.joins_body (p : Production) : p.body.Joins Phrase.unseen := by
  by_cases hp : p = .selectorChain
  · subst hp
    refine ⟨fun ts _ => rfl, ⟨fun ts h => ?_, fun ts h => ?_⟩, fun ts _ => rfl⟩
    · obtain ⟨-, hd⟩ := Bool.and_eq_true_iff.1 h
      exact (Bool.and_eq_true_iff.1 hd).1
    · exact (next_dropWhile _ ts).trans (right_of_not_left h)
  · exact Phrase.joins_of_isJointless (by cases p <;> first | rfl | exact absurd rfl hp)

/-! ## Joints that were not seen -/

namespace Attempt

/-- A loop depends on its body only where it looks for it. -/
theorem repeating_congr {test : Lookahead} {body body' : Tape → Attempt}
    (h : ∀ tape, test tape.ahead = true → body tape = body' tape) (rounds : Nat) (tape : Tape) :
    repeating test body rounds tape = repeating test body' rounds tape := by
  induction rounds generalizing tape with
  | zero => rfl
  | succ n ih =>
    rw [repeating, repeating, funext ih]
    split <;> rename_i ht
    · rw [h tape ht]
    · rfl

end Attempt

namespace Phrase

variable {descend : Options → Production → Tape → Attempt}

/-- The constructs as `descend` reads them, but a joint that was not seen comes to nothing. It is
a reader made for the proof: no rule tells it from `descend`, and of it the property holds without
conditions. -/
def joining (descend : Options → Production → Tape → Attempt) (o : Options) (p : Production)
    (tape : Tape) : Attempt :=
  if p.mayJoin tape.ahead then descend o p tape else .ofTaken (.nil, tape)

/-- **Where no joint is begun without a look, it makes no difference what becomes of one.** A
property of readings that is shown of the second reading, where nothing comes of a joint that was
not seen, holds of the first one too. -/
theorem read_joining {q : Phrase} {given : Lookahead} (hq : q.Joins given) (o : Options)
    {tape : Tape} (hg : given tape.ahead = true) :
    q.read descend o tape = q.read (joining descend) o tape := by
  induction q generalizing given o tape with
  | node p => exact (if_pos (hq _ hg)).symm
  | andThen first second ih₁ ih₂ =>
    have hsecond : second.read descend o = second.read (joining descend) o :=
      funext fun tape => ih₂ hq.2 o rfl
    rw [read, read, ih₁ hq.1 o hg, hsecond]
  | choose test yes no ihy ihn =>
    rw [read, read]
    split <;> rename_i ht
    · exact ihy hq.1 o (by simp [hg, ht])
    · exact ihn hq.2 o (by simp [hg, ht])
  | repeating test body ih => exact Attempt.repeating_congr (fun _ ht => ih hq o ht) _ tape
  | spacedCalls yes no ihy ihn =>
    rw [read, read]
    split
    · exact ihy hq.1 o hg
    · exact ihn hq.2 o hg
  -- A statement is read for every tape, so here the two readers are the same function.
  | statements inBlock statement ih =>
    have hstatement : statement.read descend o = statement.read (joining descend) o :=
      funext fun tape => ih hq o rfl
    rw [read, read, hstatement]
  | quoted named braced ihn ihb =>
    refine Attempt.quoted_congr fun isBraced window _ => ?_
    split
    · exact ihb hq.2 _ rfl
    · exact ihn hq.1 _ rfl
  | empty | take | trivia | expected | orphan | hexDigits | foreign => rfl

end Phrase

/-! ## What readings combine -/

/-- Every combinator that the trace leaves behind is one sign or trivia. -/
def Trace.Joined (t : Trace) : Prop := ∀ n ∈ t.forest.findAll .combinator, n.children.Combines

namespace Attempt

/-- The reading takes its tokens off the tape, and every combinator it leaves behind is one sign or
trivia. -/
def Joins (tape : Tape) (a : Attempt) : Prop := tape.Lexed → Conserves tape a ∧ a.trace.Joined

/-- The steps of a phrase combine nothing. -/
theorem joins_steps (file : Option String) : PhraseInvariant file Joins :=
  leaves_steps Tape.domain_lexed (by decide) file

/-! ## Joints -/

/-- A sign that was seen. -/
theorem combines_combinator {tape : Tape} (h : tape.Lexed)
    (hg : next isCombinator tape.ahead = true) :
    (tape.take .combinator).1.forest.Combines := by
  obtain ⟨t, rest, ha, ht⟩ := exists_of_next hg
  obtain ⟨m, hm, hmark⟩ := List.any_eq_true.1 ht
  have hk := kind_of_isMark hmark
  have hrole : t.kind.role .combinator = .combinator := by rw [hk]; rfl
  rw [Tape.take_of_cons _ ha, hrole, h.isSpelled ha m hk]
  exact .sign hm

/-- One piece of trivia. -/
theorem separates_take {tape : Tape} (h : tape.Lexed) (hg : next Token.isTrivia tape.ahead = true) :
    ∃ e, (tape.take .combinator).1.forest.toList = [e] ∧ e.Separates := by
  obtain ⟨t, rest, ha, ht⟩ := exists_of_next hg
  have hmem : t ∈ Token.readAll tape.place tape.text := by
    rw [← h.ahead, ha]
    exact List.mem_cons_self
  rw [Tape.take_of_cons _ ha]
  exact ⟨_, rfl, Element.separates_of_isTrivia hmem ht⟩

/-- Trivia that was seen, all of it. -/
theorem combines_descendant (descend : Options → Production → Tape → Attempt) (o : Options)
    {tape : Tape} (h : tape.Lexed) (hg : next Token.isTrivia tape.ahead = true) :
    (Production.descendant.body.read descend o tape).trace.forest.Combines := by
  have hloop {tape : Tape} (h : tape.Lexed) : ∀ e ∈ (repeating (next Token.isTrivia)
      (fun tape => ofTaken (tape.take .combinator)) tape.size tape).trace.forest.toList,
      e.Separates := by
    refine repeating_rule (P := fun _ a => ∀ e ∈ a.trace.forest.toList, e.Separates) rfl
      (fun _ => .take _) (fun _ => Progress.take _) ?_ ?_ ?_ h (Nat.le_refl _)
    · exact fun _ _ _ => nofun
    · exact fun _ _ _ _ hf => nomatch hf
    · intro tape b h hg _ hb
      obtain ⟨e, he, hs⟩ := separates_take h hg
      rw [trace_behind, Trace.forest_append, Forest.toList_append, trace_ofTaken, he]
      exact List.forall_mem_cons.2 ⟨hs, hb⟩
  obtain ⟨e, he, hs⟩ := separates_take h hg
  have hread : (Production.descendant.body.read descend o tape).trace.forest.toList =
      e :: (repeating (next Token.isTrivia) (fun tape => ofTaken (tape.take .combinator))
        (tape.take .combinator).2.size (tape.take .combinator).2).trace.forest.toList := by
    show (Attempt.andThen (ofTaken (tape.take .combinator)) _).trace.forest.toList = _
    rw [andThen_of_none rfl, trace_behind, Trace.forest_append, Forest.toList_append, trace_ofTaken,
      he]
    rfl
  refine .gap (fun hn => ?_) ?_
  · rw [hn] at hread
    cases hread
  · rw [hread]
    exact List.forall_mem_cons.2 ⟨hs, hloop (Conserves.take .combinator h).lexed⟩

/-- A joint that was seen. -/
theorem combines_body (descend : Options → Production → Tape → Attempt) (o : Options)
    {p : Production} (hp : p.isJoint = true) {tape : Tape} (h : tape.Lexed)
    (hg : p.opening tape.ahead = true) : (p.body.read descend o tape).trace.forest.Combines := by
  cases p with
  | combinator => exact combines_combinator h hg
  | descendant => exact combines_descendant descend o h hg
  | _ => cases hp

/-! ## Constructs -/

theorem Joins.framed {p : Production} {tape : Tape} {a : Attempt} (ha : Joins tape a)
    (hp : p.isJoint = true → tape.Lexed → a.failure = none → a.trace.forest.Combines)
    (file : Option String) : Joins tape (a.framed file p.kind tape.place) :=
  Leaves.framed ha fun hk => hp (p.isJoint_iff.2 hk)

/-- A construct as a node, begun where it may be. -/
theorem joins_enter {p : Production} {o : Options} {inside : Tape → Attempt}
    (hi : ∀ tape, Joins tape (inside tape))
    (hp : ∀ tape : Tape, p.isJoint = true → tape.Lexed → p.opening tape.ahead = true →
      (inside tape).failure = none → (inside tape).trace.forest.Combines)
    {tape : Tape} (hg : p.mayJoin tape.ahead = true) : Joins tape (p.enter o inside tape) := by
  have hopening (hj : p.isJoint = true) : p.opening (p.front tape.ahead) = true := by
    simpa [Production.mayJoin, hj] using hg
  rw [Production.front] at hopening
  rw [Production.enter_eq]
  split <;> rename_i hk
  · rw [if_pos hk] at hopening
    exact (hi tape).framed (fun hj hl => hp tape hj hl (hopening hj)) o.file
  · rw [if_neg hk] at hopening
    rw [andThen_of_none rfl]
    refine (joins_steps o.file).behind ((joins_steps o.file).takeTrivia tape) ?_
    refine (hi _).framed (fun hj hl => hp _ hj hl ?_) o.file
    rw [tape_ofTaken, Tape.ahead_takeTrivia]
    exact hopening hj

/-- A phrase in which no joint is begun without a look. -/
theorem joins_phrase {descend : Options → Production → Tape → Attempt}
    (hd : ∀ o (p : Production) (tape : Tape), p.mayJoin tape.ahead = true →
      Joins tape (descend o p tape))
    {q : Phrase} (hq : q.Joins Phrase.unseen) (o : Options) (tape : Tape) :
    Joins tape (q.read descend o tape) := by
  rw [Phrase.read_joining hq o rfl]
  refine (joins_steps o.file).phrase (fun o _ p tape => ?_) q 
    (fun _ => leaves_quoted Tape.domain_lexed o.file) o rfl tape
  unfold Phrase.joining
  split <;> rename_i hg
  · exact hd o p tape hg
  · exact (joins_steps none).nothing tape

/-- **What combines two selectors is a sign or trivia**, wherever a construct is begun that may
be, however deep nodes may nest. `Document.Combinators` says when it is a comment alone. -/
theorem joins_read (n : Nat) (o : Options) (p : Production) (tape : Tape)
    (hg : p.mayJoin tape.ahead = true) : Joins tape (Production.read n o p tape) := by
  induction n generalizing o p tape with
  | zero =>
    have hl : Tape.Domain Tape.Lexed := Tape.domain_lexed
    refine joins_enter (fun tape => Leaves.of_plain hl (fun hl => .fail hl _) .nil) ?_ hg
    exact fun _ _ _ _ hf => nomatch hf
  | succ n ih =>
    refine joins_enter (joins_phrase ih p.joins_body o) ?_ hg
    exact fun tape hj hl ho _ => combines_body _ o hj hl ho

end Attempt

end Heddle
