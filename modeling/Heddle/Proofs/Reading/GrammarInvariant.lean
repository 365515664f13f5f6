import Heddle.Proofs.Reading.Invariant
import Heddle.Proofs.Tape.Lexed

/-!
# What readings by the grammar keep

`Attempt.Invariant` is about every reader that could be put together from the steps. Two things hold
only of the readers that phrases stand for, and some properties rest on them: **a reading fails at
the token that could not be used** and nowhere else (`Attempt.Stops`), and **a placeholder is read
from its sign on**, behind which it makes no difference what was reached before (`Attempt.Signed`).

`Attempt.GrammarInvariant` lists the same steps as `Attempt.Invariant`, under these two conditions.
The first one goes through the reading together with the property, since an error is reported where
the failed statement stopped. The second one is up to the rules and is asked of them once
(`Production.signed_body`).
-/

set_option autoImplicit false

namespace Heddle

/-! ## Placeholders begin with their sign -/

namespace Phrase

/-- Whether the phrase begins by taking a token in a role that counts. Behind such a token `reach`
is the end of that token, so what it was before is forgotten. -/
def isSigned : Phrase → Bool
  | andThen (take tag) _ => !tag.isTrivia
  | _ => false

/-- Whether all placeholders in the phrase are read from their sign on. For the rules of the
grammar it is checked by evaluation. -/
def placeholdersAreSigned : Phrase → Bool
  | andThen first second => first.placeholdersAreSigned && second.placeholdersAreSigned
  | choose _ yes no | spacedCalls yes no => yes.placeholdersAreSigned && no.placeholdersAreSigned
  | repeating _ body => body.placeholdersAreSigned
  | statements _ statement => statement.placeholdersAreSigned
  | quoted named braced => named.isSigned && named.placeholdersAreSigned &&
      (braced.isSigned && braced.placeholdersAreSigned)
  | empty | take _ | trivia | node _ | expected _ | orphan | hexDigits | foreign => true

end Phrase

theorem Production.signed_body (p : Production) : p.body.placeholdersAreSigned = true := by
  cases p <;> rfl

namespace Attempt

/-- A failure is at the next token. Errors therefore point to where recovery begins, which
`Reading.Pointed` is about. -/
def Stops (a : Attempt) : Prop := ∀ f, a.failure = some f → f.position = a.tape.place

/-- In front of a token that is no trivia the reader does not depend on what was reached before. A
placeholder is read on a tape of its own, and this makes the tape as good as the one of the text
around it. -/
def Signed (read : Tape → Attempt) : Prop :=
  ∀ (tape : Tape) (t : Token) (ts : List Token), tape.ahead = t :: ts → t.isTrivia = false →
    ∀ reach, read { tape with reach } = read tape

theorem Stops.of_success {a : Attempt} (h : a.failure = none) : a.Stops := by
  intro f hf
  rw [h] at hf
  cases hf

theorem Stops.missing (wanted : Wanted) (tape : Tape) :
    (Attempt.fail (tape.missing wanted) tape).Stops := fun _ hf => Option.some.inj hf ▸ rfl

/-! A string, a color and a foreign block are read whole or not at all. When one is missing nothing
has been taken, so the failure is at the tape itself. -/

theorem stops_quoted (file : Option String) (read : Bool → Tape → Attempt) (tape : Tape) :
    (Attempt.quoted file read tape).Stops := by
  unfold Attempt.quoted
  split
  · exact .missing _ tape
  · split
    · exact .of_success rfl
    · exact .of_success rfl

theorem stops_hexDigits (tape : Tape) : (Attempt.hexDigits tape).Stops := by
  unfold Attempt.hexDigits
  split
  · split
    · exact .of_success rfl
    · exact .missing _ tape
  · exact .missing _ tape

theorem stops_foreign (tape : Tape) : (Attempt.foreign tape).Stops := by
  unfold Attempt.foreign
  split
  · exact .missing _ tape
  · split
    · exact .of_success rfl
    · exact .missing _ tape

end Attempt

theorem Phrase.signed_read (descend : Options → Production → Tape → Attempt) {q : Phrase}
    (hq : q.isSigned = true) (o : Options) : Attempt.Signed (q.read descend o) := by
  intro tape t ts ha ht reach
  cases q with
  | andThen first second =>
    cases first with
    | take tag =>
      have hrole : (t.kind.role tag).isTrivia = false := by
        have htag : tag.isTrivia = false := by simpa [isSigned] using hq
        rw [Token.isTrivia] at ht
        cases hk : t.kind <;> first | exact htag | (rw [hk] at ht; cases ht)
      simp only [read]
      rw [Tape.take_of_cons tag ha,
        Tape.take_of_cons tag (show { tape with reach }.ahead = t :: ts from ha), hrole]
      rfl
    | _ => cases hq
  | _ => cases hq

namespace Attempt

/-! ## Steps -/

/-- A reader that fails where it stops and keeps `J`. The two go through the induction together.
-/
abbrev Keeps (J : Tape → Attempt → Prop) (read : Tape → Attempt) : Prop :=
  ∀ tape, (read tape).Stops ∧ J tape (read tape)

/-- A step that every reading by the grammar is made of keeps `J`. Compared with `Invariant` the
steps may assume more: a failure is at the tape it is reported on, and placeholders are signed. -/
structure GrammarInvariant (file : Option String) (J : Tape → Attempt → Prop) : Prop where
  nothing : ∀ tape, J tape (ofTaken (.nil, tape))
  take : ∀ tag tape, J tape (ofTaken (tape.take tag))
  fail : ∀ f tape, f.position = tape.place → J tape (fail f tape)
  behind : ∀ {tape a b}, J tape a → J a.tape b → J tape (b.behind a.trace)
  framed : ∀ {p : Production} {tape a}, J tape a → J tape (a.framed file p.kind tape.place)
  recover : ∀ inBlock f tape, f.position = tape.place → J tape (recover file inBlock f tape)
  quoted : ∀ {read tape}, (∀ isBraced, Keeps J (read isBraced)) →
    (∀ isBraced, Signed (read isBraced)) → J tape (quoted file read tape)
  hexDigits : ∀ tape, J tape (hexDigits tape)
  foreign : ∀ tape, J tape (foreign tape)

namespace GrammarInvariant

variable {file : Option String} {J : Tape → Attempt → Prop} (hJ : GrammarInvariant file J)
  {step next : Tape → Attempt}
include hJ

theorem done : Keeps J fun tape => ofTaken (.nil, tape) :=
  fun tape => ⟨.of_success rfl, hJ.nothing tape⟩

theorem fails {f : Tape → Failure} (hf : ∀ tape, (f tape).position = tape.place) :
    Keeps J fun tape => Attempt.fail (f tape) tape :=
  fun tape => ⟨fun _ he => Option.some.inj he ▸ hf tape, hJ.fail _ tape (hf tape)⟩

theorem andThen (hr : Keeps J step) (hn : Keeps J next) :
    Keeps J fun tape => (step tape).andThen next := by
  intro tape
  obtain ⟨hs, ha⟩ := hr tape
  show ((step tape).andThen next).Stops ∧ J tape ((step tape).andThen next)
  cases hf : (step tape).failure with
  | some f =>
    rw [andThen_of_some hf]
    exact ⟨hs, ha⟩
  | none =>
    rw [andThen_of_none hf]
    exact ⟨(hn _).1, hJ.behind ha (hn _).2⟩

theorem takeMany (tag : DataTag) (n : Nat) : Keeps J fun tape => ofTaken (tape.takeMany tag n) := by
  induction n with
  | zero => exact hJ.done
  | succ n ih =>
    exact hJ.andThen (fun tape => ⟨.of_success rfl, hJ.take tag tape⟩) ih

theorem takeTrivia : Keeps J fun tape => ofTaken tape.takeTrivia :=
  fun tape => hJ.takeMany .whitespace _ tape

theorem recovered (hr : Keeps J step) (inBlock : Bool) :
    Keeps J fun tape => Attempt.recovered file inBlock (step tape) := by
  intro tape
  obtain ⟨hs, ha⟩ := hr tape
  refine ⟨.of_success (failure_recovered _ _ _), ?_⟩
  show J tape (Attempt.recovered file inBlock (step tape))
  unfold Attempt.recovered
  split <;> rename_i hf
  · exact hJ.behind ha (hJ.recover _ _ _ (hs _ hf))
  · exact ha

theorem repeating {test : Lookahead} (hr : Keeps J step) (rounds : Nat) :
    Keeps J (repeating test step rounds) := by
  induction rounds with
  | zero => exact hJ.done
  | succ n ih =>
    intro tape
    rw [Attempt.repeating]
    split
    · exact hJ.andThen hr ih tape
    · exact hJ.done tape

theorem statements (hr : Keeps J step) (inBlock : Bool) (rounds : Nat) :
    Keeps J (statements file inBlock step rounds) := by
  induction rounds with
  | zero => exact hJ.takeTrivia
  | succ n ih =>
    have hstray : Keeps J fun tape => Attempt.recover file false (tape.failure .strayBrace) tape :=
      fun tape => ⟨.of_success rfl, hJ.recover _ _ tape rfl⟩
    refine hJ.andThen hJ.takeTrivia fun tape => ?_
    split
    · exact hJ.done tape
    split
    · split
      · exact hJ.done tape
      · exact hJ.andThen hstray ih tape
    · exact hJ.andThen (hJ.recovered hr inBlock) ih tape

/-- Every phrase keeps what the constructs inside it keep. -/
theorem phrase {descend : Options → Production → Tape → Attempt}
    (hd : ∀ o : Options, o.file = file → ∀ p, Keeps J (descend o p)) (q : Phrase)
    (hq : q.placeholdersAreSigned = true) (o : Options) (ho : o.file = file) :
    Keeps J (q.read descend o) := by
  -- For each phrase it is shown along with `J` that a failure stands where the tape does, since
  -- the next step needs both.
  induction q generalizing o with
  | empty => exact hJ.done
  | take tag => exact fun tape => ⟨.of_success rfl, hJ.take tag tape⟩
  | trivia => exact hJ.takeTrivia
  | node p => exact hd o ho p
  | andThen first second ih₁ ih₂ =>
    obtain ⟨h₁, h₂⟩ := Bool.and_eq_true_iff.1 hq
    exact hJ.andThen (ih₁ h₁ o ho) (ih₂ h₂ o ho)
  | choose test yes no ihy ihn =>
    obtain ⟨hy, hn⟩ := Bool.and_eq_true_iff.1 hq
    intro tape
    rw [Phrase.read]
    split
    · exact ihy hy o ho tape
    · exact ihn hn o ho tape
  | repeating test body ih => exact fun tape => hJ.repeating (ih hq o ho) _ tape
  | spacedCalls yes no ihy ihn =>
    obtain ⟨hy, hn⟩ := Bool.and_eq_true_iff.1 hq
    intro tape
    rw [Phrase.read]
    split
    · exact ihy hy o ho tape
    · exact ihn hn o ho tape
  | expected wanted => exact hJ.fails fun _ => rfl
  | orphan => exact hJ.fails fun _ => rfl
  | statements inBlock statement ih =>
    subst ho
    exact fun tape => hJ.statements (ih hq o rfl) inBlock _ tape
  | quoted named braced ihn ihb =>
    subst ho
    obtain ⟨hn, hb⟩ := Bool.and_eq_true_iff.1 hq
    obtain ⟨hns, hnp⟩ := Bool.and_eq_true_iff.1 hn
    obtain ⟨hbs, hbp⟩ := Bool.and_eq_true_iff.1 hb
    intro tape
    refine ⟨stops_quoted _ _ tape, hJ.quoted (fun isBraced window => ?_) fun isBraced => ?_⟩
    · split
      · exact ihb hbp { o with spacedCalls := false } rfl window
      · exact ihn hnp { o with spacedCalls := false } rfl window
    · cases isBraced with
      | true => exact Phrase.signed_read descend hbs _
      | false => exact Phrase.signed_read descend hns _
  | hexDigits => exact fun tape => ⟨stops_hexDigits tape, hJ.hexDigits tape⟩
  | foreign => exact fun tape => ⟨stops_foreign tape, hJ.foreign tape⟩

/-- A construct begins behind the trivia in front of it. -/
theorem enter (p : Production) {o : Options} (ho : o.file = file) (hr : Keeps J step) :
    Keeps J (p.enter o step) := by
  have hnode : Keeps J fun tape => (step tape).framed o.file p.kind tape.place := by
    intro tape
    obtain ⟨hs, ha⟩ := hr tape
    refine ⟨?_, ho ▸ hJ.framed ha⟩
    intro f hf
    rw [failure_framed] at hf
    rw [tape_framed]
    exact hs f hf
  intro tape
  rw [Production.enter_eq]
  split
  · exact hnode tape
  · exact hJ.andThen hJ.takeTrivia hnode tape

/-- Every construct keeps it, however deep nodes may nest. -/
theorem read (n : Nat) (o : Options) (ho : o.file = file) (p : Production) :
    Keeps J (Production.read n o p) := by
  induction n generalizing o p with
  | zero => exact hJ.enter p ho (hJ.fails fun _ => rfl)
  | succ n ih =>
    exact hJ.enter p ho (hJ.phrase (fun o ho p => ih o ho p) p.body p.signed_body o ho)

end GrammarInvariant

end Attempt

end Heddle
