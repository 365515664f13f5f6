import Heddle.Proofs.Grammar.Balanced

/-!
# Where a construct would fail in silence

Nearly every construct that fails does so because something is missing, and says what. Four of
them take what their callers have seen: a number, a raw text and a constant take the next token,
and a blank between two selectors takes trivia. Should there be nothing to take, they fail and say
nothing. **Wherever one of them is begun, the look ahead in front of it has seen what it takes.**

`Reading.Slot` is where this is used. There a failure is kept in a slot that only the first one
fills, and a construct that fails without filling it would leave its parent with nothing to
report.
-/

set_option autoImplicit false

namespace Heddle

open Lookahead Token

/-- Whether a construct that is begun in front of these tokens fails and says nothing. The tokens
are those behind the trivia, but for the blank between two selectors. -/
def Production.failsSilently : Production → List Token → Bool
  | number, ts | rawString, ts | constant, ts => ts.isEmpty
  | descendant, ts => !next isTrivia ts
  | _, _ => false

/-- The constructs that may fail in silence. -/
def Production.mayFailSilently : Production → Bool
  | number | rawString | constant | descendant => true
  | _ => false

theorem Production.failsSilently_of_not_mayFailSilently {p : Production}
    (h : p.mayFailSilently = false)
    (ts : List Token) : p.failsSilently ts = false := by
  cases p <;> first | rfl | cases h

/-- What its callers have seen of a construct is enough for it to succeed or to say why not. -/
theorem Production.failsSilently_of_opening {p : Production} {ts : List Token}
    (h : p.opening ts = true) : p.failsSilently ts = false := by
  have hsome {P : Token → Bool} (hnext : next P ts = true) : ts.isEmpty = false := by
    obtain ⟨t, rest, rfl, -⟩ := exists_of_next hnext
    rfl
  cases p with
  | number | rawString | constant => exact hsome h
  | descendant =>
    rw [failsSilently, Bool.not_eq_false']
    exact h
  | _ => rfl

/-- In front of tokens that `given` has seen, no construct of the phrase fails in silence. Behind
a choice each side knows its own look, and behind a phrase nothing is known. -/
def Phrase.NoSilentFailure : Lookahead → Phrase → Prop
  | given, node p => ∀ ts, given ts = true → p.failsSilently (p.front ts) = false
  | given, andThen first second => first.NoSilentFailure given ∧ second.NoSilentFailure unseen
  | given, choose test yes no => yes.NoSilentFailure test ∧ no.NoSilentFailure given
  | _, repeating test body => body.NoSilentFailure test
  | given, spacedCalls yes no => yes.NoSilentFailure given ∧ no.NoSilentFailure given
  | _, statements _ statement => statement.NoSilentFailure unseen
  | _, quoted named braced => named.NoSilentFailure unseen ∧ braced.NoSilentFailure unseen
  | _, empty | _, take _ | _, trivia | _, expected _ | _, orphan | _, hexDigits | _, foreign => True

namespace Phrase

/-- Whether there is no construct in the phrase that may fail in silence. This is computed, so
most rules are done at once. -/
def neverSilent : Phrase → Bool
  | node p => !p.mayFailSilently
  | andThen first second => first.neverSilent && second.neverSilent
  | choose _ yes no | spacedCalls yes no => yes.neverSilent && no.neverSilent
  | repeating _ body => body.neverSilent
  | statements _ statement => statement.neverSilent
  | quoted named braced => named.neverSilent && braced.neverSilent
  | empty | take _ | trivia | expected _ | orphan | hexDigits | foreign => true

variable {given : Lookahead}

/-- Nothing has to be seen of the other constructs. -/
theorem noSilentFailure_of_neverSilent {q : Phrase} (h : q.neverSilent = true) :
    q.NoSilentFailure given := by
  induction q generalizing given with
  | node p =>
    have hp : p.mayFailSilently = false := by simpa [neverSilent] using h
    exact fun ts _ => p.failsSilently_of_not_mayFailSilently hp _
  | andThen _ _ ih₁ ih₂ | choose _ _ _ ih₁ ih₂ | spacedCalls _ _ ih₁ ih₂ | quoted _ _ ih₁ ih₂ =>
    obtain ⟨h₁, h₂⟩ := Bool.and_eq_true_iff.1 h
    exact ⟨ih₁ h₁, ih₂ h₂⟩
  | repeating _ _ ih | statements _ _ ih => exact ih h
  | empty | take | trivia | expected | orphan | hexDigits | foreign => trivial

/-- A construct that is opened by the next token. -/
theorem noSilentFailure_node {p : Production} {P : Token → Bool} (hp : Firm P)
    (ho : p.opening = next P) :
    (node p).NoSilentFailure (next P) := by
  intro ts hts
  apply Production.failsSilently_of_opening
  rw [p.front_of_firm hp hts, ho]
  exact hts

/-- A literal is one token, and it has been seen. -/
theorem noSilentFailure_primary : primary.NoSilentFailure given := by
  have hother {p : Production} (h : p.mayFailSilently = false) (test : Lookahead) :
      (node p).NoSilentFailure test := noSilentFailure_of_neverSilent (by simp [neverSilent, h])
  refine ⟨trivial, noSilentFailure_node firm_isNumber rfl, hother rfl _,
    noSilentFailure_node firm_isRawText rfl,
    hother rfl _, hother rfl _, hother rfl _, hother rfl _, hother rfl _, hother rfl _, ?_,
    hother rfl _, hother rfl _, trivial⟩
  exact noSilentFailure_node (firm_any_isWord _) rfl

theorem noSilentFailure_operand : operand.NoSilentFailure given :=
  ⟨trivial, noSilentFailure_of_neverSilent rfl, noSilentFailure_primary⟩

theorem noSilentFailure_operation : operation.NoSilentFailure given :=
  ⟨noSilentFailure_operand, trivial, noSilentFailure_of_neverSilent rfl, noSilentFailure_operand⟩

/-- A blank that combines two selectors has been seen. -/
theorem noSilentFailure_descendant : (node .descendant).NoSilentFailure isDescendant := by
  intro ts hts
  exact Production.failsSilently_of_opening (Bool.and_eq_true_iff.1 hts).1

theorem noSilentFailure_statement : statement.NoSilentFailure given :=
  noSilentFailure_of_neverSilent rfl

end Phrase

open Phrase in
/-- **No rule lets a construct fail in silence.** Only the rules that end in a literal or in a
descendant need more than the computed check. -/
theorem Production.noSilentFailure_body (p : Production) : p.body.NoSilentFailure unseen := by
  cases p with
  | expression => exact noSilentFailure_operation
  | expressionStatement => exact ⟨noSilentFailure_operation, noSilentFailure_of_neverSilent rfl⟩
  | unary => exact ⟨trivial, noSilentFailure_operand⟩
  | needs =>
    exact ⟨trivial, trivial, ⟨noSilentFailure_primary, noSilentFailure_of_neverSilent rfl⟩,
      noSilentFailure_of_neverSilent rfl⟩
  | selectorChain =>
    exact ⟨noSilentFailure_of_neverSilent rfl,
      ⟨noSilentFailure_descendant, noSilentFailure_of_neverSilent rfl⟩,
      noSilentFailure_of_neverSilent rfl⟩
  | _ => exact noSilentFailure_of_neverSilent rfl

end Heddle
