import Heddle.Grammar.Rules
import Heddle.Proofs.Grammar.Disguise
import Heddle.Proofs.Grammar.StopsAtEnd
import Heddle.Proofs.Token.Shift

/-!
# Looks ahead are local

No look ahead sees where its tokens are (`IgnoresPlaces`), since tokens that are moved are tokens in
a `Disguise`, and none sees what comes behind a finished text or a block (`StopsAtEnd`). A look that
has both properties is `Local`, and `Production.local_body` checks along every rule of the grammar
that all looks in it are.

The two properties are proved together because the rules have to be gone through only once for both,
but their users want one each. Reading a text at another place needs that places do not count
(`Reading/Moved`), and reading a finished text in front of more text needs that what follows does
not count (`Reading/Extension`, `Reading/Enclosed`). The composition of two sources needs both.
-/

set_option autoImplicit false

namespace Heddle

/-! ## Places do not count -/

/-- Tokens that are moved are the same tokens elsewhere. The placeholders of a quoted text move
along with it, which is why the kind of a token changes at all. -/
def Shift.disguise (d : Shift) : Disguise where
  map t := t.shift d
  isTrivia_map := by
    rintro ⟨kind, text, position⟩
    cases kind <;> rfl
  unplaced_map := by
    rintro ⟨kind, text, position⟩ -
    cases kind <;> rfl

/-- The answer does not depend on where the token is. -/
def Token.IgnoresPlaces (P : Token → Bool) : Prop := ∀ (d : Shift) (t : Token), P (t.shift d) = P t

namespace Token

variable (d : Shift) (t : Token)

@[simp] theorem isMark_shift (m : Mark) : (t.shift d).isMark m = t.isMark m :=
  isMark_disguise d.disguise t m

@[simp] theorem isName_shift : (t.shift d).isName = t.isName := isName_disguise d.disguise t

@[simp] theorem isWord_shift (word : String) : (t.shift d).isWord word = t.isWord word :=
  isWord_disguise d.disguise t word

@[simp] theorem isTrivia_shift : (t.shift d).isTrivia = t.isTrivia := d.disguise.isTrivia_map t

@[simp] theorem isNumber_shift : (t.shift d).kind.isNumber = t.kind.isNumber :=
  isNumber_disguise d.disguise t

@[simp] theorem isQuoted_shift : (t.shift d).isQuoted = t.isQuoted := isQuoted_disguise d.disguise t

@[simp] theorem isRawText_shift : (t.shift d).isRawText = t.isRawText :=
  isRawText_disguise d.disguise t

@[simp] theorem isForeign_shift : (t.shift d).isForeign = t.isForeign :=
  isForeign_disguise d.disguise t

@[simp] theorem isBlank_shift : ((t.shift d).kind == .blank) = (t.kind == .blank) := by
  obtain ⟨kind, text, position⟩ := t
  cases kind <;> rfl

@[simp] theorem isObjectWord_shift : (t.shift d).isObjectWord = t.isObjectWord :=
  isObjectWord_disguise d.disguise t

@[simp] theorem isOperator_shift : (t.shift d).isOperator = t.isOperator :=
  isOperator_disguise d.disguise t

@[simp] theorem isComparator_shift : (t.shift d).isComparator = t.isComparator :=
  isComparator_disguise d.disguise t

@[simp] theorem isCombinator_shift : (t.shift d).isCombinator = t.isCombinator :=
  isCombinator_disguise d.disguise t

@[simp] theorem refusesBlank_shift : (t.shift d).refusesBlank = t.refusesBlank :=
  refusesBlank_disguise d.disguise t

end Token

namespace Lookahead

open Token

/-- The answer does not depend on where the tokens are. -/
def IgnoresPlaces (test : Lookahead) : Prop :=
  ∀ (d : Shift) (ts : List Token), test (ts.map (·.shift d)) = test ts

theorem IgnoresDisguise.ignoresPlaces {test : Lookahead} (h : IgnoresDisguise test) :
    IgnoresPlaces test :=
  fun d ts => h d.disguise ts

theorem ignoresPlaces_next {P : Token → Bool} (hp : Token.IgnoresPlaces P) :
    IgnoresPlaces (next P) := by
  intro d ts
  cases ts with
  | nil => rfl
  | cons t ts => exact hp d t

theorem ignoresPlaces_significant {P : Token → Bool} (hp : Token.IgnoresPlaces P) :
    IgnoresPlaces (significant P) := by
  intro d ts
  induction ts with
  | nil => rfl
  | cons t ts ih =>
    simp only [significant, List.map_cons, List.find?_cons, isTrivia_shift] at ih ⊢
    split
    · exact hp d t
    · exact ih

theorem ignoresPlaces_pair {P R : Token → Bool} (hp : Token.IgnoresPlaces P)
    (hr : Token.IgnoresPlaces R) :
    IgnoresPlaces (pair P R) := by
  intro d ts
  match ts with
  | [] | [_] => rfl
  | t :: u :: ts => simp only [List.map_cons, pair, hp d t, hr d u]

theorem IgnoresPlaces.or {a b : Lookahead} (ha : IgnoresPlaces a) (hb : IgnoresPlaces b) :
    IgnoresPlaces fun ts => a ts || b ts := by
  intro d ts
  simp only [ha d ts, hb d ts]

theorem IgnoresPlaces.and {a b : Lookahead} (ha : IgnoresPlaces a) (hb : IgnoresPlaces b) :
    IgnoresPlaces fun ts => a ts && b ts := by
  intro d ts
  simp only [ha d ts, hb d ts]

/-! ## Both -/

/-- The answer depends neither on the places of the tokens nor on what is behind a finished text
or a block. -/
structure Local (test : Lookahead) : Prop where
  stopsAtEnd : StopsAtEnd test
  ignoresPlaces : IgnoresPlaces test

@[simp] theorem local_next {P : Token → Bool} (hp : ∀ d (t : Token), P (t.shift d) = P t) :
    Local (next P) :=
  ⟨stopsAtEnd_next P, ignoresPlaces_next hp⟩

@[simp] theorem local_significant {P : Token → Bool}
    (hp : ∀ d (t : Token), P (t.shift d) = P t) : Local (significant P) :=
  ⟨stopsAtEnd_significant P, ignoresPlaces_significant hp⟩

theorem local_pair {P R : Token → Bool} (ho : Open P) (hp : Token.IgnoresPlaces P)
    (hr : Token.IgnoresPlaces R) :
    Local (pair P R) :=
  ⟨stopsAtEnd_pair ho, ignoresPlaces_pair hp hr⟩

theorem Local.or {a b : Lookahead} (ha : Local a) (hb : Local b) : Local fun ts => a ts || b ts :=
  ⟨ha.stopsAtEnd.or hb.stopsAtEnd, ha.ignoresPlaces.or hb.ignoresPlaces⟩

theorem Local.and {a b : Lookahead} (ha : Local a) (hb : Local b) : Local fun ts => a ts && b ts :=
  ⟨ha.stopsAtEnd.and hb.stopsAtEnd, ha.ignoresPlaces.and hb.ignoresPlaces⟩

theorem open_isMark {m : Mark} (hm : m.ends = false) : Open (isMark m) := by
  intro t m' ht hm'
  rw [isMark, ht]
  apply beq_eq_false_iff_ne.2
  intro he
  rw [TokenKind.mark.inj he, hm] at hm'
  cases hm'

theorem open_isName : Open isName := by
  intro t m ht _
  rw [isName, ht]
  rfl

@[simp] theorem local_marked {m : Mark} {P : Token → Bool} (hm : m.ends = false)
    (hp : ∀ d (t : Token), P (t.shift d) = P t) : Local (pair (isMark m) P) :=
  local_pair (open_isMark hm) (fun d t => isMark_shift d t m) hp

@[simp] theorem local_isObject : Local isObject :=
  local_marked (by decide) isObjectWord_shift

@[simp] theorem local_isCall : Local isCall :=
  local_pair open_isName isName_shift fun d t => isMark_shift d t _

@[simp] theorem local_isSpacedCall : Local isSpacedCall := 
  ⟨stopsAtEnd_isSpacedCall, fun d ts => @isSpacedCall_disguise d.disguise (isBlank_shift d) ts⟩

@[simp] theorem local_isDescendant : Local isDescendant :=
  (local_next isTrivia_shift).and
    (local_significant fun d t => by rw [refusesBlank_shift])

@[simp] theorem local_isAssignment : Local isAssignment :=
  ⟨stopsAtEnd_isAssignment, ignoresDisguise_isAssignment.ignoresPlaces⟩

@[simp] theorem local_isRule : Local isRule :=
  ⟨stopsAtEnd_isRule, ignoresDisguise_isRule.ignoresPlaces⟩

@[simp] theorem local_isSelectorCall : Local isSelectorCall :=
  ⟨stopsAtEnd_isSelectorCall, ignoresDisguise_isSelectorCall.ignoresPlaces⟩

@[simp] theorem local_isMultipleType : Local isMultipleType :=
  ⟨stopsAtEnd_isMultipleType, ignoresDisguise_isMultipleType.ignoresPlaces⟩

@[simp] theorem local_isMapType : Local isMapType :=
  ⟨stopsAtEnd_isMapType, ignoresDisguise_isMapType.ignoresPlaces⟩

end Lookahead

/-! ## Every look of the grammar -/

namespace Phrase

open Lookahead Token

/-- Every look ahead that the phrase takes, those inside of placeholders and statements included.
A property of looks becomes one of phrases by it, and `local_body` is the proof for the grammar.
-/
def Looks (P : Lookahead → Prop) : Phrase → Prop
  | andThen first second => first.Looks P ∧ second.Looks P
  | choose test yes no => P test ∧ yes.Looks P ∧ no.Looks P
  | repeating test body => P test ∧ body.Looks P
  | spacedCalls yes no => yes.Looks P ∧ no.Looks P
  | statements _ statement => statement.Looks P
  | quoted named braced => named.Looks P ∧ braced.Looks P
  | empty | take _ | trivia | node _ | expected _ | orphan | hexDigits | foreign => True

attribute [local simp] Looks seq oneOf Mark.ends Mark.partner?

theorem local_expect {P : Token → Bool} (hp : Token.IgnoresPlaces P) (tag : DataTag)
    (wanted : Wanted) :
    (expect P tag wanted).Looks Local :=
  ⟨trivial, local_next hp, trivial, trivial⟩

@[simp] theorem local_mark (m : Mark) : (mark m).Looks Local :=
  local_expect (fun d t => isMark_shift d t m) _ _

@[simp] theorem local_keyword (word : String) : (keyword word).Looks Local :=
  local_expect (fun d t => isWord_shift d t word) _ _

@[simp] theorem local_name (tag : DataTag) (wanted : Wanted) : (name tag wanted).Looks Local :=
  local_expect isName_shift _ _

@[simp] theorem local_optional (m : Mark) (tag : DataTag) (rest : Phrase) :
    (optional m tag rest).Looks Local ↔ rest.Looks Local := by
  simp [optional]

@[simp] theorem local_further (m : Mark) (tag : DataTag) (element : Phrase) :
    (further m tag element).Looks Local ↔ element.Looks Local := by
  simp [further]

@[simp] theorem local_commaSeparated (element : Phrase) :
    (commaSeparated element).Looks Local ↔ element.Looks Local := by
  simp [commaSeparated]

@[simp] theorem local_listUpTo (m : Mark) (element : Phrase) :
    (listUpTo m element).Looks Local ↔ element.Looks Local := by
  simp [listUpTo]

@[simp] theorem local_singleType : singleType.Looks Local := by
  simp [singleType]

@[simp] theorem local_type : type.Looks Local := by
  simp [type]

@[simp] theorem local_primary : primary.Looks Local := by
  simp [primary]

@[simp] theorem local_operand : operand.Looks Local := by
  simp [operand]

@[simp] theorem local_operation : operation.Looks Local := by
  simp [operation]

@[simp] theorem local_arguments : arguments.Looks Local := by
  simp [arguments]

@[simp] theorem local_segment (tag : DataTag) : (segment tag).Looks Local := by
  simp [segment]

/-- The head of a part of a selector, or of a step of a path. -/
theorem local_dotted :
    Local fun ts => pair (isMark .dot) isName ts || next (isMark .leftBracket) ts :=
  (local_marked (by decide) isName_shift).or (local_next fun d t => isMark_shift d t _)

@[simp] theorem local_isSelectorPart : Local isSelectorPart :=
  (((local_marked (by decide) isName_shift).or (local_marked (by decide) isName_shift)).or
    (local_marked (by decide) isName_shift)).or (local_next fun d t => isMark_shift d t _)

@[simp] theorem local_selectorParts : selectorParts.Looks Local := by
  simp [selectorParts, selectorPart]

@[simp] theorem local_terminator : terminator.Looks Local := by
  simp [terminator]

@[simp] theorem local_condition : condition.Looks Local := by
  simp [condition]

@[simp] theorem local_optionalFinally : optionalFinally.Looks Local := by
  simp [optionalFinally]

@[simp] theorem local_statement : statement.Looks Local := by
  simp [statement, plainStatement]

end Phrase

open Phrase Lookahead Token in
/-- **Every look of every rule is local.** Each rule is taken apart by `simp` into its looks, each
of which one of the lemmas above is about. -/
theorem Production.local_body (p : Production) : p.body.Looks Local := by
  have hcombination : Local fun ts => isDescendant ts || significant isCombinator ts :=
    local_isDescendant.or (local_significant isCombinator_shift)
  cases p <;> simp [body, Looks, seq, oneOf, bareKeyword, hcombination, local_dotted, Mark.ends,
    Mark.partner?]

end Heddle
