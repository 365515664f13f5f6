import Heddle.Grammar.Rules
import Heddle.Proofs.Grammar.Disguise
import Heddle.Proofs.Reading.Progress

/-!
# What the rules of values do not see

A value can be closed by a semicolon, by a brace or by the end of a text, and the rules that read
a value without a block do not tell these apart: each of their looks is false at both marks, as it
is where nothing is ahead. Nor do they see where they are. Such a look is `StopsAtDelimiter`, and
**along the rule of every construct in a value all looks are** (`Production.readsValue_body`).

The block of an object is not among these constructs, and in a text without braces it can not be
read. The argument of a call without parentheses is not among them either: the only look of these
rules that goes on behind the next significant token asks for such a call, and the rules are meant
for where there is none.

A placeholder is read up to the closing quote of its text and an expression up to its semicolon.
`Reading.Secluded` reads both as one and the same value by means of what is proved here.
-/

set_option autoImplicit false

namespace Heddle

open Token

/-- What closes a value from outside. -/
def Token.delimits (t : Token) : Bool := t.isMark .semicolon || t.isMark .rightBrace

theorem Token.kind_of_delimits {t : Token} (h : t.delimits = true) :
    t.kind = .mark .semicolon ∨ t.kind = .mark .rightBrace := by
  simpa [delimits, isMark] using h

/-- A token without its places is the token in a disguise. -/
def Disguise.unplaced : Disguise where
  map := Token.unplaced
  isTrivia_map := by
    rintro ⟨kind, text, position⟩
    cases kind <;> rfl
  unplaced_map := by
    rintro ⟨kind, text, position⟩ -
    cases kind <;> rfl

/-- The answer depends on no place, and is no for what closes a value. The tests of single tokens
have both properties for simple reasons, and `simp` knows them all. -/
structure Token.Inside (P : Token → Bool) : Prop where
  unplaced : ∀ t : Token, P t.unplaced = P t
  delimits : ∀ t : Token, t.delimits = true → P t = false

namespace Token

theorem Inside.of_disguise {P : Token → Bool} (hp : ∀ (f : Disguise) t, P (f.map t) = P t)
    (hc : ∀ text position, P ⟨.mark .semicolon, text, position⟩ = false ∧
      P ⟨.mark .rightBrace, text, position⟩ = false) : Inside P where
  unplaced t := hp Disguise.unplaced t
  delimits := by
    rintro ⟨kind, text, position⟩ h
    rcases kind_of_delimits h with hk | hk
    · obtain rfl : kind = .mark .semicolon := hk
      exact (hc text position).1
    · obtain rfl : kind = .mark .rightBrace := hk
      exact (hc text position).2

theorem Inside.or {P R : Token → Bool} (hp : Inside P) (hr : Inside R) :
    Inside fun t => P t || R t where
  unplaced t := by rw [hp.unplaced, hr.unplaced]
  delimits t h := by rw [hp.delimits t h, hr.delimits t h]; rfl

@[simp] theorem inside_isMark {m : Mark} (hm : m ≠ .semicolon ∧ m ≠ .rightBrace) :
    Inside (isMark m) := by
  refine .of_disguise (fun f t => isMark_disguise f t m) fun text position => ⟨?_, ?_⟩
  · exact beq_eq_false_iff_ne.2 fun he => hm.1 (TokenKind.mark.inj he).symm
  · exact beq_eq_false_iff_ne.2 fun he => hm.2 (TokenKind.mark.inj he).symm

@[simp] theorem inside_isName : Inside isName := .of_disguise isName_disguise fun _ _ => ⟨rfl, rfl⟩

@[simp] theorem inside_isObjectWord : Inside isObjectWord :=
  .of_disguise isObjectWord_disguise fun _ _ => ⟨rfl, rfl⟩

@[simp] theorem inside_isNumber : Inside fun t => t.kind.isNumber :=
  .of_disguise isNumber_disguise fun _ _ => ⟨rfl, rfl⟩

@[simp] theorem inside_isQuoted : Inside isQuoted :=
  .of_disguise isQuoted_disguise fun _ _ => ⟨rfl, rfl⟩

@[simp] theorem inside_isRawText : Inside isRawText :=
  .of_disguise isRawText_disguise fun _ _ => ⟨rfl, rfl⟩

@[simp] theorem inside_isOperator : Inside isOperator :=
  .of_disguise isOperator_disguise fun _ _ => ⟨rfl, rfl⟩

@[simp] theorem inside_isComparator : Inside isComparator :=
  .of_disguise isComparator_disguise fun _ _ => ⟨rfl, rfl⟩

@[simp] theorem inside_beginsArgument : Inside beginsArgument :=
  .of_disguise beginsArgument_disguise fun _ _ => ⟨rfl, rfl⟩

@[simp] theorem inside_isWord (word : String) : Inside fun t => t.isWord word :=
  .of_disguise (fun f t => isWord_disguise f t word) fun _ _ => ⟨rfl, rfl⟩

/-- The signs in front of a value. -/
@[simp] theorem inside_sign : Inside fun t => t.isMark .bang || t.isMark .minus :=
  (inside_isMark (by decide)).or (inside_isMark (by decide))

/-- The signs between two values. -/
@[simp] theorem inside_infix : Inside fun t => t.isOperator || t.isComparator :=
  inside_isOperator.or inside_isComparator

@[simp] theorem inside_constant :
    Inside fun t => t.isWord "true" || (t.isWord "false" || t.isWord "null") :=
  (inside_isWord _).or ((inside_isWord _).or (inside_isWord _))

end Token

namespace Lookahead

/-- The answer depends on no place, and where something closes the tokens it is the answer at the
tokens alone. The second part compares two lists of different length, so it is no disguise. -/
structure StopsAtDelimiter (test : Lookahead) : Prop where
  unplaced : ∀ ts : List Token, test (ts.map (·.unplaced)) = test ts
  delimits : ∀ (ts : List Token) (t : Token) (us : List Token), t.delimits = true →
    test (ts ++ t :: us) = test ts

@[simp] theorem stopsAtDelimiter_next {P : Token → Bool} (hp : Inside P) :
    StopsAtDelimiter (next P) where
  unplaced
    | [] => rfl
    | t :: _ => hp.unplaced t
  delimits
    | [], t, _, h => hp.delimits t h
    | _ :: _, _, _, _ => rfl

@[simp] theorem stopsAtDelimiter_significant {P : Token → Bool} (hp : Inside P) :
    StopsAtDelimiter (significant P) where
  unplaced ts := by
    have hfind := find?_disguise Disguise.unplaced ts
    rw [significant, show (ts.map (·.unplaced)).find? _ = _ from hfind, significant]
    cases ts.find? (!·.isTrivia) with
    | none => rfl
    | some t => exact hp.unplaced t
  delimits ts t us h := by
    have htrivia : t.isTrivia = false := by
      rw [isTrivia]
      rcases kind_of_delimits h with hk | hk <;> (rw [hk]; rfl)
    rw [significant, List.find?_append, List.find?_cons, htrivia, significant]
    cases ts.find? (!·.isTrivia) with
    | none => exact hp.delimits t h
    | some u => rfl

@[simp] theorem stopsAtDelimiter_pair {P R : Token → Bool} (hp : Inside P) (hr : Inside R) :
    StopsAtDelimiter (pair P R) where
  unplaced
    | [] | [_] => rfl
    | t :: u :: _ => by simp only [List.map_cons, pair, hp.unplaced, hr.unplaced]
  delimits
    | [], t, [], _ => rfl
    | [], t, u :: us, h => by simp [pair, hp.delimits t h]
    | [s], t, us, h => by simp [pair, hr.delimits t h]
    | _ :: _ :: _, _, _, _ => rfl

theorem StopsAtDelimiter.or {a b : Lookahead} (ha : StopsAtDelimiter a) (hb : StopsAtDelimiter b) :
    StopsAtDelimiter fun ts => a ts || b ts where
  unplaced ts := by rw [ha.unplaced, hb.unplaced]
  delimits ts t us h := by rw [ha.delimits ts t us h, hb.delimits ts t us h]

@[simp] theorem stopsAtDelimiter_isObject : StopsAtDelimiter isObject :=
  stopsAtDelimiter_pair (inside_isMark (by decide)) inside_isObjectWord

@[simp] theorem stopsAtDelimiter_isCall : StopsAtDelimiter isCall :=
  stopsAtDelimiter_pair inside_isName (inside_isMark (by decide))

@[simp] theorem stopsAtDelimiter_isSpacedCall : StopsAtDelimiter isSpacedCall where
  unplaced ts := by
    refine isSpacedCall_disguise (f := Disguise.unplaced) ?_ ts
    rintro ⟨kind, text, position⟩
    cases kind <;> rfl
  delimits
    | [], t, [], _ => rfl
    | [], t, u :: us, h => by simp [isSpacedCall, inside_isName.delimits t h]
    | [s], t, us, h => by
      have hblank : (t.kind == .blank) = false := by
        rcases kind_of_delimits h with hk | hk <;> (rw [hk]; rfl)
      simp [isSpacedCall, hblank]
    | s :: u :: ts, t, us, h => by
      simp only [List.cons_append, isSpacedCall,
        (stopsAtDelimiter_significant inside_beginsArgument).delimits ts t us h]

/-- At the end there is no significant token. -/
@[simp] theorem significant_nil (P : Token → Bool) : significant P [] = false := rfl

end Lookahead

/-! ## The rules -/

/-- The constructs in a value, where every call has its parentheses. The block belongs to the
values that are objects; it is entered but never read to its end in a text without braces. -/
def Production.isInValue : Production → Bool
  | .expression | .parenthesized | .unary | .number | .string | .rawString | .constant | .color
  | .array | .newObject | .builtinCall | .argument | .valuePath | .functionCall | .indexAccessor
  | .objectSelector | .objectDefinition | .block => true
  | _ => false

namespace Phrase

/-- Every look of the phrase stops at a delimiter, every loop takes something in each round, and
every construct is one in a value, where calls without parentheses are not allowed. -/
def ReadsValue : Phrase → Prop
  | empty | take _ | trivia | expected _ | orphan | quoted .. | hexDigits => True
  | node p => p.isInValue = true
  | andThen first second => first.ReadsValue ∧ second.ReadsValue
  | choose test yes no => test.StopsAtDelimiter ∧ yes.ReadsValue ∧ no.ReadsValue
  | repeating test body =>
    test.StopsAtDelimiter ∧ test [] = false ∧ body.takes = true ∧ body.ReadsValue
  | spacedCalls _ no => no.ReadsValue
  | statements .. | foreign => False

open Lookahead

attribute [local simp] ReadsValue seq oneOf takes Production.isInValue

@[simp] theorem readsValue_expect {P : Token → Bool} (hp : Inside P) (tag : DataTag)
    (wanted : Wanted) : (expect P tag wanted).ReadsValue :=
  ⟨trivial, stopsAtDelimiter_next hp, trivial, trivial⟩

@[simp] theorem readsValue_mark {m : Mark} (hm : m ≠ .semicolon ∧ m ≠ .rightBrace) :
    (mark m).ReadsValue :=
  readsValue_expect (inside_isMark hm) _ _

@[simp] theorem readsValue_name (tag : DataTag) (wanted : Wanted) : (name tag wanted).ReadsValue :=
  readsValue_expect inside_isName _ _

theorem readsValue_optional {m : Mark} (hm : m ≠ .semicolon ∧ m ≠ .rightBrace)
    (tag : DataTag) {rest : Phrase} (h : rest.ReadsValue) : (optional m tag rest).ReadsValue :=
  ⟨stopsAtDelimiter_significant (inside_isMark hm), ⟨trivial, trivial, h⟩, trivial⟩

theorem readsValue_listUpTo {m : Mark} (hm : m ≠ .semicolon ∧ m ≠ .rightBrace)
    {element : Phrase} (h : element.ReadsValue) : (listUpTo m element).ReadsValue :=
  ⟨stopsAtDelimiter_significant (inside_isMark hm), ⟨trivial, trivial⟩,
    ⟨h, stopsAtDelimiter_significant (inside_isMark (by decide)), rfl, rfl, trivial, trivial, h⟩,
    readsValue_mark hm⟩

@[simp] theorem readsValue_arguments : arguments.ReadsValue :=
  ⟨readsValue_mark (by decide), readsValue_listUpTo (by decide) rfl⟩

@[simp] theorem readsValue_operand : operand.ReadsValue := by
  simp [operand, primary]

@[simp] theorem readsValue_operation : operation.ReadsValue := by
  simp [operation]

@[simp] theorem readsValue_segment (tag : DataTag) : (segment tag).ReadsValue := by
  simp [segment]

/-- A step of a path. -/
theorem stopsAtDelimiter_step :
    StopsAtDelimiter fun ts => pair (isMark .dot) isName ts || next (isMark .leftBracket) ts :=
  (stopsAtDelimiter_pair (inside_isMark (by decide)) inside_isName).or
    (stopsAtDelimiter_next (inside_isMark (by decide)))

end Phrase

open Phrase Lookahead in
/-- **No rule of a value sees what closes the value**, but for the rule of blocks. A block is in
no value of one line, and reading it in front of other text is the subject of other modules. -/
theorem Production.readsValue_body {p : Production} (hp : p.isInValue = true) (hb : p ≠ .block) :
    p.body.ReadsValue := by
  cases p with
  | block => exact absurd rfl hb
  | array => exact ⟨trivial, readsValue_listUpTo (by decide) rfl⟩
  | argument => exact ⟨readsValue_optional (by decide) _ trivial, rfl⟩
  | valuePath =>
    exact ⟨⟨stopsAtDelimiter_isObject, rfl, readsValue_segment _⟩, stopsAtDelimiter_step, rfl, rfl,
      stopsAtDelimiter_pair (inside_isMark (by decide)) inside_isName,
      ⟨trivial, readsValue_segment _⟩, rfl⟩
  | _ => first | (cases hp; done) | simp [body, ReadsValue, seq, isInValue]

end Heddle
