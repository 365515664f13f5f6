import Heddle.Grammar.Rules
import Heddle.Proofs.Grammar.Balanced

/-!
# The rules of the language close what they open

Every rule, read from its opening on, closes each bracket that it has opened before it succeeds,
and what it takes without a look is what its callers have seen. The module goes through the rules
in the order in which they are written. Behind a rule nothing is open, and it ends with a semicolon
only if its construct is `Production.terminated`: **there is nothing in the grammar that goes on
behind the semicolon of a statement**.
-/

set_option autoImplicit false

namespace Heddle

open Lookahead Token

namespace Phrase

variable {given : Lookahead}

/-! ## Types -/

theorem balanced_singleType : Balanced given singleType := by
  refine .behindTrivia ?_
  refine .case (.nodeNext (firm_isMark _) rfl rfl) ?_
  refine .case (.nodeNext (firm_isMark _) rfl rfl) ?_
  refine .case (.nodeNext (firm_isMark _) rfl rfl) ?_
  refine .case ?_ (.case (.nodeNext firm_isName rfl rfl) (.expected _))
  -- Both types that begin with a bracket are opened by it, whatever the look behind it says.
  refine .choose ?_ ?_
  · exact (Balanced.nodeNext (firm_isMark _) rfl rfl).weaken fun _ h => (Bool.and_eq_true_iff.1 h).1
  · exact (Balanced.nodeNext (firm_isMark _) rfl rfl).weaken fun _ h => (Bool.and_eq_true_iff.1 h).1

theorem balanced_type : Balanced given type :=
  .behindTrivia (.either (.nodeUnseen rfl rfl) balanced_singleType)

/-! ## Expressions -/

theorem balanced_primary : Balanced given primary := by
  refine .behindTrivia ?_
  refine .case (.nodeNext firm_isNumber rfl rfl) ?_
  refine .case (.nodeNext firm_isQuoted rfl rfl) ?_
  refine .case (.nodeNext firm_isRawText rfl rfl) ?_
  refine .case (.nodeNext (firm_isMark _) rfl rfl) ?_
  refine .case (.nodeNext (firm_isMark _) rfl rfl) ?_
  refine .case (.nodeNext (firm_isMark _) rfl rfl) ?_
  refine .case (.nodeNext (firm_isMark _) rfl rfl) ?_
  refine .case (.nodeUnseen rfl rfl) ?_
  refine .case (.nodeNext (firm_isMark _) rfl rfl) ?_
  refine .case (.nodeNext (firm_any_isWord _) rfl rfl) ?_
  refine .case (.nodeNext (firm_isWord _) rfl rfl) ?_
  exact .case (.nodeUnseen rfl rfl) (.expected _)

theorem balanced_operand : Balanced given operand :=
  .behindTrivia (.either (.nodeNext (firm_or (firm_isMark _) (firm_isMark _)) rfl rfl)
    balanced_primary)

theorem balanced_operation : Balanced given operation := by
  refine .andThen balanced_operand (.repeating rfl rfl ?_)
  refine .trivia (.andThen (.choose ?_ ?_) balanced_operand) fun ts h => next_dropWhile _ ts ▸ h
  · exact (Balanced.take plain_isOperator _).weaken fun _ h => (Bool.and_eq_true_iff.1 h).2
  · apply (Balanced.take plain_isComparator _).weaken
    intro ts h
    rw [next_or] at h
    exact right_of_not_left h

theorem balanced_arguments : Balanced given arguments :=
  Closes.balanced_mark (.listUpTo rfl (.nodeUnseen rfl rfl)) rfl

theorem balanced_segment (tag : DataTag) : Balanced given (segment tag) := by
  refine .case ?_ (.case (.spacedCalls ?_ ?_) (.case (.take plain_isName _) (.expected _)))
  · refine .node rfl ?_
    intro ts h
    rw [Production.front_of_firm _ firm_isName (next_of_pair h)]
    exact h
  · refine .node rfl ?_
    intro ts h
    rw [Production.front_of_firm _ firm_isName (next_of_isSpacedCall h)]
    exact h
  · exact (Balanced.take plain_isName _).weaken fun _ => next_of_isSpacedCall

/-! ## Selectors -/

/-- A part of a selector that is none of the three others is a filter. -/
theorem next_of_isSelectorPart {ts : List Token} (h : (((isSelectorPart ts &&
    !pair (isMark .dot) isName ts) && !pair (isMark .hash) isName ts) &&
    !pair (isMark .colon) isName ts) = true) : next (isMark .leftBracket) ts = true := by
  simp only [isSelectorPart, Bool.and_eq_true, Bool.not_eq_true', Bool.or_eq_true] at h
  obtain ⟨⟨⟨hs, hd⟩, hh⟩, hc⟩ := h
  rw [hd, hh, hc] at hs
  simpa using hs

theorem balanced_selectorPart : Balanced isSelectorPart selectorPart := by
  have hleft {test : Lookahead} {q : Phrase} {given : Lookahead} (h : Balanced test q) :
      Balanced (fun ts => given ts && test ts) q := h.weaken fun _ h => (Bool.and_eq_true_iff.1 h).2
  refine .choose (hleft ?_) (.choose (hleft ?_) (.choose (hleft ?_) ?_))
  · exact .takeFirst (plain_isMark .dot rfl nofun) _ (.take plain_isName _)
  · exact .takeFirst (plain_isMark .hash rfl nofun) _ (.take plain_isName _)
  · refine .node rfl ?_
    intro ts h
    rw [Production.front_of_firm _ (firm_isMark _) (next_of_pair h)]
    exact h
  · exact (Balanced.nodeNext (firm_isMark .leftBracket) rfl rfl).weaken fun _ h =>
      next_of_isSelectorPart h

theorem balanced_selectorParts : Balanced given selectorParts :=
  .repeating rfl rfl balanced_selectorPart

/-! ## Statements -/

theorem balanced_condition : Balanced given condition :=
  Closes.balanced_mark (.behind (.nodeUnseen rfl rfl) (.mark rfl)) rfl

theorem balanced_optionalFinally : Balanced given optionalFinally :=
  .either (.nodeSignificant rfl rfl rfl) .empty

/-- Under a look ahead the phrase leaves open what was open, and may end with a semicolon. -/
def BalancedToEnd (given : Lookahead) (q : Phrase) : Prop :=
  ∀ (opened : List Mark) (Q : Hold → List Token → Prop) (ts : List Token), given ts = true →
    (∀ done ts, Q ⟨opened, done⟩ ts) → q.wp Q ⟨opened, false⟩ ts

namespace BalancedToEnd

variable {q : Phrase}

theorem of_balanced (h : Balanced given q) : BalancedToEnd given q := fun _ _ _ hg hQ =>
  h _ _ _ hg (hQ false)

theorem behind {first second : Phrase} (h₁ : Balanced given first)
    (h₂ : BalancedToEnd unseen second) :
    BalancedToEnd given (andThen first second) := fun _ _ _ hg hQ =>
  h₁ _ _ _ hg fun _ => h₂ _ _ _ rfl hQ

theorem behindTrivia (h : BalancedToEnd unseen q) : BalancedToEnd given (.andThen .trivia q) :=
  fun _ _ _ _ hQ => ⟨Hold.live_of_not_done _, h _ _ _ rfl hQ⟩

theorem either {test : Lookahead} {yes no : Phrase} (hy : BalancedToEnd test yes)
    (hn : BalancedToEnd unseen no) : BalancedToEnd given (.choose test yes no) := fun _ _ _ _ hQ =>
  ⟨Hold.live_of_not_done _, fun h => hy _ _ _ h hQ, fun _ => hn _ _ _ rfl hQ⟩

theorem case {test : Lookahead} {yes otherwise : Phrase} {cases : List (Lookahead × Phrase)}
    (hy : BalancedToEnd test yes) (ho : BalancedToEnd unseen (oneOf cases otherwise)) :
    BalancedToEnd given (oneOf ((test, yes) :: cases) otherwise) := either hy ho

theorem nodeNext {p : Production} {P : Token → Bool} (hp : Firm P) (ho : p.opening = next P) :
    BalancedToEnd (next P) (.node p) := fun _ _ ts h hQ =>
  ⟨Hold.live_of_not_done _, by rw [p.front_of_firm hp h, ho]; exact h, hQ _⟩

theorem nodeUnseen {p : Production} (ho : p.opening = unseen) : BalancedToEnd given (.node p) :=
  fun _ _ _ _ hQ => ⟨Hold.live_of_not_done _, by rw [ho], hQ _⟩

theorem semicolon : BalancedToEnd given (mark .semicolon) := fun _ _ _ _ hQ =>
  wp_mark (Hold.live_of_not_done _) rfl (hQ true)

theorem terminator : BalancedToEnd given terminator :=
  either (of_balanced .empty) semicolon

theorem bareKeyword {P : Token → Bool} (hp : Plain P) : BalancedToEnd (next P) bareKeyword :=
  behind (.take hp _) terminator

end BalancedToEnd

theorem balancedToEnd_plainStatement : BalancedToEnd given plainStatement :=
  .case (.nodeUnseen rfl) <| .case (.nodeUnseen rfl) <| .case (.nodeUnseen rfl) <| .nodeUnseen rfl

theorem balancedToEnd_statement : BalancedToEnd given statement := by
  refine .behindTrivia ?_
  refine .case (.nodeNext (firm_any_isWord _) rfl) ?_
  refine .case (.nodeNext (firm_any_isWord _) rfl) ?_
  refine .case (.nodeNext (firm_isWord _) rfl) ?_
  refine .case (.nodeNext (firm_isWord _) rfl) ?_
  refine .case (.nodeNext (firm_isWord _) rfl) ?_
  refine .case (.nodeNext (firm_isWord _) rfl) ?_
  refine .case (.nodeNext (firm_isWord _) rfl) ?_
  refine .case (.nodeNext (firm_isWord _) rfl) ?_
  refine .case (.nodeNext (firm_isWord _) rfl) ?_
  refine .case (.nodeNext (firm_isWord _) rfl) ?_
  refine .case (.nodeNext (firm_isWord _) rfl) ?_
  refine .case (.nodeNext (firm_isWord _) rfl) ?_
  refine .case (.of_balanced .orphan) ?_
  refine .case (.nodeNext firm_isForeign rfl) ?_
  refine .case balancedToEnd_plainStatement ?_
  refine .case (.nodeNext (firm_isMark _) rfl) ?_
  exact .case balancedToEnd_plainStatement (.of_balanced (.expected _))

/-- Behind a statement nothing is open that was not open before. -/
theorem wp_statement (ts : List Token) :
    statement.wp (fun g _ => g.opened = []) .start ts :=
  (balancedToEnd_statement : BalancedToEnd unseen statement) [] _ ts rfl fun _ _ => rfl

/-- The statements of a block close what they open, whatever is open around them. -/
theorem balanced_block : Balanced given (seq [.mark .leftBrace, .statements true statement,
    .mark .rightBrace]) := by
  intro opened Q ts _ hQ
  apply wp_mark (Hold.live_of_not_done _) rfl
  intro ts
  exact ⟨rfl, rfl, rfl, rfl, wp_statement, fun ts => wp_mark (.inr nofun) rfl hQ⟩

theorem balanced_branches : Balanced given (.repeating
    (significant fun t => t.isWord "case" || t.isWord "default")
    (.choose (significant (·.isWord "case")) (.node .caseBranch) (.node .defaultBranch))) := by
  refine .repeating rfl rfl (.choose ?_ ?_)
  · exact (Balanced.nodeSignificant rfl rfl rfl).weaken fun _ h => (Bool.and_eq_true_iff.1 h).2
  · apply (Balanced.nodeSignificant rfl rfl rfl).weaken
    intro ts h
    simp only [← next_dropWhile, next_or] at h ⊢
    exact right_of_not_left h

theorem closes_branches : Closes .leftBrace (.choose (significant (isMark .rightBrace))
    (seq [.trivia, .take .punctuation]) (.expected .branchOrEnd)) := by
  intro opened Q ts hQ
  exact ⟨Hold.live_of_not_done _, fun h => Closes.takeSignificant rfl opened h hQ, fun _ => trivial⟩

theorem balanced_foreign : Balanced (next isForeign) .foreign := by
  intro opened Q ts h hQ
  obtain ⟨t, rest, rfl, ht⟩ := exists_of_next h
  exact ⟨t, rest, rfl, ht, hQ rest⟩

theorem balanced_object : Balanced isObject (.node .objectSelector) := by
  refine .node rfl ?_
  intro ts h
  rw [Production.front_of_firm _ (firm_isMark _) (next_of_pair h)]
  exact h

/-- What stands between two selectors. -/
theorem balanced_combination : Balanced (fun ts => isDescendant ts || significant isCombinator ts)
    (.choose isDescendant (.node .descendant) (.node .combinator)) := by
  refine .choose ?_ ?_
  · refine .node rfl ?_
    intro ts h
    obtain ⟨-, hd⟩ := Bool.and_eq_true_iff.1 h
    exact (Bool.and_eq_true_iff.1 hd).1
  · exact (Balanced.nodeSignificant rfl rfl rfl).weaken fun ts h => right_of_not_left h

/-- A further name of a path, or an index. -/
theorem balanced_step :
    Balanced (fun ts => pair (isMark .dot) isName ts || next (isMark .leftBracket) ts)
    (.choose (pair (isMark .dot) isName) (seq [.take .punctuation, segment .propertyName])
      (.node .indexAccessor)) := by
  refine .choose ?_ ?_
  · exact (Balanced.takeFirst (plain_isMark .dot rfl nofun) _ (balanced_segment _).of_unseen).weaken
      fun _ h => (Bool.and_eq_true_iff.1 h).2
  · exact (Balanced.nodeNext (firm_isMark .leftBracket) rfl rfl).weaken fun ts h =>
      right_of_not_left h

end Phrase

open Phrase

/-! ## The rule of each construct

A lemma for each rule that takes more than one step, in the order of the grammar. The constructs
that may end with a semicolon come behind the others, since of them less can be said. -/

namespace Production

/-- From what its callers have seen, the rule of the construct closes what it opens. -/
def BalancedBody (p : Production) : Prop := Balanced p.opening p.body

/-- A keyword that was seen. -/
theorem balanced_keyword {q : Phrase} {word : String} (h : Balanced unseen q) :
    Balanced (next (·.isWord word)) (.andThen (.take .keyword) q) :=
  .andThen (.take (plain_isWord word) _) h

/-- A mark that was seen and opens nothing, in any role. -/
theorem balanced_sign {q : Phrase} {m : Mark} {tag : DataTag}
    (hb : (TokenKind.mark m).isBracket = false) (hm : m ≠ .semicolon) (h : Balanced unseen q) :
    Balanced (next (isMark m)) (.andThen (.take tag) q) :=
  .andThen (.take (plain_isMark m hb hm) _) h

/-! ### Declarations -/

theorem balanced_functionDeclaration : BalancedBody .functionDeclaration := by
  refine .andThen (.either ?_ .empty) <| .andThen (.keyword _) <| .andThen (.name _ _) <|
    Closes.balanced_mark (.andThen (.listUpTo rfl (.nodeUnseen rfl rfl)) <|
      .andThen (.optional .colon rfl nofun _ balanced_type) (.nodeUnseen rfl rfl)) rfl
  exact .take (plain_any_isWord _) _

theorem balanced_parameter : BalancedBody .parameter :=
  .andThen (.name _ _) (.optional .colon rfl nofun _ balanced_type)

/-! ### Branches and loops -/

theorem balanced_ifStatement : BalancedBody .ifStatement :=
  balanced_keyword <| .andThen balanced_condition <|
    .andThen (.nodeUnseen rfl rfl) (.either (.nodeSignificant rfl rfl rfl) .empty)

theorem balanced_elseBranch : BalancedBody .elseBranch :=
  balanced_keyword (.either (.nodeSignificant rfl rfl rfl) (.nodeUnseen rfl rfl))

/-- The brace is opened in front of the branches and closed behind them, so it is the rule itself
that closes it and not one of its phrases. -/
theorem balanced_switchStatement : BalancedBody .switchStatement :=
  balanced_keyword <| .andThen balanced_condition <|
    Closes.balanced_mark (.behind balanced_branches closes_branches) rfl

theorem balanced_caseBranch : BalancedBody .caseBranch :=
  balanced_keyword <| .andThen (.commaSeparated (.nodeUnseen rfl rfl)) (.nodeUnseen rfl rfl)

theorem balanced_loopStatement : BalancedBody .loopStatement :=
  balanced_keyword <| .andThen (.either balanced_condition .empty) <|
    .andThen (.nodeUnseen rfl rfl) balanced_optionalFinally

theorem balanced_forStatement : BalancedBody .forStatement :=
  balanced_keyword <| Closes.balanced_mark (.behind (.name _ _) <| .behind (.keyword _) <|
    .behind (.nodeUnseen rfl rfl) <| .andThen (.mark rfl) <|
    .andThen (.nodeUnseen rfl rfl) balanced_optionalFinally) rfl

/-! ### Rules and selectors -/

theorem balanced_rule : BalancedBody .rule :=
  .andThen (.commaSeparated (.nodeUnseen rfl rfl)) <|
    .andThen (.optional .colon rfl nofun _ .empty) (.nodeUnseen rfl rfl)

theorem balanced_selectorChain : BalancedBody .selectorChain := by
  refine .andThen (.nodeUnseen rfl rfl) (.repeating rfl rfl (.andThen ?_ (.nodeUnseen rfl rfl)))
  exact balanced_combination

theorem balanced_selector : BalancedBody .selector := by
  refine .case ?_ <| .case ?_ <| .case balanced_selectorParts (.expected _)
  · exact .andThen (.take (plain_or plain_isName (plain_isMark .star rfl nofun)) _)
      balanced_selectorParts
  · exact .andThen balanced_object balanced_selectorParts

theorem balanced_flag : BalancedBody .flag :=
  .takeFirst (plain_isMark .colon rfl nofun) _ <|
    .andThen (.take plain_isName _) (.either balanced_arguments .empty)

theorem balanced_objectDefinition : BalancedBody .objectDefinition :=
  balanced_sign rfl nofun <|
    .andThen (.either (.takeSignificantOnly plain_isName _) .empty) (.nodeUnseen rfl rfl)

/-! ### Types -/

theorem balanced_multipleType : BalancedBody .multipleType :=
  .andThen balanced_singleType <| .repeating rfl rfl <|
    .takeSignificant (plain_isMark .pipe rfl nofun) _ balanced_singleType

theorem balanced_functionType : BalancedBody .functionType :=
  Closes.balanced (.andThen (.listUpTo rfl balanced_type) <|
    .andThen (.mark .fatArrow rfl nofun) balanced_singleType) rfl

theorem balanced_mapType : BalancedBody .mapType :=
  Closes.balanced (.behind balanced_type <| .behind (.mark .colon rfl nofun) <|
    .behind balanced_type (.mark rfl)) rfl

/-! ### Values -/

theorem balanced_unary : BalancedBody .unary :=
  .andThen (.take (plain_or (plain_isMark .bang rfl nofun) (plain_isMark .minus rfl nofun)) _)
    balanced_operand

theorem balanced_newObject : BalancedBody .newObject :=
  balanced_keyword <| .andThen (.name _ _) (.either balanced_arguments .empty)

theorem balanced_valuePath : BalancedBody .valuePath := by
  refine .andThen (.either balanced_object (balanced_segment _)) (.repeating rfl rfl ?_)
  exact balanced_step

theorem balanced_functionCall : BalancedBody .functionCall :=
  .andThen ((Balanced.take plain_isName _).weaken fun _ => next_of_pair) balanced_arguments

theorem balanced_singleArgumentCall : BalancedBody .singleArgumentCall :=
  .andThen ((Balanced.take plain_isName _).weaken fun _ => next_of_isSpacedCall)
    (.nodeUnseen rfl rfl)

/-- **A rule that does not end with a semicolon closes what it opens.** The table has a line for
each construct; a quoted text is left out, since it is one token whatever its rule says. -/
theorem balanced_body {p : Production} (hp : p.terminated = false) (hs : p ≠ .string) :
    p.BalancedBody := by
  cases p with
  | block => exact balanced_block
  | functionDeclaration => exact balanced_functionDeclaration
  | parameter => exact balanced_parameter
  | ifStatement => exact balanced_ifStatement
  | elseBranch => exact balanced_elseBranch
  | switchStatement => exact balanced_switchStatement
  | caseBranch => exact balanced_caseBranch
  | defaultBranch => exact balanced_keyword (.nodeUnseen rfl rfl)
  | loopStatement => exact balanced_loopStatement
  | forStatement => exact balanced_forStatement
  | finallyBranch => exact balanced_keyword (.nodeUnseen rfl rfl)
  | configure => exact balanced_keyword (.andThen (.name _ _) (.nodeUnseen rfl rfl))
  | foreign => exact balanced_foreign
  | rule => exact balanced_rule
  | selectorChain => exact balanced_selectorChain
  | combinator => exact .take plain_isCombinator _
  | descendant =>
    exact .andThen (.take plain_isTrivia _) (.repeating rfl rfl (.take plain_isTrivia _))
  | selector => exact balanced_selector
  | objectSelector =>
    exact .takeFirst (plain_isMark .atSign rfl nofun) _ (.take plain_isObjectWord _)
  | flag => exact balanced_flag
  | filter => exact Closes.balanced (.behind (.nodeUnseen rfl rfl) (.mark rfl)) rfl
  | objectDefinition => exact balanced_objectDefinition
  | multipleType => exact balanced_multipleType
  | functionType => exact balanced_functionType
  | pointerType => exact balanced_sign rfl nofun balanced_singleType
  | objectType => exact balanced_sign rfl nofun (.name _ _)
  | mapType => exact balanced_mapType
  | arrayType => exact Closes.balanced (.behind balanced_type (.mark rfl)) rfl
  | namedType => exact .take plain_isName _
  | expression => exact balanced_operation
  | parenthesized => exact Closes.balanced (.behind (.nodeUnseen rfl rfl) (.mark rfl)) rfl
  | unary => exact balanced_unary
  | number => exact .take plain_isNumber _
  | string => exact absurd rfl hs
  | rawString => exact .take plain_isRawText _
  | constant => exact .take (plain_any_isWord _) _
  | color => exact balanced_sign rfl nofun .hexDigits
  | array => exact Closes.balanced (.listUpTo rfl (.nodeUnseen rfl rfl)) rfl
  | newObject => exact balanced_newObject
  | builtinCall => exact balanced_sign rfl nofun (.andThen (.name _ _) balanced_arguments)
  | argument => exact .andThen (.optional .ellipsis rfl nofun _ .empty) (.nodeUnseen rfl rfl)
  | valuePath => exact balanced_valuePath
  | functionCall => exact balanced_functionCall
  | singleArgumentCall => exact balanced_singleArgumentCall
  | indexAccessor => exact Closes.balanced (.behind (.nodeUnseen rfl rfl) (.mark rfl)) rfl
  -- Of the statements that end with a semicolon it does not hold.
  | declaration | assignment | returnStatement | repeatStatement | breakStatement
  | continueStatement | needs | selectorCall | expressionStatement => cases hp

/-- The statements that may end with a semicolon. Only the last of their phrases may, so the others
close what they open. -/
theorem balancedToEnd_body {p : Production} (hp : p.terminated = true) :
    BalancedToEnd p.opening p.body := by
  cases p <;> try cases hp
  case declaration =>
    exact .behind (.take (plain_any_isWord _) _) <| .behind (.name _ _) <|
      .behind (.optional .colon rfl nofun _ balanced_type) <|
      .behind (.optional .equals rfl nofun _ (.nodeUnseen rfl rfl)) .semicolon
  case assignment =>
    refine .behind (.nodeUnseen rfl rfl) <| .behind (.either (.takeSignificantOnly ?_ _)
      (.expected _)) <| .behind (.nodeUnseen rfl rfl) .terminator
    exact plain_or (plain_isMark .colon rfl nofun) (plain_isMark .equals rfl nofun)
  case returnStatement =>
    exact .behind (.take (plain_isWord _) _) <|
      .behind (.either .empty (.nodeUnseen rfl rfl)) .terminator
  case repeatStatement => exact .bareKeyword (plain_isWord _)
  case breakStatement => exact .bareKeyword (plain_isWord _)
  case continueStatement => exact .bareKeyword (plain_isWord _)
  case needs =>
    exact .behind (.take (plain_isWord _) _) <| .behindTrivia <|
      .behind (.either balanced_primary (.nodeUnseen rfl rfl)) .semicolon
  case selectorCall =>
    exact .behind (.nodeUnseen rfl rfl) <| .behind (.mark .arrow rfl nofun) <|
      .behind (.name _ _) <| .behind balanced_arguments .semicolon
  case expressionStatement => exact .behind balanced_operation .semicolon

/-- **Behind every rule nothing is open**, and it ends with a semicolon only where it may. Rules
with a semicolon are gone through one by one; all others are balanced, and then nothing is left to
show. Reading a finished text, an enclosed one and a broken statement each start from this. -/
theorem wp_body {p : Production} (hs : p ≠ .string) {ts : List Token}
    (h : p.opening ts = true) :
    p.body.wp (fun g _ => g.opened = [] ∧ (g.done = true → p.terminated = true)) .start ts := by
  cases hp : p.terminated with
  | false => exact balanced_body hp hs _ _ _ h fun ts => ⟨rfl, nofun⟩
  | true => exact balancedToEnd_body hp _ _ _ h fun done ts => ⟨rfl, fun _ => rfl⟩

end Production

end Heddle
