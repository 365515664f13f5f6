import Heddle.Proofs.Grammar.Rules
import Heddle.Proofs.Grammar.Spelling

/-!
# The rules of the language and their regular expressions

The rule of every construct, read from what its callers have seen of it, spells the regular
expression for the children of its node (`Production.spells_body`). The rules of `Phrase.Spells` do
the work, so the proof for a rule of the language has its form: a sequence, a choice, a list. First
come the phrases that several rules share, then the rules one by one, and then all of them. **When
a rule of the language changes, the lemma about this rule has to change and no other**, unless the
callers of the construct see something else of it.

There are two exceptions. What a quoted text spells is up to its placeholders, which are read in
texts of their own and may fail in them. And that a type with alternatives has at least two can not
be seen from its rule, so it is said here that it has at least one (`Production.spelled`).

What is proved here is a fact about rules as data. `Reading.Derived` turns it into one about
readings: the children of every node that is committed match the regular expression of its kind.
-/

set_option autoImplicit false

namespace Heddle

open Lookahead Token

namespace Phrase

variable {given : Lookahead}

/-! ## Types -/

theorem spells_singleType : Spells given singleType .singleType .plain := by
  refine .behindTrivia ?_
  refine .case (.nodeNext (firm_isMark _) rfl rfl (Rule.mem_nodes (by decide))) ?_
  refine .case (.nodeNext (firm_isMark _) rfl rfl (Rule.mem_nodes (by decide))) ?_
  refine .case (.nodeNext (firm_isMark _) rfl rfl (Rule.mem_nodes (by decide))) ?_
  refine .case (.bracketType (Rule.mem_nodes (by decide)) (Rule.mem_nodes (by decide))) ?_
  exact .case (.nodeNext firm_isName rfl rfl (Rule.mem_nodes (by decide))) (.fails _)

/-- Trivia does not hide a `|`. -/
theorem hasBar_dropWhile (depth : Nat) (ts : List Token) :
    hasBar depth (ts.dropWhile isTrivia) = hasBar depth ts := by
  induction ts with
  | nil => rfl
  | cons t ts ih =>
    cases ht : t.isTrivia with
    | false => rw [List.dropWhile_cons_of_neg (by simp [ht])]
    | true =>
      rw [List.dropWhile_cons_of_pos ht, ih]
      have hm (m : Mark) : t.isMark m = false := by
        rw [isMark]
        rw [isTrivia] at ht
        cases hk : t.kind <;> first | rfl | (rw [hk] at ht; cases ht)
      simp [hasBar, hm, ht]

theorem spells_type : Spells given type .type .type := by
  refine .behindTrivia (.either ?_ ?_)
  · have h : Spells _ (.node .multipleType) .type Production.multipleType.ending :=
      .node (Rule.mem_left (Rule.mem_node _))
    refine h.under fun ts ht => ?_
    exact (hasBar_dropWhile 0 ts).trans ht
  · exact (spells_singleType.weaken fun _ => Rule.mem_right).loosen _

/-! ## Expressions -/

theorem spells_primary : Spells given primary .operand .plain := by
  refine .behindTrivia ?_
  refine .case (.nodeNext firm_isNumber rfl rfl (Rule.mem_nodes (by decide))) ?_
  refine .case (.nodeNext firm_isQuoted rfl rfl (Rule.mem_nodes (by decide))) ?_
  refine .case (.nodeNext firm_isRawText rfl rfl (Rule.mem_nodes (by decide))) ?_
  refine .case (.nodeNext (firm_isMark _) rfl rfl (Rule.mem_nodes (by decide))) ?_
  refine .case (.nodeNext (firm_isMark _) rfl rfl (Rule.mem_nodes (by decide))) ?_
  refine .case (.nodeNext (firm_isMark _) rfl rfl (Rule.mem_nodes (by decide))) ?_
  refine .case (.nodeNext (firm_isMark _) rfl rfl (Rule.mem_nodes (by decide))) ?_
  refine .case (.nodeUnseen rfl rfl (Rule.mem_nodes (by decide))) ?_
  refine .case (.nodeNext (firm_isMark _) rfl rfl (Rule.mem_nodes (by decide))) ?_
  refine .case (.nodeNext (firm_any_isWord _) rfl rfl (Rule.mem_nodes (by decide))) ?_
  refine .case (.nodeNext (firm_isWord _) rfl rfl (Rule.mem_nodes (by decide))) ?_
  exact .case (.nodeUnseen rfl rfl (Rule.mem_nodes (by decide))) (.fails _)

/-- Where a text in quotes of any kind was seen, a value is that text. -/
theorem spells_text : Spells (next fun t => t.isQuoted || t.isRawText) primary
    (.nodes [.string, .rawString, .valuePath]) .plain := by
  have hnumber (t : Token) (h : (t.isQuoted || t.isRawText) = true) : t.kind.isNumber = false := by
    cases hk : t.kind <;>
      first | rfl | simp [isQuoted, isRawText, TokenKind.placeholders?, hk] at h
  refine .trivia (fun ts h => (dropWhile_of_firm (firm_or firm_isQuoted firm_isRawText) h).symm ▸ h)
    (.choose (.impossible (fun ts => ?_) _ _ _) (.choose ?_ (.choose ?_ (.impossible ?_ _ _ _))))
  · cases ts with
    | nil => rfl
    | cons t ts =>
      cases h : t.isQuoted || t.isRawText with
      | true => simp [next, hnumber t h]
      | false => simp [next, h]
  · exact .under (.nodeNext firm_isQuoted rfl rfl (Rule.mem_nodes (by decide))) fun _ h =>
      (Bool.and_eq_true_iff.1 h).2
  · exact .under (.nodeNext firm_isRawText rfl rfl (Rule.mem_nodes (by decide))) fun _ h =>
      (Bool.and_eq_true_iff.1 h).2
  · intro ts
    rw [next_or]
    cases next isQuoted ts <;> cases next isRawText ts <;> simp

theorem spells_operand : Spells given operand .operand .plain := by
  refine .behindTrivia (.either ?_ spells_primary)
  exact .nodeNext (firm_or (firm_isMark _) (firm_isMark _)) rfl rfl (Rule.mem_nodes (by decide))

/-- One of several marks, in a role in which its text counts. -/
theorem spells_marks {ms : List Mark} {tag : DataTag} {rule : Mark → Rule}
    (hr : ∀ m, rule m = .char (.sign tag m.spelling))
    (h : ∀ text, Symbol.ofChild tag text = [.sign tag text]) :
    Token.Spells (fun t => ms.any t.isMark) tag (.anyOf (ms.map rule)) := by
  intro t hs ht
  obtain ⟨m, hm, hk⟩ := List.any_eq_true.1 ht
  refine Rule.mem_anyOf (List.mem_map_of_mem hm) ?_
  rw [hr]
  exact Token.Spells.sign h t hs hk

theorem spells_operation : Spells given operation .operation .plain := by
  refine .andThen spells_operand (.of_unseen (.repeating rfl rfl ?_))
  refine .trivia (fun ts h => (next_dropWhile _ ts).trans h)
    (.andThen (.choose ?_ ?_) spells_operand)
  · refine .under (.take (.of_plain plain_isOperator) ?_) fun _ h => (Bool.and_eq_true_iff.1 h).2
    exact (spells_marks (fun _ => rfl) fun _ => rfl).weaken fun _ => Rule.mem_left
  · refine .under (.take (.of_plain plain_isComparator) ?_) fun ts h => ?_
    · exact (spells_marks (fun _ => rfl) fun _ => rfl).weaken fun _ => Rule.mem_right
    · rw [next_or] at h
      exact right_of_not_left h

theorem spells_arguments : Spells given arguments .arguments .plain :=
  .andThen (.mark nofun) (.listUpTo nofun (.onlyNode rfl rfl))

theorem spells_segment {tag : DataTag} (h : ∀ text, Symbol.ofChild tag text = [.data tag]) :
    Spells given (segment tag) (.segment tag) .plain := by
  have hname : Spells (next isName) (.take tag) (.segment tag) .plain :=
    .take (.of_plain plain_isName)
      ((Token.Spells.data firm_isName h).weaken fun _ => Rule.mem_right)
  refine .case ?_ (.case (.spacedCalls ?_ ?_) (.case hname (.fails _)))
  · refine .nodeSeen (fun ts hs => ?_) rfl (Rule.mem_left (Rule.mem_nodes (by decide)))
    rw [Production.front_of_firm _ firm_isName (next_of_pair hs)]
    exact hs
  · refine .nodeSeen (fun ts hs => ?_) rfl (Rule.mem_left (Rule.mem_nodes (by decide)))
    rw [Production.front_of_firm _ firm_isName (next_of_isSpacedCall hs)]
    exact hs
  · exact hname.under fun _ => next_of_isSpacedCall

/-! ## Selectors -/

theorem spells_selectorPart : Spells isSelectorPart selectorPart .selectorPart .plain := by
  have hseen {test : Lookahead} {q : Phrase} {r : Rule} {given : Lookahead}
      (h : Spells test q r .plain) (hr : r.matches' ≤ Rule.selectorPart.matches') :
      Spells (fun ts => given ts && test ts) q .selectorPart .plain :=
    (h.weaken hr).under fun _ h => (Bool.and_eq_true_iff.1 h).2
  refine .choose (hseen ?_ fun _ => Rule.mem_anyOf (.head _)) (.choose
    (hseen ?_ fun _ => Rule.mem_anyOf (.tail _ (.head _))) (.choose (hseen ?_ fun _ => id) ?_))
  · exact .takeFirst (inner_isMark nofun) (.sign fun _ => rfl)
      (.take (.of_plain plain_isName) (.data firm_isName fun _ => rfl))
  · exact .takeFirst (inner_isMark nofun) (.sign fun _ => rfl)
      (.take (.of_plain plain_isName) (.data firm_isName fun _ => rfl))
  · refine .nodeSeen (fun ts hs => ?_) rfl
      (Rule.mem_anyOf (.tail _ (.tail _ (.head _))) (Rule.mem_nodes (by decide)))
    rw [Production.front_of_firm _ (firm_isMark _) (next_of_pair hs)]
    exact hs
  · exact .under (.nodeNext (firm_isMark .leftBracket) rfl rfl
      (Rule.mem_anyOf (.tail _ (.tail _ (.head _))) (Rule.mem_nodes (by decide)))) fun _ h =>
        next_of_isSelectorPart h

theorem spells_selectorParts : Spells given selectorParts (.many .selectorPart) .plain :=
  .of_unseen (.repeating rfl rfl spells_selectorPart)

/-! ## Statements -/

theorem spells_terminator : Spells given terminator .terminator .semicolon :=
  .either (.none Rule.nil_mem_opt) (Spells.semicolon.weaken fun _ => Rule.mem_right)

theorem spells_condition : Spells given condition .condition .plain :=
  .andThen (.mark nofun) (.andThen (.onlyNode rfl rfl) (.mark nofun))

theorem spells_optionalFinally :
    Spells given optionalFinally (.opt (.node .finallyBranch)) .plain :=
  .either (.nodeSignificant rfl rfl rfl (Rule.mem_right (Rule.mem_node _)))
    (.none Rule.nil_mem_opt)

/-- A statement may end with its semicolon or not. Either way nothing of its rule follows the
semicolon, so what it spells is the node alone. -/
theorem spells_statementNode {p : Production}
    (hg : ∀ ts, given ts = true → p.seen (p.front ts) = true)
    (he : p.ending = .plain ∨ p.ending = .semicolon) {r : Rule} (h : [.node p.kind] ∈ r.matches') :
    Spells given (.node p) r .semicolon := by
  have hn : Spells _ (.node p) r p.ending := .node h
  rcases he with he | he
  · rw [he] at hn
    exact (hn.loosen _).under hg
  · rw [he] at hn
    exact hn.under hg

theorem spells_statementNext {p : Production} {P : Token → Bool} (hp : Firm P)
    (ho : p.seen = next P) (he : p.ending = .plain ∨ p.ending = .semicolon)
    (h : [.node p.kind] ∈ Rule.statement.matches') :
    Spells (next P) (.node p) .statement .semicolon :=
  spells_statementNode (fun ts hs => by rw [p.front_of_firm hp hs, ho]; exact hs) he h

theorem spells_plainStatement : Spells given plainStatement .statement .semicolon :=
  .case (spells_statementNode (fun _ _ => rfl) (by decide) (Rule.mem_nodes (by decide))) <|
  .case (spells_statementNode (fun _ _ => rfl) (by decide) (Rule.mem_nodes (by decide))) <|
  .case (spells_statementNode (fun _ _ => rfl) (by decide) (Rule.mem_nodes (by decide))) <|
  spells_statementNode (fun _ _ => rfl) (by decide) (Rule.mem_nodes (by decide))

theorem spells_statement : Spells given statement .statement .semicolon := by
  refine .behindTrivia ?_
  refine .case (spells_statementNext (firm_any_isWord _) rfl (by decide)
    (Rule.mem_nodes (by decide))) ?_
  refine .case (spells_statementNext (firm_any_isWord _) rfl (by decide)
    (Rule.mem_nodes (by decide))) ?_
  iterate 10
    refine .case (spells_statementNext (firm_isWord _) rfl (by decide)
      (Rule.mem_nodes (by decide))) ?_
  refine .case (((Spells.orphan _).loosen _).of_unseen) ?_
  refine .case (spells_statementNext firm_isForeign rfl (by decide) (Rule.mem_nodes (by decide))) ?_
  refine .case spells_plainStatement ?_
  refine .case (spells_statementNext (firm_isMark _) rfl (by decide)
    (Rule.mem_nodes (by decide))) ?_
  exact .case spells_plainStatement (.fails _)

end Phrase

open Phrase

/-- The regular expression that the rule of a construct spells. It is the one of its kind, but for
a type with alternatives: that there are at least two of them is known from the look in front and
not from the rule. -/
def Production.spelled : Production → Rule
  | multipleType => Rule.singleType * .many (.operator .pipe * Rule.singleType)
  | p => p.kind.children

/-! ## The rule of each construct -/

/-- An option that is a type behind a colon. -/
theorem Phrase.spells_typed {given : Lookahead} :
    Spells given (.optional .colon .punctuation Phrase.type)
      (.opt (.mark .colon * .type)) .type :=
  .optional nofun (.sign fun _ => rfl) spells_type

/-- A keyword that was seen. -/
theorem Phrase.spells_keyword {q : Phrase} {P : Token → Bool} (hp : Plain P) (hf : Firm P)
    {r : Rule} {e : Ending} (h : Spells unseen q r e) :
    Spells (next P) (.andThen (.take .keyword) q) (.data .keyword * r) e :=
  .andThen (.take (.of_plain hp) (.data hf fun _ => rfl)) h

/-- A mark that was seen, as punctuation. -/
theorem Phrase.spells_sign {q : Phrase} {m : Mark} (hm : m ≠ .semicolon) {r : Rule} {e : Ending}
    (h : Spells unseen q r e) :
    Spells (next (isMark m)) (.andThen (.take .punctuation) q) (.mark m * r) e :=
  .andThen (.take (inner_isMark hm) (.sign fun _ => rfl)) h

/-- A keyword that is a statement of its own. -/
theorem Phrase.spells_bareKeyword {word : String} :
    Spells (next (·.isWord word)) bareKeyword .bareKeyword .semicolon :=
  spells_keyword (plain_isWord _) (firm_isWord _) spells_terminator

/-- Marks that have nothing to do with types. -/
theorem Token.not_isOfType {m : Mark} (h : m ∈ [Mark.rightParen, .rightBracket, .colon, .comma,
    .equals, .semicolon]) (t : Token) (ht : t.isMark m = true) : t.isOfType = false := by
  have hk := kind_of_isMark ht
  simp only [List.mem_cons, List.not_mem_nil, or_false] at h
  rcases h with rfl | rfl | rfl | rfl | rfl | rfl <;> simp [isOfType, isMark, isName, hk]

/-- Trivia between two selectors: the blanks of it combine them. -/
theorem Token.spells_blank : Token.Spells isTrivia .combinator (.many (.data .combinator)) := by
  intro t _ ht
  rw [isTrivia] at ht
  rw [Token.symbols]
  cases hk : t.kind <;> rw [hk] at ht <;> try cases ht
  case blank => exact Rule.mem_one rfl
  case lineComment => exact Rule.nil_mem_many
  case blockComment => exact Rule.nil_mem_many

/-! ## The rules of single constructs

A lemma for each rule that takes more than one step, in the order of the grammar. All of them are
put together in `Production.spells_body`. -/

namespace Production

/-- The rule of the construct spells its regular expression, from what its callers have seen. The
lemmas below prove it rule by rule; `spells_body` is the only one that others use. -/
def SpellsBody (p : Production) : Prop := Spells p.seen p.body p.spelled p.ending

/-! ### Blocks and declarations -/

theorem spells_block : SpellsBody .block :=
  .block (.mark (by decide)) rfl rfl spells_statement (.mark (by decide))

/-- A type that is none would be refused by whatever follows it: by the `=` of a value, or by the
semicolon if there is no value. -/
theorem spells_declaration : SpellsBody .declaration := by
  refine spells_keyword (plain_any_isWord _) (firm_any_isWord _) <|
    .andThen (.name (fun _ => rfl) _) <| .refusing spells_typed ?_ <|
    .andThen (.optional (by decide) (.sign fun _ => rfl) (.onlyNode rfl rfl)) .semicolon
  exact .optional (not_isOfType (by decide)) _ _ (.mark (not_isOfType (by decide)))

theorem spells_assignment : SpellsBody .assignment := by
  refine .andThen (.onlyNode rfl rfl) <| .andThen (.either ?_ (.fails _)) <|
    .andThen (.onlyNode rfl rfl) spells_terminator
  refine .takeSignificantOnly ?_ (.either ?_ ?_)
  · exact .of_plain (plain_or (plain_isMark .colon rfl nofun) (plain_isMark .equals rfl nofun))
  · exact (Token.Spells.sign fun _ => rfl).weaken fun _ => Rule.mem_left
  · exact (Token.Spells.sign fun _ => rfl).weaken fun _ => Rule.mem_right

/-- The parameters may end with a type that is none, and so may the result; the closing parenthesis
refuses the one and the block the other. -/
theorem spells_functionDeclaration : SpellsBody .functionDeclaration := by
  refine .andThen (.either ?_ (.none Rule.nil_mem_opt)) <| .andThen (.keyword _) <|
    .andThen (.name (fun _ => rfl) _) <| .andThen (.mark (by decide)) <|
    .andThen (.typesUpTo (by decide) (not_isOfType (by decide)) ?_) <|
    .refusing spells_typed .block (.onlyNode rfl rfl)
  · exact .weaken (.take (.of_plain (plain_any_isWord _))
      (.data (firm_any_isWord _) fun _ => rfl)) fun _ => Rule.mem_right
  · exact (Spells.node (Rule.mem_node _) : Spells _ (.node .parameter) _ _).under fun _ _ => rfl

/-! ### Branches and loops -/

theorem spells_ifStatement : SpellsBody .ifStatement :=
  spells_keyword (plain_isWord _) (firm_isWord _) <| .andThen spells_condition <|
    .andThen (.onlyNode rfl rfl) <| .either
      (.nodeSignificant rfl rfl rfl (Rule.mem_right (Rule.mem_node _))) (.none Rule.nil_mem_opt)

theorem spells_elseBranch : SpellsBody .elseBranch :=
  spells_keyword (plain_isWord _) (firm_isWord _) <| .either
    (.nodeSignificant rfl rfl rfl (Rule.mem_nodes (by decide)))
    (.nodeUnseen rfl rfl (Rule.mem_nodes (by decide)))

/-- The loop over branches has seen that one of two keywords follows, so where it is not the first
one it is the second. -/
theorem spells_switchStatement : SpellsBody .switchStatement := by
  refine spells_keyword (plain_isWord _) (firm_isWord _) <| .andThen spells_condition <|
    .andThen (.mark (by decide)) <| .andThen (.of_unseen (.repeating rfl rfl (.choose ?_ ?_))) <|
    .either (.takeSignificantOnly (inner_isMark (by decide)) (.sign fun _ => rfl)) (.fails _)
  · exact .under (.nodeSignificant rfl rfl rfl (Rule.mem_nodes (by decide))) fun _ h =>
      (Bool.and_eq_true_iff.1 h).2
  · refine .under (.nodeSignificant rfl rfl rfl (Rule.mem_nodes (by decide))) fun ts h => ?_
    simp only [← next_dropWhile, next_or] at h ⊢
    exact right_of_not_left h

theorem spells_caseBranch : SpellsBody .caseBranch :=
  spells_keyword (plain_isWord _) (firm_isWord _) <|
    .andThen (.commaSeparated (.onlyNode rfl rfl)) (.onlyNode rfl rfl)

theorem spells_loopStatement : SpellsBody .loopStatement :=
  spells_keyword (plain_isWord _) (firm_isWord _) <|
    .andThen (.either (spells_condition.weaken fun _ => Rule.mem_right)
      (.none Rule.nil_mem_opt)) <|
    .andThen (.onlyNode rfl rfl) spells_optionalFinally

theorem spells_forStatement : SpellsBody .forStatement :=
  spells_keyword (plain_isWord _) (firm_isWord _) <| .andThen (.mark (by decide)) <|
    .andThen (.name (fun _ => rfl) _) <| .andThen (.keyword _) <|
    .andThen (.onlyNode rfl rfl) <| .andThen (.mark (by decide)) <|
    .andThen (.onlyNode rfl rfl) spells_optionalFinally

theorem spells_returnStatement : SpellsBody .returnStatement := by
  refine spells_keyword (plain_isWord _) (firm_isWord _) <|
    .andThen (.either (.none Rule.nil_mem_opt) ?_) spells_terminator
  exact .nodeUnseen rfl rfl (Rule.mem_right (Rule.mem_node _))

/-- What is needed is named by a text or by a path. That a text was seen leaves only some of the
values (`spells_text`). -/
theorem spells_needs : SpellsBody .needs := by
  refine spells_keyword (plain_isWord _) (firm_isWord _) <| .behindTrivia <|
    .andThen (.either ?_ (.nodeUnseen rfl rfl (Rule.mem_nodes (by decide)))) .semicolon
  exact spells_text

theorem spells_configure : SpellsBody .configure :=
  spells_keyword (plain_isWord _) (firm_isWord _) <|
    .andThen (.name (fun _ => rfl) _) (.onlyNode rfl rfl)

/-! ### Rules and selectors -/

theorem spells_rule : SpellsBody .rule := by
  refine .andThen (.commaSeparated (.onlyNode rfl rfl)) <|
    .andThen (.either ?_ (.none Rule.nil_mem_opt)) (.onlyNode rfl rfl)
  exact (Spells.takeOnly (inner_isMark (by decide)) (.sign fun _ => rfl)).weaken fun _ =>
    Rule.mem_right

theorem spells_selectorCall : SpellsBody .selectorCall :=
  .andThen (.onlyNode rfl rfl) <| .andThen (.mark (by decide)) <|
    .andThen (.name (fun _ => rfl) _) <| .andThen spells_arguments .semicolon

/-- Between two selectors stands a combinator, or nothing but trivia. The look ahead of the loop
says that there is one of the two. -/
theorem spells_selectorChain : SpellsBody .selectorChain := by
  refine .andThen (.onlyNode rfl rfl) (.of_unseen (.repeating rfl rfl
    (.andThen (.choose ?_ ?_) (.onlyNode rfl rfl))))
  · refine .nodeSeen (fun ts h => ?_) rfl (Rule.mem_node _)
    obtain ⟨-, hd⟩ := Bool.and_eq_true_iff.1 h
    exact (Bool.and_eq_true_iff.1 hd).1
  · exact .under (.nodeSignificant rfl rfl rfl (Rule.mem_node _)) fun ts h => right_of_not_left h

theorem spells_combinator : SpellsBody .combinator :=
  .take (.of_plain plain_isCombinator)
    ((Token.Spells.data firm_isCombinator fun _ => rfl).weaken fun _ => Rule.mem_one)

/-- Trivia that combines selectors: the first token of it was seen, and all the others are taken by
a loop. Both spell any number of pieces, so together they do. -/
theorem spells_descendant : SpellsBody .descendant := by
  have h : Spells (next isTrivia) (.take .combinator) (.many (.data .combinator)) .plain :=
    .take (.of_plain plain_isTrivia) spells_blank
  exact (Spells.andThen h ((Spells.repeating rfl rfl h).weaken Rule.many_many)).weaken
    Rule.many_mul_many

/-- A selector begins with a name or a star, with an object in parentheses, or with a part that
could also follow these; in the last case there is at least one part. -/
theorem spells_selector : SpellsBody .selector := by
  refine .case ?_ (.case ?_ (.case ?_ (.fails _)))
  · refine .weaken (.andThen (.take ?_ ?_) spells_selectorParts) fun _ => Rule.mem_left
    · exact .of_plain (plain_or plain_isName (plain_isMark .star rfl nofun))
    · exact (Token.Spells.data (firm_or firm_isName (firm_isMark _)) fun _ => rfl).weaken
        fun _ => Rule.mem_left
  · refine .weaken (.andThen (.nodeSeen (fun ts hs => ?_) rfl (Rule.mem_right (Rule.mem_node _)))
      spells_selectorParts) fun _ => Rule.mem_left
    rw [Production.front_of_firm _ (firm_isMark _) (next_of_pair hs)]
    exact hs
  · exact (Spells.repeatingSeen rfl rfl spells_selectorPart).weaken fun _ => Rule.mem_right

theorem spells_objectSelector : SpellsBody .objectSelector :=
  .takeFirst (inner_isMark (by decide)) (.sign fun _ => rfl)
    (.take (.of_plain plain_isObjectWord)
      (.data (fun t ht => firm_isName t (Bool.and_eq_true_iff.1 ht).1) fun _ => rfl))

theorem spells_flag : SpellsBody .flag := by
  refine .takeFirst (inner_isMark (by decide)) (.sign fun _ => rfl) <|
    .andThen (.take (.of_plain plain_isName) (.data firm_isName fun _ => rfl)) <|
    .either (spells_arguments.weaken fun _ => Rule.mem_right) (.none Rule.nil_mem_opt)

theorem spells_objectDefinition : SpellsBody .objectDefinition := by
  refine spells_sign (by decide) <| .andThen (.either ?_ (.none Rule.nil_mem_opt))
    (.onlyNode rfl rfl)
  exact (Spells.takeSignificantOnly (.of_plain plain_isName)
    (.data firm_isName fun _ => rfl)).weaken fun _ => Rule.mem_right

/-! ### Types -/

/-- That there is a `|` was seen from further in front, so here the alternatives may turn out to be
only one. -/
theorem spells_multipleType : SpellsBody .multipleType := by
  have h : Spells unseen Production.multipleType.body Production.multipleType.spelled .plain :=
    .andThen spells_singleType (.further (by decide) (.sign fun _ => rfl) spells_singleType)
  exact (h.loosen _).of_unseen

theorem spells_functionType : SpellsBody .functionType :=
  spells_sign (by decide) <|
    .andThen (.typesUpTo (by decide) (not_isOfType (by decide)) spells_type) <|
    .andThen (.mark (by decide)) spells_singleType

theorem spells_mapType : SpellsBody .mapType :=
  spells_sign (by decide) <|
    .refusing spells_type (.andThen _ (.mark (not_isOfType (by decide)))) <|
    .andThen (.mark (by decide)) <|
    .refusing spells_type (.mark (not_isOfType (by decide))) (.mark (by decide))

theorem spells_arrayType : SpellsBody .arrayType :=
  spells_sign (by decide) <|
    .refusing spells_type (.mark (not_isOfType (by decide))) (.mark (by decide))

/-! ### Values -/

theorem spells_expression : SpellsBody .expression := by
  refine (spells_operation.weaken fun w hw => Rule.mem_left ?_).of_unseen
  exact w.append_nil ▸ Rule.mem_seq hw Rule.nil_mem_opt

theorem spells_expressionStatement : SpellsBody .expressionStatement := by
  refine ((Spells.andThen spells_operation Spells.semicolon).weaken fun w hw => ?_).of_unseen
  exact Rule.mem_left (Rule.mem_mono le_rfl (fun _ => Rule.mem_right) hw)

theorem spells_parenthesized : SpellsBody .parenthesized := by
  refine Spells.weaken ?_ fun _ => Rule.mem_right
  exact spells_sign (by decide) <| .andThen (.onlyNode rfl rfl) (.mark (by decide))

theorem spells_unary : SpellsBody .unary := by
  refine .andThen (.take ?_ (.either ?_ ?_)) spells_operand
  · exact .of_plain (plain_or (plain_isMark .bang rfl nofun) (plain_isMark .minus rfl nofun))
  · exact (Token.Spells.sign fun _ => rfl).weaken fun _ => Rule.mem_left
  · exact (Token.Spells.sign fun _ => rfl).weaken fun _ => Rule.mem_right

theorem spells_newObject : SpellsBody .newObject :=
  spells_keyword (plain_isWord _) (firm_isWord _) <| .andThen (.name (fun _ => rfl) _) <|
    .either (spells_arguments.weaken fun _ => Rule.mem_right) (.none Rule.nil_mem_opt)

theorem spells_argument : SpellsBody .argument := by
  refine .andThen (.either ?_ (.none Rule.nil_mem_opt)) (.onlyNode rfl rfl)
  exact (Spells.takeOnly (inner_isMark (by decide)) (.sign fun _ => rfl)).weaken fun _ =>
    Rule.mem_right

/-- A path begins with a call on an object or with a segment. Behind it the loop has seen a dot or a
bracket, so what is not the one is the other. -/
theorem spells_valuePath : SpellsBody .valuePath := by
  refine .andThen (.either ?_ ((spells_segment fun _ => rfl).weaken fun _ => Rule.mem_right)) ?_
  · refine .nodeSeen (fun ts hs => ?_) rfl (Rule.mem_left (Rule.mem_node _))
    rw [Production.front_of_firm _ (firm_isMark _) (next_of_pair hs)]
    exact hs
  · refine .of_unseen (.repeating rfl rfl (.choose ?_ ?_))
    · refine .under ?_ fun _ h => (Bool.and_eq_true_iff.1 h).2
      exact (Spells.takeFirst (inner_isMark (by decide)) (.sign fun _ => rfl)
        (spells_segment fun _ => rfl)).weaken fun _ => Rule.mem_left
    · refine .under (.nodeNext (firm_isMark .leftBracket) rfl rfl
        (Rule.mem_right (Rule.mem_node _))) fun ts h => ?_
      exact right_of_not_left h

theorem spells_functionCall : SpellsBody .functionCall :=
  .takeFirst (.of_plain plain_isName) (.data firm_isName fun _ => rfl)
    spells_arguments

theorem spells_singleArgumentCall : SpellsBody .singleArgumentCall :=
  .under (.andThen (.take (.of_plain plain_isName) (.data firm_isName fun _ => rfl))
    (.onlyNode rfl rfl)) fun _ => next_of_isSpacedCall

/-- **The rule of every construct spells its regular expression.** Only the rule of a text in quotes
has to be gone through elsewhere. -/
theorem spells_body {p : Production} (hs : p ≠ .string) : p.SpellsBody := by
  cases p with
  | string => exact absurd rfl hs
  -- Rules of one or two steps are spelled here, the others by a lemma of their own above.
  | block => exact spells_block
  | declaration => exact spells_declaration
  | assignment => exact spells_assignment
  | functionDeclaration => exact spells_functionDeclaration
  | parameter => exact .andThen (.name (fun _ => rfl) _) spells_typed
  | ifStatement => exact spells_ifStatement
  | elseBranch => exact spells_elseBranch
  | switchStatement => exact spells_switchStatement
  | caseBranch => exact spells_caseBranch
  | defaultBranch => exact spells_keyword (plain_isWord _) (firm_isWord _) (.onlyNode rfl rfl)
  | loopStatement => exact spells_loopStatement
  | forStatement => exact spells_forStatement
  | finallyBranch => exact spells_keyword (plain_isWord _) (firm_isWord _) (.onlyNode rfl rfl)
  | returnStatement => exact spells_returnStatement
  | repeatStatement => exact spells_bareKeyword
  | breakStatement => exact spells_bareKeyword
  | continueStatement => exact spells_bareKeyword
  | needs => exact spells_needs
  | configure => exact spells_configure
  | foreign => exact .foreign
  | rule => exact spells_rule
  | selectorCall => exact spells_selectorCall
  | selectorChain => exact spells_selectorChain
  | combinator => exact spells_combinator
  | descendant => exact spells_descendant
  | selector => exact spells_selector
  | objectSelector => exact spells_objectSelector
  | flag => exact spells_flag
  | filter => exact spells_sign (by decide) <| .andThen (.onlyNode rfl rfl) (.mark (by decide))
  | objectDefinition => exact spells_objectDefinition
  | multipleType => exact spells_multipleType
  | functionType => exact spells_functionType
  | pointerType =>
    exact .andThen (.take (inner_isMark (by decide)) (.sign fun _ => rfl)) spells_singleType
  | objectType => exact spells_sign (by decide) (.name (fun _ => rfl) _)
  | mapType => exact spells_mapType
  | arrayType => exact spells_arrayType
  | namedType => exact .take (.of_plain plain_isName) (.data firm_isName fun _ => rfl)
  | expression => exact spells_expression
  | expressionStatement => exact spells_expressionStatement
  | parenthesized => exact spells_parenthesized
  | unary => exact spells_unary
  | number => exact .take (.of_plain plain_isNumber) (.data firm_isNumber fun _ => rfl)
  | rawString => exact .take (.of_plain plain_isRawText) (.data firm_isRawText fun _ => rfl)
  | constant =>
    exact .take (.of_plain (plain_any_isWord _)) (.data (firm_any_isWord _) fun _ => rfl)
  | color => exact spells_sign (by decide) (.hexDigits rfl)
  | array => exact spells_sign (by decide) (.listUpTo (by decide) (.onlyNode rfl rfl))
  | newObject => exact spells_newObject
  | builtinCall =>
    exact spells_sign (by decide) <| .andThen (.name (fun _ => rfl) _) spells_arguments
  | argument => exact spells_argument
  | valuePath => exact spells_valuePath
  | functionCall => exact spells_functionCall
  | singleArgumentCall => exact spells_singleArgumentCall
  | indexAccessor =>
    exact spells_sign (by decide) <| .andThen (.onlyNode rfl rfl) (.mark (by decide))

end Production

end Heddle
