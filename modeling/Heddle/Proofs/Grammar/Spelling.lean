import Heddle.Proofs.Grammar.Pending
import Heddle.Proofs.Tree.Derivation

/-!
# What a phrase spells

A phrase that is read successfully leaves behind some children of a node: data in roles and nodes.
`Phrase.Spells` says which, by rules that follow the form of phrases: under a look ahead, the
phrase spells a regular expression over children. The rules of the language are gone through once,
in another module, and what can be concluded from a spelling is proved once for each rule here and
not once for each rule of the language.

A spelling also says how the phrase may end. Most phrases end `plain`. A phrase may end with a
semicolon, and then nothing of its rule follows. And it may end with a type that is none: a look
ahead can see a `|` on the level of a type, and there is something in front of the `|` that does
not belong to the type. Such a type is a type with alternatives that has only one. **It is never
part of a tree**, because what stands in front of the `|` is nothing that can follow a type; for
this, whatever follows a type in a rule has to refuse it (`Phrase.Refuses`).
-/

set_option autoImplicit false

namespace Heddle

open Lookahead Token

/-- How a phrase may end. It is what `Spells` has to know besides the expression, since two of the
three endings forbid that anything follows. -/
inductive Ending where
  | plain
  /-- Perhaps with a semicolon, behind which the rule ends. -/
  | semicolon
  /-- Perhaps with a type that is none. -/
  | type
deriving DecidableEq, Repr

theorem Ending.plain_ne_semicolon : plain ≠ semicolon := nofun

theorem Ending.type_ne_semicolon : type ≠ semicolon := nofun

namespace Token

/-- A mark has the text of its kind. -/
def IsSpelled (t : Token) : Prop := ∀ m, t.kind = .mark m → t.text = m.spelling

/-- The token as a child, taken in a role. -/
def symbols (tag : DataTag) (t : Token) : List Symbol := Symbol.ofChild (t.kind.role tag) t.text

/-- Whatever token is taken in the role, it is what the rule says. -/
def Spells (P : Token → Bool) (tag : DataTag) (r : Rule) : Prop :=
  ∀ t : Token, t.IsSpelled → P t = true → t.symbols tag ∈ r.matches'

/-- No token ends a statement. -/
def Inner (P : Token → Bool) : Prop := ∀ t, P t = true → t.kind ≠ .mark .semicolon

/-- The tokens that `hasBar` passes over on its own level: all of them are, or belong to, types. -/
def isOfType (t : Token) : Bool :=
  t.isMark .leftParen || t.isMark .leftBracket || t.isName || t.isMark .atSign ||
    t.isMark .ampersand || t.isMark .fatArrow

end Token

/-- Something that belongs to a type follows. Behind a whole type, nothing that does can be read. -/
def Lookahead.typeGoesOn : Lookahead := significant isOfType

/-- What every caller of a construct has seen of it, the bar of a type included. Apart from that
it is `Production.opening`. -/
def Production.seen : Production → Lookahead
  | multipleType => isMultipleType
  | p => p.opening

/-- How a construct may end. -/
def Production.ending (p : Production) : Ending :=
  if p.terminated then .semicolon
  else if p = .multipleType ∨ p = .parameter then .type
  else .plain

namespace Phrase

/-- The phrase fails in front of something that belongs to a type. Whatever follows a type in a
rule is of this form, so a type that is none is never part of a node that is finished. -/
inductive Refuses : Phrase → Prop where
  | mark {m : Mark} (hm : ∀ t : Token, t.isMark m = true → t.isOfType = false) : Refuses (mark m)
  | andThen {first : Phrase} (second : Phrase) (h : Refuses first) :
      Refuses (andThen first second)
  /-- What is optional is not there, so what is behind it refuses. -/
  | optional {m : Mark} (hm : ∀ t : Token, t.isMark m = true → t.isOfType = false)
      (tag : DataTag) (rest : Phrase) {second : Phrase} (h : Refuses second) :
      Refuses (andThen (optional m tag rest) second)
  | block : Refuses (node .block)

/-- Whether the phrase is a choice of constructs: all it takes is one of them, with trivia in
front of it. Statements are of this form, and a block with them. -/
def isChoice : Phrase → Bool
  | node _ | expected _ | orphan => true
  | choose _ yes no => yes.isChoice && no.isChoice
  | andThen trivia q => q.isChoice
  | _ => false

/-- Under the look ahead `given` the phrase spells the rule, if it succeeds, and ends so. There is
a rule for every form of phrase and a few for pairs of them, where what is known of the second
depends on the first. -/
inductive Spells : Lookahead → Phrase → Rule → Ending → Prop where
  | empty {r : Rule} (h : [] ∈ r.matches') : Spells unseen empty r .plain
  | take {P : Token → Bool} {tag : DataTag} {r : Rule} (hp : Inner P) (h : Token.Spells P tag r) :
      Spells (next P) (take tag) r .plain
  | takeSemicolon {tag : DataTag} {r : Rule} (h : Token.Spells (isMark .semicolon) tag r) :
      Spells (next (isMark .semicolon)) (take tag) r .semicolon
  /-- Two tokens that were seen, the second of which is still known behind the first. -/
  | takeFirst {P R : Token → Bool} {tag : DataTag} {q : Phrase} {r r' : Rule} {e : Ending}
      (hp : Inner P) (h : Token.Spells P tag r) (hq : Spells (next R) q r' e) :
      Spells (pair P R) (andThen (take tag) q) (r * r') e
  /-- Trivia is no child. -/
  | trivia {given behind : Lookahead} {q : Phrase} {r : Rule} {e : Ending}
      (hg : ∀ ts, given ts = true → behind (ts.dropWhile Token.isTrivia) = true)
      (hq : Spells behind q r e) : Spells given (andThen trivia q) r e
  | node {p : Production} {r : Rule} (h : [.node p.kind] ∈ r.matches') :
      Spells (fun ts => p.seen (p.front ts)) (node p) r p.ending
  | andThen {given : Lookahead} {first second : Phrase} {r r' : Rule} {e : Ending}
      (h₁ : Spells given first r .plain) (h₂ : Spells unseen second r' e) :
      Spells given (andThen first second) (r * r') e
  | choose {given test : Lookahead} [test.StopsAtPending] {yes no : Phrase} {r : Rule} {e : Ending}
      (hy : Spells (fun ts => given ts && test ts) yes r e)
      (hn : Spells (fun ts => given ts && !test ts) no r e) :
      Spells given (choose test yes no) r e
  /-- The one choice that depends on what is arbitrarily far ahead. -/
  | bracketType {r : Rule} (hm : [.node .mapType] ∈ r.matches')
      (ha : [.node .arrayType] ∈ r.matches') :
      Spells (next (isMark .leftBracket)) (.choose isMapType (.node .mapType) (.node .arrayType))
        r .plain
  | repeating {test : Lookahead} [test.StopsAtPending] {body : Phrase} {r : Rule}
      (ht : test [] = false)
      (hb : body.takes = true) (h : Spells test body r .plain) :
      Spells unseen (repeating test body) (.many r) .plain
  /-- A loop whose look ahead has already said yes. -/
  | repeatingSeen {test : Lookahead} [test.StopsAtPending] {body : Phrase} {r : Rule}
      (ht : test [] = false) (hb : body.takes = true) (h : Spells test body r .plain) :
      Spells test (.repeating test body) (.oneOrMore r) .plain
  | spacedCalls {given : Lookahead} {yes no : Phrase} {r : Rule} {e : Ending}
      (hy : Spells given yes r e) (hn : Spells given no r e) :
      Spells given (spacedCalls yes no) r e
  | expected (wanted : Wanted) (r : Rule) : Spells unseen (expected wanted) r .plain
  | orphan (r : Rule) : Spells unseen orphan r .plain
  /-- Statements in braces, whether or not they can be read. -/
  | block {statement : Phrase} {rl rr : Rule} (hl : Spells unseen (.mark .leftBrace) rl .plain)
      (hi : statement.isChoice = true) (ht : statement.takes = true)
      (hs : Spells unseen statement .statement .semicolon)
      (hr : Spells unseen (.mark .rightBrace) rr .plain) :
      Spells unseen (seq [.mark .leftBrace, .statements true statement, .mark .rightBrace])
        (.seq [rl, .statements, rr]) .plain
  | hexDigits {r : Rule} (h : [.data .color] ∈ r.matches') : Spells unseen hexDigits r .plain
  | foreign : Spells (next isForeign) foreign NodeKind.foreign.children .plain
  /-- Further elements behind one that may end with a type that is none: there are none. -/
  | furtherTypes {given : Lookahead} {first element : Phrase} {m : Mark} {tag : DataTag}
      {r r' rs : Rule} (hm : ∀ t : Token, t.isMark m = true → t.isOfType = false)
      (hp : m ≠ .semicolon) (h : Token.Spells (isMark m) tag rs) (h₁ : Spells given first r .type)
      (h₂ : Spells unseen element r' .type) :
      Spells given (.andThen first (further m tag element)) (r * .many (rs * r')) .type
  /-- What follows a type refuses one that is none. -/
  | refusing {given : Lookahead} {first second : Phrase} {r r' : Rule} {e : Ending}
      (h₁ : Spells given first r .type) (hs : second.Refuses)
      (h₂ : Spells unseen second r' e) : Spells given (.andThen first second) (r * r') e
  /-- Nothing like it can have been seen. -/
  | impossible {given : Lookahead} (hg : ∀ ts, given ts = false) (q : Phrase) (r : Rule)
      (e : Ending) : Spells given q r e
  /-- More was seen. -/
  | under {given seen : Lookahead} {q : Phrase} {r : Rule} {e : Ending} (h : Spells given q r e)
      (hs : ∀ ts, seen ts = true → given ts = true) : Spells seen q r e
  /-- More is allowed. -/
  | weaken {given : Lookahead} {q : Phrase} {r r' : Rule} {e : Ending} (h : Spells given q r e)
      (hr : r.matches' ≤ r'.matches') : Spells given q r' e
  | loosen {given : Lookahead} {q : Phrase} {r : Rule} (h : Spells given q r .plain)
      (e : Ending) : Spells given q r e

end Phrase

/-! ## Single tokens -/

namespace Rule

variable {r r' : Rule} {w w' : List Symbol}

theorem mem_left (h : w ∈ r.matches') : w ∈ (r + r').matches' := Or.inl h

theorem mem_right (h : w ∈ r'.matches') : w ∈ (r + r').matches' := Or.inr h

theorem mem_anyOf {rs : List Rule} (hr : r ∈ rs) (h : w ∈ r.matches') :
    w ∈ (anyOf rs).matches' := by
  induction rs with
  | nil => cases hr
  | cons r' rs ih =>
    rcases List.mem_cons.1 hr with rfl | hr
    · exact mem_left h
    · exact mem_right (ih hr)

theorem mem_node (kind : NodeKind) : [.node kind] ∈ (node kind).matches' := rfl

theorem mem_nodes {kinds : List NodeKind} {kind : NodeKind} (h : kind ∈ kinds) :
    [.node kind] ∈ (nodes kinds).matches' :=
  mem_anyOf (List.mem_map_of_mem h) (mem_node kind)

theorem nil_mem_opt : [] ∈ (opt r).matches' := mem_left rfl

theorem nil_mem_many : [] ∈ (many r).matches' := Language.nil_mem_kstar _

theorem mem_seq (h : w ∈ r.matches') (h' : w' ∈ r'.matches') : w ++ w' ∈ (r * r').matches' :=
  Language.append_mem_mul h h'

theorem mem_one (h : w ∈ r.matches') : w ∈ (many r).matches' :=
  (le_kstar : r.matches' ≤ KStar.kstar r.matches') h

/-- Many, and as many again. In a repetition the loop comes back to itself by this. -/
theorem many_mul_many : (many r * many r).matches' ≤ (many r).matches' := by
  simp only [RegularExpression.matches'_mul, many, RegularExpression.matches'_star,
    kstar_mul_kstar, le_refl]

theorem many_many : (many (many r)).matches' ≤ (many r).matches' := by
  simp only [many, RegularExpression.matches'_star, kstar_idem, le_refl]

theorem mem_mono {s s' : Rule} (hr : r.matches' ≤ r'.matches') (hs : s.matches' ≤ s'.matches') :
    (r * s).matches' ≤ (r' * s').matches' := mul_le_mul' hr hs

/-- One more in front. -/
theorem mem_many (h : w ∈ r.matches') (h' : w' ∈ (many r).matches') :
    w ++ w' ∈ (many r).matches' := by
  obtain ⟨ws, rfl, hws⟩ := Language.mem_kstar.1 h'
  exact Language.mem_kstar.2 ⟨w :: ws, rfl, List.forall_mem_cons.2 ⟨h, hws⟩⟩

end Rule

namespace Token

theorem Inner.of_plain {P : Token → Bool} (h : Plain P) : Inner P := fun t ht => (h t ht).2

theorem inner_isMark {m : Mark} (hm : m ≠ .semicolon) : Inner (isMark m) := by
  intro t ht hk
  rw [kind_of_isMark ht] at hk
  exact hm (TokenKind.mark.inj hk)

namespace Spells

variable {P R : Token → Bool} {tag : DataTag} {r : Rule}

/-- A token whose text does not count. -/
theorem data (hp : Firm P) (h : ∀ text, Symbol.ofChild tag text = [.data tag]) :
    Spells P tag (.data tag) := by
  intro t _ ht
  have hrole : t.kind.role tag = tag := by
    have hf := hp t ht
    rw [isTrivia] at hf
    cases hk : t.kind <;> first | rfl | (rw [hk] at hf; cases hf)
  rw [symbols, hrole, h]
  rfl

/-- A mark in a role in which its text counts. -/
theorem sign {m : Mark} (h : ∀ text, Symbol.ofChild tag text = [.sign tag text]) :
    Spells (isMark m) tag (.char (.sign tag m.spelling)) := by
  intro t hs ht
  have hk := kind_of_isMark ht
  rw [symbols, hs m hk, hk]
  exact h _

theorem either (hp : Spells P tag r) (hr : Spells R tag r) :
    Spells (fun t => P t || R t) tag r := by
  intro t hs ht
  rcases Bool.or_eq_true_iff.1 ht with h | h
  · exact hp t hs h
  · exact hr t hs h

theorem weaken {r' : Rule} (h : Spells P tag r) (hr : r.matches' ≤ r'.matches') :
    Spells P tag r' := fun t hs ht => hr (h t hs ht)

end Spells

end Token

/-! ## Forms of phrases -/

namespace Phrase

namespace Spells

variable {given : Lookahead} {q : Phrase} {r r' : Rule} {e : Ending}

theorem of_unseen (h : Spells unseen q r e) : Spells given q r e := h.under fun _ _ => rfl

theorem none (h : [] ∈ r.matches') : Spells given .empty r e := ((empty h).loosen e).of_unseen

theorem fails (wanted : Wanted) : Spells given (.expected wanted) r e :=
  ((expected wanted r).loosen e).of_unseen

/-- A choice of which neither side needs to know what was seen before. -/
theorem either {test : Lookahead} [test.StopsAtPending] {yes no : Phrase} (hy : Spells test yes r e)
    (hn : Spells unseen no r e) : Spells given (.choose test yes no) r e :=
  .choose (hy.under fun _ h => (Bool.and_eq_true_iff.1 h).2) hn.of_unseen

/-- A case that needs to know no more than its own look ahead. -/
theorem case {test : Lookahead} [test.StopsAtPending] {yes otherwise : Phrase}
    {cases : List (Lookahead × Phrase)} (hy : Spells test yes r e)
    (ho : Spells given (oneOf cases otherwise) r e) :
    Spells given (oneOf ((test, yes) :: cases) otherwise) r e :=
  .choose (hy.under fun _ h => (Bool.and_eq_true_iff.1 h).2)
    (ho.under fun _ h => (Bool.and_eq_true_iff.1 h).1)

/-- Behind trivia nothing is known, but a choice can look. -/
theorem behindTrivia (h : Spells unseen q r e) : Spells given (.andThen .trivia q) r e :=
  trivia (fun _ _ => rfl) h

/-- Trivia and a token that was seen behind it. -/
theorem takeSignificant {P : Token → Bool} {tag : DataTag} (hp : Inner P)
    (h : Token.Spells P tag r) (hq : Spells unseen q r' e) :
    Spells (significant P) (seq [.trivia, .take tag, q]) (r * r') e :=
  trivia (fun ts hs => (next_dropWhile P ts).trans hs) (.andThen (.take hp h) hq)

theorem takeSignificantOnly {P : Token → Bool} {tag : DataTag} (hp : Inner P)
    (h : Token.Spells P tag r) : Spells (significant P) (seq [.trivia, .take tag]) r .plain :=
  trivia (fun ts hs => (next_dropWhile P ts).trans hs) (.take hp h)

/-- The same with nothing behind it. -/
theorem takeOnly {P : Token → Bool} {tag : DataTag} (hp : Inner P) (h : Token.Spells P tag r) :
    Spells (significant P) (seq [.trivia, .take tag, .empty]) r .plain :=
  (takeSignificant hp h (.empty (r := 1) rfl)).weaken fun _ hw => by simpa using hw

theorem expect {P : Token → Bool} {tag : DataTag} (hp : Inner P) (h : Token.Spells P tag r)
    (wanted : Wanted) : Spells given (expect P tag wanted) r .plain :=
  behindTrivia (either (.take hp h) (fails wanted))

/-- A mark that has to be there. -/
theorem mark {m : Mark} (hm : m ≠ .semicolon) : Spells given (mark m) (.mark m) .plain :=
  expect (inner_isMark hm) (.sign fun _ => rfl) _

theorem semicolon : Spells given (Phrase.mark .semicolon) (.mark .semicolon) .semicolon :=
  behindTrivia (either (.takeSemicolon (.sign fun _ => rfl)) (fails _))

theorem keyword (word : String) : Spells given (keyword word) (.data .keyword) .plain :=
  expect (.of_plain (plain_isWord word)) (.data (firm_isWord word) fun _ => rfl) _

theorem name {tag : DataTag} (h : ∀ text, Symbol.ofChild tag text = [.data tag])
    (wanted : Wanted) : Spells given (name tag wanted) (.data tag) .plain :=
  expect (.of_plain plain_isName) (.data firm_isName h) _

/-- What is behind the mark of an option. -/
theorem optional {m : Mark} {tag : DataTag} {rm : Rule} (hm : m ≠ .semicolon)
    (h : Token.Spells (isMark m) tag rm) (hq : Spells unseen q r e) :
    Spells given (optional m tag q) (.opt (rm * r)) e :=
  either ((takeSignificant (inner_isMark hm) h hq).weaken fun _ => Rule.mem_right)
    (none Rule.nil_mem_opt)

theorem further {m : Mark} {tag : DataTag} {rs : Rule} (hm : m ≠ .semicolon)
    (h : Token.Spells (isMark m) tag rs) (hq : Spells unseen q r .plain) :
    Spells given (further m tag q) (.many (rs * r)) .plain :=
  (repeating rfl rfl (takeSignificant (inner_isMark hm) h hq)).of_unseen

theorem commaSeparated (hq : Spells unseen q r .plain) :
    Spells given (commaSeparated q) (.separated (.mark .comma) r) .plain :=
  .andThen hq.of_unseen (further nofun (.sign fun _ => rfl) hq)

/-- Nothing or elements, then the closing mark. -/
theorem listUpTo {closing : Mark} (hc : closing ≠ .semicolon) (hq : Spells unseen q r .plain) :
    Spells given (listUpTo closing q) (.upTo closing r) .plain :=
  either
    ((takeSignificantOnly (inner_isMark hc) (.sign fun _ => rfl)).weaken fun _ => Rule.mem_left)
    ((andThen (commaSeparated hq) (mark hc)).weaken fun _ => Rule.mem_right)

/-- The same with elements that may end with a type that is none. The comma and the closing mark
refuse such a type, so the list as a whole ends plain. -/
theorem typesUpTo {closing : Mark} (hc : closing ≠ .semicolon)
    (hm : ∀ t : Token, t.isMark closing = true → t.isOfType = false)
    (hq : Spells unseen q r .type) :
    Spells given (Phrase.listUpTo closing q) (.upTo closing r) .plain := by
  have hlist : Spells unseen (Phrase.commaSeparated q) (.separated (.mark .comma) r) .type := by
    refine .furtherTypes (fun t ht => ?_) nofun (.sign fun _ => rfl) hq hq
    simp [isOfType, isMark, isName, kind_of_isMark ht]
  refine either
    ((takeSignificantOnly (inner_isMark hc) (.sign fun _ => rfl)).weaken fun _ => Rule.mem_left) ?_
  exact (refusing hlist (.mark hm) (mark hc)).weaken fun _ => Rule.mem_right

/-- A construct whose opening was seen. What it spells is its node, whatever was taken inside it.
-/
theorem nodeSeen {p : Production} (hg : ∀ ts, given ts = true → p.seen (p.front ts) = true)
    (he : p.ending = .plain) (h : [.node p.kind] ∈ r.matches') : Spells given (.node p) r e :=
  ((he ▸ node h : Spells _ (.node p) r .plain).loosen e).under hg

/-- A construct that is opened by the next token. -/
theorem nodeNext {p : Production} {P : Token → Bool} (hp : Firm P) (ho : p.seen = next P)
    (he : p.ending = .plain) (h : [.node p.kind] ∈ r.matches') : Spells (next P) (.node p) r e :=
  nodeSeen (fun ts hs => by rw [p.front_of_firm hp hs, ho]; exact hs) he h

/-- A construct that is opened by the next significant token. -/
theorem nodeSignificant {p : Production} {P : Token → Bool} (hk : p.keepsTrivia = false)
    (ho : p.seen = next P) (he : p.ending = .plain) (h : [.node p.kind] ∈ r.matches') :
    Spells (significant P) (.node p) r e :=
  nodeSeen (fun ts hs => by
    rw [ho, Production.front, hk, if_neg Bool.false_ne_true, next_dropWhile]
    exact hs) he h

/-- A construct that looks for itself. -/
theorem nodeUnseen {p : Production} (ho : p.seen = unseen) (he : p.ending = .plain)
    (h : [.node p.kind] ∈ r.matches') : Spells given (.node p) r e :=
  nodeSeen (fun ts _ => by rw [ho]) he h

/-- A construct that is all there is. -/
theorem onlyNode {p : Production} (ho : p.seen = unseen) (he : p.ending = .plain) :
    Spells given (.node p) (.node p.kind) e := nodeUnseen ho he (Rule.mem_node _)

end Spells

end Phrase

end Heddle
