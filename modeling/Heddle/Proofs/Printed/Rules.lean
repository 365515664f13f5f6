import Heddle.Proofs.Printed.Expressions

/-!
# Printed rules

Chains of selectors, written down as lists and printed in front of an empty block, are read back.
A blank between two selectors combines them, stands around the sign that does, or belongs to the
block, and a rule could be an assignment up to its flags: **the block is what no look ahead misses**
(`BeforeBlock`), from any place between two parts of a selector.

The claim covers rules whose statement does not begin as another one: a name that is the keyword
of another statement, and a flag in front of a value, would be read as something else. These
conditions are fields of the structures, so every list that can be written down is read back.
-/

set_option autoImplicit false

namespace Heddle

open Text Token

namespace Printed

/-! ## Rules as lists -/

/-- What a selector begins with, unless it begins with a part. The head of a selector is a name, a
star, or an object by its keyword. -/
inductive Subject where
  | name (n : Name)
  | any
  | object (n : Name) (h : n.text ∈ objectWords)

/-- A part of a selector. A filter holds one name and no other value. -/
inductive Part where
  | className (n : Name)
  | idName (n : Name)
  | flag (n : Name)
  | flagWith (n : Name) (numbers : List (Run isDigit))
  | filter (n : Name) (h : n.text ≠ "new")

/-- A selector, which is not empty. -/
structure Selector where
  subject : Option Subject
  parts : List Part
  some_or_ne_nil : subject ≠ none ∨ parts ≠ []

/-- Whether a blank in front of the selector combines it with another one: one that begins with the
sign of an object or of a flag begins something else there. -/
def Selector.canDescend (s : Selector) : Bool :=
  match s.subject, s.parts with
  | some (.object ..), _ => false
  | none, .flag _ :: _ | none, .flagWith .. :: _ => false
  | _, _ => true

/-- A further selector of a chain, and how it is combined with the one in front. -/
inductive Join where
  | descendant (s : Selector) (h : s.canDescend = true)
  | combined (m : Mark) (h : m = .greater ∨ m = .plus ∨ m = .tilde) (s : Selector)

structure Chain where
  first : Selector
  joins : List Join

/-- The words that begin other statements. -/
def statementWords : List String :=
  ["var", "const", "function", "override", "insert", "if", "switch", "loop", "for", "return",
    "repeat", "break", "continue", "needs", "configure", "else", "case", "default", "finally"]

/-- A rule, which does not begin as another statement does. The condition is on the first selector
alone, since no later one stands where a statement begins. -/
structure Rule where
  first : Chain
  others : List Chain
  begins : ∀ n, first.first.subject = some (.name n) → n.text ∉ statementWords

def Subject.forest : Subject → Forest
  | .name n => .ofData .elementName n.text
  | .any => .ofData .elementName "*"
  | .object n _ => .node .objectSelector none
      (.data .punctuation "@" (.ofData .objectKeyword n.text)) .nil

/-- The value of a name: a constant, or the variable of the name. -/
def nameOperand (n : Name) (h : n.text ≠ "new") : Operand :=
  if hc : n.text ∈ ["true", "false", "null"] then .constant n hc
  else .path (.name n (by simp_all [reserved])) []

/-- A number as an argument. -/
def numberArgument (ds : Run isDigit) : Argument :=
  .mk false (.ofOperand (.literal (.decimal (.ofRun ds))))

def Part.forest : Part → Forest
  | .className n => .data .punctuation "." (.ofData .className n.text)
  | .idName n => .data .punctuation "#" (.ofData .idName n.text)
  | .flag n => .node .flag none (.data .punctuation ":" (.ofData .flagName n.text)) .nil
  | .flagWith n numbers => .node .flag none (.data .punctuation ":" (.data .flagName n.text
      (inParens (Argument.forests (numbers.map numberArgument))))) .nil
  | .filter n h => .node .filter none (.data .punctuation "["
      ((Expression.ofOperand (nameOperand n h)).forest ++ .ofData .punctuation "]")) .nil

def Part.forests : List Part → Forest
  | [] => .nil
  | p :: ps => p.forest ++ Part.forests ps

/-- What the selector begins with, if it does not begin with a part. -/
def Selector.head (s : Selector) : Forest := (s.subject.map Subject.forest).getD .nil

def Selector.forest (s : Selector) : Forest :=
  .node .selector none (s.head ++ Part.forests s.parts) .nil

/-- The nodes of what combines and of the selector. A blank that combines is the text of its
combinator, while those around a sign belong to the chain. -/
def Join.forest : Join → Forest
  | .descendant s _ => .node .combinator none (.ofData .combinator " ") s.forest
  | .combined m _ s => .data .whitespace " " (.node .combinator none
      (.ofData .combinator m.spelling) (.data .whitespace " " s.forest))

def Join.forests : List Join → Forest
  | [] => .nil
  | j :: js => j.forest ++ Join.forests js

def Chain.forest (c : Chain) : Forest :=
  .node .selectorChain none (c.first.forest ++ Join.forests c.joins) .nil

/-- The chains of a rule. -/
def Rule.chains (r : Rule) : Forest :=
  r.first.forest ++ .further false .comma .punctuation (r.others.map Chain.forest)

/-- An empty block behind a blank. -/
def emptyBlock : Forest :=
  .data .whitespace " " (.node .block none (.data .punctuation "\x7b" (.data .whitespace " "
    (.ofData .punctuation "\x7d"))) .nil)

/-- The node of the rule. What is printed is the text of this node, so the printed rule and the
tree to compare with are one definition. -/
def Rule.node (r : Rule) : Node := ⟨.rule, none, r.chains ++ emptyBlock⟩

variable {o : Options} {rest : List Char}

open Lookahead Phrase

/-! ## What stands behind a selector -/

/-- What stands behind a selector: a comma, or a blank and something else. A blank may combine the
selector with a further one, so what follows the blank is not left open where a chain ends. -/
def EndsSelector (rest : List Char) : Prop :=
  (∃ cs, rest = Mark.comma.spelling.toList ++ cs) ∨ ∃ cs, Solid cs ∧ rest = ' ' :: cs

/-- What stands behind a chain: a comma and a further chain, or the block. -/
def EndsChain (rest : List Char) : Prop :=
  (∃ cs, rest = Mark.comma.spelling.toList ++ cs) ∨
    ∃ cs, rest = ' ' :: (Mark.leftBrace.spelling.toList ++ cs)

theorem EndsSelector.on {test : Lookahead} {answer : Bool} (h : EndsSelector rest)
    (hm : ∀ p ts, test (⟨.mark .comma, ",", p⟩ :: ts) = answer)
    (hb : ∀ p ts, test (⟨.blank, " ", p⟩ :: ts) = answer) : On test rest answer := by
  rcases h with ⟨cs, rfl⟩ | ⟨cs, hs, rfl⟩
  · exact .ofMark .comma (fun _ _ => rfl) hm
  · rw [show ' ' :: cs = [' '] ++ cs from rfl]
    exact .of_leads (leads_blank hs.apart) fun p _ => hb p _

theorem EndsChain.selector (h : EndsChain rest) : EndsSelector rest := by
  obtain ⟨cs, rfl⟩ | ⟨cs, rfl⟩ := h
  · exact .inl ⟨cs, rfl⟩
  · exact .inr ⟨_, (leads_mark .leftBrace fun _ _ => rfl).solid rfl, rfl⟩

/-- What does not go on with the name in front of it, nor makes a call of it. -/
structure BehindName (rest : List Char) : Prop where
  apart : Apart Text.isWord rest
  noParen : On (next (isMark .leftParen)) rest false

theorem EndsSelector.behindName (h : EndsSelector rest) : BehindName rest where
  apart := by
    rcases h with ⟨cs, rfl⟩ | ⟨cs, -, rfl⟩
    · exact apart_mark .comma (by decide) cs
    · exact apart_cons (by decide) cs
  noParen := h.on (fun _ _ => rfl) fun _ _ => rfl

/-! ## Parts -/

namespace Part

/-- The sign that a part begins with. -/
def sign : Part → Mark
  | className _ => .dot
  | idName _ => .hash
  | flag _ | flagWith .. => .colon
  | filter .. => .leftBracket

/-- The name behind the sign. -/
def name : Part → Name
  | className n | idName n | flag n | flagWith n _ | filter n _ => n

/-- What stands behind the name. -/
def tail : Part → List Char
  | className _ | idName _ | flag _ => []
  | flagWith _ numbers => (inParens (Argument.forests (numbers.map numberArgument))).chars
  | filter .. => [']']

end Part

theorem chars_nameOperand (n : Name) (h : n.text ≠ "new") :
    (nameOperand n h).forest.chars = n.chars := by
  unfold nameOperand
  split <;> simp [Operand.forest, Head.forest, Segment.forest]

theorem Part.chars_forest (p : Part) :
    p.forest.chars = p.sign.spelling.toList ++ (p.name.chars ++ p.tail) := by
  cases p <;> simp [Part.forest, Part.sign, Part.name, Part.tail, Mark.spelling,
    Expression.ofOperand, Expression.forest, Step.forest, chars_nameOperand]

theorem Part.sign_ne (p : Part) : p.sign ≠ .less := by cases p <;> nofun

/-- A look ahead at a part sees its sign first. -/
theorem Part.on {test : Lookahead} {answer : Bool} (p : Part)
    (h : ∀ pos ts, test (⟨.mark p.sign, p.sign.spelling, pos⟩ :: ts) = answer) :
    On test (p.forest.chars ++ rest) answer := by
  rw [p.chars_forest, List.append_assoc, List.append_assoc]
  exact .ofMark p.sign (p.name.apart p.sign_ne _) h

theorem Part.behindName (p : Part) : BehindName (p.forest.chars ++ rest) where
  apart := by
    rw [p.chars_forest, List.append_assoc, List.append_assoc]
    exact (calm_mark p.sign (by cases p <;> nofun) (p.name.apart p.sign_ne _)).apart
  noParen := p.on fun _ _ => by cases p <;> rfl

theorem behindName_parts (ps : List Part) (h : EndsSelector rest) :
    BehindName ((Part.forests ps).chars ++ rest) := by
  cases ps with
  | nil => exact h.behindName
  | cons p ps => simpa [Part.forests] using p.behindName

/-- Behind the name of a part there is nothing that goes on with it. -/
theorem Part.apart_tail (p : Part) (h : BehindName rest) : Apart Text.isWord (p.tail ++ rest) := by
  cases p with
  | className n | idName n | flag n => exact h.apart
  | flagWith n numbers => exact apart_inParens (by decide) _
  | filter n hn => exact apart_cons (by decide) _

/-- The sign and the name of a part. -/
theorem Part.on_pair (p : Part) (h : BehindName rest) :
    On (pair (isMark p.sign) isName) (p.forest.chars ++ rest) true := by
  rw [p.chars_forest, List.append_assoc, List.append_assoc]
  exact .markName p.sign_ne p.name (p.apart_tail h)

theorem Part.isSelectorPart (p : Part) (h : BehindName rest) :
    On isSelectorPart (p.forest.chars ++ rest) true := by
  intro pos
  have hpair := p.on_pair h pos
  have hsign : On (next (isMark p.sign)) (p.forest.chars ++ rest) true :=
    p.on fun pos ts => by simp [next, isMark]
  have hnext := hsign pos
  cases p <;> simp_all [Phrase.isSelectorPart, Part.sign]

/-- A pair of another sign and a name is not seen there. The reader of parts tries the signs one
after the other. -/
theorem Part.on_otherPair (p : Part) (rest : List Char) {m : Mark} (h : (p.sign == m) = false) :
    On (pair (isMark m) isName) (p.forest.chars ++ rest) false := by
  refine p.on fun pos ts => ?_
  have hm : isMark m ⟨.mark p.sign, p.sign.spelling, pos⟩ = false := by
    simpa [isMark] using h
  cases ts with
  | nil => rfl
  | cons t ts => rw [pair, hm, Bool.false_and]

/-- **A part is read back** in front of anything that does not go on with its name. The reader of
parts tries the signs in their order, and each sign that is not there is refused by what is
(`Part.on_otherPair`). -/
theorem Part.reads (p : Part) (h : BehindName rest) : ReadsBack o selectorPart p.forest rest := by
  have hpair := p.on_pair h
  have hdot := p.on_otherPair rest (m := .dot)
  have hhash := p.on_otherPair rest (m := .hash)
  have hcolon := p.on_otherPair rest (m := .colon)
  -- Each part answers the looks in front of its own with no.
  cases p with
  | className n =>
    exact .yes hpair (.data (.takeMark .dot .punctuation (by simpa using n.apart (by decide) rest))
      (.takeName n .className h.apart))
  | idName n =>
    exact .no (hdot rfl) (.yes hpair (.data (.takeMark .hash .punctuation fun _ _ => rfl)
      (.takeName n .idName h.apart)))
  | flag n =>
    exact .no (hdot rfl) (.no (hhash rfl) (.yes hpair (.markedNode .colon rfl (fun _ _ => rfl)
      (.data (.takeName n .flagName h.apart) (.no (f := .nil) h.noParen .empty)))))
  | flagWith n numbers =>
    have harguments : ReadsBack o Phrase.arguments
        (inParens (Argument.forests (numbers.map numberArgument))) rest :=
      reads_arguments (Argument.elements (numbers.map numberArgument))
    exact .no (hdot rfl) (.no (hhash rfl) (.yes hpair (.markedNode .colon rfl (fun _ _ => rfl)
      (.data (.takeName n .flagName (apart_inParens (by decide) _))
        (.yes (on_inParens _) harguments)))))
  | filter n hn =>
    have hvalue := (Expression.ofOperand (nameOperand n hn)).reads (o := o)
      (endsValue_closing (.inr rfl) rest)
    exact .no (hdot rfl) (.no (hhash rfl) (.no (hcolon rfl) (.markedNode .leftBracket rfl
      (fun _ _ => rfl) (.andThen hvalue (.mark .rightBracket fun _ _ => rfl)))))

theorem EndsSelector.noPart (h : EndsSelector rest) : On isSelectorPart rest false :=
  h.on (fun _ ts => by cases ts <;> rfl) fun _ ts => by cases ts <;> rfl

theorem reads_parts (ps : List Part) (h : EndsSelector rest) :
    ReadsBack o selectorParts (Part.forests ps) rest := by
  induction ps with
  | nil => exact .stop ⟨rfl, rfl⟩ h.noPart
  | cons p ps ih =>
    have hname := behindName_parts ps h
    exact .again ⟨rfl, rfl⟩ (p.isSelectorPart hname) (p.reads hname) ih

/-! ## Selectors -/

/-- What the text of a selector begins with. Three things may be there, and what is said of the
front of a selector is said of each of them. -/
inductive Selector.Front (s : Selector) (rest : List Char) : List Char → Prop
  | name (n : Name) (hs : s.subject = some (.name n)) :
    Front s rest (n.chars ++ ((Part.forests s.parts).chars ++ rest))
  | object (n : Name) (hn : n.text ∈ objectWords) (hs : s.canDescend = false) :
    Front s rest ('@' :: (n.chars ++ ((Part.forests s.parts).chars ++ rest)))
  | mark (m : Mark) (cs : List Char) (hm : m ∈ [.star, .dot, .hash, .colon, .leftBracket])
    (hl : Apart (isLonger m) cs) (hs : s.canDescend = true → m ≠ .colon) :
    Front s rest (m.spelling.toList ++ cs)

theorem Selector.front (s : Selector) (rest : List Char) :
    s.Front rest (s.forest.chars ++ rest) := by
  obtain ⟨_ | subject, parts, hne⟩ := s
  · obtain ⟨p, ps, rfl⟩ := List.exists_cons_of_ne_nil (hne.resolve_left fun h => h rfl)
    have hcolon : (⟨none, p :: ps, hne⟩ : Selector).canDescend = true → p.sign ≠ .colon := by
      cases p <;> simp [Selector.canDescend, Part.sign]
    have hfront : Front ⟨none, p :: ps, hne⟩ rest (p.sign.spelling.toList ++
        (p.name.chars ++ (p.tail ++ ((Part.forests ps).chars ++ rest)))) :=
      .mark p.sign _ (by cases p <;> simp [Part.sign]) (p.name.apart p.sign_ne _) hcolon
    simpa [Selector.forest, Selector.head, Part.forests, p.chars_forest] using hfront
  cases subject with
  | name n =>
    simpa [Selector.forest, Selector.head, Subject.forest] using
      Front.name (s := ⟨some (.name n), parts, hne⟩) n rfl
  | object n hn =>
    simpa [Selector.forest, Selector.head, Subject.forest] using
      Front.object (s := ⟨some (.object n hn), parts, hne⟩) n hn rfl
  | any =>
    have hfront : Front ⟨some .any, parts, hne⟩ rest
        (Mark.star.spelling.toList ++ ((Part.forests parts).chars ++ rest)) :=
      .mark .star _ (by decide) (fun _ _ => rfl) fun _ => by decide
    simpa [Selector.forest, Selector.head, Subject.forest, Mark.spelling] using hfront

theorem Selector.solid (s : Selector) (rest : List Char) : Solid (s.forest.chars ++ rest) := by
  have hfront := s.front rest
  generalize s.forest.chars ++ rest = cs at hfront
  cases hfront with
  | name n => exact ((opens_name n).append _).solid
  | object n => exact solid_cons (by decide) (by decide) _
  | mark m cs hm hl => exact (leads_mark m hl).solid rfl

/-- **A selector is read back** in front of what may end it. Its head decides between the ways to
begin; from there on it is the loop over the parts. -/
theorem Selector.reads (s : Selector) (h : EndsSelector rest) :
    ReadsBack o (.node .selector) s.forest rest := by
  have hparts := reads_parts (o := o) s.parts h
  have hname := behindName_parts s.parts h
  have hsolid := s.solid rest
  obtain ⟨subject, parts, hne⟩ := s
  refine .node (by simpa [Selector.forest] using hsolid) ?_
  -- What the printed text begins with answers the three looks in the order of the rule.
  match subject, parts with
  | some (.name n), parts =>
    have hon : On (next fun t => t.isName || t.isMark .star)
        (n.chars ++ ((Part.forests parts).chars ++ rest)) true :=
      .of_leads (n.leads hname.apart) fun _ _ => rfl
    exact .yes (by simpa [Selector.head, Subject.forest] using hon)
      (.data (.takeName n .elementName hname.apart) hparts)
  | some .any, parts =>
    have hon : On (next fun t => t.isName || t.isMark .star)
        (Mark.star.spelling.toList ++ ((Part.forests parts).chars ++ rest)) true :=
      .ofMark .star (fun _ _ => rfl) fun _ _ => rfl
    exact .yes (by simpa [Selector.head, Subject.forest, Mark.spelling] using hon)
      (.data (.takeMark .star .elementName fun _ _ => rfl) hparts)
  | some (.object n hn), parts =>
    have hon : On (next fun t => t.isName || t.isMark .star)
        (Mark.atSign.spelling.toList ++ (n.chars ++ ((Part.forests parts).chars ++ rest))) false :=
      .ofMark .atSign (fun _ _ => rfl) fun _ _ => rfl
    have hobject := on_isObject hn hname.apart
    exact .no (by simpa [Selector.head, Subject.forest, Mark.spelling] using hon)
      (.yes (by simpa [Selector.head, Subject.forest] using hobject)
        (.inner (.markedNode .atSign rfl (fun _ _ => rfl)
          (.takeName n .objectKeyword hname.apart)) hparts))
  | none, [] => simp at hne
  | none, p :: ps =>
    have hbehind := behindName_parts ps h
    have hon : On (next fun t => t.isName || t.isMark .star)
        (p.forest.chars ++ ((Part.forests ps).chars ++ rest)) false :=
      p.on fun _ _ => by cases p <;> rfl
    have hobject : On isObject (p.forest.chars ++ ((Part.forests ps).chars ++ rest)) false :=
      p.on fun _ _ => isObject_cons (by cases p <;> rfl) _
    exact .no (by simpa [Selector.head, Part.forests] using hon)
      (.no (by simpa [Selector.head, Part.forests] using hobject)
        (.yes (by simpa [Selector.head, Part.forests] using p.isSelectorPart hbehind) hparts))

/-! ## Chains -/

/-- A look ahead at what combines two selectors. -/
def isJoin : Lookahead := fun ts => isDescendant ts || significant isCombinator ts

/-- What is read there. -/
def joinPhrase : Phrase := choose isDescendant (.node .descendant) (.node .combinator)

/-- A blank in front of such a selector combines. -/
theorem Selector.on_isDescendant (s : Selector) (hs : s.canDescend = true)
    (h : EndsSelector rest) : On isDescendant (' ' :: (s.forest.chars ++ rest)) true := by
  have hname := behindName_parts s.parts h
  have hsolid := s.solid rest
  have hnext : On (next fun t => !t.refusesBlank) (s.forest.chars ++ rest) true := by
    have hfront := s.front rest
    generalize s.forest.chars ++ rest = cs at hfront
    cases hfront with
    | name n => exact .of_leads (n.leads hname.apart) fun _ _ => rfl
    | object n hn hnot => exact absurd hs (Bool.eq_false_iff.1 hnot)
    | mark m cs hm hl hcolon =>
      have hne := hcolon hs
      simp only [List.mem_cons, List.not_mem_nil, or_false] at hm
      refine .ofMark m hl fun _ _ => ?_
      rcases hm with rfl | rfl | rfl | rfl | rfl <;> first | rfl | exact absurd rfl hne
  intro p
  have hon := (hnext.significant hsolid).blank hsolid p
  rw [show ' ' :: (s.forest.chars ++ rest) = [' '] ++ (s.forest.chars ++ rest) from rfl,
    leads_blank hsolid.apart] at hon ⊢
  exact hon

theorem EndsChain.noJoin (h : EndsChain rest) : On isJoin rest false := by
  obtain ⟨cs, rfl⟩ | ⟨cs, rfl⟩ := h
  · exact .ofMark .comma (fun _ _ => rfl) fun _ _ => rfl
  · exact .ofBlankMark .leftBrace (fun _ _ => rfl) fun _ _ _ => rfl

theorem ends_joins (js : List Join) (h : EndsChain rest) :
    EndsSelector ((Join.forests js).chars ++ rest) := by
  cases js with
  | nil => exact h.selector
  | cons j js =>
    cases j with
    | descendant s hs =>
      exact .inr ⟨s.forest.chars ++ ((Join.forests js).chars ++ rest), s.solid _,
        by simp [Join.forests, Join.forest]⟩
    | combined m hm s =>
      have hsolid := (leads_mark m (isLonger_blank m
        (s.forest.chars ++ ((Join.forests js).chars ++ rest)))).solid rfl
      exact .inr ⟨_, hsolid, by simp [Join.forests, Join.forest]⟩

/-- A blank that combines two selectors. -/
theorem reads_descendant (s : Selector) (hs : s.canDescend = true) (h : EndsSelector rest) :
    ReadsBack o (joinPhrase.andThen (.node .selector)) (Join.descendant s hs).forest rest := by
  have hblank : Leads .blank (" " : String).toList (s.forest.chars ++ rest) :=
    leads_blank (s.solid rest).apart
  have hstop : On (next isTrivia) (s.forest.chars ++ rest) false := s.solid rest
  refine .inner (.yes (by simpa using s.on_isDescendant hs h) (.keptNode (.inl rfl) ?_))
    (s.reads h)
  exact .data (.take hblank rfl) (.stop ⟨rfl, rfl⟩ hstop)

/-- A sign that combines two selectors, with the blanks around it. -/
theorem reads_combined {m : Mark} (hm : m = .greater ∨ m = .plus ∨ m = .tilde) (s : Selector)
    (h : EndsSelector rest) :
    ReadsBack o (joinPhrase.andThen (.node .selector)) (Join.combined m hm s).forest rest := by
  have hlonger := isLonger_blank m (s.forest.chars ++ rest)
  have hsolid := (leads_mark m hlonger).solid rfl
  have hon :
      On isDescendant (' ' :: (m.spelling.toList ++ ' ' :: (s.forest.chars ++ rest))) false :=
    .ofBlankMark m hlonger fun _ _ _ => by rcases hm with rfl | rfl | rfl <;> rfl
  have hsign : ReadsBack o joinPhrase
      (.data .whitespace " " (.node .combinator none (.ofData .combinator m.spelling) .nil))
      ((Forest.data .whitespace " " s.forest).chars ++ rest) :=
    .no (by simpa using hon) (.blank rfl (by simpa using hsolid)
      (.node (by simpa using hsolid) (.takeMark m .combinator (by simpa using hlonger))))
  exact .andThen hsign (.blank rfl (s.solid rest) (s.reads h))

theorem Join.reads (j : Join) (h : EndsSelector rest) :
    ReadsBack o (joinPhrase.andThen (.node .selector)) j.forest rest := by
  cases j with
  | descendant s hs => exact reads_descendant s hs h
  | combined m hm s => exact reads_combined hm s h

theorem Join.on_isJoin (j : Join) (h : EndsSelector rest) :
    On isJoin (j.forest.chars ++ rest) true := by
  cases j with
  | descendant s hs =>
    intro p
    have hon := s.on_isDescendant hs h p
    refine Bool.or_eq_true_iff.2 (.inl ?_)
    simpa [Join.forest] using hon
  | combined m hm s =>
    have hon : On isJoin (' ' :: (m.spelling.toList ++ ' ' :: (s.forest.chars ++ rest))) true :=
      .ofBlankMark m (isLonger_blank m _) fun _ _ _ => by rcases hm with rfl | rfl | rfl <;> rfl
    simpa [Join.forest] using hon

theorem reads_joins (js : List Join) (h : EndsChain rest) :
    ReadsBack o (repeating isJoin (joinPhrase.andThen (.node .selector))) (Join.forests js)
      rest := by
  induction js with
  | nil => exact .stop ⟨rfl, rfl⟩ h.noJoin
  | cons j js ih =>
    have hends := ends_joins js h
    exact .again ⟨rfl, rfl⟩ (j.on_isJoin hends) (j.reads hends) ih

theorem Chain.reads (c : Chain) (h : EndsChain rest) :
    ReadsBack o (.node .selectorChain) c.forest rest := by
  have hsolid := c.first.solid ((Join.forests c.joins).chars ++ rest)
  exact .node (by simpa using hsolid)
    (.andThen (c.first.reads (ends_joins c.joins h)) (reads_joins c.joins h))

/-! ## What comes before the block -/

/-- A block comes next outside of groups, and nothing that an assignment could have. The first
field is for a place behind the sign of an assignment, the third for one in front of it: a rule
may be in either, as the colon of a flag is taken for the sign. -/
structure BeforeBlock (ts : List Token) : Prop where
  noValue : isValue 0 ts = false
  block : reachesFirst 0 ts = .block
  noTarget : ∀ us, behindSign? .between ts = some us → isValue 0 us = false

/-- The same inside of the arguments of a flag, one group further in. -/
structure InsideFlag (ts : List Token) : Prop where
  noValue : isValue 1 ts = false
  block : reachesFirst 1 ts = .block
  noTarget : ∀ us, behindSign? (.group .leftParen .rightParen 0) ts = some us →
    isValue 0 us = false

namespace BeforeBlock

variable {ts : List Token} {text text' text'' : String} {p q r : Position}

theorem block_mark : BeforeBlock (⟨.mark .leftBrace, text, p⟩ :: ts) :=
  ⟨rfl, rfl, nofun⟩

/-- Most tokens end what could be assigned to, and are not seen otherwise. -/
theorem other {kind : TokenKind} (h : BeforeBlock ts)
    (hk : kind ∈ [.word, .mark .star, .mark .hash, .mark .comma, .mark .greater, .mark .plus,
      .mark .tilde]) : BeforeBlock (⟨kind, text, p⟩ :: ts) := by
  simp only [List.mem_cons, List.not_mem_nil, or_false] at hk
  rcases hk with rfl | rfl | rfl | rfl | rfl | rfl | rfl <;>
    exact ⟨h.noValue, h.block, fun _ hu => absurd hu.symm (Option.some_ne_none _)⟩

theorem blank (h : BeforeBlock ts) : BeforeBlock (⟨.blank, text, p⟩ :: ts) :=
  ⟨h.noValue, h.block, h.noTarget⟩

theorem object (h : BeforeBlock ts) (hw : text' ∈ objectWords) :
    BeforeBlock (⟨.mark .atSign, text, p⟩ :: ⟨.word, text', q⟩ :: ts) := by
  refine ⟨?_, h.block, nofun⟩
  have ho : isObjectWord ⟨.word, text', q⟩ = true := List.contains_iff_mem.2 hw
  show (if isObjectWord ⟨.word, text', q⟩ = true then _ else true) = false
  rw [if_pos ho]
  exact h.noValue

/-- A class may be a property. -/
theorem className (h : BeforeBlock ts) :
    BeforeBlock (⟨.mark .dot, text, p⟩ :: ⟨.word, text', q⟩ :: ts) :=
  ⟨h.noValue, h.block, h.noTarget⟩

/-- The sign of a flag may be that of an assignment, but what follows is no value. -/
theorem flag (h : BeforeBlock ts) : BeforeBlock (⟨.mark .colon, text, p⟩ :: ts) := by
  refine ⟨h.noValue, h.block, fun us hu => ?_⟩
  obtain rfl : ts = us := Option.some.inj hu
  exact h.noValue

/-- A filter may be an index. -/
theorem filter (h : BeforeBlock ts) : BeforeBlock (⟨.mark .leftBracket, text, p⟩ ::
    ⟨.word, text', q⟩ :: ⟨.mark .rightBracket, text'', r⟩ :: ts) :=
  ⟨h.noValue, h.block, h.noTarget⟩

theorem arguments (h : InsideFlag ts) : BeforeBlock (⟨.mark .leftParen, text, p⟩ :: ts) :=
  ⟨h.noValue, h.block, h.noTarget⟩

end BeforeBlock

namespace InsideFlag

variable {ts : List Token} {text : String} {p : Position}

theorem close (h : BeforeBlock ts) : InsideFlag (⟨.mark .rightParen, text, p⟩ :: ts) :=
  ⟨h.noValue, h.block, h.noTarget⟩

theorem other {kind : TokenKind} (h : InsideFlag ts)
    (hk : kind ∈ [.blank, .mark .comma, .number .integer]) :
    InsideFlag (⟨kind, text, p⟩ :: ts) := by
  simp only [List.mem_cons, List.not_mem_nil, or_false] at hk
  rcases hk with rfl | rfl | rfl <;> exact ⟨h.noValue, h.block, h.noTarget⟩

end InsideFlag

/-- The text goes on with a block, and with nothing that an assignment could have. It is kept from
the back of a rule to its front, part by part and chain by chain. -/
def Before (rest : List Char) : Prop := ∀ p, BeforeBlock (readAll p rest)

/-- The numbers of a flag behind the first one, and what closes them. -/
def furtherNumbers (ds : List (Run isDigit)) (rest : List Char) : List Char :=
  ds.foldr (fun d cs => ',' :: ' ' :: (d.chars ++ cs)) (')' :: rest)

theorem apart_furtherNumbers (ds : List (Run isDigit)) (rest : List Char) :
    Apart isLoose (furtherNumbers ds rest) := by
  cases ds <;> exact apart_cons (by decide) _

theorem chars_further_numbers (ds : List (Run isDigit)) (rest : List Char) :
    (Forest.further false .comma .punctuation (Argument.forests (ds.map numberArgument))).chars ++
      ')' :: rest = furtherNumbers ds rest := by
  induction ds with
  | nil => simp [Forest.further, Argument.forests, furtherNumbers]
  | cons d ds ih =>
    have hstep :
        furtherNumbers (d :: ds) rest = ',' :: ' ' :: (d.chars ++ furtherNumbers ds rest) :=
      rfl
    rw [hstep, ← ih]
    simp [Forest.further, gap, numberArgument, Argument.forests, Expression.ofOperand,
      Expression.forest, Step.forest, Operand.forest, Literal.forest, Literal.chars,
      Numeral.chars_ofRun, Mark.spelling]

theorem leads_number (d : Run isDigit) (h : Apart isLoose rest) :
    Leads (.number .integer) d.chars rest := by
  have hl := leads_decimal (.ofRun d) h
  rwa [Numeral.chars_ofRun] at hl

theorem insideFlag_further (ds : List (Run isDigit)) (h : Before rest) (p : Position) :
    InsideFlag (readAll p (furtherNumbers ds rest)) := by
  induction ds generalizing p with
  | nil =>
    have hl : Leads (.mark .rightParen) [')'] rest := leads_mark .rightParen fun _ _ => rfl
    show InsideFlag (readAll p ([')'] ++ rest))
    rw [hl]
    exact .close (h _)
  | cons d ds ih =>
    have hd := leads_number d (apart_furtherNumbers ds rest)
    have hcomma : Leads (.mark .comma) [','] ([' '] ++ (d.chars ++ furtherNumbers ds rest)) :=
      leads_mark .comma fun _ _ => rfl
    show InsideFlag (readAll p ([','] ++ ([' '] ++ (d.chars ++ furtherNumbers ds rest))))
    rw [hcomma, leads_blank (hd.solid rfl).apart, hd]
    exact (((ih _).other (by decide)).other (by decide)).other (by decide)

/-- The arguments of a flag are passed over. -/
theorem before_inParens (numbers : List (Run isDigit)) (h : Before rest) :
    Before ((inParens (Argument.forests (numbers.map numberArgument))).chars ++ rest) := by
  have hopen (cs : List Char) : Leads (.mark .leftParen) ['('] cs :=
    leads_mark .leftParen fun _ _ => rfl
  intro p
  cases numbers with
  | nil =>
    have hchars : (inParens (Argument.forests (List.map numberArgument []))).chars ++ rest =
        ['('] ++ furtherNumbers [] rest := by
      simp [inParens, Argument.forests, Forest.upTo, furtherNumbers, Forest.spaced, Mark.spelling]
    rw [hchars, hopen]
    exact .arguments (insideFlag_further [] h _)
  | cons d ds =>
    have hd := leads_number d (apart_furtherNumbers ds rest)
    have hchars : (inParens (Argument.forests ((d :: ds).map numberArgument))).chars ++ rest =
        ['('] ++ (d.chars ++ furtherNumbers ds rest) := by
      rw [← chars_further_numbers]
      simp [inParens, numberArgument, Argument.forests, Expression.ofOperand, Expression.forest,
        Step.forest, Operand.forest, Literal.forest, Literal.chars, Numeral.chars_ofRun,
        Forest.upTo, gap, Mark.spelling]
    rw [hchars, hopen, hd]
    exact .arguments ((insideFlag_further ds h _).other (by decide))

theorem Part.before (part : Part) (h : Before rest) (hn : BehindName rest) :
    Before (part.forest.chars ++ rest) := by
  intro p
  have hname := part.name.leads (part.apart_tail hn)
  rw [part.chars_forest, List.append_assoc, List.append_assoc,
    leads_mark part.sign (part.name.apart part.sign_ne _), hname]
  cases part with
  | className n => exact (h _).className
  | idName n => exact ((h _).other (by decide)).other (by simp [Part.sign])
  | flag n => exact ((h _).other (by decide)).flag
  | flagWith n numbers => exact ((before_inParens numbers h _).other (by decide)).flag
  | filter n hne =>
    have hclose : Leads (.mark .rightBracket) [']'] rest := leads_mark .rightBracket fun _ _ => rfl
    rw [Part.tail, hclose]
    exact (h _).filter

theorem before_parts (ps : List Part) (h : Before rest) (he : EndsSelector rest) :
    Before ((Part.forests ps).chars ++ rest) := by
  induction ps with
  | nil => exact h
  | cons p ps ih => simpa [Part.forests] using p.before ih (behindName_parts ps he)

theorem Subject.before (subject : Subject) (h : Before rest) (hn : BehindName rest) :
    Before (subject.forest.chars ++ rest) := by
  intro p
  cases subject with
  | name n =>
    have hchars : (Subject.name n).forest.chars = n.chars := by simp [Subject.forest]
    rw [hchars, n.leads hn.apart]
    exact (h _).other (by decide)
  | any =>
    have hl : Leads (.mark .star) ['*'] rest := leads_mark .star fun _ _ => rfl
    have hchars : Subject.any.forest.chars = ['*'] := by simp [Subject.forest]
    rw [hchars, hl]
    exact (h _).other (by decide)
  | object n hobject =>
    have hchars : (Subject.object n hobject).forest.chars ++ rest = '@' :: (n.chars ++ rest) := by
      simp [Subject.forest]
    rw [hchars, readAll_object n hn.apart]
    exact (h _).object hobject

theorem Selector.before (s : Selector) (h : Before rest) (he : EndsSelector rest) :
    Before (s.forest.chars ++ rest) := by
  have hparts := before_parts s.parts h he
  have hname := behindName_parts s.parts he
  obtain ⟨subject, parts, hne⟩ := s
  cases subject with
  | none => simpa [Selector.forest, Selector.head] using hparts
  | some subject => simpa [Selector.forest, Selector.head] using subject.before hparts hname

/-- A blank in front does not matter. -/
theorem Before.blank {cs : List Char} (h : Before cs) (hs : Solid cs) : Before (' ' :: cs) := by
  intro p
  rw [show ' ' :: cs = [' '] ++ cs from rfl, leads_blank hs.apart]
  exact (h _).blank

theorem Before.mark {m : Mark} (h : Before rest) (hl : Apart (isLonger m) rest)
    (hm : m ∈ [.comma, .greater, .plus, .tilde]) : Before (m.spelling.toList ++ rest) := by
  intro p
  rw [leads_mark m hl]
  simp only [List.mem_cons, List.not_mem_nil, or_false] at hm
  rcases hm with rfl | rfl | rfl | rfl <;> exact (h _).other (by decide)

theorem before_joins (js : List Join) (h : Before rest) (he : EndsChain rest) :
    Before ((Join.forests js).chars ++ rest) := by
  induction js with
  | nil => exact h
  | cons j js ih =>
    have hends := ends_joins js he
    cases j with
    | descendant s hs =>
      simpa [Join.forests, Join.forest] using (s.before ih hends).blank (s.solid _)
    | combined m hm s =>
      have hlonger := isLonger_blank m (s.forest.chars ++ ((Join.forests js).chars ++ rest))
      have hbefore := (((s.before ih hends).blank (s.solid _)).mark hlonger
        (by rcases hm with rfl | rfl | rfl <;> decide)).blank ((leads_mark m hlonger).solid rfl)
      simpa [Join.forests, Join.forest] using hbefore

theorem ends_chains (cs : List Chain) (h : EndsChain rest) :
    EndsChain ((Forest.further false .comma .punctuation (cs.map Chain.forest)).chars ++ rest) :=
  ReadsBack.ends_further (fun _ => .inl ⟨_, rfl⟩) .punctuation _ h

theorem Chain.before (c : Chain) (h : Before rest) (he : EndsChain rest) :
    Before (c.forest.chars ++ rest) := by
  simpa [Chain.forest] using c.first.before (before_joins c.joins h he) (ends_joins c.joins he)

theorem Chain.solid (c : Chain) (rest : List Char) : Solid (c.forest.chars ++ rest) := by
  simpa [Chain.forest] using c.first.solid ((Join.forests c.joins).chars ++ rest)

theorem before_chains (cs : List Chain) (h : Before rest) (he : EndsChain rest) :
    Before ((Forest.further false .comma .punctuation (cs.map Chain.forest)).chars ++ rest) := by
  induction cs with
  | nil => exact h
  | cons c cs ih =>
    have hbefore := ((c.before ih (ends_chains cs he)).blank (c.solid _)).mark (fun _ _ => rfl)
      (m := .comma) (by decide)
    simpa [Forest.further, gap] using hbefore

/-! ## Rules -/

theorem chars_emptyBlock : emptyBlock.chars ++ rest =
    ' ' :: (Mark.leftBrace.spelling.toList ++
      ' ' :: (Mark.rightBrace.spelling.toList ++ rest)) := by
  simp [emptyBlock, Mark.spelling]

theorem ends_emptyBlock (rest : List Char) : EndsChain (emptyBlock.chars ++ rest) :=
  .inr ⟨_, chars_emptyBlock⟩

theorem before_emptyBlock (rest : List Char) : Before (emptyBlock.chars ++ rest) := by
  have hl : Leads (.mark .leftBrace) Mark.leftBrace.spelling.toList
      (' ' :: (Mark.rightBrace.spelling.toList ++ rest)) := leads_mark .leftBrace fun _ _ => rfl
  intro p
  rw [chars_emptyBlock]
  show BeforeBlock (readAll p ([' '] ++ (Mark.leftBrace.spelling.toList ++ _)))
  rw [leads_blank (hl.solid rfl).apart, hl]
  exact .blank .block_mark

/-- An empty list of statements. -/
theorem reads_statements {statement : Phrase} : ReadsBack o (.statements true statement)
    (.data .whitespace " " .nil) (Mark.rightBrace.spelling.toList ++ rest) := by
  have hl : Leads (.mark .rightBrace) Mark.rightBrace.spelling.toList rest :=
    leads_mark .rightBrace fun _ _ => rfl
  intro n p reach _
  obtain ⟨reach', htrivia⟩ := Tape.takeTrivia_blank (hl.solid rfl) p reach
  have hends : Attempt.EndsList true (Tape.ofText p
      (' ' :: (Mark.rightBrace.spelling.toList ++ rest)) reach).takeTrivia.2.ahead := by
    rw [htrivia]
    exact .inr ⟨rfl, _, _, hl _, rfl⟩
  rw [show (Forest.data .whitespace " " .nil).chars ++ (Mark.rightBrace.spelling.toList ++ rest) =
      ' ' :: (Mark.rightBrace.spelling.toList ++ rest) by simp, Phrase.read,
    Attempt.statements_of_ends hends, htrivia]
  exact .data .whitespace " " _ reach'

theorem reads_emptyBlock (o : Options) (rest : List Char) :
    ReadsBack o (.node .block) emptyBlock rest := by
  have hbrace : Solid (Mark.leftBrace.spelling.toList ++
      ' ' :: (Mark.rightBrace.spelling.toList ++ rest)) :=
    (leads_mark .leftBrace fun _ _ => rfl).solid rfl
  have hclose : ReadsBack o (Phrase.mark .rightBrace)
      (.ofData .punctuation Mark.rightBrace.spelling) rest := .mark .rightBrace fun _ _ => rfl
  exact .blank rfl (by simpa [Mark.spelling] using hbrace)
    (.node (by simpa [Mark.spelling] using hbrace)
      (.data (.mark .leftBrace fun _ _ => rfl) (.data reads_statements hclose)))

theorem Rule.reads (r : Rule) (o : Options) :
    ReadsBack o (.node .rule) (.node .rule none r.node.children .nil) rest := by
  have hends := ends_emptyBlock rest
  have hsolid := r.first.solid ((Forest.further false .comma .punctuation
    (r.others.map Chain.forest)).chars ++ (emptyBlock.chars ++ rest))
  have hothers : ReadsBack o (.further .comma .punctuation (.node .selectorChain))
      (Forest.further false .comma .punctuation (r.others.map Chain.forest))
      (emptyBlock.chars ++ rest) := by
    refine .further rfl .punctuation (fun _ => .inl ⟨_, rfl⟩) (fun f hf => ?_) hends ?_
    · obtain ⟨c, -, rfl⟩ := List.mem_map.1 hf
      exact ⟨fun rest => c.solid rest, fun rest hr => c.reads hr⟩
    · rw [chars_emptyBlock]
      exact .ofBlankMark .leftBrace (fun _ _ => rfl) fun _ _ _ => rfl
  have hcolon :
      ReadsBack o (.optional .colon .punctuation .empty) .nil (emptyBlock.chars ++ rest) := by
    refine .absent ?_
    rw [chars_emptyBlock]
    exact .ofBlankMark .leftBrace (fun _ _ => rfl) fun _ _ _ => rfl
  have hchains := ReadsBack.andThen (r.first.reads (ends_chains r.others hends)) hothers
  exact .node (by simpa [Rule.node, Rule.chains] using hsolid)
    (.andThen hchains (.andThen (f := .nil) hcolon (reads_emptyBlock o rest)))

/-! ## Statements -/

theorem noAssignment {ts : List Token} (h : ∀ us, behindHead? ts = some us → BeforeBlock us) :
    isAssignment ts = false := by
  unfold isAssignment
  cases hh : behindHead? ts with
  | none => rfl
  | some us =>
    rw [Option.bind_some]
    cases hs : behindSign? .between us with
    | none => rfl
    | some vs => exact (h us hh).noTarget vs hs

/-- A rule could be an assignment to what its first selector names, but it is none. From any place
in it the block is seen before the end of a value. -/
theorem Selector.noAssignment (s : Selector) (h : Before rest) (he : EndsSelector rest) :
    On isAssignment (s.forest.chars ++ rest) false := by
  have hparts := before_parts s.parts h he
  have hname := behindName_parts s.parts he
  have hfront := s.front rest
  generalize s.forest.chars ++ rest = cs at hfront
  intro p
  refine Printed.noAssignment fun us hu => ?_
  cases hfront with
  | name n =>
    rw [n.leads hname.apart] at hu
    obtain rfl : readAll _ _ = us := Option.some.inj hu
    exact hparts _
  | object n hn =>
    have hl := readAll_object n hname.apart p
    have hw : next isObjectWord (⟨.word, n.text, p.past ['@']⟩ ::
        readAll ((p.past ['@']).past n.chars) ((Part.forests s.parts).chars ++ rest)) = true :=
      List.contains_iff_mem.2 hn
    rw [hl] at hu
    change (if next isObjectWord _ = true then some (List.tail _) else none) = some us at hu
    rw [if_pos hw] at hu
    obtain rfl : readAll _ _ = us := Option.some.inj hu
    exact hparts _
  | mark m cs hm hl =>
    rw [leads_mark m hl] at hu
    simp only [List.mem_cons, List.not_mem_nil, or_false] at hm
    rcases hm with rfl | rfl | rfl | rfl | rfl <;> cases hu

/-- No keyword of another statement begins a rule. The cases of a statement are tried in their
order, and only a name could be one of the words. -/
theorem Selector.reads_statement (s : Selector) {f : Forest} (he : EndsSelector rest)
    (hw : ∀ n, s.subject = some (.name n) → n.text ∉ statementWords)
    (hc : f.chars ++ [] = s.forest.chars ++ rest) (h : ReadsBack o plainStatement f []) :
    ReadsBack o .statement f [] := by
  have hname := behindName_parts s.parts he
  have hfront := s.front rest
  generalize s.forest.chars ++ rest = cs at hfront hc
  -- A word, an object, or a sign: only a word can be a keyword, and an object begins a rule and
  -- an assignment alike, which are told apart later.
  cases hfront with
  | name n hs =>
    have hn := hw n hs
    simp only [statementWords, List.mem_cons, List.not_mem_nil, or_false, not_or] at hn
    refine .select (q := plainStatement) (n.leads hname.apart) rfl hc (fun p ts => ?_) h
    change (Option.map _ (List.find? (fun c : Lookahead × Phrase =>
      c.1 (⟨.word, n.text, p⟩ :: ts)) _)).getD _ = _
    have ho : isObject (⟨.word, n.text, p⟩ :: ts) = false := isObject_cons rfl ts
    simp [List.find?_cons, next, isWord_word, isMark, isForeign, ho, hn]
  | object n hn =>
    have ho := on_isObject hn hname.apart
    have hl : Leads (.mark .atSign) ['@'] (n.chars ++ ((Part.forests s.parts).chars ++ rest)) :=
      leads_mark .atSign fun _ _ => rfl
    refine .afterTrivia (hc ▸ hl.solid rfl) (.oneOf (q := plainStatement) (fun p => ?_) h)
    have hop := ho p
    rw [readAll_object n hname.apart] at hop
    rw [hc, readAll_object n hname.apart]
    simp only [List.find?_cons, hop, next, List.head?_cons, Option.any_some]
    rfl
  | mark m cs hm hl =>
    refine .select (q := plainStatement) (leads_mark m hl) rfl hc (fun p ts => ?_) h
    simp only [List.mem_cons, List.not_mem_nil, or_false] at hm
    rcases hm with rfl | rfl | rfl | rfl | rfl <;> cases ts <;> rfl

theorem Rule.reads_statement (r : Rule) (o : Options) :
    ReadsBack o .statement (.node .rule none r.node.children .nil) [] := by
  have hends := ends_emptyBlock []
  have hchains := ends_chains r.others hends
  have hbefore := before_chains r.others (before_emptyBlock []) hends
  have hjoins := before_joins r.first.joins hbefore hchains
  have hselector := ends_joins r.first.joins hchains
  have hchars : (Forest.node .rule none r.node.children .nil).chars ++ [] =
      r.first.first.forest.chars ++ ((Join.forests r.first.joins).chars ++
        ((Forest.further false .comma .punctuation (r.others.map Chain.forest)).chars ++
          (emptyBlock.chars ++ []))) := by
    simp [Rule.node, Rule.chains, Chain.forest]
  refine r.first.first.reads_statement hselector r.begins hchars
    (.oneOf (q := .node .rule) (fun p => ?_) (r.reads o))
  have hassignment := r.first.first.noAssignment hjoins hselector p
  have hrule := (r.first.first.before hjoins hselector p).block
  rw [hchars]
  simp only [List.find?_cons, hassignment, isRule, hrule]
  rfl

/-! ### Nesting -/

section Height

variable {isSpaced : Bool} {m : Mark} {tag : DataTag} {fs : List Forest} {k : Nat}

open Forest

theorem height_spaced (isSpaced : Bool) (f : Forest) : (f.spaced isSpaced).height = f.height := by
  cases isSpaced <;> rfl

theorem height_further (h : ∀ f ∈ fs, f.height ≤ k) :
    (Forest.further isSpaced m tag fs).height ≤ k := by
  induction fs with
  | nil => exact Nat.zero_le k
  | cons f fs ih =>
    obtain ⟨hf, hfs⟩ := List.forall_mem_cons.1 h
    rw [Forest.further, height_append_le, height_spaced]
    exact ⟨hf, ih hfs⟩

theorem height_upTo (h : ∀ f ∈ fs, f.height ≤ k) : (upTo isSpaced m fs).height ≤ k := by
  cases fs with
  | nil =>
    rw [upTo, height_spaced]
    exact Nat.zero_le k
  | cons f fs =>
    obtain ⟨hf, hfs⟩ := List.forall_mem_cons.1 h
    rw [upTo, height_spaced, height_append_le, height_append_le, height_spaced]
    exact ⟨hf, height_further hfs, Nat.zero_le k⟩

theorem height_arguments (numbers : List (Run isDigit)) :
    ∀ f ∈ Argument.forests (numbers.map numberArgument), f.height ≤ 3 := by
  induction numbers with
  | nil => exact nofun
  | cons d ds ih =>
    have hvalue : (Expression.ofOperand (.literal (.decimal (.ofRun d)))).forest.height = 2 := rfl
    exact List.forall_mem_cons.2
      ⟨height_node_le.2 ⟨Nat.succ_le_succ hvalue.le, Nat.zero_le 3⟩, ih⟩

theorem height_nameOperand (n : Name) (h : n.text ≠ "new") :
    (nameOperand n h).forest.height = 1 := by
  unfold nameOperand
  split <;> rfl

theorem Part.height_le (p : Part) : p.forest.height ≤ 4 := by
  cases p with
  | className n | idName n => exact Nat.zero_le 4
  | flag n => exact height_node_le.2 ⟨Nat.succ_le_succ (Nat.zero_le 3), Nat.zero_le 4⟩
  | flagWith n numbers =>
    exact height_node_le.2
      ⟨Nat.succ_le_succ (height_upTo (height_arguments numbers)), Nat.zero_le 4⟩
  | filter n hn =>
    have hname : (nameOperand n hn).forest.height ≤ 2 :=
      (height_nameOperand n hn).trans_le (by decide)
    have hvalue : (Expression.ofOperand (nameOperand n hn)).forest.height ≤ 3 :=
      height_node_le.2
        ⟨Nat.succ_le_succ (height_append_le.2 ⟨hname, Nat.zero_le 2⟩), Nat.zero_le 3⟩
    exact height_node_le.2
      ⟨Nat.succ_le_succ (height_append_le.2 ⟨hvalue, Nat.zero_le 3⟩), Nat.zero_le 4⟩

theorem height_parts (ps : List Part) : (Part.forests ps).height ≤ 4 := by
  induction ps with
  | nil => exact Nat.zero_le 4
  | cons p ps ih => exact height_append_le.2 ⟨p.height_le, ih⟩

theorem Selector.height_le (s : Selector) : s.forest.height ≤ 5 := by
  have hhead : s.head.height ≤ 4 := by
    obtain ⟨subject, parts, hne⟩ := s
    match subject with
    | none => exact Nat.zero_le 4
    | some (.name n) | some .any => exact Nat.zero_le 4
    | some (.object n h) =>
      exact height_node_le.2 ⟨Nat.succ_le_succ (Nat.zero_le 3), Nat.zero_le 4⟩
  exact height_node_le.2
    ⟨Nat.succ_le_succ (height_append_le.2 ⟨hhead, height_parts s.parts⟩), Nat.zero_le 5⟩

theorem height_joins (js : List Join) : (Join.forests js).height ≤ 5 := by
  induction js with
  | nil => exact Nat.zero_le 5
  | cons j js ih =>
    refine height_append_le.2 ⟨?_, ih⟩
    cases j with
    | descendant s hs => exact height_node_le.2 ⟨Nat.succ_le_succ (Nat.zero_le 4), s.height_le⟩
    | combined m hm s =>
      show (node .combinator none _ _).height ≤ 5
      exact height_node_le.2 ⟨Nat.succ_le_succ (Nat.zero_le 4), s.height_le⟩

theorem Chain.height_le (c : Chain) : c.forest.height ≤ 6 :=
  height_node_le.2 ⟨Nat.succ_le_succ (height_append_le.2 ⟨c.first.height_le, height_joins c.joins⟩),
    Nat.zero_le 6⟩

/-- Rules of this form are never too deep. -/
theorem Rule.height_le (r : Rule) : r.node.children.height ≤ 6 := by
  have hothers :
      (Forest.further false .comma .punctuation (r.others.map Chain.forest)).height ≤ 6 :=
    height_further fun f hf => by
      obtain ⟨c, -, rfl⟩ := List.mem_map.1 hf
      exact c.height_le
  have hchains : r.chains.height ≤ 6 := height_append_le.2 ⟨r.first.height_le, hothers⟩
  exact height_append_le.2 ⟨hchains, by decide⟩

end Height

/-! ### The document -/

theorem beginsStatement_of_isNameStart {c : Char} (h : isNameStart c = true) :
    beginsStatement c = true := by
  rw [beginsStatement, isBlank_of_isNameStart h, contains_eq_false_of (by decide +kernel) h]
  rfl

theorem Selector.begins (s : Selector) (rest : List Char) :
    ∃ c ∈ (s.forest.chars ++ rest).head?, beginsStatement c = true := by
  have hfront := s.front rest
  generalize s.forest.chars ++ rest = cs at hfront
  cases hfront with
  | name n => exact ⟨n.first, rfl, beginsStatement_of_isNameStart n.begins⟩
  | object n => exact ⟨'@', rfl, by decide⟩
  | mark m cs hm =>
    simp only [List.mem_cons, List.not_mem_nil, or_false] at hm
    rcases hm with rfl | rfl | rfl | rfl | rfl
    · exact ⟨'*', rfl, by decide⟩
    · exact ⟨'.', rfl, by decide⟩
    · exact ⟨'#', rfl, by decide⟩
    · exact ⟨':', rfl, by decide⟩
    · exact ⟨'[', rfl, by decide⟩

/-- **A rule is read back**, whatever its chains, selectors and flags: as the only statement of
the source, and without any error. It needs no bound on its height, since a rule with an empty
block is at most six nodes deep. -/
theorem Rule.statement_read (o : Options) (r : Rule) :
    (Parsed.ofSource o (r.chains.text ++ " \x7b \x7d")).sole?.map (·.unplaced) = some r.node := by
  have htext : r.chains.text ++ " \x7b \x7d" = r.node.children.text := by
    rw [show (" \x7b \x7d" : String) = emptyBlock.text by decide, ← Forest.text_append]
    rfl
  have hbegins := r.first.first.begins ((Join.forests r.first.joins).chars ++
    ((Forest.further false .comma .punctuation (r.others.map Chain.forest)).chars ++
      emptyBlock.chars))
  have hheight : r.node.children.height < maxNesting :=
    Nat.lt_of_le_of_lt r.height_le (by decide)
  exact sole?_of_readsBack o htext
    (by simpa [Rule.node, Rule.chains, Chain.forest] using hbegins) hheight (r.reads_statement o)

/-- The rule `@key:a(1, 2) > b.c[d] *, #e { }`. -/
def flagged : Rule where
  first := ⟨⟨some (.object ⟨'k', ['e', 'y'], by decide, by decide⟩ (by decide)),
      [.flagWith ⟨'a', [], .refl true, .refl true⟩
        [⟨['1'], by decide, by decide⟩, ⟨['2'], by decide, by decide⟩]], .inl nofun⟩,
    [.combined .greater (.inl rfl) ⟨some (.name ⟨'b', [], .refl true, .refl true⟩),
      [.className ⟨'c', [], .refl true, .refl true⟩,
        .filter ⟨'d', [], .refl true, .refl true⟩ (by decide)],
      .inl nofun⟩,
    .descendant ⟨some .any, [], .inl nofun⟩ rfl]⟩
  others := [⟨⟨none, [.idName ⟨'e', [], .refl true, .refl true⟩], .inr nofun⟩, []⟩]
  begins := nofun

example : flagged.node.children.text = "@key:a(1, 2) > b.c[d] *, #e \x7b \x7d" := by decide

end Printed

end Heddle
