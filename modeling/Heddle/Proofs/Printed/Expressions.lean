import Heddle.Proofs.Document.Sole
import Heddle.Proofs.Grammar.Printed
import Heddle.Proofs.Reading.Expressions

/-!
# Printed expressions

An expression, written down as a tree and printed with a blank around each sign between two values,
behind each comma and behind `new`, and with no other blank, is read back as this tree. What a
token goes on into, what a name in front of a blank calls and what `<` begins all depend on the
next characters, so **what stands behind a value is the condition that carries the induction**: a
mark that ends it, or a blank and a sign that combines it with another value.
-/

set_option autoImplicit false

namespace Heddle

open Text Token

namespace Printed

/-! ## Expressions as trees -/

/-- A value that is one token. A quoted text has plain characters here; those with placeholders
are in `Printed.Interpolation`. -/
inductive Literal where
  | decimal (n : Numeral isDigit)
  | hexadecimal (letter : Char) (h : isHexLetter letter = true) (digits : Run isHexDigit)
  | quoted (inside : List Char) (h : ∀ c ∈ inside, isPlainText '\x22' c = true)
  | raw (inside : List Char) (h : '\x60' ∉ inside)

namespace Literal

def chars : Literal → List Char
  | decimal n => n.chars
  | hexadecimal letter _ digits => '0' :: letter :: digits.chars
  | quoted inside _ => '\x22' :: (inside ++ ['\x22'])
  | raw inside _ => '\x60' :: (inside ++ ['\x60'])

/-- What kind of token it is. -/
def token : Literal → TokenKind
  | decimal n => .number n.form
  | hexadecimal .. => .hexNumber .integer
  | quoted .. => .quoted .double []
  | raw .. => .rawText

def production : Literal → Production
  | decimal _ | hexadecimal .. => .number
  | quoted .. => .string
  | raw .. => .rawString

def tag : Literal → DataTag
  | decimal _ | hexadecimal .. => .number
  | quoted .. => .stringChunk
  | raw .. => .rawString

def forest (l : Literal) : Forest :=
  .node l.production.kind none (.ofData l.tag (String.ofList l.chars)) .nil

end Literal

/-- A sign between two values. There is no precedence among them, all signs of an expression stand
on one level. -/
inductive Infix where
  | operator (m : Mark)
      (h : m ∈ [.plus, .minus, .star, .slash, .percent, .caret, .andAnd, .orOr, .doubleDot])
  | comparator (m : Mark)
      (h : m ∈ [.equalEqual, .notEqual, .less, .lessEqual, .greater, .greaterEqual])

namespace Infix

def mark : Infix → Mark
  | operator m _ | comparator m _ => m

def tag : Infix → DataTag
  | operator .. => .operator
  | comparator .. => .comparator

end Infix

/-- The names that are no variables. -/
def reserved : List String := ["true", "false", "null", "new"]

mutual

/-- Values with signs between them, all on one level. The trees follow the grammar: each
constructor is one way in which a node is printed, and a name that would be read as something else
is excluded where it stands. -/
inductive Expression where
  | mk (first : Operand) (others : List Step)

inductive Step where
  | mk (sign : Infix) (operand : Operand)

inductive Operand where
  | literal (l : Literal)
  | color (digits : Run isHexDigit)
  | constant (n : Name) (h : n.text ∈ ["true", "false", "null"])
  | array (items : List Expression)
  | group (inside : Expression)
  | signed (m : Mark) (h : m = .bang ∨ m = .minus) (operand : Operand)
  | created (n : Name)
  | createdWith (n : Name) (arguments : List Argument)
  | builtin (n : Name) (arguments : List Argument)
  | path (head : Head) (segments : List Segment)

inductive Head where
  | name (n : Name) (h : n.text ∉ reserved)
  | call (n : Name) (h : n.text ∉ reserved) (arguments : List Argument)
  | object (n : Name) (h : n.text ∈ objectWords)

inductive Segment where
  | property (n : Name)
  | method (n : Name) (arguments : List Argument)
  | index (inside : Expression)

inductive Argument where
  | mk (isSpread : Bool) (value : Expression)

end

/-- A list in parentheses. -/
def inParens (fs : List Forest) : Forest :=
  .data .punctuation "(" (.upTo false .rightParen fs)

mutual

/-- The node of the expression, with the blanks between its tokens. The text is that of the
forest. -/
def Expression.forest : Expression → Forest
  | .mk first others => .node .expression none (first.forest ++ Step.forest others) .nil

def Step.forest : List Step → Forest
  | [] => .nil
  | .mk sign operand :: others =>
    .data .whitespace " " (.data sign.tag sign.mark.spelling
      (.data .whitespace " " operand.forest)) ++ Step.forest others

def Operand.forest : Operand → Forest
  | .literal l => l.forest
  | .color digits => .node .color none
      (.data .punctuation "#" (.ofData .color (String.ofList digits.chars))) .nil
  | .constant n _ => .node .constant none (.ofData .constant n.text) .nil
  | .array items => .node .array none
      (.data .punctuation "[" (.upTo false .rightBracket (Expression.forests items))) .nil
  | .group inside => .node .expression none
      (.data .punctuation "(" (inside.forest ++ .ofData .punctuation ")")) .nil
  | .signed m _ operand => .node .unary none (.data .operator m.spelling operand.forest) .nil
  | .created n => .node .newObject none
      (.data .keyword "new" (.data .whitespace " " (.ofData .typeName n.text))) .nil
  | .createdWith n arguments => .node .newObject none
      (.data .keyword "new" (.data .whitespace " " (.data .typeName n.text
        (inParens (Argument.forests arguments))))) .nil
  | .builtin n arguments => .node .builtinCall none
      (.data .punctuation "$" (.data .functionName n.text
        (inParens (Argument.forests arguments)))) .nil
  | .path head segments => .node .valuePath none (head.forest ++ Segment.forest segments) .nil

def Head.forest : Head → Forest
  | .name n _ => .ofData .varName n.text
  | .call n _ arguments => .node .functionCall none
      (.data .functionName n.text (inParens (Argument.forests arguments))) .nil
  | .object n _ => .node .objectSelector none
      (.data .punctuation "@" (.ofData .objectKeyword n.text)) .nil

def Segment.forest : List Segment → Forest
  | [] => .nil
  | .property n :: others =>
    .data .punctuation "." (.ofData .propertyName n.text) ++ Segment.forest others
  | .method n arguments :: others =>
    .data .punctuation "." (.node .functionCall none
      (.data .functionName n.text (inParens (Argument.forests arguments))) .nil) ++
        Segment.forest others
  | .index inside :: others =>
    .node .indexAccessor none (.data .punctuation "[" (inside.forest ++
      .ofData .punctuation "]")) .nil ++ Segment.forest others

def Argument.forests : List Argument → List Forest
  | [] => []
  | .mk isSpread value :: others =>
    .node .argument none (if isSpread then .data .operator "..." value.forest else value.forest)
      .nil :: Argument.forests others

def Expression.forests : List Expression → List Forest
  | [] => []
  | e :: es => e.forest :: Expression.forests es

end

/-! ## What stands behind a value -/

variable {o : Options} {rest : List Char}

open Lookahead Phrase

/-- What ends an expression. -/
def EndsValue (rest : List Char) : Prop :=
  ∃ m : Mark, m ∈ [.rightParen, .rightBracket, .comma, .semicolon] ∧
    ∃ cs, rest = m.spelling.toList ++ cs

/-- What stands behind a value: the end of the expression, or a sign with a blank on both sides.
It is the condition that carries the induction, and each condition that a token or a look ahead
has on what follows is derived from it. -/
def Follows (rest : List Char) : Prop :=
  EndsValue rest ∨
    ∃ (s : Infix) (cs : List Char), rest = ' ' :: (s.mark.spelling.toList ++ ' ' :: cs)

theorem EndsValue.on {test : Lookahead} {answer : Bool} (h : EndsValue rest)
    (ht : ∀ m : Mark, m ∈ [.rightParen, .rightBracket, .comma, .semicolon] →
      ∀ p ts, test (⟨.mark m, m.spelling, p⟩ :: ts) = answer) : On test rest answer := by
  obtain ⟨m, hm, cs, rfl⟩ := h
  refine .ofMark m ?_ (ht m hm)
  simp only [List.mem_cons, List.not_mem_nil, or_false] at hm
  rcases hm with rfl | rfl | rfl | rfl <;> exact fun _ _ => rfl

/-- What is said of either thing behind a value is said of what stands there. -/
theorem Follows.on {test : Lookahead} {answer : Bool} (h : Follows rest)
    (hm : ∀ m : Mark, m ∈ [.rightParen, .rightBracket, .comma, .semicolon] →
      ∀ p ts, test (⟨.mark m, m.spelling, p⟩ :: ts) = answer)
    (hs : ∀ (s : Infix) p q ts,
      test (⟨.blank, " ", p⟩ :: ⟨.mark s.mark, s.mark.spelling, q⟩ :: ts) = answer) :
    On test rest answer := by
  rcases h with h | ⟨s, cs, rfl⟩
  · exact h.on hm
  · exact .ofBlankMark s.mark (isLonger_blank s.mark cs) (hs s)

theorem Follows.apart (h : Follows rest) {p : Char → Bool} (hp : p ' ' = false)
    (hm : ∀ m : Mark, m ∈ [.rightParen, .rightBracket, .comma, .semicolon] →
      m.spelling.toList.head?.any p = false) : Apart p rest := by
  rcases h with ⟨m, hin, cs, rfl⟩ | ⟨s, cs, rfl⟩
  · exact apart_mark m (hm m hin) cs
  · exact apart_cons hp _

/-- Nothing loose stands behind a value, so no number goes on into it. -/
theorem Follows.loose (h : Follows rest) : Apart isLoose rest :=
  h.apart (by decide) (by decide)

/-! ## Names in a path -/

/-- A name without parentheses is no call. -/
theorem on_noCall (n : Name) (ha : Apart Text.isWord rest)
    (hp : On (next (isMark .leftParen)) rest false) : On isCall (n.chars ++ rest) false := by
  refine .of_leads (n.leads ha) fun p q => ?_
  have hn := hp q
  cases ha : readAll q rest with
  | nil => rfl
  | cons t ts =>
    rw [ha] at hn
    exact hn

/-- What makes no call of a name in front of it: the name ends there, no parenthesis follows it,
and no argument follows behind a blank. The last is why a sign has to be none with which an
argument may begin. -/
structure Calm (rest : List Char) : Prop where
  apart : Apart Text.isWord rest
  noParen : On (next (isMark .leftParen)) rest false
  noArgument : On (fun ts => next (·.kind == .blank) ts && significant beginsArgument ts) rest false

theorem calm_mark (m : Mark) (hm : m ≠ .leftParen) {cs : List Char} (hl : Apart (isLonger m) cs) :
    Calm (m.spelling.toList ++ cs) where
  apart := apart_mark m (by cases m <;> decide) cs
  noParen := .ofMark m hl fun p ts => by
    cases m <;> first | rfl | exact absurd rfl hm
  noArgument := .ofMark m hl fun p ts => rfl

theorem calm_blank (m : Mark) {cs : List Char} (hl : Apart (isLonger m) cs) :
    Calm (' ' :: (m.spelling.toList ++ cs)) where
  apart := apart_cons (by decide) _
  noParen := .ofBlankMark m hl fun p q ts => rfl
  noArgument := .ofBlankMark m hl fun p q ts => rfl

theorem Follows.calm (h : Follows rest) : Calm rest := by
  rcases h with ⟨m, hm, cs, rfl⟩ | ⟨s, cs, rfl⟩
  · simp only [List.mem_cons, List.not_mem_nil, or_false] at hm
    rcases hm with rfl | rfl | rfl | rfl <;> exact calm_mark _ (by decide) fun _ _ => rfl
  · exact calm_blank s.mark (isLonger_blank s.mark cs)

namespace Calm

variable {n : Name}

theorem noCall (h : Calm rest) : On isCall (n.chars ++ rest) false := on_noCall n h.apart h.noParen

theorem noSpacedCall (h : Calm rest) : On isSpacedCall (n.chars ++ rest) false := by
  refine .of_leads (n.leads h.apart) fun p q => ?_
  have hn := h.noArgument q
  cases ha : readAll q rest with
  | nil => rfl
  | cons t ts =>
    rw [ha] at hn
    show (true && t.kind == .blank && significant beginsArgument ts) = false
    cases hb : t.kind == .blank with
    | false => rfl
    | true =>
      have ht : t.isTrivia = true := by
        rw [Token.isTrivia, beq_iff_eq.1 hb]
        rfl
      have hskip : significant beginsArgument (t :: ts) = significant beginsArgument ts := by
        simp [significant, ht]
      simpa [next, hb, hskip] using hn

/-- A name that calls nothing. -/
theorem reads (h : Calm rest) (n : Name) (tag : DataTag) :
    ReadsBack o (segment tag) (.ofData tag n.text) rest := by
  have hc : (Forest.ofData tag n.text).chars ++ rest = n.chars ++ rest := by simp
  refine .no (hc ▸ h.noCall) (.no (hc ▸ h.noSpacedCall) (.yes ?_ (.takeName n tag h.apart)))
  rw [hc]
  exact .of_leads (n.leads h.apart) fun _ _ => rfl

end Calm

/-! ## Calls -/

theorem endsValue_comma (cs : List Char) :
    EndsValue (gap false ++ (Mark.comma.spelling.toList ++ ' ' :: cs)) :=
  ⟨.comma, by decide, _, rfl⟩

theorem endsValue_closing {m : Mark} (hm : m = .rightParen ∨ m = .rightBracket) (cs : List Char) :
    EndsValue (gap false ++ (m.spelling.toList ++ cs)) :=
  ⟨m, by rcases hm with rfl | rfl <;> decide, cs, rfl⟩

theorem reads_arguments {fs : List Forest} (h : ∀ f ∈ fs, Listed o EndsValue (.node .argument) f) :
    ReadsBack o Phrase.arguments (inParens fs) rest :=
  .data (.mark .leftParen fun _ _ => rfl)
    (.listUpTo (.inl rfl) rfl endsValue_comma (endsValue_closing (.inl rfl)) h)

/-- A name and its arguments. -/
theorem reads_call {fs : List Forest} (n : Name)
    (h : ∀ f ∈ fs, Listed o EndsValue (.node .argument) f) (tag : DataTag) :
    ReadsBack o (segment tag)
      (.node .functionCall none (.data .functionName n.text (inParens fs)) .nil) rest := by
  have hparen : Apart Text.isWord ((inParens fs).chars ++ rest) := by
    simpa [inParens] using apart_cons (by decide) _
  refine .yes ?_ (.namedNode n rfl hparen (reads_arguments h))
  have hc :
      (Forest.node .functionCall none (.data .functionName n.text (inParens fs)) .nil).chars ++
      rest = n.chars ++ ((inParens fs).chars ++ rest) := by simp
  rw [hc]
  refine .of_leads (n.leads hparen) fun p q => ?_
  have hl : Leads (.mark .leftParen) ['('] ((Forest.upTo false .rightParen fs).chars ++ rest) :=
    leads_mark .leftParen fun _ _ => rfl
  have hsplit : (inParens fs).chars ++ rest =
      ['('] ++ ((Forest.upTo false .rightParen fs).chars ++ rest) := by simp [inParens]
  rw [hsplit, hl q]
  rfl

/-! ## Single values -/

theorem Literal.leads (l : Literal) (h : Apart isLoose rest) : Leads l.token l.chars rest := by
  cases l with
  | decimal n => exact leads_decimal n h
  | hexadecimal letter hl digits =>
    exact leads_hexadecimal hl digits (h.mono fun _ => isLoose_of_isHexDigit)
  | quoted inside hi => exact leads_quoted hi
  | raw inside hi => exact leads_rawText hi

theorem Literal.opens (l : Literal) : Opens l.forest.chars := by
  have hc : l.forest.chars = l.chars := by simp [Literal.forest]
  rw [hc]
  cases l with
  | decimal n =>
    have hnil : Apart isLoose [] := nofun
    obtain ⟨c, cs, hn, hd, -⟩ := n.chars_eq_cons hnil
    show Opens n.chars
    rw [hn]
    exact opens_digit hd cs
  | hexadecimal letter hl digits => exact ⟨'0', rfl, by decide⟩
  | quoted inside hi => exact ⟨'\x22', rfl, by decide⟩
  | raw inside hi => exact ⟨'\x60', rfl, by decide⟩

/-- An operand that begins with no sign in front of a value. -/
theorem reads_primary {f : Forest} {kind : TokenKind} {cs tail : List Char}
    (hl : Leads kind cs tail) (hk : kind.isTrivia = false)
    (hs : kind ≠ .mark .bang ∧ kind ≠ .mark .minus) (hc : f.chars ++ rest = cs ++ tail)
    (h : ReadsBack o primary f rest) : ReadsBack o operand f rest := by
  refine .afterTrivia (hc ▸ hl.solid hk) (.no ?_ h)
  rw [hc]
  refine .of_leads hl fun p r => ?_
  show (kind == .mark .bang || kind == .mark .minus) = false
  rw [beq_eq_false_iff_ne.2 hs.1, beq_eq_false_iff_ne.2 hs.2]
  rfl

/-- The case of an operand that its first token decides. The cases of the grammar are tried in
their order, and the hypothesis `ht` is a computation for each kind of token. -/
theorem reads_operand {cases : List (Lookahead × Phrase)} {otherwise q : Phrase} {f : Forest}
    {kind : TokenKind} {cs tail : List Char}
    (hp : primary = Phrase.trivia.andThen (Phrase.oneOf cases otherwise))
    (hl : Leads kind cs tail) (hk : kind.isTrivia = false)
    (hs : kind ≠ .mark .bang ∧ kind ≠ .mark .minus) (hc : f.chars ++ rest = cs ++ tail)
    (ht : ∀ p ts, ((cases.find? fun c => c.1 (⟨kind, String.ofList cs, p⟩ :: ts)).map (·.2)).getD
      otherwise = q)
    (h : ReadsBack o q f rest) : ReadsBack o operand f rest := by
  refine reads_primary hl hk hs hc ?_
  rw [hp]
  exact .select (q := q) hl hk hc ht h

/-- A value that is one token. The readers of the four sorts are chosen by the kind of the token.
-/
theorem Literal.reads (l : Literal) (h : Follows rest) : ReadsBack o operand l.forest rest := by
  have hl := l.leads h.loose
  have hc : l.forest.chars ++ rest = l.chars ++ rest := by simp [Literal.forest]
  have hone : (Forest.ofData l.tag (String.ofList l.chars)).chars ++ rest = l.chars ++ rest := by
    simp
  have htoken : Leads l.token (String.ofList l.chars).toList rest := by
    simpa using hl
  cases l with
  | decimal n | hexadecimal letter hx digits =>
    exact reads_operand (q := .node .number) rfl hl rfl ⟨nofun, nofun⟩ hc (fun _ _ => rfl)
      (.node (hone ▸ hl.solid rfl) (.take htoken rfl))
  | quoted inside hi =>
    exact reads_operand (q := .node .string) rfl hl rfl ⟨nofun, nofun⟩ hc (fun _ _ => rfl)
      (.node (hone ▸ hl.solid rfl) (.quoted htoken))
  | raw inside hi =>
    exact reads_operand (q := .node .rawString) rfl hl rfl ⟨nofun, nofun⟩ hc (fun _ _ => rfl)
      (.node (hone ▸ hl.solid rfl) (.take htoken rfl))

theorem isObject_cons {t : Token} (h : t.isMark .atSign = false) (ts : List Token) :
    isObject (t :: ts) = false := by
  cases ts with
  | nil => rfl
  | cons u us =>
    show (t.isMark .atSign && isObjectWord u) = false
    rw [h]
    rfl

theorem isWord_word (text word : String) (p : Position) :
    (⟨.word, text, p⟩ : Token).isWord word = decide (text = word) := rfl

/-- The name of a constant, of the keyword of a new object, or of neither. The three are told
apart by the text alone, so they are one lemma. -/
theorem reads_operand_name {f : Forest} {tail : List Char} (n : Name)
    (hn : Apart Text.isWord tail) (hc : f.chars ++ rest = n.chars ++ tail) (h : ReadsBack o (
      if n.text ∈ ["true", "false", "null"] then .node .constant
      else if n.text = "new" then .node .newObject else .node .valuePath) f rest) :
    ReadsBack o operand f rest := by
  refine reads_operand rfl (n.leads hn) rfl ⟨nofun, nofun⟩ hc (fun p ts => ?_) h
  change (Option.map _ (List.find? (fun c : Lookahead × Phrase => c.1 (⟨.word, n.text, p⟩ :: ts))
    _)).getD _ = _
  have hconstant : ["true", "false", "null"].any (⟨.word, n.text, p⟩ : Token).isWord =
      decide (n.text ∈ ["true", "false", "null"]) := by
    simp [isWord_word]
  have ho : isObject (⟨.word, n.text, p⟩ :: ts) = false := isObject_cons rfl ts
  simp only [List.find?_cons, ho, next, List.head?_cons, Option.any_some, hconstant, isWord_word]
  by_cases hc : n.text ∈ ["true", "false", "null"]
  · rw [if_pos hc, decide_eq_true hc]
    rfl
  · rw [if_neg hc, decide_eq_false hc]
    by_cases hn : n.text = "new"
    · rw [if_pos hn, decide_eq_true hn]
      rfl
    · rw [if_neg hn, decide_eq_false hn]
      rfl

/-- The keyword of a new object. -/
def newName : Name := ⟨'n', ['e', 'w'], by decide, by decide⟩

theorem Head.opens (h : Head) : Opens h.forest.chars := by
  cases h with
  | name n hn => simpa [Head.forest] using opens_name n
  | call n hn arguments => simpa [Head.forest] using (opens_name n).append _
  | object n hn => exact ⟨'@', by simp [Head.forest], by decide⟩

theorem Operand.opens (x : Operand) : Opens x.forest.chars := by
  cases x with
  | literal l => exact l.opens
  | color digits => exact ⟨'#', by simp [Operand.forest], by decide⟩
  | constant n hn => simpa [Operand.forest] using opens_name n
  | array items => exact ⟨'[', by simp [Operand.forest], by decide⟩
  | group inside => exact ⟨'(', by simp [Operand.forest], by decide⟩
  | signed m hm operand =>
    rcases hm with rfl | rfl
    · exact ⟨'!', by simp [Operand.forest, Mark.spelling], by decide⟩
    · exact ⟨'-', by simp [Operand.forest, Mark.spelling], by decide⟩
  | created n => exact ⟨'n', by simp [Operand.forest], by decide⟩
  | createdWith n arguments => exact ⟨'n', by simp [Operand.forest], by decide⟩
  | builtin n arguments => exact ⟨'$', by simp [Operand.forest], by decide⟩
  | path head segments => simpa [Operand.forest] using head.opens.append _

theorem Expression.opens (e : Expression) : Opens e.forest.chars := by
  cases e with
  | mk first others => simpa [Expression.forest] using first.opens.append _

/-- An operand that begins with a mark. -/
theorem reads_markedOperand {cases : List (Lookahead × Phrase)} {otherwise : Phrase} {f : Forest}
    {p : Production} {q : Phrase} (m : Mark) {tag : DataTag}
    (hp : primary = Phrase.trivia.andThen (Phrase.oneOf cases otherwise))
    (hs : m ≠ .bang ∧ m ≠ .minus) (hm : ∀ c, isLonger m c = false)
    (hb : p.body = (Phrase.take tag).andThen q)
    (ht : ∀ pos ts, ((cases.find? fun c => c.1 (⟨.mark m, m.spelling, pos⟩ :: ts)).map (·.2)).getD
      otherwise = .node p)
    (h : ReadsBack o q f rest) :
    ReadsBack o operand (.node p.kind none (.data tag m.spelling f) .nil) rest := by
  have hl : Leads (.mark m) m.spelling.toList (f.chars ++ rest) := leads_mark m fun c _ => hm c
  refine reads_operand hp hl rfl ⟨?_, ?_⟩ (by simp) (fun pos ts => ?_)
    (.markedNode m hb (fun c _ => hm c) h)
  · exact fun he => hs.1 (TokenKind.mark.inj he)
  · exact fun he => hs.2 (TokenKind.mark.inj he)
  · rw [String.ofList_toList]
    exact ht pos ts

/-- What stands behind the name of a call. -/
theorem apart_inParens {p : Char → Bool} (hp : p '(' = false) (fs : List Forest) :
    Apart p ((inParens fs).chars ++ rest) := by
  simpa [inParens] using apart_cons hp _

/-- Behind an operand there is a sign, or what ends the expression. -/
theorem Step.follows (steps : List Step) (h : EndsValue rest) :
    Follows ((Step.forest steps).chars ++ rest) := by
  cases steps with
  | nil => exact .inl h
  | cons s others =>
    obtain ⟨sign, operand⟩ := s
    exact .inr ⟨sign, operand.forest.chars ++ ((Step.forest others).chars ++ rest),
      by simp [Step.forest]⟩

/-- No segment makes a call of the name in front of it: a segment begins with a point or a
bracket. -/
theorem Segment.calm (segments : List Segment) (h : Follows rest) :
    Calm ((Segment.forest segments).chars ++ rest) := by
  have hbracket (cs : List Char) : Calm (Mark.leftBracket.spelling.toList ++ cs) :=
    calm_mark .leftBracket (by decide) fun _ _ => rfl
  cases segments with
  | nil => exact h.calm
  | cons s others =>
    cases s with
    | property n =>
      simpa [Segment.forest, Mark.spelling] using calm_mark .dot (by decide) (n.apart (by decide) _)
    | method n arguments =>
      simpa [Segment.forest, Mark.spelling] using calm_mark .dot (by decide) (n.apart (by decide) _)
    | index inside => simpa [Segment.forest, Mark.spelling] using hbracket _

/-! ## Signs, heads and arguments -/

theorem Infix.isOperator_mark (s : Infix) (p : Position) :
    (⟨.mark s.mark, s.mark.spelling, p⟩ : Token).isOperator = (s.tag == .operator) := by
  obtain ⟨m, h⟩ | ⟨m, h⟩ := s
  all_goals cases m <;> first | rfl | exact absurd h (by decide)

theorem Infix.isSign (s : Infix) (p : Position) :
    ((⟨.mark s.mark, s.mark.spelling, p⟩ : Token).isOperator ||
      (⟨.mark s.mark, s.mark.spelling, p⟩ : Token).isComparator) = true := by
  obtain ⟨m, h⟩ | ⟨m, h⟩ := s
  all_goals cases m <;> first | rfl | exact absurd h (by decide)

/-- A sign and the operand behind it, with the blanks around the sign. -/
theorem reads_sign (s : Infix) {f : Forest} (hf : Opens f.chars) (h : ReadsBack o operand f rest) :
    ReadsBack o
      (seq [trivia, choose (next Token.isOperator) (take .operator) (take .comparator), operand])
      (.data .whitespace " " (.data s.tag s.mark.spelling (.data .whitespace " " f))) rest := by
  have hlonger := isLonger_blank s.mark (f.chars ++ rest)
  have hsolid :
      Solid ((Forest.data s.tag s.mark.spelling (.data .whitespace " " f)).chars ++ rest) :=
    ReadsBack.solid_mark s.mark s.tag (by simpa using hlonger)
  have hbehind : ReadsBack o operand (.data .whitespace " " f) rest :=
    .blank rfl (hf.append rest).solid h
  have hsign : ReadsBack o (choose (next Token.isOperator) (take .operator) (take .comparator))
      (.ofData s.tag s.mark.spelling) ((Forest.data .whitespace " " f).chars ++ rest) := by
    have hon : On (next Token.isOperator) (s.mark.spelling.toList ++ ' ' :: (f.chars ++ rest))
        (s.tag == .operator) := .ofMark s.mark hlonger fun p _ => s.isOperator_mark p
    refine .choose (by simpa using hon) ?_
    have htake := ReadsBack.takeMark (o := o) s.mark s.tag hlonger
    cases s <;> simpa [Infix.tag] using htake
  exact .blank rfl hsolid (.afterTrivia hsolid (.data hsign hbehind))

/-- The tokens of an object. -/
theorem readAll_object (n : Name) (h : Apart Text.isWord rest) (p : Position) :
    readAll p ('@' :: (n.chars ++ rest)) = ⟨.mark .atSign, "@", p⟩ ::
      ⟨.word, n.text, p.past ['@']⟩ :: readAll ((p.past ['@']).past n.chars) rest := by
  have hl : Leads (.mark .atSign) ['@'] (n.chars ++ rest) := leads_mark .atSign fun _ _ => rfl
  rw [show '@' :: (n.chars ++ rest) = ['@'] ++ (n.chars ++ rest) from rfl, hl, n.leads h]
  rfl

/-- An object's name is seen. -/
theorem on_isObject {n : Name} (hn : n.text ∈ objectWords) (h : Apart Text.isWord rest) :
    On isObject ('@' :: (n.chars ++ rest)) true := by
  intro p
  rw [readAll_object n h]
  show (true && (true && objectWords.contains n.text)) = true
  rw [List.contains_iff_mem.2 hn]
  rfl

/-- The head of a path decides that the operand is a path. Each head comes to it in its own way: a
name, as it is no constant; a call, by its name; an object, by its sign. -/
theorem Head.reads_operand (head : Head) {segments : Forest} (hc : Calm (segments.chars ++ rest))
    (h : ReadsBack o (.node .valuePath) (.node .valuePath none (head.forest ++ segments) .nil)
      rest) :
    ReadsBack o operand (.node .valuePath none (head.forest ++ segments) .nil) rest := by
  cases head with
  | name n hn =>
    simp only [reserved, List.mem_cons, List.not_mem_nil, or_false, not_or] at hn
    refine reads_operand_name n hc.apart (by simp [Head.forest]) ?_
    rw [if_neg (by simp [hn]), if_neg hn.2.2.2]
    exact h
  | call n hn arguments =>
    simp only [reserved, List.mem_cons, List.not_mem_nil, or_false, not_or] at hn
    have happart : Apart Text.isWord
        ((inParens (Argument.forests arguments)).chars ++ (segments.chars ++ rest)) :=
      apart_inParens (by decide) _
    refine reads_operand_name n happart (by simp [Head.forest]) ?_
    rw [if_neg (by simp [hn]), if_neg hn.2.2.2]
    exact h
  -- The `@` of an object begins a path only if the word behind it is one of objects.
  | object n hn =>
    have hl : Leads (.mark .atSign) ['@'] (n.chars ++ (segments.chars ++ rest)) :=
      leads_mark .atSign fun _ _ => rfl
    have hchars :
        (Forest.node .valuePath none ((Head.object n hn).forest ++ segments) .nil).chars ++
        rest = ['@'] ++ (n.chars ++ (segments.chars ++ rest)) := by
      simp [Head.forest]
    refine reads_primary hl rfl ⟨nofun, nofun⟩ hchars
      (.afterTrivia (hchars ▸ hl.solid rfl) (.oneOf (q := .node .valuePath) (fun p => ?_) h))
    have ho := on_isObject hn hc.apart p
    rw [show '@' :: (n.chars ++ (segments.chars ++ rest)) =
      ['@'] ++ (n.chars ++ (segments.chars ++ rest)) from rfl, hl p] at ho
    rw [hchars, hl p]
    simp only [List.find?_cons, ho, next, List.head?_cons, Option.any_some]
    rfl

/-- A sign in front of a value. -/
theorem reads_signed {m : Mark} (hm : m = .bang ∨ m = .minus) {f : Forest} (hf : Opens f.chars)
    (h : ReadsBack o operand f rest) :
    ReadsBack o operand (.node .unary none (.data .operator m.spelling f) .nil) rest := by
  have hlonger : Apart (isLonger m) (f.chars ++ rest) := (hf.append rest).apart fun c hc => by
    rcases hm with rfl | rfl
    all_goals
      rw [beq_iff_eq.1 hc]
      decide
  refine .afterTrivia ?_ (.yes ?_ (.markedNode m rfl hlonger h))
  · simpa using (leads_mark m hlonger).solid rfl
  · have hon : On (next fun t => t.isMark .bang || t.isMark .minus)
        (m.spelling.toList ++ (f.chars ++ rest)) true :=
      .ofMark m hlonger fun _ _ => by rcases hm with rfl | rfl <;> rfl
    simpa using hon

/-- A new object, whatever stands behind the keyword and a blank. -/
theorem reads_created {f : Forest} (h : ReadsBack o ((Phrase.name .typeName .typeName).andThen
      (choose (next (isMark .leftParen)) Phrase.arguments empty)) (.data .whitespace " " f) rest) :
    ReadsBack o operand
      (.node .newObject none (.data .keyword "new" (.data .whitespace " " f)) .nil) rest := by
  have happart : Apart Text.isWord ((Forest.data .whitespace " " f).chars ++ rest) := by
    simpa using apart_cons (by decide) (f.chars ++ rest)
  refine reads_operand_name newName happart (by simp [newName, Name.chars]) ?_
  rw [if_neg (by decide), if_pos (by decide)]
  exact .namedNode newName rfl happart h

theorem on_inParens (fs : List Forest) :
    On (next (isMark .leftParen)) ((inParens fs).chars ++ rest) true := by
  have hon : On (next (isMark .leftParen)) (Mark.leftParen.spelling.toList ++
      ((Forest.upTo false .rightParen fs).chars ++ rest)) true := .mark .leftParen fun _ _ => rfl
  simpa [inParens, Mark.spelling] using hon

theorem on_noObject (n : Name) (h : Apart Text.isWord rest) :
    On isObject (n.chars ++ rest) false :=
  .of_leads (n.leads h) fun _ _ => isObject_cons rfl _

/-! ## Segments and arguments -/

/-- A look ahead at what follows a name or a closing sign in a path. -/
def isSegment : Lookahead := fun ts =>
  pair (isMark .dot) isName ts || next (isMark .leftBracket) ts

/-- What is read there. -/
def segmentPhrase : Phrase :=
  choose (pair (isMark .dot) isName)
    (seq [take .punctuation, segment .propertyName]) (node .indexAccessor)

theorem Follows.noSegment (h : Follows rest) : On isSegment rest false := by
  refine h.on (fun m hm p ts => ?_) fun s p q ts => rfl
  simp only [List.mem_cons, List.not_mem_nil, or_false] at hm
  rcases hm with rfl | rfl | rfl | rfl <;> cases ts <;> rfl

/-- A point and the name behind it, which may be called. -/
theorem reads_dot {f g : Forest} (n : Name) {tail : List Char}
    (hc : f.chars ++ (g.chars ++ rest) = n.chars ++ tail) (hn : Apart Text.isWord tail)
    (hf : ReadsBack o (segment .propertyName) f (g.chars ++ rest))
    (hg : ReadsBack o (repeating isSegment segmentPhrase) g rest) :
    ReadsBack o (repeating isSegment segmentPhrase) (.data .punctuation "." f ++ g) rest := by
  have hchars : (Forest.data .punctuation "." f).chars ++ (g.chars ++ rest) =
      Mark.dot.spelling.toList ++ (n.chars ++ tail) := by
    rw [← hc]
    simp [Mark.spelling]
  have hpair := On.markName (m := .dot) (by decide) n hn
  have hdot : Apart (isLonger .dot) (f.chars ++ (g.chars ++ rest)) := hc ▸ n.apart (by decide) tail
  refine .again ⟨rfl, rfl⟩ ?_ (.yes ?_ (.data (.takeMark .dot .punctuation hdot) hf)) hg
  · rw [hchars]
    exact fun p => Bool.or_eq_true_iff.2 (.inl (hpair p))
  · rw [hchars]
    exact hpair

/-- An index in brackets. -/
theorem reads_index {f g : Forest}
    (hf : ReadsBack o (.node .expression) f (']' :: (g.chars ++ rest)))
    (hg : ReadsBack o (repeating isSegment segmentPhrase) g rest) :
    ReadsBack o (repeating isSegment segmentPhrase)
      (.node .indexAccessor none (.data .punctuation "[" (f ++ .ofData .punctuation "]")) .nil ++ g)
      rest := by
  have hbracket {test : Lookahead} {answer : Bool}
      (ht : ∀ p ts, test (⟨.mark .leftBracket, "[", p⟩ :: ts) = answer) :
      On test ((Forest.node .indexAccessor none (.data .punctuation "[" (f ++
        .ofData .punctuation "]")) .nil).chars ++ (g.chars ++ rest)) answer := by
    have hon : On test (Mark.leftBracket.spelling.toList ++
        (f.chars ++ ']' :: (g.chars ++ rest))) answer := .ofMark .leftBracket (fun _ _ => rfl) ht
    simpa [Mark.spelling] using hon
  refine .again ⟨rfl, rfl⟩ (hbracket fun p ts => ?_) (.no (hbracket fun p ts => ?_)
    (.markedNode .leftBracket rfl (fun _ _ => rfl)
      (.andThen hf (.mark .rightBracket fun _ _ => rfl)))) hg
  all_goals cases ts <;> rfl

theorem listed_argument (isSpread : Bool) {f : Forest} (hf : Opens f.chars)
    (h : ∀ rest, EndsValue rest → ReadsBack o (.node .expression) f rest) :
    Listed o EndsValue (.node .argument)
      (.node .argument none (if isSpread then .data .operator "..." f else f) .nil) := by
  cases isSpread with
  | false =>
    refine .ofOpens (by simpa using hf) fun rest hr => ?_
    have hsolid := (hf.append rest).solid
    exact .node hsolid (.andThen (f := .nil)
      (.absent (.significant hsolid ((hf.append rest).otherMark (by decide)))) (h rest hr))
  | true =>
    refine ⟨⟨fun rest => ?_, fun rest hr => ?_⟩, fun m hm rest => ?_⟩
    · simpa using solid_cons (by decide) (by decide) _
    · exact .node (by simpa using solid_cons (by decide) (by decide) _)
        (.data (.optional .ellipsis .operator (fun _ _ => rfl) .empty) (h rest hr))
    · have hon : On (next (isMark m)) (Mark.ellipsis.spelling.toList ++ (f.chars ++ rest)) false :=
        .ofMark .ellipsis (fun _ _ => rfl) fun _ _ => by rcases hm with rfl | rfl <;> rfl
      simpa [Mark.spelling] using hon

/-! ## Reading expressions back -/

mutual

/-- **An expression is read back** in front of what ends it. The recursion is on the trees, seven
sorts of them, and goes along the mutual definition; each case says what stands behind a part, by
the lemmas above, and applies the reading of the part. -/
theorem Expression.reads {rest : List Char} : (e : Expression) → EndsValue rest →
    ReadsBack o (.node .expression) e.forest rest
  | .mk first others, hr => by
    have hopens := first.opens.append ((Step.forest others).chars ++ rest)
    exact .node (by simpa using hopens.solid)
      (.andThen (first.reads (Step.follows others hr)) (Step.reads others hr))

theorem Step.reads {rest : List Char} : (steps : List Step) → EndsValue rest →
    ReadsBack o (repeating (significant fun t => t.isOperator || t.isComparator) <|
      seq [trivia, choose (next isOperator) (take .operator) (take .comparator), operand])
      (Step.forest steps) rest
  | [], hr => .stop ⟨rfl, rfl⟩ <| hr.on fun m hm p ts => by
      simp only [List.mem_cons, List.not_mem_nil, or_false] at hm
      rcases hm with rfl | rfl | rfl | rfl <;> rfl
  | .mk sign x :: others, hr => by
    have hoperand := x.reads (Step.follows others hr)
    refine .again ⟨rfl, rfl⟩ ?_ (reads_sign sign x.opens hoperand) (Step.reads others hr)
    have hon : On (significant fun t => t.isOperator || t.isComparator)
        (' ' :: (sign.mark.spelling.toList ++
          ' ' :: (x.forest.chars ++ ((Step.forest others).chars ++ rest)))) true :=
      .ofBlankMark sign.mark (isLonger_blank sign.mark _) fun _ q _ => sign.isSign q
    simpa using hon

/-- **An operand is read back** in front of anything that may follow a value. The recursion is the
one of the type of operands: an operand has operands, arguments and values inside, and each of
these is smaller. -/
theorem Operand.reads {rest : List Char} : (x : Operand) → Follows rest →
    ReadsBack o operand x.forest rest
  | .literal l, hr => l.reads hr
  | .color digits, hr =>
    reads_markedOperand (p := .color) .hash rfl (by decide) (fun _ => rfl) rfl (fun _ _ => rfl)
      (.hexDigits digits hr.loose)
  | .constant n hn, hr => by
    refine reads_operand_name n (hr.apart (by decide) (by decide)) (by simp [Operand.forest]) ?_
    rw [if_pos hn]
    exact .node (ReadsBack.solid_name n .constant (hr.apart (by decide) (by decide)))
      (.takeName n .constant (hr.apart (by decide) (by decide)))
  | .array items, hr => by
    refine reads_markedOperand (p := .array) .leftBracket rfl (by decide) (fun _ => rfl) rfl
      (fun _ _ => rfl) ?_
    exact .listUpTo (.inr rfl) rfl endsValue_comma (endsValue_closing (.inr rfl))
      (Expression.elements items)
  | .group inside, hr => by
    refine reads_markedOperand (p := .parenthesized) .leftParen rfl (by decide) (fun _ => rfl) rfl
      (fun _ _ => rfl) ?_
    exact .andThen (inside.reads (endsValue_closing (.inl rfl) rest))
      (.mark .rightParen fun _ _ => rfl)
  | .signed m hm x, hr => reads_signed hm x.opens (x.reads hr)
  | .created n, hr => by
    refine reads_created ?_
    exact .blank rfl (ReadsBack.solid_name n .typeName hr.calm.apart) (.data
      (.name n .typeName .typeName hr.calm.apart) (.no (f := .nil) hr.calm.noParen .empty))
  | .createdWith n arguments, hr => by
    have hparen : Apart Text.isWord ((inParens (Argument.forests arguments)).chars ++ rest) :=
      apart_inParens (by decide) _
    refine reads_created ?_
    exact .blank rfl (ReadsBack.solid_name n .typeName hparen) (.data
      (.name n .typeName .typeName hparen)
      (.yes (on_inParens _) (reads_arguments (Argument.elements arguments))))
  | .builtin n arguments, hr => by
    refine reads_markedOperand (p := .builtinCall) .dollar rfl (by decide) (fun _ => rfl) rfl
      (fun _ _ => rfl) ?_
    exact .data (.name n .functionName .builtinName (apart_inParens (by decide) _))
      (reads_arguments (Argument.elements arguments))
  | .path head segments, hr => by
    have hcalm := Segment.calm segments hr
    have hsolid := (head.opens.append ((Segment.forest segments).chars ++ rest)).solid
    exact head.reads_operand hcalm (.node (by simpa using hsolid)
      (.andThen (head.reads hcalm) (Segment.reads segments hr)))

theorem Head.reads {rest : List Char} : (head : Head) → Calm rest →
    ReadsBack o (choose isObject (node .objectSelector) (segment .varName)) head.forest rest
  | .name n _, hc => .no (by simpa [Head.forest] using on_noObject n hc.apart) (hc.reads n .varName)
  | .call n _ arguments, hc => by
    have hparen : Apart Text.isWord ((inParens (Argument.forests arguments)).chars ++ rest) :=
      apart_inParens (by decide) _
    exact .no (by simpa [Head.forest] using on_noObject n hparen)
      (reads_call n (Argument.elements arguments) .varName)
  | .object n hn, hc => .yes (by simpa [Head.forest] using on_isObject hn hc.apart)
      (.markedNode .atSign rfl (fun _ _ => rfl) (.takeName n .objectKeyword hc.apart))

theorem Segment.reads {rest : List Char} : (segments : List Segment) → Follows rest →
    ReadsBack o (repeating isSegment segmentPhrase) (Segment.forest segments) rest
  | [], hr => .stop ⟨rfl, rfl⟩ hr.noSegment
  | .property n :: others, hr => by
    have hcalm := Segment.calm others hr
    exact reads_dot n (by simp) hcalm.apart (hcalm.reads n .propertyName) (Segment.reads others hr)
  | .method n arguments :: others, hr => by
    have hcalm := Segment.calm others hr
    have hparen : Apart Text.isWord ((inParens (Argument.forests arguments)).chars ++
        ((Segment.forest others).chars ++ rest)) := apart_inParens (by decide) _
    exact reads_dot n (by simp) hparen
      (reads_call n (Argument.elements arguments) .propertyName) (Segment.reads others hr)
  | .index inside :: others, hr => by
    have hinside := inside.reads (endsValue_closing (.inr rfl)
      ((Segment.forest others).chars ++ rest))
    exact reads_index hinside (Segment.reads others hr)

theorem Argument.elements : (arguments : List Argument) →
    ∀ f ∈ Argument.forests arguments, Listed o EndsValue (.node .argument) f
  | [], f, hf => by cases hf
  | .mk isSpread value :: others, f, hf => by
    rcases List.mem_cons.1 hf with rfl | hf
    · exact listed_argument isSpread value.opens fun rest hr => value.reads hr
    · exact Argument.elements others f hf

theorem Expression.elements : (es : List Expression) →
    ∀ f ∈ Expression.forests es, Listed o EndsValue (.node .expression) f
  | [], f, hf => by cases hf
  | e :: es, f, hf => by
    rcases List.mem_cons.1 hf with rfl | hf
    · exact .ofOpens e.opens fun rest hr => e.reads hr
    · exact Expression.elements es f hf

end

/-! ## Assignments -/

/-- The children of an assignment behind the variable `x`. -/
def Expression.assigned (e : Expression) : Forest :=
  .data .whitespace " " (.data .punctuation "=" (.data .whitespace " "
    (e.forest ++ .ofData .punctuation ";")))

/-- An assignment of the expression. -/
def Expression.assignment (e : Expression) : Node where
  kind := .assignment
  location := none
  children := .node .valuePath none (.ofData .varName "x") e.assigned

/-- A value that reaches its end from behind an expression reaches it from in front of the
expression. So the look of an assignment is answered at the semicolon. -/
theorem isValue_of_reads {f : Forest} (h : ReadsBack o (.node .expression) f rest)
    (hv : On (isValue 0) rest true) : On (isValue 0) (f.chars ++ rest) true := by
  intro p
  have hy := h f.height p 0 (Nat.le_refl _)
  obtain ⟨reach, hl⟩ := hy.left
  refine Attempt.isValue_expression f.height o (Tape.lexed_ofText p (f.chars ++ rest) 0) hy.clean ?_
  rw [Phrase.read] at hl
  rw [hl]
  exact hv _

/-- A blank in front of a value is passed by the look. -/
theorem isValue_blank {f : Forest} (hf : Opens f.chars)
    (h : On (isValue 0) (f.chars ++ rest) true) :
    On (isValue 0) (' ' :: (f.chars ++ rest)) true := by
  intro p
  rw [show ' ' :: (f.chars ++ rest) = [' '] ++ (f.chars ++ rest) from rfl,
    leads_blank (hf.append rest).solid.apart]
  exact h _

/-! ### Targets -/

section Sign

variable {sign : Mark} (hs : sign = .colon ∨ sign = .equals) (isSpaced : Bool)
include hs

/-- In front of the sign of an assignment a name calls nothing. -/
theorem calm_sign (hl : Apart (isLonger sign) rest) :
    Calm (gap isSpaced ++ (sign.spelling.toList ++ rest)) := by
  have hne : sign ≠ .leftParen := by rcases hs with rfl | rfl <;> decide
  cases isSpaced with
  | true => exact calm_blank sign hl
  | false => exact calm_mark sign hne hl

/-- A name, a sign and a value behind it are taken for an assignment. -/
theorem isAssignment_readAll {p : Position} (n : Name) (hl : Apart (isLonger sign) rest)
    (h : isValue 0 (readAll (((p.past n.chars).past (gap isSpaced)).past sign.spelling.toList)
      rest) = true) :
    isAssignment (readAll p (n.chars ++ (gap isSpaced ++ (sign.spelling.toList ++ rest)))) =
      true := by
  have hm := leads_mark sign hl
  rw [n.leads (calm_sign hs isSpaced hl).apart]
  cases isSpaced with
  | true =>
    rw [gap, if_pos rfl] at h ⊢
    rw [leads_blank (hm.solid rfl).apart, hm]
    rcases hs with rfl | rfl <;> exact h
  | false =>
    rw [gap, if_neg Bool.false_ne_true] at h ⊢
    rw [List.nil_append, hm]
    rcases hs with rfl | rfl <;> exact h

/-- The target of the assignment, which is a path of one name. -/
theorem reads_target (n : Name) (hn : n.text ∉ reserved) (hl : Apart (isLonger sign) rest) :
    ReadsBack o (.node .valuePath) (.node .valuePath none (.ofData .varName n.text) .nil)
      (gap isSpaced ++ (sign.spelling.toList ++ rest)) := by
  have hcalm := calm_sign hs isSpaced hl
  have hnone : On isSegment (gap isSpaced ++ (sign.spelling.toList ++ rest)) false := by
    refine .gapMark isSpaced sign hl (fun p ts => ?_) fun p q ts => rfl
    rcases hs with rfl | rfl <;> cases ts <;> rfl
  exact .node (ReadsBack.solid_name n .varName hcalm.apart)
    (.data ((Head.name n hn).reads hcalm) (.stop ⟨rfl, rfl⟩ hnone))

/-- The sign is seen behind the target. -/
theorem on_colonOrEquals (hl : Apart (isLonger sign) rest) :
    On (significant fun t => t.isMark .colon || t.isMark .equals)
      (gap isSpaced ++ (sign.spelling.toList ++ rest)) true := by
  rcases hs with rfl | rfl <;> exact .spacedMark isSpaced _ hl fun _ => rfl

end Sign

/-! ### Assigned values -/

/-- The sign of the assignment. -/
theorem reads_equals {otherwise : Phrase} (hl : Apart (isLonger .equals) rest) :
    ReadsBack o (choose (significant fun t => t.isMark .colon || t.isMark .equals)
      (seq [trivia, take .punctuation]) otherwise)
      (.data .whitespace " " (.ofData .punctuation "=")) rest := by
  have hsolid := (leads_mark .equals hl).solid rfl
  have hon := on_colonOrEquals (.inr rfl) true hl
  exact .yes (by simpa [gap, Mark.spelling] using hon)
    (.blank rfl hsolid (.afterTrivia hsolid (.takeMark .equals .punctuation hl)))

/-- The children of an assignment to `x`. -/
def assigning (f : Forest) : Forest :=
  .node .valuePath none (.ofData .varName "x") (.data .whitespace " " (.data .punctuation "="
    (.data .whitespace " " (f ++ .ofData .punctuation ";"))))

/-- A value that is read back in front of a semicolon is read back as that of an assignment. It
serves expressions as well as texts with placeholders, so the value is any forest. -/
theorem reads_assigning (o : Options) {f : Forest} (hf : Opens f.chars)
    (hread : ReadsBack o (.node .expression) f (';' :: rest)) :
    ReadsBack o .statement (.node .assignment none (assigning f) .nil) rest := by
  let x : Name := ⟨'x', [], by decide, rfl⟩
  let semicolon : Forest := .ofData .punctuation ";"
  let value : Forest := .data .whitespace " " (f ++ semicolon)
  let assigned : Forest := .data .whitespace " " (.data .punctuation "=" value)
  have htail : assigned.chars ++ rest =
      gap true ++ (Mark.equals.spelling.toList ++ (value.chars ++ rest)) := by
    simp [assigned, value, semicolon, gap, Mark.spelling]
  have hvalue : value.chars ++ rest = ' ' :: (f.chars ++ (semicolon.chars ++ rest)) := by
    simp [value]
  rw [show ';' :: rest = semicolon.chars ++ rest by simp [semicolon]] at hread
  have hequals : Apart (isLonger .equals) (value.chars ++ rest) := hvalue ▸ isLonger_blank .equals _
  have hname : Apart Text.isWord (assigned.chars ++ rest) := htail ▸ apart_cons (by decide) _
  -- The statement itself is put together from its parts, back to front.
  have hall : ReadsBack o (.node .assignment) (.node .assignment none (assigning f) .nil) rest := by
    have hend : ReadsBack o terminator semicolon rest :=
      .no (On.spacedMark false .semicolon (fun _ _ => rfl) fun _ => rfl)
        (.mark .semicolon fun _ _ => rfl)
    exact .node (ReadsBack.solid_name x .varName hname)
      (.inner (htail ▸ reads_target (.inr rfl) true x (by decide) hequals)
        (.andThen (reads_equals hequals)
          (.andThen (.blank rfl (hf.append _).solid hread) hend)))
  -- That it is taken for an assignment is found out before, by looking past the whole value.
  have hassignment : On isAssignment (x.chars ++ (assigned.chars ++ rest)) true := by
    have hsemicolon : On (isValue 0) (semicolon.chars ++ rest) true :=
      On.ofMark .semicolon (fun _ _ => rfl) fun _ _ => rfl
    have hon := isValue_blank hf (isValue_of_reads hread hsemicolon)
    exact htail ▸ fun p => isAssignment_readAll (.inr rfl) true x hequals (hvalue ▸ hon _)
  have hchars : (Forest.node .assignment none (assigning f) .nil).chars ++ rest =
      x.chars ++ (assigned.chars ++ rest) := by
    simp [assigning, assigned, value, semicolon, x, Name.chars]
  refine .select (q := plainStatement) (x.leads hname) rfl hchars (fun p ts => ?_)
    (.oneOf (q := .node .assignment) (fun p => ?_) hall)
  · cases ts <;> rfl
  · rw [hchars, List.find?_cons]
    simp only [hassignment p]
    rfl

theorem Expression.reads_assignment (o : Options) (e : Expression) :
    ReadsBack o .statement (.node .assignment none e.assignment.children .nil) rest :=
  reads_assigning o e.opens (e.reads ⟨.semicolon, by decide, rest, rfl⟩)

/-- **An expression is read back**, if it does not nest too deeply. The height is that of the
levels which the document and the assignment leave. -/
theorem Expression.assignment_read (o : Options) (e : Expression) (hh : e.forest.height ≤ 255) :
    (Parsed.ofSource o ("x = " ++ e.forest.text ++ ";")).sole?.map (·.unplaced) =
      some e.assignment := by
  have hx : ("x = " : String) = "x" ++ (" " ++ ("=" ++ " ")) := rfl
  refine sole?_of_readsBack o ?_ ⟨'x', by simp, by decide⟩ ?_ (e.reads_assignment o)
  · simp only [assigned, Forest.text, Forest.text_append, Forest.ofData, String.append_empty]
    rw [hx]
    simp only [String.append_assoc]
  · have hlt : max 1 e.forest.height < maxNesting := by
      rw [maxNesting]
      omega
    simpa [assigned, Forest.height, Forest.ofData] using hlt

/-- A value alone. -/
def Expression.ofOperand (x : Operand) : Expression := .mk x []

/-- A number of one digit. -/
def Literal.digit (d : Char) (h : isDigit d = true) (isPercentage : Bool) : Literal :=
  .decimal ⟨⟨[d], by simp, by simpa using h⟩, none, isPercentage⟩

/-- A variable with a name of one letter, and what follows it. -/
def Operand.letter (c : Char) (hc : isNameStart c = true) (hr : String.ofList [c] ∉ reserved)
    (segments : List Segment) : Operand :=
  .path (.name ⟨c, [], hc, List.all_nil⟩ hr) segments

/-- The expression `!a.b(5% % 2, ...[c]) <= new N .. #f0`. -/
def steps : Expression :=
  .mk (.signed .bang (.inl rfl) (.letter 'a' (by decide) (by decide)
      [.method ⟨'b', [], by decide, rfl⟩
        [.mk false (.mk (.literal (.digit '5' (by decide) true))
          [.mk (.operator .percent (by decide)) (.literal (.digit '2' (by decide) false))]),
        .mk true (.ofOperand (.array [.ofOperand (.letter 'c' (by decide) (by decide) [])]))]]))
    [.mk (.comparator .lessEqual (by decide)) (.created ⟨'N', [], by decide, rfl⟩),
    .mk (.operator .doubleDot (by decide)) (.color ⟨['f', '0'], by decide, by decide⟩)]

example : steps.forest.text = "!a.b(5% % 2, ...[c]) <= new N .. #f0" := by decide

theorem assignment_read_steps : steps.forest.height ≤ 255 ∧
    (Parsed.ofSource {} ("x = " ++ steps.forest.text ++ ";")).sole?.map (·.unplaced) =
      some steps.assignment := by
  have hh : steps.forest.height ≤ 255 := by decide
  exact ⟨hh, Expression.assignment_read {} steps hh⟩

end Printed

end Heddle
