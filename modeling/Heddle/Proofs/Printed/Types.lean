import Heddle.Proofs.Document.Sole
import Heddle.Proofs.Grammar.Printed
import Heddle.Proofs.Grammar.Types

/-!
# Printed types

A type, written down as a tree and printed with a blank between any two tokens, is read back as
this tree, unless it has a union whose first member has a `|` inside brackets: whether a type is a
union is decided by looking for a `|` outside of brackets, and **the look gives up at a `|` inside
of them**.

The types that are printed are all that the language has, with lists of any length. What is left
out is only how they may be written otherwise: other blanks, and comments.
-/

set_option autoImplicit false

namespace Heddle

open Text Token

namespace Printed

/-! ## Types as trees -/

mutual

/-- A type that is no union. The parameters of a function may be unions, and so may what is inside
of brackets, but its result may not: a `|` behind it would belong to what is around the function.
-/
inductive Single where
  | named (n : Name)
  | object (n : Name)
  | pointer (target : Single)
  | array (element : Ty)
  | map (key value : Ty)
  | function (parameters : List Ty) (result : Single)

/-- A type, which may be a union of two or more. -/
inductive Ty where
  | single (s : Single)
  | union (first second : Single) (others : List Single)

end

/-- The children behind a blank. Every token but the first of a type is printed behind one. -/
def behindBlank (f : Forest) : Forest := .data .whitespace " " f

mutual

/-- The node of the type, with the blanks between its tokens. The children are those that the
grammar gives it, and the text is read off the forest, so tree and text can not disagree. -/
def Single.forest : Single → Forest
  | .named n => .node .type none (.ofData .typeName n.text) .nil
  | .object n => .node .objectType none
      (.data .punctuation "@" (behindBlank (.ofData .typeName n.text))) .nil
  | .pointer target => .node .pointerType none
      (.data .operator "&" (behindBlank target.forest)) .nil
  | .array element => .node .arrayType none
      (.data .punctuation "[" (behindBlank element.forest ++
        behindBlank (.ofData .punctuation "]"))) .nil
  | .map key value => .node .mapType none
      (.data .punctuation "[" (behindBlank key.forest ++
        behindBlank (.data .punctuation ":" (behindBlank value.forest ++
          behindBlank (.ofData .punctuation "]"))))) .nil
  | .function parameters result => .node .functionType none
      (.data .punctuation "(" (.upTo true .rightParen (Ty.forests parameters) ++
        behindBlank (.data .punctuation "=>" (behindBlank result.forest)))) .nil

/-- The node of the type; only a union has a node of its own. -/
def Ty.forest : Ty → Forest
  | .single s => s.forest
  | .union first second others => .node .multipleType none
      (first.forest ++ .further true .pipe .operator (second.forest :: Single.forests others)) .nil

def Ty.forests : List Ty → List Forest
  | [] => []
  | t :: ts => t.forest :: Ty.forests ts

def Single.forests : List Single → List Forest
  | [] => []
  | s :: ss => s.forest :: Single.forests ss

end

mutual

/-- Whether in every union the text of the first member holds no `|`. It is the exact condition:
at the first `|` inside of brackets the look for a union gives up, and one that stands behind them
is not found. -/
def Single.isSeen : Single → Bool
  | .named _ | .object _ => true
  | .pointer target => target.isSeen
  | .array element => element.isSeen
  | .map key value => key.isSeen && value.isSeen
  | .function parameters result => Ty.areSeen parameters && result.isSeen

def Ty.isSeen : Ty → Bool
  | .single s => s.isSeen
  | .union first second others => !first.forest.chars.contains '|' && first.isSeen &&
      second.isSeen && Single.areSeen others

def Ty.areSeen : List Ty → Bool
  | [] => true
  | t :: ts => t.isSeen && Ty.areSeen ts

def Single.areSeen : List Single → Bool
  | [] => true
  | s :: ss => s.isSeen && Single.areSeen ss

end

/-! ## What stands behind a type -/

variable {o : Options} {rest : List Char}

/-- What stands behind a type that is no union. A blank is enough to end its last name. -/
def EndsSingle (rest : List Char) : Prop := rest.head? = some ' '

/-- What stands behind a type. A `|` is not among it, as the type would go on. -/
def EndsType (rest : List Char) : Prop :=
  ∃ m : Mark, m ∈ [.rightParen, .rightBracket, .comma, .semicolon, .colon] ∧
    ∃ cs, rest = ' ' :: (m.spelling.toList ++ cs)

theorem EndsType.single (h : EndsType rest) : EndsSingle rest := by
  obtain ⟨m, -, cs, rfl⟩ := h
  rfl

theorem EndsSingle.apart (h : EndsSingle rest) {p : Char → Bool} (hp : p ' ' = false) :
    Apart p rest := by
  intro c hc
  rw [h] at hc
  cases hc
  exact hp

/-- What is said of the blank and the mark behind a type is said of what stands there. So the
lemmas about marks are proved by looking at five of them. -/
theorem EndsType.on {test : Lookahead} {answer : Bool} (h : EndsType rest)
    (ht : ∀ m : Mark, m ∈ [.rightParen, .rightBracket, .comma, .semicolon, .colon] →
      ∀ p q ts, test (⟨.blank, " ", p⟩ :: ⟨.mark m, m.spelling, q⟩ :: ts) = answer) :
    Lookahead.On test rest answer := by
  obtain ⟨m, hm, cs, rfl⟩ := h
  refine .ofBlankMark m ?_ (ht m hm)
  simp only [List.mem_cons, List.not_mem_nil, or_false] at hm
  rcases hm with rfl | rfl | rfl | rfl | rfl <;> exact fun _ _ => rfl

theorem EndsType.hasBar (h : EndsType rest) : Lookahead.On (Lookahead.hasBar 0) rest false := by
  refine h.on fun m hm p q ts => ?_
  simp only [List.mem_cons, List.not_mem_nil, or_false] at hm
  rcases hm with rfl | rfl | rfl | rfl | rfl <;> rfl

theorem EndsType.noPipe (h : EndsType rest) :
    Lookahead.On (Lookahead.significant (isMark .pipe)) rest false := by
  refine h.on fun m hm p q ts => ?_
  simp only [List.mem_cons, List.not_mem_nil, or_false] at hm
  rcases hm with rfl | rfl | rfl | rfl | rfl <;> rfl

/-- Behind the first member of a union there is a `|`. -/
theorem hasBar_further (f : Forest) (fs : List Forest) (rest : List Char) :
    Lookahead.On (Lookahead.hasBar 0)
      ((Forest.further true .pipe .operator (f :: fs)).chars ++ rest) true := by
  have hc : (Forest.further true .pipe .operator (f :: fs)).chars ++ rest =
      ' ' :: (Mark.pipe.spelling.toList ++
        ' ' :: (f.chars ++ ((Forest.further true .pipe .operator fs).chars ++ rest))) := by
    simp [Forest.further, gap]
  rw [hc]
  exact .ofBlankMark .pipe (isLonger_blank .pipe _) fun _ _ _ => rfl

theorem endsType_mark {m : Mark}
    (hm : m ∈ [.rightParen, .rightBracket, .comma, .semicolon, .colon]) (f : Forest)
    (rest : List Char) :
    EndsType ((behindBlank (.data .punctuation m.spelling f)).chars ++ rest) :=
  ⟨m, hm, f.chars ++ rest, by simp [behindBlank]⟩

/-! ## Looking past a type that is read back -/

open Lookahead Phrase

/-- A `|` that is seen in front of a type is seen behind it. The look passes over what was read,
so reading it back says how far the look has come. -/
theorem hasBar_of_reads {f : Forest} (h : ReadsBack o singleType f rest) {p : Position}
    (hb : hasBar 0 (readAll p (f.chars ++ rest)) = true) :
    hasBar 0 (readAll (p.past f.chars) rest) = true := by
  have hy := h f.height p 0 (Nat.le_refl _)
  obtain ⟨reach, hl⟩ := hy.left
  have hx := hasBar_singleType f.height o hy.clean.succeeds hb
  rwa [hl] at hx

/-- A type without a `|` does not hide one that stands behind it. The condition is on the
characters of the text, which is what `isSeen` asks for. -/
theorem hasBar_in_front {f : Forest} (h : ReadsBack o singleType f rest) (hf : '|' ∉ f.chars)
    {p : Position} (hb : hasBar 0 (readAll (p.past f.chars) rest) = true) :
    hasBar 0 (readAll p (f.chars ++ rest)) = true := by
  have hy := h f.height p 0 (Nat.le_refl _)
  obtain ⟨reach, hl⟩ := hy.left
  obtain ⟨used, hu, hd⟩ := turns_singleType (typesTurn_read f.height false) 0 o
    (.ofText p (f.chars ++ rest) 0) rfl hy.clean.succeeds
  rw [hl, Tape.ahead_ofText, Tape.ahead_ofText] at hu
  have hspell : spell used = f.chars := by
    have hs := congrArg spell hu
    rw [spell_append, spell_readAll, spell_readAll] at hs
    exact (List.append_cancel_right hs).symm
  have hnone : ∀ t ∈ used, t.isMark .pipe = false := by
    intro t ht
    cases hm : t.isMark .pipe with
    | false => rfl
    | true =>
      have hmem : t ∈ readAll p (f.chars ++ rest) := hu ▸ List.mem_append_left _ ht
      have hc := text_of_mark hmem (beq_iff_eq.1 hm)
      refine absurd ?_ hf
      rw [← hspell]
      exact List.mem_flatMap.2 ⟨t, ht, by rw [hc]; decide⟩
  rw [hu]
  exact hasBar_of_barless hd hnone hb

/-- Whether a colon is seen is the same in front of a type and behind it: the colons of a map
inside are inside of brackets. -/
theorem hasColon_of_reads {f : Forest} (h : ReadsBack o type f rest) (p : Position) :
    hasColon 0 (readAll p (f.chars ++ rest)) = hasColon 0 (readAll (p.past f.chars) rest) := by
  have hy := h f.height p 0 (Nat.le_refl _)
  obtain ⟨reach, hl⟩ := hy.left
  have hx := hasColon_type f.height o hy.clean.succeeds
  rwa [hl] at hx

/-- The bracket in front of a type begins a map if a colon stands behind the type. -/
theorem isMapType_of_reads {f g : Forest} {kind : NodeKind}
    (h : ReadsBack o type (behindBlank f) (g.chars ++ rest)) {answer : Bool}
    (hc : On (hasColon 0) (g.chars ++ rest) answer) :
    On isMapType
      ((Forest.node kind none (.data .punctuation "[" (behindBlank f ++ g)) .nil).chars ++
      rest) answer := by
  intro p
  have hl : Leads (.mark .leftBracket) ['['] ((behindBlank f).chars ++ (g.chars ++ rest)) :=
    leads_mark .leftBracket fun _ _ => rfl
  have hsplit : (Forest.node kind none (.data .punctuation "[" (behindBlank f ++ g)) .nil).chars ++
      rest = ['['] ++ ((behindBlank f).chars ++ (g.chars ++ rest)) := by
    simp
  rw [hsplit, hl p]
  show (true && hasColon 0 _) = answer
  rw [hasColon_of_reads h, hc, Bool.true_and]

/-! ## Reading types back -/

theorem Single.opens (s : Single) : Opens s.forest.chars := by
  cases s with
  | named n => simpa [Single.forest] using opens_name n
  | object n => exact ⟨'@', by simp [Single.forest], by decide⟩
  | pointer target => exact ⟨'&', by simp [Single.forest], by decide⟩
  | array element => exact ⟨'[', by simp [Single.forest], by decide⟩
  | map key value => exact ⟨'[', by simp [Single.forest], by decide⟩
  | function parameters result => exact ⟨'(', by simp [Single.forest], by decide⟩

theorem Ty.opens (t : Ty) : Opens t.forest.chars := by
  cases t with
  | single s => exact s.opens
  | union first second others => simpa [Ty.forest] using first.opens.append _

/-- The bracket that closes a type, behind a blank. -/
theorem reads_rightBracket :
    ReadsBack o (Phrase.mark .rightBracket) (behindBlank (.ofData .punctuation "]")) rest :=
  .blank rfl (by simpa using solid_cons (by decide) (by decide) rest)
    (.mark .rightBracket fun _ _ => rfl)

mutual

/-- **A type that is no union is read back** in front of a blank. The recursion is on the tree,
with the lists of types beside it; each case selects its rule by the first token, and what stands
behind a part is what the rule prints there. -/
theorem Single.reads {rest : List Char} : (s : Single) → s.isSeen = true → EndsSingle rest →
    ReadsBack o singleType s.forest rest
  | .named n, _, hr => by
    have hn := hr.apart (p := Text.isWord) (by decide)
    exact .select (q := .node .namedType) (n.leads hn) rfl (by simp [Single.forest])
      (fun _ _ => rfl) (.node (ReadsBack.solid_name n .typeName hn) (.takeName n .typeName hn))
  | .object n, _, hr => by
    have hn := hr.apart (p := Text.isWord) (by decide)
    have hname : ReadsBack o (Phrase.name .typeName .typeName)
        (behindBlank (.ofData .typeName n.text)) rest :=
      .blank rfl (ReadsBack.solid_name n .typeName hn) (.name n .typeName .typeName hn)
    exact .selectMark (q := .node .objectType) .atSign (fun _ _ => rfl) (fun _ _ => rfl)
      (.markedNode .atSign rfl (fun _ _ => rfl) hname)
  | .pointer target, hs, hr => by
    have htarget := ReadsBack.blank rfl (target.opens.append rest).solid (target.reads hs hr)
    have hlonger := isLonger_blank .ampersand (target.forest.chars ++ rest)
    refine .selectMark (q := .node .pointerType) .ampersand ?_ (fun _ _ => rfl)
      (.markedNode .ampersand rfl ?_ htarget)
    all_goals simpa [behindBlank] using hlonger
  -- A bracket begins an array or a map; which of them is decided by a look past the first type in
  -- it.
  | .array element, hs, hr => by
    have hends := endsType_mark (m := .rightBracket) (by decide) .nil rest
    have helement := ReadsBack.blank rfl (element.opens.append _).solid (element.reads hs hends)
    have hcolon :
        On (hasColon 0) ((behindBlank (.ofData .punctuation "]")).chars ++ rest) false := by
      have hon : On (hasColon 0) (' ' :: (Mark.rightBracket.spelling.toList ++ rest)) false :=
        .ofBlankMark .rightBracket (fun _ _ => rfl) fun _ _ _ => rfl
      simpa [behindBlank, Mark.spelling] using hon
    exact .selectMark (q := .choose isMapType (.node .mapType) (.node .arrayType)) .leftBracket
      (fun _ _ => rfl) (fun _ _ => rfl) (.no (isMapType_of_reads helement hcolon)
        (.markedNode .leftBracket rfl (fun _ _ => rfl) (.andThen helement reads_rightBracket)))
  | .map key value, hs, hr => by
    obtain ⟨hk, hv⟩ := Bool.and_eq_true_iff.1 hs
    have hvalue := ReadsBack.blank rfl (value.opens.append _).solid
      (value.reads hv (endsType_mark (m := .rightBracket) (by decide) .nil rest))
    have hbehind := ReadsBack.blankMark .colon (fun _ _ => rfl)
      (.andThen hvalue reads_rightBracket)
    have hkey := ReadsBack.blank rfl (key.opens.append _).solid
      (key.reads hk (endsType_mark (m := .colon) (by decide)
        (behindBlank value.forest ++ behindBlank (.ofData .punctuation "]")) rest))
    have hcolon : On (hasColon 0) ((behindBlank (.data .punctuation ":" (behindBlank value.forest ++
        behindBlank (.ofData .punctuation "]")))).chars ++ rest) true := by
      have hon (cs : List Char) :
          On (hasColon 0) (' ' :: (Mark.colon.spelling.toList ++ cs)) true :=
        .ofBlankMark .colon (fun _ _ => rfl) fun _ _ _ => rfl
      simpa [behindBlank, Mark.spelling] using hon _
    exact .selectMark (q := .choose isMapType (.node .mapType) (.node .arrayType)) .leftBracket
      (fun _ _ => rfl) (fun _ _ => rfl) (.yes (isMapType_of_reads hkey hcolon)
        (.markedNode .leftBracket rfl (fun _ _ => rfl) (.andThen hkey hbehind)))
  | .function parameters result, hs, hr => by
    obtain ⟨hp, hs⟩ := Bool.and_eq_true_iff.1 hs
    have hlist (rest : List Char) : ReadsBack o (listUpTo .rightParen type)
        (.upTo true .rightParen (Ty.forests parameters)) rest :=
      .listUpTo (.inl rfl) rfl (fun cs => ⟨.comma, by decide, _, rfl⟩)
        (fun cs => ⟨.rightParen, by decide, cs, rfl⟩) (Ty.elements parameters hp)
    have hresult := ReadsBack.blank rfl (result.opens.append rest).solid (result.reads hs hr)
    have harrow := ReadsBack.blankMark .fatArrow (fun _ _ => rfl) hresult
    exact .selectMark (q := .node .functionType) .leftParen (fun _ _ => rfl) (fun _ _ => rfl)
      (.markedNode .leftParen rfl (fun _ _ => rfl) (.andThen (hlist _) harrow))

/-- **A type is read back** in front of a mark that ends it. Whether it is a union is decided at
its first token, by a `|` that is seen from there. -/
theorem Ty.reads {rest : List Char} : (t : Ty) → t.isSeen = true → EndsType rest →
    ReadsBack o type t.forest rest
  | .single s, hs, hr => by
    have hread := s.reads hs hr.single
    refine .afterTrivia (s.opens.append rest).solid (.no (fun p => ?_) hread)
    cases hb : isMultipleType (readAll p (s.forest.chars ++ rest)) with
    | false => exact hb
    | true => exact absurd (hasBar_of_reads hread hb) (Bool.eq_false_iff.1 (hr.hasBar _))
  | .union first second others, hs, hr => by
    simp only [Ty.isSeen, Bool.and_eq_true, Bool.not_eq_true'] at hs
    obtain ⟨⟨⟨hbar, hfirst⟩, hsecond⟩, hothers⟩ := hs
    have hall : ∀ f ∈ second.forest :: Single.forests others,
        Listed o EndsSingle singleType f := by
      intro f hf
      rcases List.mem_cons.1 hf with rfl | hf
      · exact .ofOpens second.opens fun rest hr => second.reads hsecond hr
      · exact Single.elements others hothers f hf
    have hfurther : ReadsBack o (Phrase.further .pipe .operator singleType)
        (.further true .pipe .operator (second.forest :: Single.forests others)) rest :=
      .further rfl .operator (fun cs => rfl) (fun f hf => (hall f hf).toElement) hr.single hr.noPipe
    have hends : EndsSingle ((Forest.further true .pipe .operator
        (second.forest :: Single.forests others)).chars ++ rest) :=
      ReadsBack.ends_further (fun cs => rfl) .operator _ hr.single
    have hread := first.reads hfirst hends
    have hopens := (Ty.union first second others).opens.append rest
    refine .afterTrivia hopens.solid (.yes (fun p => ?_) (.node ?_ (.andThen hread hfurther)))
    · have hseen := hasBar_in_front hread (by simpa using hbar) (p := p) (hasBar_further _ _ _ _)
      simpa [Ty.forest, isMultipleType] using hseen
    · simpa [Ty.forest] using hopens.solid

theorem Ty.elements : (ts : List Ty) → Ty.areSeen ts = true →
    ∀ f ∈ Ty.forests ts, Listed o EndsType type f
  | [], _, f, hf => by cases hf
  | t :: ts, hs, f, hf => by
    obtain ⟨ht, hts⟩ := Bool.and_eq_true_iff.1 hs
    rcases List.mem_cons.1 hf with rfl | hf
    · exact .ofOpens t.opens fun rest hr => t.reads ht hr
    · exact Ty.elements ts hts f hf

theorem Single.elements : (ss : List Single) → Single.areSeen ss = true →
    ∀ f ∈ Single.forests ss, Listed o EndsSingle singleType f
  | [], _, f, hf => by cases hf
  | s :: ss, hs, f, hf => by
    obtain ⟨hs, hss⟩ := Bool.and_eq_true_iff.1 hs
    rcases List.mem_cons.1 hf with rfl | hf
    · exact .ofOpens s.opens fun rest hr => s.reads hs hr
    · exact Single.elements ss hss f hf

end

/-! ## Declarations -/

/-- A declaration with a type, with a blank between any two tokens. -/
def Ty.declaration (t : Ty) : Node where
  kind := .declaration
  location := none
  children :=
    .data .keyword "var" (behindBlank (.data .varName "x" (behindBlank (.data .punctuation ":"
      (behindBlank t.forest)) ++ behindBlank (.ofData .punctuation ";"))))

/-- The declaration of a variable with a type, as a statement. The type ends at the semicolon, as
there is no value. -/
theorem Ty.reads_declaration (o : Options) (t : Ty) (hs : t.isSeen = true) :
    ReadsBack o .statement (.node .declaration none t.declaration.children .nil) [] := by
  let var : Name := ⟨'v', ['a', 'r'], by decide, by decide⟩
  let x : Name := ⟨'x', [], by decide, rfl⟩
  have hsemicolon : ReadsBack o (Phrase.mark .semicolon)
      (behindBlank (.ofData .punctuation ";")) [] :=
    .blank rfl (ReadsBack.solid_mark .semicolon .punctuation fun _ _ => rfl)
      (.mark .semicolon fun _ _ => rfl)
  have hequals : ReadsBack o (Phrase.optional .equals .punctuation (.node .expression)) .nil
      ((behindBlank (.ofData .punctuation ";")).chars ++ []) := by
    have hon : On (significant (isMark .equals))
        (gap true ++ (Mark.semicolon.spelling.toList ++ [])) false :=
      .spacedMark true .semicolon (fun _ _ => rfl) fun _ => rfl
    exact .absent (by simpa [gap, behindBlank, Mark.spelling] using hon)
  have htype := ReadsBack.blank rfl (t.opens.append _).solid
    (t.reads (o := o) hs (endsType_mark (m := .semicolon) (by decide) .nil []))
  have hcolon := ReadsBack.optionalBlank .colon .punctuation (fun _ _ => rfl) htype
  have hbehind := ReadsBack.andThen hcolon (.andThen (f := .nil) hequals hsemicolon)
  have hword (f : Forest) : Apart Text.isWord ((behindBlank f).chars ++ []) := by
    simpa [behindBlank] using apart_cons (by decide) _
  have hname := ReadsBack.blank rfl (ReadsBack.solid_name x .varName (hword _))
    (.data (.name x .varName .variableName (hword _)) hbehind)
  exact .selectName (q := .node .declaration) var (hword _) (fun _ _ => rfl)
    (.namedNode var rfl (hword _) hname)

/-- **A type is read back**, if no union in it has a `|` in the text of its first member. The
height is that of the levels which the document and the declaration leave. -/
theorem Ty.declaration_read (o : Options) (t : Ty) (hs : t.isSeen = true)
    (hh : t.forest.height ≤ 255) :
    (Parsed.ofSource o ("var x : " ++ t.forest.text ++ " ;")).sole?.map (·.unplaced) =
      some t.declaration := by
  have hvar : ("var x : " : String) = "var" ++ (" " ++ ("x" ++ (" " ++ (":" ++ " ")))) := rfl
  refine sole?_of_readsBack o ?_ ⟨'v', by simp, by decide⟩ ?_ (t.reads_declaration o hs)
  · simp only [behindBlank, Forest.text, Forest.text_append, Forest.ofData,
      String.append_empty]
    rw [hvar]
    simp only [String.append_assoc]
    rfl
  · have hlt : t.forest.height < maxNesting := Nat.lt_succ_of_le hh
    simpa [Ty.declaration, behindBlank, Forest.height, Forest.ofData] using hlt

/-- A type that is a name of one letter. -/
def Single.letter (c : Char) (h : isNameStart c = true) : Single := .named ⟨c, [], h, List.all_nil⟩

/-- The type `[ a | b : ( c ) => & d ]`. -/
def unionKey : Ty :=
  .single (.map (.union (.letter 'a' (.refl true)) (.letter 'b' (.refl true)) [])
    (.single
      (.function [.single (.letter 'c' (.refl true))] (.pointer (.letter 'd' (.refl true))))))

example : unionKey.forest.text = "[ a | b : ( c ) => & d ]" := by decide

theorem declaration_read_unionKey : unionKey.isSeen = true ∧ unionKey.forest.height ≤ 255 ∧
    (Parsed.ofSource {} ("var x : " ++ unionKey.forest.text ++ " ;")).sole?.map (·.unplaced) =
      some unionKey.declaration := by
  have hs : unionKey.isSeen = true := by decide
  have hh : unionKey.forest.height ≤ 255 := by decide
  exact ⟨hs, hh, Ty.declaration_read {} unionKey hs hh⟩

/-- The type `[ a | b ] | c`. -/
def hiddenUnion : Ty :=
  .union (.array (.union (.letter 'a' (.refl true)) (.letter 'b' (.refl true)) []))
    (.letter 'c' (.refl true)) []

/-- A union is not seen behind brackets that hold another one. -/
theorem not_declaration_read : ¬ ∀ (o : Options) (t : Ty), t.forest.height ≤ 255 →
    (Parsed.ofSource o ("var x : " ++ t.forest.text ++ " ;")).sole?.map (·.unplaced) =
      some t.declaration := by
  intro h
  have hread := h {} hiddenUnion (by decide)
  have htext : "var x : " ++ hiddenUnion.forest.text ++ " ;" = "var x : [ a | b ] | c ;" := by
    decide
  have hnone : (Parsed.ofSource {} "var x : [ a | b ] | c ;").sole? = none := by cbv
  rw [htext, hnone] at hread
  cases hread

end Printed

end Heddle
