import Heddle.Proofs.Reading.Extension
import Heddle.Proofs.Token.Leading
import Heddle.Proofs.Tree.Unplaced

/-!
# Reading what was printed

A tree without extents determines its text, and a phrase reads the tree back if it reads this text
as this tree, wherever the text stands. Most phrases go on as long as they can, so this depends on
what follows: `Phrase.ReadsBack o q f rest` says that **`q` reads the text of `f` as `f` in front
of `rest`, and leaves `rest`**, given that as many levels of nodes are allowed as `f` has.

There is one rule for each kind of phrase. The rules split the tree as the phrase goes through it,
and what is left to show at the leaves is about single tokens: that a token ends where its piece
of data ends (`Token.Leads`), and what a look ahead says of a text (`Lookahead.On`). How deep the
nodes nest never shows in these rules, since a node allows its inside one level less and has one
level more.
-/

set_option autoImplicit false

namespace Heddle

open Text

variable {rest : List Char}

/-! ## Looking at a text -/

namespace Lookahead

/-- What a look ahead says of a text, wherever the text stands. The looks of the grammar do not
see places, but to read a text back nobody has to know that. -/
def On (test : Lookahead) (cs : List Char) (answer : Bool) : Prop :=
  ∀ p, test (Token.readAll p cs) = answer

/-- A look ahead at a text whose first token is known. -/
theorem On.of_leads {test : Lookahead} {answer : Bool} {kind : TokenKind} {cs : List Char}
    (h : Token.Leads kind cs rest)
    (ht : ∀ p q, test (⟨kind, String.ofList cs, p⟩ :: Token.readAll q rest) = answer) :
    On test (cs ++ rest) answer := by
  intro p
  rw [h p]
  exact ht p _

end Lookahead

/-- The text begins with a token that is no trivia. In front of such a text a construct begins at
once. -/
def Text.Solid (cs : List Char) : Prop := Lookahead.On (Lookahead.next Token.isTrivia) cs false

theorem Token.Leads.solid {kind : TokenKind} {cs : List Char} (h : Token.Leads kind cs rest)
    (hk : kind.isTrivia = false) : Solid (cs ++ rest) :=
  .of_leads h fun _ _ => hk

theorem Text.Solid.apart {cs : List Char} (h : Solid cs) : Apart isBlank cs := by
  intro c hc
  obtain ⟨ds, rfl⟩ := List.head?_eq_some_iff.1 hc
  cases hb : isBlank c with
  | false => rfl
  | true =>
    have hn := h .origin
    rw [Token.readAll_cons, Lexeme.scan, if_pos hb] at hn
    cases hn

namespace Tape

theorem takeTrivia_solid {cs : List Char} (h : Solid cs) (p : Position) (reach : Nat) :
    (ofText p cs reach).takeTrivia = (.nil, ofText p cs reach) := by
  apply Attempt.takeTrivia_of_nil
  have hn := h p
  rw [ahead_ofText]
  cases ha : Token.readAll p cs with
  | nil => rfl
  | cons t ts =>
    rw [ha] at hn
    exact List.takeWhile_cons_of_neg (Bool.eq_false_iff.1 hn)

theorem take_leads {kind : TokenKind} {cs : List Char} (h : Token.Leads kind cs rest)
    (tag : DataTag) (p : Position) (reach : Nat) :
    ∃ reach', (ofText p (cs ++ rest) reach).take tag =
      (.ofData (kind.role tag) (String.ofList cs), ofText (p.past cs) rest reach') := by
  rw [take_of_cons tag (h p)]
  simp only [ofText, Position.past_append]
  exact ⟨_, rfl⟩

theorem takeTrivia_blank {cs : List Char} (h : Solid cs) (p : Position) (reach : Nat) :
    ∃ reach', (ofText p (' ' :: cs) reach).takeTrivia =
      (.ofData .whitespace " ", ofText (p.after ' ') cs reach') := by
  obtain ⟨reach', htake⟩ := take_leads (Token.leads_blank h.apart) .whitespace p reach
  have hone : ((ofText p (' ' :: cs) reach).ahead.takeWhile (·.kind.isTrivia)).length = 1 := by
    have hn := h (p.past [' '])
    rw [ahead_ofText, show ' ' :: cs = [' '] ++ cs from rfl, Token.leads_blank h.apart,
      List.takeWhile_cons_of_pos rfl]
    cases ha : Token.readAll (p.past [' ']) cs with
    | nil => rfl
    | cons t ts =>
      rw [ha] at hn
      have ht : (t :: ts).takeWhile (·.kind.isTrivia) = [] :=
        List.takeWhile_cons_of_neg (Bool.eq_false_iff.1 hn)
      rw [ht]
      rfl
  refine ⟨reach', ?_⟩
  rw [takeTrivia, hone, takeMany_succ]
  have htake : (ofText p (' ' :: cs) reach).take .whitespace =
      (.ofData .whitespace " ", ofText (p.after ' ') cs reach') := htake
  rw [htake]
  rfl

end Tape

namespace Text

/-- Only a blank or a slash begins trivia. -/
theorem solid_cons {c : Char} (hb : isBlank c = false) (hs : c ≠ '/') (cs : List Char) :
    Solid (c :: cs) := by
  intro p
  have horigin := Lexeme.origin_scan false p c cs
  have hscan : (Lexeme.scan false p c cs).kind.isTrivia = false := by
    cases hk : (Lexeme.scan false p c cs).kind with
    | blank => exact absurd (horigin.blank hk).1 (by simp [hb])
    | lineComment => exact absurd (horigin.comment (.inl hk)).1 hs
    | blockComment => exact absurd (horigin.comment (.inr hk)).1 hs
    | _ => rfl
  rw [Token.readAll_cons]
  exact hscan

end Text

namespace Lookahead.On

variable {P : Token → Bool} {answer : Bool} {cs : List Char}

/-- A text does not begin with a mark whose first character is another one. -/
theorem otherMark {m : Mark} {c : Char} (h : m.spelling.toList.head? ≠ some c) (cs : List Char) :
    On (next (Token.isMark m)) (c :: cs) false := by
  intro p
  cases ha : Token.readAll p (c :: cs) with
  | nil => rfl
  | cons t ts =>
    cases hm : t.isMark m with
    | false => exact hm
    | true =>
      obtain ⟨-, -, rest, hc, -⟩ := Token.readAll_eq_cons ha
      rw [Token.text_of_mark (ha ▸ List.mem_cons_self) (beq_iff_eq.1 hm)] at hc
      have hne : m.spelling.toList ≠ [] := by cases m <;> decide
      obtain ⟨d, ds, hd⟩ := List.exists_cons_of_ne_nil hne
      rw [hd] at hc h
      exact absurd (congrArg some (List.cons.inj hc).1.symm) h

/-- A look ahead at a text that begins with a mark. -/
theorem ofMark {test : Lookahead} (m : Mark) (h : Apart (Token.isLonger m) rest)
    (ht : ∀ p ts, test (⟨.mark m, m.spelling, p⟩ :: ts) = answer) :
    On test (m.spelling.toList ++ rest) answer := by
  refine .of_leads (Token.leads_mark m h) fun p q => ?_
  rw [String.ofList_toList]
  exact ht p _

/-- The mark that a text begins with. -/
theorem mark (m : Mark) (h : Apart (Token.isLonger m) rest) :
    On (next (Token.isMark m)) (m.spelling.toList ++ rest) true :=
  .ofMark m h fun _ _ => beq_self_eq_true (TokenKind.mark m)

/-- A look ahead at a text that begins with a blank and a mark. -/
theorem ofBlankMark {test : Lookahead} (m : Mark) (h : Apart (Token.isLonger m) rest)
    (ht : ∀ p q ts, test (⟨.blank, " ", p⟩ :: ⟨.mark m, m.spelling, q⟩ :: ts) = answer) :
    On test (' ' :: (m.spelling.toList ++ rest)) answer := by
  have hl := Token.leads_mark m h
  intro p
  rw [show ' ' :: (m.spelling.toList ++ rest) = [' '] ++ (m.spelling.toList ++ rest) from rfl,
    Token.leads_blank (hl.solid rfl).apart, hl, String.ofList_toList]
  exact ht p _ _

/-- Where there is no trivia the next token is the next significant one. -/
theorem significant (hs : Solid cs) (h : On (next P) cs answer) :
    On (Lookahead.significant P) cs answer := by
  intro p
  have hn := hs p
  have hp := h p
  rw [← hp]
  cases ha : Token.readAll p cs with
  | nil => rfl
  | cons t ts =>
    rw [ha] at hn
    have ht : t.isTrivia = false := hn
    simp [Lookahead.significant, next, ht]

/-- A blank in front does not matter for the next significant token. -/
theorem blank (hs : Solid cs) (h : On (Lookahead.significant P) cs answer) :
    On (Lookahead.significant P) (' ' :: cs) answer := by
  intro p
  rw [show ' ' :: cs = [' '] ++ cs from rfl, Token.leads_blank hs.apart p, ← h (p.past [' '])]
  rfl

end Lookahead.On

/-! ## Attempts at a printed text -/

namespace Attempt

/-- The attempt has made no mistake, reports the forest, and has left `rest` at `p`. What was
reached is not said, since it depends on the extents in front. -/
structure Yields (f : Forest) (p : Position) (rest : List Char) (a : Attempt) : Prop where
  clean : a.Clean
  left : ∃ reach, a.tape = .ofText p rest reach
  forest : a.trace.forest.unplaced = f

namespace Yields

variable {f g : Forest} {p q : Position} {cs : List Char} {a : Attempt}

theorem nothing (p : Position) (reach : Nat) :
    Yields .nil p rest (ofTaken (.nil, .ofText p rest reach)) :=
  ⟨⟨rfl, rfl⟩, ⟨reach, rfl⟩, rfl⟩

theorem data (tag : DataTag) (text : String) (p : Position) (reach : Nat) :
    Yields (.ofData tag text) p rest (ofTaken (.ofData tag text, .ofText p rest reach)) :=
  ⟨⟨rfl, rfl⟩, ⟨reach, rfl⟩, rfl⟩

theorem behind {b : Attempt} {lead : Trace} (hd : lead.diagnostics = [])
    (hf : lead.forest.unplaced = f) (hb : Yields g p rest b) :
    Yields (f ++ g) p rest (b.behind lead) := by
  refine ⟨⟨hb.clean.succeeds, ?_⟩, hb.left, ?_⟩
  · rw [trace_behind, Trace.diagnostics_append, hd, hb.clean.silent]
    rfl
  · rw [trace_behind, Trace.forest_append, Forest.unplaced_append, hf, hb.forest]

theorem andThen {next : Tape → Attempt} (ha : Yields f p cs a)
    (hn : ∀ reach, Yields g q rest (next (.ofText p cs reach))) :
    Yields (f ++ g) q rest (a.andThen next) := by
  obtain ⟨reach, hl⟩ := ha.left
  rw [andThen_of_none ha.clean.succeeds, hl]
  exact behind ha.clean.silent ha.forest (hn reach)

theorem framed (ha : Yields f p rest a) (file : Option String) (kind : NodeKind)
    (start : Position) :
    Yields (.node kind none f .nil) p rest (a.framed file kind start) := by
  have he : a.framed file kind start = { a with
      trace := .ofNode kind (a.trace ++ .ofNote (.location (a.tape.extent file start))) true } := by
    rw [Attempt.framed, ha.clean.succeeds]
  rw [he]
  refine ⟨⟨ha.clean.succeeds, ?_⟩, ha.left, ?_⟩
  · simpa using ha.clean.silent
  · simp [Trace.ofNode, Trace.forest, Forest.unplaced, ha.forest]

end Yields

end Attempt

/-! ## Phrases at a printed text -/

/-- Of several cases the first one whose look ahead says yes is read. As an equation with `find?`
it can be evaluated where the first token is known. -/
theorem Phrase.read_oneOf (descend : Options → Production → Tape → Attempt) (o : Options)
    (cases : List (Lookahead × Phrase)) (otherwise : Phrase) (tape : Tape) :
    (Phrase.oneOf cases otherwise).read descend o tape =
      (((cases.find? fun c => c.1 tape.ahead).map (·.2)).getD otherwise).read descend o tape := by
  induction cases with
  | nil => rfl
  | cons c cases ih =>
    obtain ⟨test, yes⟩ := c
    show (Phrase.choose test yes (Phrase.oneOf cases otherwise)).read descend o tape = _
    rw [Phrase.read, List.find?_cons]
    simp only
    cases ht : test tape.ahead with
    | true => rfl
    | false => exact ih

/-- What is read of several cases in front of a known token. -/
theorem Phrase.read_select (descend : Options → Production → Tape → Attempt) (o : Options)
    {cases : List (Lookahead × Phrase)} {otherwise q : Phrase} {kind : TokenKind}
    {cs tail : List Char} (hl : Token.Leads kind cs tail) (hk : kind.isTrivia = false)
    (ht : ∀ p ts, ((cases.find? fun c => c.1 (⟨kind, String.ofList cs, p⟩ :: ts)).map (·.2)).getD
      otherwise = q) (pos : Position) (reach : Nat) :
    (Phrase.trivia.andThen (Phrase.oneOf cases otherwise)).read descend o
        (.ofText pos (cs ++ tail) reach) = q.read descend o (.ofText pos (cs ++ tail) reach) := by
  rw [Phrase.read, Phrase.read, Tape.takeTrivia_solid (hl.solid hk), Attempt.andThen_of_none rfl]
  show Attempt.behind .nil _ = _
  rw [Attempt.tape_ofTaken, read_oneOf, Tape.ahead_ofText, hl, ht]
  rfl

/-- A node in front of which there is no trivia, or one that keeps it. -/
theorem Phrase.read_node {p : Production} (hs : p.keepsTrivia = true ∨ Solid rest) (n : Nat)
    (o : Options) (pos : Position) (reach : Nat) :
    (Phrase.node p).read (Production.read (n + 1)) o (.ofText pos rest reach) =
      (p.body.read (Production.read n) o (.ofText pos rest reach)).framed o.file p.kind
        (Tape.ofText pos rest reach).place := by
  rw [Phrase.read, Production.read, Production.enter_eq]
  split <;> rename_i hk
  · rfl
  · rw [Tape.takeTrivia_solid (hs.resolve_left hk), Attempt.andThen_of_none rfl]
    rfl

/-- The phrase reads the text of the forest as the forest, in front of `rest`, with as many levels
as the forest is high. It is quantified over the place and over what was reached, so that parts
can be put together. -/
def Phrase.ReadsBack (o : Options) (q : Phrase) (f : Forest) (rest : List Char) : Prop :=
  ∀ n p reach, f.height ≤ n →
    (q.read (Production.read n) o (.ofText p (f.chars ++ rest) reach)).Yields f (p.past f.chars)
      rest

/-- Whether trivia in front of the phrase is not the first thing it looks at. Blanks in front of
such a phrase do no harm. -/
def Phrase.skipsTrivia : Phrase → Bool
  | trivia => true
  | node p => !p.keepsTrivia
  | andThen first _ => first.skipsTrivia
  | _ => false

namespace Phrase.ReadsBack

variable {o : Options} {f g : Forest} {q r : Phrase}

theorem empty : ReadsBack o .empty .nil rest :=
  fun _ p reach _ => .nothing p reach

theorem andThen (hq : ReadsBack o q f (g.chars ++ rest)) (hr : ReadsBack o r g rest) :
    ReadsBack o (q.andThen r) (f ++ g) rest := by
  intro n p reach hn
  rw [Forest.height_append_le] at hn
  rw [Forest.chars_append, List.append_assoc, Position.past_append]
  exact (hq n p reach hn.1).andThen fun reach => hr n _ reach hn.2

/-- A piece of data, and the other children. -/
theorem data {tag : DataTag} {text : String}
    (hq : ReadsBack o q (.ofData tag text) (g.chars ++ rest))
    (hr : ReadsBack o r g rest) : ReadsBack o (q.andThen r) (.data tag text g) rest :=
  andThen hq hr

/-- A node, and the other children. -/
theorem inner {kind : NodeKind} {l : Option Location}
    (hq : ReadsBack o q (.node kind l f .nil) (g.chars ++ rest)) (hr : ReadsBack o r g rest) :
    ReadsBack o (q.andThen r) (.node kind l f g) rest :=
  andThen hq hr

theorem take {kind : TokenKind} {tag : DataTag} {text : String}
    (h : Token.Leads kind text.toList rest) (ht : kind.role tag = tag) :
    ReadsBack o (.take tag) (.ofData tag text) rest := by
  intro n p reach _
  have hc : (Forest.ofData tag text).chars = text.toList := by simp [Forest.ofData]
  obtain ⟨reach', htake⟩ := Tape.take_leads h tag p reach
  rw [hc, Phrase.read, htake, ht, String.ofList_toList]
  exact .data tag text _ reach'

theorem choose {test : Lookahead} {answer : Bool} {yes no : Phrase}
    (ht : test.On (f.chars ++ rest) answer)
    (h : ReadsBack o (if answer then yes else no) f rest) :
    ReadsBack o (.choose test yes no) f rest := by
  intro n p reach hn
  have hread := h n p reach hn
  rw [Phrase.read, Tape.ahead_ofText, ht p]
  cases answer <;> exact hread

theorem yes {test : Lookahead} {no : Phrase} (ht : test.On (f.chars ++ rest) true)
    (h : ReadsBack o q f rest) : ReadsBack o (.choose test q no) f rest :=
  choose ht h

theorem no {test : Lookahead} {yes : Phrase} (ht : test.On (f.chars ++ rest) false)
    (h : ReadsBack o q f rest) : ReadsBack o (.choose test yes q) f rest :=
  choose ht h

/-- The first case whose look ahead says yes is the one that is read. -/
theorem oneOf {cases : List (Lookahead × Phrase)} {otherwise : Phrase}
    (ht : ∀ p, ((cases.find? fun c => c.1 (Token.readAll p (f.chars ++ rest))).map (·.2)).getD
      otherwise = q)
    (h : ReadsBack o q f rest) : ReadsBack o (Phrase.oneOf cases otherwise) f rest := by
  intro n p reach hn
  rw [read_oneOf, Tape.ahead_ofText, ht p]
  exact h n p reach hn

theorem trivia (h : Solid rest) : ReadsBack o .trivia .nil rest := by
  intro n p reach _
  rw [Phrase.read, show Forest.nil.chars ++ rest = rest from rfl, Tape.takeTrivia_solid h]
  exact .nothing p reach

/-- What stands behind trivia, if there is none. -/
theorem afterTrivia (h : Solid (f.chars ++ rest)) (hq : ReadsBack o q f rest) :
    ReadsBack o (Phrase.trivia.andThen q) f rest :=
  andThen (f := .nil) (trivia h) hq

/-- The first case whose look ahead says yes of a text whose first token is known. -/
theorem select {cases : List (Lookahead × Phrase)} {otherwise : Phrase} {kind : TokenKind}
    {cs tail : List Char} (hl : Token.Leads kind cs tail) (hk : kind.isTrivia = false)
    (hc : f.chars ++ rest = cs ++ tail)
    (ht : ∀ p ts, ((cases.find? fun c => c.1 (⟨kind, String.ofList cs, p⟩ :: ts)).map (·.2)).getD
      otherwise = q)
    (h : ReadsBack o q f rest) :
    ReadsBack o (Phrase.trivia.andThen (Phrase.oneOf cases otherwise)) f rest := by
  intro n p reach hn
  rw [hc, read_select _ o hl hk ht, ← hc]
  exact h n p reach hn

/-- A node whose trivia in front, if there is any, is its own. -/
theorem keptNode {p : Production} (hs : p.keepsTrivia = true ∨ Solid (f.chars ++ rest))
    (h : ReadsBack o p.body f rest) :
    ReadsBack o (.node p) (.node p.kind none f .nil) rest := by
  intro n pos reach hn
  have hc : (Forest.node p.kind none f .nil).chars = f.chars := by simp
  rw [Forest.height_node_le] at hn
  obtain ⟨n, rfl⟩ : ∃ m, n = m + 1 := ⟨n - 1, by omega⟩
  rw [hc, read_node hs]
  exact (h n pos reach (by omega)).framed _ _ _

theorem node {p : Production} (hs : Solid (f.chars ++ rest)) (h : ReadsBack o p.body f rest) :
    ReadsBack o (.node p) (.node p.kind none f .nil) rest := keptNode (.inr hs) h

/-! ### Blanks in front -/

/-- The single blank in front of a phrase is taken with the trivia that the phrase takes first.
What is left is read as if the blank had not been there, so printed forms may have blanks in front
of constructs. -/
theorem read_blank {cs : List Char} (hq : q.skipsTrivia = true) (hs : Solid cs) (n : Nat)
    (p : Position) (reach : Nat) :
    ∃ reach', q.read (Production.read n) o (.ofText p (' ' :: cs) reach) =
      (q.read (Production.read n) o (.ofText (p.after ' ') cs reach')).behind
        (.ofData .whitespace " ") := by
  induction q with
  | trivia =>
    obtain ⟨reach', h⟩ := Tape.takeTrivia_blank hs p reach
    refine ⟨reach', ?_⟩
    rw [Phrase.read, Phrase.read, h, Tape.takeTrivia_solid hs]
    rfl
  -- With no level left the construct is refused, but only behind the trivia.
  | node pr =>
    obtain ⟨reach', h⟩ := Tape.takeTrivia_blank hs p reach
    refine ⟨reach', ?_⟩
    have hkeeps : pr.keepsTrivia = false := Bool.not_eq_true' _ ▸ hq
    have henter (inside : Tape → Attempt) : pr.enter o inside (.ofText p (' ' :: cs) reach) =
        (pr.enter o inside (.ofText (p.after ' ') cs reach')).behind (.ofData .whitespace " ") := by
      rw [Production.enter_eq, Production.enter_eq, hkeeps, if_neg Bool.false_ne_true,
        if_neg Bool.false_ne_true, h, Tape.takeTrivia_solid hs, Attempt.andThen_of_none rfl,
        Attempt.andThen_of_none rfl]
      rfl
    rw [Phrase.read, Phrase.read]
    cases n with
    | zero => exact henter _
    | succ n => exact henter _
  | andThen first second ih _ =>
    obtain ⟨reach', h⟩ := ih hq
    refine ⟨reach', ?_⟩
    rw [Phrase.read, Phrase.read, h]
    cases hf : (first.read (Production.read n) o (.ofText (p.after ' ') cs reach')).failure with
    | none =>
      rw [Attempt.andThen_of_none (by exact hf), Attempt.andThen_of_none hf]
      simp only [Attempt.behind, Trace.append_assoc]
    | some e => rw [Attempt.andThen_of_some (by exact hf), Attempt.andThen_of_some hf]
  | _ => cases hq

/-- **A blank in front of a construct belongs to what is around it.** So blanks may be printed
between any two constructs, and are data of the parent. -/
theorem blank (hq : q.skipsTrivia = true) (hs : Solid (f.chars ++ rest))
    (h : ReadsBack o q f rest) : ReadsBack o q (.data .whitespace " " f) rest := by
  intro n p reach hn
  obtain ⟨reach', he⟩ := read_blank (o := o) hq hs n p reach
  have hc : (Forest.data .whitespace " " f).chars = ' ' :: f.chars := by simp
  rw [hc, List.cons_append, he]
  exact .behind (f := .ofData .whitespace " ") rfl rfl (h n _ reach' hn)

/-! ### Repetitions -/

/-- A repetition whose rounds all take something. -/
structure Loops (test : Lookahead) (body : Phrase) : Prop where
  atEnd : test [] = false
  takes : body.takes = true

variable {test : Lookahead}

theorem read_repeating (hl : Loops test q) (n : Nat) (p : Position) (cs : List Char)
    (reach : Nat) :
    (q.repeating test).read (Production.read n) o (.ofText p cs reach) =
      if test (Token.readAll p cs) then
        (q.read (Production.read n) o (.ofText p cs reach)).andThen
          ((q.repeating test).read (Production.read n) o)
      else .ofTaken (.nil, .ofText p cs reach) := by
  have hc (tape : Tape) (ht : tape.Lexed) :
      Attempt.Conserves tape (q.read (Production.read n) o tape) :=
    Attempt.conserves.phrase (fun o p tape => Attempt.conserves.read n o p tape) q o tape ht
  have hp (tape : Tape) (ht : tape.Lexed) :
      Attempt.Progress tape (q.read (Production.read n) o tape) :=
    Attempt.progress_phrase (fun o p tape => Attempt.conserves.read n o p tape)
      (fun o p tape hp => Attempt.progress_read n o hp) q hl.takes o ht
  exact Attempt.repeating_eq hl.atEnd hc hp (Tape.lexed_ofText p cs reach)

theorem stop (hl : Loops test q) (ht : test.On rest false) :
    ReadsBack o (q.repeating test) .nil rest := by
  intro n p reach _
  rw [show Forest.nil.chars ++ rest = rest from rfl, read_repeating hl, ht p]
  exact .nothing p reach

theorem again (hl : Loops test q) (ht : test.On (f.chars ++ (g.chars ++ rest)) true)
    (hq : ReadsBack o q f (g.chars ++ rest)) (hr : ReadsBack o (q.repeating test) g rest) :
    ReadsBack o (q.repeating test) (f ++ g) rest := by
  intro n p reach hn
  have hread := (hq.andThen hr) n p reach hn
  rw [Forest.chars_append, List.append_assoc] at hread ⊢
  rw [read_repeating hl, ht p]
  exact hread

/-! ### Single tokens -/

theorem takeMark (m : Mark) (tag : DataTag) (h : Apart (Token.isLonger m) rest) :
    ReadsBack o (.take tag) (.ofData tag m.spelling) rest :=
  take (Token.leads_mark m h) rfl

theorem takeName (n : Token.Name) (tag : DataTag) (h : Apart isWord rest) :
    ReadsBack o (.take tag) (.ofData tag n.text) rest :=
  have hl : Token.Leads .word n.text.toList rest := by
    rw [n.toList_text]
    exact n.leads h
  take hl rfl

end Phrase.ReadsBack

end Heddle
