import Heddle.Proofs.Document.Assignments
import Heddle.Proofs.Document.Nesting
import Heddle.Proofs.Reading.Secluded

/-!
# Values taken out of their assignment

A value is known from an assignment that is a whole source, and it is to be read in braces. In the
assignment it stands behind a blank and in front of a semicolon, which is the last token of the
source. **Its text alone, in front of the closing brace, is read as the same tree**, with the trivia
around it (`Assigns.exists_value`).

The semicolon behind the value is the last one because what follows an earlier one would have to be
a statement, and the source has no second node (`not_finishes`).
-/

set_option autoImplicit false

namespace Heddle

open Text Token Lookahead Phrase

variable {o : Options} {n : Nat}

/-! ## A blank in front -/

/-- A blank in front is a token of its own, or a part of the first one. -/
theorem Token.readAll_space (p : Position) (cs : List Char) :
    ∃ text ts, readAll p (' ' :: cs) = ⟨.blank, text, p⟩ :: ts ∧
      (readAll (p.after ' ') cs = ts ∨
        ∃ text', readAll (p.after ' ') cs = ⟨.blank, text', p.after ' '⟩ :: ts) := by
  have hblank (p : Position) {c : Char} (hc : isBlank c = true) (cs : List Char) :
      readAll p (c :: cs) = ⟨.blank, String.ofList ((c :: cs).takeWhile isBlank), p⟩ ::
        readAll (p.past ((c :: cs).takeWhile isBlank)) ((c :: cs).dropWhile isBlank) := by
    rw [readAll_cons, Lexeme.scan, if_pos hc]
    rfl
  have hspace : readAll p (' ' :: cs) = ⟨.blank, String.ofList (' ' :: cs.takeWhile isBlank), p⟩ ::
      readAll ((p.after ' ').past (cs.takeWhile isBlank)) (cs.dropWhile isBlank) := by
    rw [hblank p (by decide), List.takeWhile_cons_of_pos (by decide),
      List.dropWhile_cons_of_pos (by decide)]
    rfl
  refine ⟨_, _, hspace, ?_⟩
  cases cs with
  | nil => exact .inl rfl
  | cons c cs =>
    cases hc : isBlank c with
    | false =>
      rw [List.takeWhile_cons_of_neg (by simp [hc]), List.dropWhile_cons_of_neg (by simp [hc])]
      exact .inl rfl
    | true => exact .inr ⟨_, hblank _ hc cs⟩

theorem Tape.takeTrivia_space (p : Position) (cs : List Char) (reach : Nat) :
    (ofText p (' ' :: cs) reach).takeTrivia.2 = (ofText (p.after ' ') cs reach).takeTrivia.2 := by
  obtain ⟨text, ts, hall, hbehind⟩ := readAll_space p cs
  rw [takeTrivia_cons (ofText p (' ' :: cs) reach) hall rfl]
  rcases hbehind with he | ⟨text', he⟩
  · rw [← he]
    rfl
  · rw [takeTrivia_cons (ofText (p.after ' ') cs reach) he rfl]
    rfl

/-- The last token is the same without it. -/
theorem Finished.of_space {p : Position} {cs : List Char} (h : Finished (readAll p (' ' :: cs))) :
    Finished (readAll (p.after ' ') cs) := by
  obtain ⟨text, ts, hall, hbehind⟩ := readAll_space p cs
  rw [hall] at h
  rcases hbehind with he | ⟨text', he⟩
  · rw [he]
    exact h.tail
  · rw [he]
    refine h.tail.behind (fun hn => ?_) [_]
    rw [hn] at h
    cases h.of_singleton

/-! ## What is left behind a value -/

/-- Without a brace a value is never taken for the head of a rule. So the look for an assignment
says yes as soon as it has found the sign. -/
theorem isValue_of_noBrace {ts : List Token} (h : ∀ t ∈ ts, t.isMark .leftBrace = false)
    (depth : Nat) : isValue depth ts = true := by
  induction ts generalizing depth with
  | nil => rfl
  | cons t ts ih =>
    have hrest := ih fun u hu => h u (List.mem_cons_of_mem _ hu)
    simp only [isValue, h t List.mem_cons_self, hrest]
    simp

/-- A statement that is read without errors shows in the tree. -/
theorem nodes_ne_nil_of_clean {tape : Tape} (ht : tape.Lexed)
    (hc : (Attempt.recovered o.file false (readStatement o tape)).Clean) :
    (Attempt.recovered o.file false (readStatement o tape)).trace.forest.nodes ≠ [] := by
  obtain ⟨hread, he⟩ := hc.of_recovered
  rw [he]
  refine Attempt.nodes_ne_nil_of_statement ?_
  rcases (spellsStatements_statement maxNesting o).spells tape ht hread.succeeds with h | ⟨h, -⟩
  · exact h
  · cases h

/-- Where the last token is a semicolon, there is another statement. A lone semicolon is none, and
is an error. -/
theorem not_finishes {rest : List Char} (hr : Detached rest) (p : Position) (reach : Nat) :
    ¬ Finishes o (.ofText p (rest ++ [';']) reach) := by
  rintro ⟨hd, hn⟩
  obtain ⟨f, w, hf, -, hsolid⟩ := exists_trivia o maxNesting hr
  obtain ⟨reach', hl⟩ := hf.takeTrivia p reach
  have hahead :
      ¬ Attempt.EndsList false (Tape.ofText p (rest ++ [';']) reach).takeTrivia.2.ahead := by
    rw [hl]
    exact Attempt.not_endsList_of_ne_nil fun he => by simpa using Token.readAll_eq_nil he
  have hbrace : (Tape.ofText p (rest ++ [';']) reach).takeTrivia.2.ahead.head?.any
      (·.isMark .rightBrace) = false := by
    rw [hl, Tape.ahead_ofText]
    cases ha : readAll (p.past f.chars) (w ++ [';']) with
    | nil => rfl
    | cons t ts => exact hf.left.isMark_brace (.inr rfl) (ha ▸ List.mem_cons_self)
  have heq := @Attempt.statements_eq o.file false (readStatement o) (conserves_readStatement o)
    (fun tape ht => progress_statement maxNesting o ht) _ (Tape.lexed_ofText _ _ _) hahead hbrace
  rw [readFurther, heq] at hd hn
  rw [Attempt.andThen_of_none (Attempt.failure_recovered _ _ _), hl] at hd hn
  change Forest.nodes _ = [] at hn
  simp only [Attempt.trace_behind, Trace.diagnostics_append, Trace.forest_append,
    Forest.nodes_append, List.append_eq_nil_iff] at hd hn
  exact nodes_ne_nil_of_clean (Tape.lexed_ofText _ _ _)
    ⟨Attempt.failure_recovered _ _ _, hd.2.1⟩ hn.2.1

/-- In front of the last semicolon of a source, a value ends with trivia. If it ended earlier, at
another semicolon, a statement would follow. -/
theorem exists_after {w : List Char} (hw : Detached w) {p : Position} {reach : Nat}
    (hc : (terminator.read (Production.read n) o (.ofText p (w ++ [';']) reach)).Clean)
    (hf : Finishes o (terminator.read (Production.read n) o (.ofText p (w ++ [';']) reach)).tape) :
    ∃ after : Forest, after.isTrivia = true ∧ w = after.chars ∧
      ∀ more, Delimits more → ReadsBack o .trivia after more := by
  obtain ⟨after, v, hafter, htrivia, hsolid⟩ := exists_trivia o n hw
  obtain ⟨reach', hl⟩ := hafter.takeTrivia p reach
  have hno : significant (isMark .rightBrace) (Tape.ofText p (w ++ [';']) reach).ahead = false := by
    rw [Tape.ahead_ofText, significant]
    cases hfind : (readAll p (w ++ [';'])).find? (!·.isTrivia) with
    | none => rfl
    | some t => exact hw.isMark_brace (.inr rfl) (List.mem_of_find?_eq_some hfind)
  have hread : terminator.read (Production.read n) o (.ofText p (w ++ [';']) reach) =
      ((choose (next (isMark .semicolon)) (take .punctuation) (expected (.mark .semicolon))).read
        (Production.read n) o (.ofText (p.past after.chars) (v ++ [';']) reach')).behind
        (Tape.ofText p (w ++ [';']) reach).takeTrivia.1 := by
    rw [terminator, Phrase.read, if_neg (Bool.eq_false_iff.1 hno), mark, expect, Phrase.read,
      Phrase.read, Attempt.andThen_of_none rfl, Attempt.tape_ofTaken, hl]
    rfl
  -- What the value leaves is trivia and then either the last semicolon, or another token.
  rw [hread] at hc hf
  replace hc := hc.of_behind
  rw [Attempt.tape_behind] at hf
  rw [Phrase.read] at hc hf
  split at hc <;> rename_i hnext
  · obtain ⟨htext, -, hleft, hreads⟩ := hafter
    cases hleft with
    | nil => exact ⟨after, htrivia, by simpa using htext, hreads⟩
    | @token kind cs rest leads inner behind =>
      -- The semicolon of the assignment would be an earlier one.
      obtain ⟨reach'', htake⟩ := Tape.take_leads (leads [';'] (delimits_semicolon []))
        .punctuation (p.past after.chars) reach'
      rw [List.append_assoc] at hf hnext
      rw [if_pos hnext, Phrase.read, htake, Attempt.tape_ofTaken] at hf
      exact absurd hf (not_finishes behind _ _)
  · cases hc.succeeds

/-! ## The value of an assignment -/

/-- The text is that of the value, with trivia around it, and it is read back in front of
everything that closes it. -/
structure IsValue (o : Options) (text : List Char) (before value after : Forest) : Prop where
  text : text = before.chars ++ (value.chars ++ after.chars)
  before_isTrivia : before.isTrivia = true
  after_isTrivia : after.isTrivia = true
  reads : ∀ more, Delimits more → ReadsBack o (.node .expression)
    (before ++ .node .expression none value .nil) (after.chars ++ more)
  readsAfter : ∀ more, Delimits more → ReadsBack o .trivia after more

/-- What is assigned behind a blank, in front of the last semicolon of a source. The expression is
read without errors in front of the semicolon; that it is read alike in front of anything else
that ends it is what `Reading.Secluded` transfers. -/
theorem exists_value_of_clean (ho : o.spacedCalls = false) {u : List Char} (hu : Detached u)
    {p : Position} {reach : Nat} {a : Attempt}
    (ha : a = assignedValue.read (Production.read (n + 1)) o
      (.ofText p (' ' :: (u ++ [';'])) reach)) (hc : a.Clean) (hf : Finishes o a.tape) :
    ∃ before value after : Forest, ⟨.expression, none, value⟩ ∈ a.trace.forest.unplaced.nodes ∧
      IsValue o u before value after := by
  obtain ⟨before, v, hbefore, hbeforeTrivia, -⟩ := exists_trivia o (n + 1) hu
  obtain ⟨reach', hl⟩ := hbefore.takeTrivia (p.after ' ') reach
  rw [← Tape.takeTrivia_space] at hl
  let inside := Production.expression.body.read (Production.read n) o
    (.ofText ((p.after ' ').past before.chars) (v ++ [';']) reach')
  have hnode : (node .expression).read (Production.read (n + 1)) o
      (.ofText p (' ' :: (u ++ [';'])) reach) = (inside.framed o.file .expression
        (Tape.ofText ((p.after ' ').past before.chars) (v ++ [';']) reach').place).behind
          (Tape.ofText p (' ' :: (u ++ [';'])) reach).takeTrivia.1 := by
    rw [read_nodeBehind rfl, hl]
    rfl
  rw [assignedValue, Phrase.read, hnode] at ha
  subst ha
  obtain ⟨hexpression, hterminator, he⟩ := hc.of_andThen
  have hinside : inside.Clean := hexpression.of_behind.of_framed
  rw [Attempt.tape_behind, Attempt.tape_framed] at hterminator he
  -- A value that went to the end of the source would have no semicolon behind it.
  have hleft : inside.tape.ahead ≠ [] := by
    intro hn
    rw [terminator, Phrase.read, hn, if_neg (by exact Bool.false_ne_true)] at hterminator
    refine absurd hterminator.succeeds (Attempt.failure_mark .semicolon o ?_)
    rw [hn]
    rfl
  obtain ⟨value, w, hvalue⟩ := Production.transfers_body ho (Production.transfers ho n)
    (p := .expression) rfl v _ reach' hbefore.left hinside hleft
  have hyields := hvalue.yields (delimits_semicolon []) ((p.after ' ').past before.chars) reach'
  obtain ⟨reach'', hw⟩ := hyields.left
  rw [he, Attempt.tape_behind] at hf
  rw [show inside.tape = _ from hw] at hterminator hf
  -- Behind the value there is trivia, and nothing else up to the semicolon.
  obtain ⟨after, hafterTrivia, rfl, hafter⟩ := exists_after hvalue.left hterminator hf
  refine ⟨before, value, after, ?_, ?_, hbeforeTrivia, hafterTrivia, fun more hm => ?_, hafter⟩
  · have hframed := (hyields.framed o.file .expression (Tape.ofText
      ((p.after ' ').past before.chars) (v ++ [';']) reach').place).forest
    rw [he]
    simp only [Attempt.trace_behind, Trace.forest_append, Forest.unplaced_append,
      Forest.nodes_append]
    rw [hframed]
    simp
  · rw [hbefore.text, hvalue.text]
  · refine .nodeBehind rfl ?_ (hvalue.reads more hm)
    rw [← List.append_assoc, ← hvalue.text]
    exact hbefore.reads more hm

/-- A source in which the text is assigned. -/
def assigns (e : String) : String := "x = " ++ e ++ ";"

/-- The text `e` is that of a value: nothing in it ends a quoted text or a placeholder in one, and
the source in which it is assigned is `s` alone and ends with the semicolon. -/
structure Assigns (o : Options) (e : String) (s : Node) : Prop where
  inner : ∀ c ∈ e.toList, isInner c = true
  sole : (Parsed.ofSource o (assigns e)).sole? = some s
  kind : s.kind = .assignment
  ends : Finished (tokenize (assigns e))

namespace Assigns

variable {e : String} {s : Node}

theorem toList_assigns (e : String) : (assigns e).toList =
    'x' :: (gap true ++ (Mark.equals.spelling.toList ++ ' ' :: (e.toList ++ [';']))) := by
  simp [assigns, gap, Mark.spelling]

/-- Behind the sign the text ends with the semicolon, too. -/
theorem finished (h : Assigns o e s) : Finished (readAll
    (((Position.origin.after 'x').past (gap true)).past Mark.equals.spelling.toList)
    (' ' :: (e.toList ++ [';']))) := by
  have hl : Apart (isLonger .equals) (' ' :: (e.toList ++ [';'])) := isLonger_blank .equals _
  have hsign := leads_mark .equals hl
  have hends := h.ends
  have hne : (assigns e).toList.head? ≠ some '\uFEFF' := by
    rw [toList_assigns, List.head?_cons]
    decide
  rw [tokenize, openSource_of_ne hne, toList_assigns] at hends
  replace hends : Finished (readAll .origin (variableName.chars ++ (gap true ++
    (Mark.equals.spelling.toList ++ ' ' :: (e.toList ++ [';']))))) := hends
  rw [variableName.leads (Printed.calm_sign (.inr rfl) true hl).apart, gap, if_pos rfl,
    leads_blank (hsign.solid rfl).apart, hsign] at hends
  exact hends.tail.tail.tail

/-- **The text of a value is read as the same tree wherever it is closed.** The assignment tells
which tree this is, and which trivia stands around it. -/
theorem exists_value (ho : o.spacedCalls = false) (h : Assigns o e s) :
    ∃ before value after : Forest, ⟨.expression, none, value⟩ ∈ s.unplaced.nodes ∧
      IsValue o e.toList before value after := by
  have hl : Apart (isLonger .equals) (' ' :: (e.toList ++ [';'])) := isLonger_blank .equals _
  have hfinished := h.finished
  have hall : Detached (' ' :: e.toList) :=
    .of_finished (List.forall_mem_cons.2 ⟨by decide, h.inner⟩) hfinished
  have hvalue (p : Position) : isValue 0 (readAll p (' ' :: (e.toList ++ [';']))) = true :=
    isValue_of_noBrace (fun _ ht => hall.isMark_brace (.inl rfl) ht) 0
  obtain ⟨f, -, hcomes⟩ := comes_assigned (n := 255) (by decide) o (.inr rfl) true hl
  rw [← toList_assigns] at hcomes
  obtain ⟨lead, l, -, hiff⟩ := sole?_of_comes (p := .assignment)
    ⟨'x', by rw [toList_assigns]; rfl, by decide⟩
    (readStatement_assigned o (.inr rfl) true hl (toList_assigns e) (hvalue _)) hcomes
  obtain ⟨hclean, hfinishes, rfl⟩ := (hiff s).1 h.sole
  obtain ⟨before, value, after, hmem, hv⟩ := exists_value_of_clean ho
    (.of_finished h.inner hfinished.of_space) rfl hclean hfinishes
  refine ⟨before, value, after, ?_, hv⟩
  show _ ∈ Forest.nodes (Forest.unplaced (_ ++ _))
  rw [Forest.unplaced_append, Forest.nodes_append]
  exact List.mem_append_right _ hmem

end Assigns

end Heddle
