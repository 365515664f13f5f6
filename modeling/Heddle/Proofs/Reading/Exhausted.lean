import Heddle.Proofs.Printed.Expressions
import Heddle.Proofs.Reading.Reported

/-!
# Where the levels run out

The reading of a construct fails where no level is left for it. What it has taken before is not
unread, and of what it has read nothing is kept: **`Phrase.Exhausts o n q cs rest` says that with
`n` levels `q` takes the text `cs` and fails in front of `rest` for want of levels**, wherever the
text stands.

As with the texts that are read back, the rules follow the phrase. An expression in parentheses
costs two levels, one for the parentheses and one for what is inside, so the levels run out as far
inside as there are pairs of levels (`Phrase.Exhausts.replicate_leftParen`).
`Document.Parentheses` puts the number of levels in.
-/

set_option autoImplicit false

namespace Heddle

open Text Token Lookahead

variable {p : Position} {cs rest : List Char} {n : Nat} {o : Options}

/-! ## Attempts -/

/-- The attempt has failed in front of `rest` at `p` for want of levels, and has reported nothing.
The error is still to come, from the list of statements. -/
structure Attempt.Exhausts (p : Position) (rest : List Char) (a : Attempt) : Prop where
  failure : a.failure = some ⟨.tooDeep, p⟩
  left : ∃ reach, a.tape = .ofText p rest reach
  silent : a.trace.diagnostics = []

namespace Attempt.Exhausts

variable {a : Attempt}

theorem behind {lead : Trace} (hd : lead.diagnostics = []) (h : Exhausts p rest a) :
    Exhausts p rest (a.behind lead) := by
  refine ⟨h.failure, h.left, ?_⟩
  rw [trace_behind, Trace.diagnostics_append, hd, h.silent]
  rfl

theorem andThen (h : Exhausts p rest a) (next : Tape → Attempt) :
    Exhausts p rest (a.andThen next) := by
  rw [andThen_of_some h.failure]
  exact h

theorem framed (h : Exhausts p rest a) (file : Option String) (kind : NodeKind)
    (start : Position) : Exhausts p rest (a.framed file kind start) := by
  refine ⟨(failure_framed _ _ _ _).trans h.failure, ?_, ?_⟩
  · rw [tape_framed]
    exact h.left
  · rw [diagnostics_framed]
    exact h.silent

end Attempt.Exhausts

/-! ## Phrases -/

/-- With `n` levels the phrase takes `cs` and has no level left for what begins with `rest`. -/
def Phrase.Exhausts (o : Options) (n : Nat) (q : Phrase) (cs rest : List Char) : Prop :=
  ∀ p reach, (q.read (Production.read n) o (.ofText p (cs ++ rest) reach)).Exhausts (p.past cs) rest

/-- What an operand is read as in front of a known token. -/
theorem Phrase.read_operand (descend : Options → Production → Tape → Attempt) (o : Options)
    {cases : List (Lookahead × Phrase)} {otherwise q : Phrase} {kind : TokenKind}
    {cs tail : List Char} (hp : primary = trivia.andThen (oneOf cases otherwise))
    (hl : Leads kind cs tail) (hk : kind.isTrivia = false)
    (hs : kind ≠ .mark .bang ∧ kind ≠ .mark .minus)
    (ht : ∀ p ts, ((cases.find? fun c => c.1 (⟨kind, String.ofList cs, p⟩ :: ts)).map (·.2)).getD
      otherwise = q) (pos : Position) (reach : Nat) :
    operand.read descend o (.ofText pos (cs ++ tail) reach) =
      q.read descend o (.ofText pos (cs ++ tail) reach) := by
  have hsign : next (fun t => t.isMark .bang || t.isMark .minus)
      (readAll pos (cs ++ tail)) = false := by
    rw [hl pos]
    show (kind == .mark .bang || kind == .mark .minus) = false
    rw [beq_eq_false_iff_ne.2 hs.1, beq_eq_false_iff_ne.2 hs.2]
    rfl
  rw [operand, Phrase.read, Phrase.read, Tape.takeTrivia_solid (hl.solid hk),
    Attempt.andThen_of_none rfl, Attempt.tape_ofTaken, Phrase.read, Tape.ahead_ofText, hsign, hp]
  exact read_select descend o hl hk ht pos reach

namespace Phrase.Exhausts

variable {q r : Phrase} {f : Forest}

theorem andThen (h : Exhausts o n q cs rest) (r : Phrase) :
    Exhausts o n (q.andThen r) cs rest :=
  fun p reach => (h p reach).andThen _

/-- Behind something printed. The levels suffice for it, as they do for whatever is at most as
high. -/
theorem past (hq : ReadsBack o q f (cs ++ rest)) (hf : f.height ≤ n)
    (h : Exhausts o n r cs rest) : Exhausts o n (q.andThen r) (f.chars ++ cs) rest := by
  intro p reach
  have hy := hq n p reach hf
  obtain ⟨reach', hl⟩ := hy.left
  rw [List.append_assoc, Phrase.read, Attempt.andThen_of_none hy.clean.succeeds, hl,
    Position.past_append]
  exact (h _ reach').behind hy.clean.silent

/-- Inside a node. -/
theorem node {p : Production} (hs : Solid (cs ++ rest)) (h : Exhausts o n p.body cs rest) :
    Exhausts o (n + 1) (.node p) cs rest := by
  intro pos reach
  rw [read_node (.inr hs)]
  exact (h pos reach).framed _ _ _

/-- Without a level no node is read. -/
theorem zero (p : Production) (hs : Solid rest) : Exhausts o 0 (.node p) [] rest := by
  intro pos reach
  have htrivia := Tape.takeTrivia_solid hs pos reach
  have hfail : (Attempt.fail ((Tape.ofText pos rest reach).failure .tooDeep)
      (.ofText pos rest reach)).Exhausts pos rest := by
    refine ⟨?_, ⟨reach, rfl⟩, rfl⟩
    rw [Attempt.fail, Tape.failure, Tape.place_ofText]
  show ((Phrase.node p).read _ o (.ofText pos rest reach)).Exhausts pos rest
  rw [Phrase.read, Production.read, Production.enter_eq]
  split
  · exact hfail.framed _ _ _
  · rw [htrivia, Attempt.andThen_of_none rfl]
    exact (hfail.framed _ _ _).behind rfl

/-- A blank in front is taken as well. -/
theorem blank (hq : q.skipsTrivia = true) (hs : Solid (cs ++ rest))
    (h : Exhausts o n q cs rest) : Exhausts o n q (' ' :: cs) rest := by
  intro p reach
  obtain ⟨reach', he⟩ := ReadsBack.read_blank (o := o) hq hs n p reach
  rw [List.cons_append, he]
  exact (h _ reach').behind rfl

/-- What an operand is in front of a known token. -/
theorem operand {cases : List (Lookahead × Phrase)} {otherwise : Phrase} {kind : TokenKind}
    {text tail : List Char} (hp : primary = trivia.andThen (oneOf cases otherwise))
    (hl : Leads kind text tail) (hk : kind.isTrivia = false)
    (hs : kind ≠ .mark .bang ∧ kind ≠ .mark .minus) (hc : cs ++ rest = text ++ tail)
    (ht : ∀ p ts, ((cases.find? fun c => c.1 (⟨kind, String.ofList text, p⟩ :: ts)).map (·.2)).getD
      otherwise = q)
    (h : Exhausts o n q cs rest) : Exhausts o n Phrase.operand cs rest := by
  intro p reach
  rw [hc, read_operand _ o hp hl hk hs ht, ← hc]
  exact h p reach

/-! ## Parentheses -/

/-- A parenthesis uses up two levels. -/
theorem leftParen (hs : Solid (cs ++ rest)) (h : Exhausts o n Production.expression.body cs rest) :
    Exhausts o (n + 2) Production.expression.body ('(' :: cs) rest := by
  have hl : Leads (.mark .leftParen) ['('] (cs ++ rest) := leads_mark .leftParen fun _ _ => rfl
  have hopen : Solid ('(' :: cs ++ rest) := hl.solid rfl
  have hinside : Exhausts o (n + 1) Production.parenthesized.body ('(' :: cs) rest :=
    .past (f := .ofData .punctuation "(") (.takeMark .leftParen .punctuation fun _ _ => rfl)
      (Nat.zero_le _) (.andThen (.node hs h) _)
  have hoperand : Exhausts o (n + 2) Phrase.operand ('(' :: cs) rest :=
    .operand (q := .node .parenthesized) rfl hl rfl ⟨nofun, nofun⟩ rfl (fun _ _ => rfl)
      (.node hopen hinside)
  exact hoperand.andThen _

/-- **The levels run out behind as many parentheses as there are pairs of levels.** The induction
is on that number, from the innermost parenthesis outwards. -/
theorem replicate_leftParen (hs : Solid rest)
    (h : Exhausts o 0 Production.expression.body [] rest) (m : Nat) :
    Exhausts o (2 * m) Production.expression.body (List.replicate m '(') rest := by
  induction m with
  | zero => exact h
  | succ m ih =>
    refine leftParen ?_ ih
    cases m with
    | zero => exact hs
    | succ m => exact solid_cons (by decide) (by decide) _

end Phrase.Exhausts

end Heddle
