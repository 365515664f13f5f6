import Heddle.Proofs.Checked.Literals

/-!
# The grammar in checked steps

A phrase holds its looks ahead as predicates on all tokens ahead, which no cursor can ask. A `Plan`
of a phrase has the same form with a scan for each look, and shows of each loop that its rounds can
not be used up: nothing is repeated at the end of the text, and what is repeated takes something.

A construct is read by its plan on a level of its own. There are as many levels as nodes may nest,
and one more, on which every node is too deep; below it there is none. **No construct gets below
it, and each is read as by its rule** (`simulates_read`).
-/

set_option autoImplicit false

namespace Heddle

open Text

namespace Checked

/-! ## Plans -/

/-- How a phrase is read from a cursor. The type is indexed by the phrase, so that a plan can not
be that of another one. What a plan adds are the scans, as instances, and for each loop the two
facts that make its rounds enough. -/
inductive Plan : Phrase → Type where
  | empty : Plan .empty
  | take {tag : DataTag} : Plan (.take tag)
  | trivia : Plan .trivia
  | node {p : Production} : Plan (.node p)
  | andThen {a b : Phrase} (first : Plan a) (second : Plan b) : Plan (.andThen a b)
  | choose {test : Lookahead} [Scanned test] {a b : Phrase} (yes : Plan a) (no : Plan b) :
      Plan (.choose test a b)
  | repeating {test : Lookahead} [Scanned test] {a : Phrase} (body : Plan a)
      (ends : test [] = false) (takes : a.takes = true) : Plan (.repeating test a)
  | spacedCalls {a b : Phrase} (yes : Plan a) (no : Plan b) : Plan (.spacedCalls a b)
  | expected {wanted : Wanted} : Plan (.expected wanted)
  | orphan : Plan .orphan
  | statements {inBlock : Bool} {a : Phrase} (statement : Plan a) (takes : a.takes = true) :
      Plan (.statements inBlock a)
  | quoted {a b : Phrase} (named : Plan a) (braced : Plan b) : Plan (.quoted a b)
  | hexDigits : Plan .hexDigits
  | foreign : Plan .foreign

/-- Every rule of the language has a plan, since every look in it is a scan. A plan has the form
of its phrase, so there is nothing to choose when it is put together. -/
def plan (p : Production) : Plan p.body := by
  cases p <;> repeat' constructor

/-- The plan of a statement. -/
def statementPlan : Plan .statement := by
  repeat' constructor

/-- Reads by a plan; `descend` reads the constructs inside it. It is `Phrase.read` with a reader
in place of the tape and with results that may be refused. -/
def Plan.run (descend : Options → Production → Reader → Checked Outcome) {q : Phrase} :
    Plan q → Options → Reader → Checked Outcome
  | empty, _, r => .ok ⟨.nil, r, none⟩
  | @take tag, _, r => r.take tag
  | trivia, _, r => r.takeTrivia r.rounds
  | @node p, o, r => descend o p r
  | andThen first second, o, r => do (← first.run descend o r).andThen (second.run descend o)
  | @choose test _ _ _ yes no, o, r => do
    let (answer, cursor) ← Scanned.run test r.cursor
    if answer then yes.run descend o { r with cursor } else no.run descend o { r with cursor }
  | @repeating test _ _ body _ _, o, r =>
    -- What stands in front of a loop is the first part.
    r.repeating (Scanned.run test) (body.run descend o) r.rounds 1
  | spacedCalls yes no, o, r =>
    if o.spacedCalls then yes.run descend o r else no.run descend o r
  | @expected wanted, _, r => r.missing wanted
  | orphan, _, r => r.fail fun t => .orphan ((t.map (·.text)).getD "")
  | @statements inBlock _ statement _, o, r =>
    r.statements o.file inBlock (statement.run descend o) r.rounds
  | quoted named braced, o, r =>
    let inside := { o with spacedCalls := false }
    r.quoted o.file fun isBraced =>
      if isBraced then braced.run descend inside else named.run descend inside
  | hexDigits, _, r => r.hexDigits
  | foreign, _, r => r.foreign

/-- **A plan does what its phrase says**, if the constructs inside it do. The induction is on the
plan, one case for each way to build one, and most cases are the step of the same name. That the
parts lose nothing and take something (`hc`, `hp`) is only needed by the loops. -/
theorem Plan.simulates {depth : Nat} {descend : Options → Production → Reader → Checked Outcome}
    {read : Options → Production → Tape → Attempt}
    (hd : ∀ o p, Simulates depth (descend o p) (read o p))
    (hc : ∀ o p tape, tape.Lexed → Attempt.Conserves tape (read o p tape))
    (hp : ∀ o p tape, p.takes = true → tape.Lexed → Attempt.Progress tape (read o p tape))
    {q : Phrase} (plan : Plan q) (o : Options) :
    Simulates depth (plan.run descend o) (q.read read o) := by
  have hconserves (q : Phrase) (o : Options) (tape : Tape) (h : tape.Lexed) :
      Attempt.Conserves tape (q.read read o tape) :=
    Attempt.conserves.phrase hc q o tape h
  induction plan generalizing o with
  | empty => exact fun _ => .nothing
  | take => exact fun _ => .take _
  | trivia => exact fun _ => .trivia
  | node => exact hd o _
  | andThen first second ih₁ ih₂ => exact fun tape => (ih₁ o tape).andThen fun _ => ih₂ o _
  | @choose test _ a b yes no ihy ihn =>
    intro tape
    -- The scan answers as the look ahead and leaves the cursor, so both choose alike.
    have hlook {r : Reader} (hr : r.Follows tape) :
        Scanned.run test r.cursor = .ok (test tape.ahead, r.cursor) :=
      Scanned.run_eq hr.shows hr.idle
    rw [Phrase.read]
    split <;> rename_i hg
    · refine (ihy o tape).congr fun r hr _ => ?_
      rw [Plan.run, hlook hr, hg]
      rfl
    · refine (ihn o tape).congr fun r hr _ => ?_
      rw [Plan.run, hlook hr, eq_false_of_ne_true hg]
      rfl
  | @repeating test _ a body ends takes ih =>
    refine fun tape => .of_follows fun _ hf => ?_
    have hparts : 1 + tape.size < wordBound := by
      rw [Tape.size_eq, Nat.add_comm]
      exact hf.shows.counts.succ_size_lt hf.shows.begun
    have hloop := @SimulatesAt.repeating depth tape _ test _ ends _ (hconserves a o)
      (fun tape h => Attempt.progress_phrase hc hp a takes o h) (ih o) _ 1 (Nat.lt_succ_self _)
      hparts
    exact hloop.congr fun r hr _ => by rw [Plan.run, hr.rounds]
  | spacedCalls yes no ihy ihn =>
    intro tape
    rw [Phrase.read]
    split <;> rename_i hg
    · exact (ihy o tape).congr fun r _ _ => if_pos hg
    · exact (ihn o tape).congr fun r _ _ => if_neg hg
  | expected => exact fun _ => .missing _
  | orphan => exact fun _ => .fail _
  | @statements inBlock a statement takes ih =>
    intro tape
    have hlist := @SimulatesAt.statements depth tape _ o.file inBlock _ (hconserves a o)
      (fun tape h => Attempt.progress_phrase hc hp a takes o h) (ih o) _ (Nat.lt_succ_self _)
    exact hlist.congr fun r hr _ => by rw [Plan.run, hr.rounds]
  | @quoted a b named braced ihn ihb =>
    refine fun tape => .quoted (fun isBraced => ?_) fun isBraced window h => ?_
    · cases isBraced with
      | true => exact ihb _
      | false => exact ihn _
    · cases isBraced with
      | true => exact hconserves b _ window h
      | false => exact hconserves a _ window h
  | hexDigits => exact fun _ => .hexDigits
  | foreign => exact fun _ => .foreign

/-! ## Levels -/

/-- Reads a construct on one of so many levels of nodes. Below the last level is a fault, which is
never met: the level above it refuses every node. -/
def read : Nat → Options → Production → Reader → Checked Outcome
  | 0, _, _, _ => .error .endless
  | levels + 1, o, p, r => r.enter p o ((plan p).run (read levels) o)

/-- **A construct is read as by its rule**, with as many nodes open as are not allowed any more.
The allowance of the plain reading and the depth of the reader always add up to the bound, which
is the hypothesis; the induction is on the allowance. -/
theorem simulates_read {allowance depth : Nat} (h : depth + allowance = maxNesting) (o : Options)
    (p : Production) :
    Simulates depth (read (allowance + 1) o p) (Production.read allowance o p) := by
  induction allowance generalizing depth o p with
  | zero => exact fun tape => .enter p o fun tape => .nested_deepest (Nat.le_of_eq h.symm)
  | succ n ih =>
    refine fun tape => .enter p o fun tape => .nested (by omega) ?_
    exact (plan p).simulates (fun o p => ih (by omega) o p)
      (fun o p tape => Attempt.conserves.read n o p tape)
      (fun o _ _ hp => Attempt.progress_read n o hp) o tape

end Checked

end Heddle
