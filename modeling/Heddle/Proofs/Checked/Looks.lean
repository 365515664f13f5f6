import Heddle.Proofs.Checked.Cursor
import Heddle.Grammar.Rules

/-!
# Looking ahead in checked steps

A look ahead of the grammar is a predicate on all tokens ahead. A cursor answers it by looking at
one token after the other, for as long as it has to, and by giving the look back. What it keeps in
mind between two tokens is the state of a `Scan`, with the groups that it has seen opened as a
counter that must neither overflow nor fall below zero.

**Each look ahead of the grammar is answered by a scan without a fault, and the cursor is where it
was** (`Scanned.run_eq`). A scan is one definition and one lemma, which compares it with the
predicate token by token; that the cursor gives the look back is proved once, for all scans.
-/

set_option autoImplicit false

namespace Heddle

open Text

namespace Checked

/-! ## Scans -/

/-- What is known after one more token: the answer, or the state in which the next token has to be
looked at. -/
inductive Verdict (σ : Type) where
  | undecided (x : σ)
  | decided (answer : Bool)

/-- A question that is answered token by token. The step may be refused, since some scans count
groups with a machine word; the answer at the end of the tokens is apart, for a scan that is never
decided has to say something. -/
structure Scan where
  State : Type
  start : State
  step : State → Token → Checked (Verdict State)
  /-- The answer when there are no more tokens. -/
  atEnd : State → Bool

namespace Scan

/-- The answer to the tokens `ts`, from a state on. It is what a scan means without a cursor, and
the lemmas about the single scans are about this. -/
def eval (s : Scan) : s.State → List Token → Checked Bool
  | x, [] => .ok (s.atEnd x)
  | x, t :: ts => do
    match ← s.step x t with
    | .undecided x => s.eval x ts
    | .decided answer => return answer

/-- Looks at tokens for as long as there is no answer, at most `rounds` of them. The look stays
pending over all the rounds. -/
def look (s : Scan) : Nat → s.State → Cursor → Checked (Bool × Cursor)
  | 0, _, _ => .error .endless
  | rounds + 1, x, c => do
    match ← Checked.look c with
    | (none, c) => return (s.atEnd x, c)
    | (some t, c) =>
      match ← s.step x t with
      | .undecided x => s.look rounds x c
      | .decided answer => return (answer, c)

/-- Answers the question and gives the look back. There are never more tokens than bytes, so the
rounds are enough. -/
def run (s : Scan) (c : Cursor) : Checked (Bool × Cursor) := do
  let (answer, c) ← s.look (byteSize c.readable + 1) s.start c
  return (answer, c.release)

/-- The scan answers the question of a look ahead, and counts without a fault. Tokens that would
overflow a counter are left out: a text in memory does not have as many. -/
def Decides (s : Scan) (test : Lookahead) : Prop :=
  ∀ ts, ts.length < wordBound → s.eval s.start ts = .ok (test ts)

theorem eval_undecided (s : Scan) {x y : s.State} {t : Token} (h : s.step x t = .ok (.undecided y))
    (ts : List Token) : s.eval x (t :: ts) = s.eval y ts := by
  rw [eval, h]
  rfl

theorem eval_decided (s : Scan) {x : s.State} {t : Token} {answer : Bool}
    (h : s.step x t = .ok (.decided answer)) (ts : List Token) :
    s.eval x (t :: ts) = .ok answer := by
  rw [eval, h]
  rfl

/-- Behind a look there is another place and a look to be given back, and nothing else. The place
depends on how far the scan had to go, and nobody asks for it, since the look is given back. -/
theorem look_eq (s : Scan) {rounds : Nat} {x : s.State} {c : Cursor} {ts : List Token}
    (h : c.Shows ts) (hr : ts.length < rounds) {answer : Bool} (he : s.eval x ts = .ok answer) :
    ∃ place, s.look rounds x c = .ok (answer, { c.beginLook with place }) := by
  induction rounds generalizing x c ts with
  | zero => omega
  | succ n ih =>
    cases ts with
    | nil =>
      refine ⟨c.place, ?_⟩
      rw [look, h.look_nil, ok_bind]
      exact congrArg (fun r : Checked Bool => r >>= fun b => .ok (b, c.beginLook)) he
    | cons t ts =>
      rw [look, h.look_cons, ok_bind]
      rw [eval] at he
      dsimp only
      cases hs : s.step x t with
      | error f => rw [hs] at he; cases he
      | ok v =>
        rw [hs, ok_bind] at he
        rw [ok_bind]
        cases v with
        | decided b =>
          cases he
          exact ⟨t.behind, rfl⟩
        | undecided x =>
          have hd := @Cursor.Shows.keep _ _ h.step_cons.2 { c.beginLook with place := t.behind }
            rfl rfl rfl h.usual
          exact ih hd (Nat.lt_of_succ_lt_succ hr) he

/-- **A scan answers, and the cursor is where it was.** This is the only place where looking and
giving back are put together; every look ahead below is an instance. -/
theorem run_eq (s : Scan) {test : Lookahead} (hs : s.Decides test) {c : Cursor} {ts : List Token}
    (h : c.Shows ts) (hi : c.origin = none) : s.run c = .ok (test ts, c) := by
  obtain ⟨passed, hf⟩ := h.text
  have hr : ts.length < byteSize c.readable + 1 := by
    rw [hf.readable]
    exact Nat.lt_succ_of_le h.length_le
  obtain ⟨place, hl⟩ := s.look_eq h hr (hs ts h.length_lt)
  rw [run, hl, ok_bind]
  obtain ⟨source, place, previous, origin, limit, preferHex⟩ := c
  obtain rfl : origin = none := hi
  rfl

end Scan

/-! ## Looks that are answered -/

/-- A look ahead that a cursor can answer without a fault. It is a class since the looks ahead of
the grammar are built from a few with `||` and `&&`, and instances are found along the same lines.
-/
class Scanned (test : Lookahead) where
  run : Cursor → Checked (Bool × Cursor)
  /-- The answer is right, and the cursor is where it was. -/
  run_eq : ∀ {c : Cursor} {ts : List Token}, c.Shows ts → c.origin = none →
    run c = .ok (test ts, c)

/-- One scan. -/
@[reducible] def Scanned.ofScan {test : Lookahead} (s : Scan) (h : s.Decides test) :
    Scanned test where
  run := s.run
  run_eq := s.run_eq h

/-- Two looks, the second of which is only taken if the first says no. The first one was given
back by then, so the second begins at the same token. -/
instance Scanned.either {a b : Lookahead} [Scanned a] [Scanned b] :
    Scanned fun ts => a ts || b ts where
  run c := do
    let (answer, c) ← run a c
    if answer then return (true, c) else run b c
  run_eq {c ts} h hi := by
    rw [run_eq h hi, ok_bind]
    cases a ts with
    | true => rfl
    | false => exact run_eq h hi

/-- Two looks, the second of which is only taken if the first says yes. -/
instance Scanned.both {a b : Lookahead} [Scanned a] [Scanned b] :
    Scanned fun ts => a ts && b ts where
  run c := do
    let (answer, c) ← run a c
    if answer then run b c else return (false, c)
  run_eq {c ts} h hi := by
    rw [run_eq h hi, ok_bind]
    cases a ts with
    | true => exact run_eq h hi
    | false => rfl

open Lookahead Token Verdict

/-! ## A few tokens -/

/-- Looks at the next token. One round decides it. -/
def nextScan (p : Token → Bool) : Scan where
  State := Unit
  start := ()
  step _ t := .ok (decided (p t))
  atEnd _ := false

/-- Looks at the next token that is not trivia, over as much trivia as there is. -/
def significantScan (p : Token → Bool) : Scan where
  State := Unit
  start := ()
  step _ t := .ok (if t.isTrivia then undecided () else decided (p t))
  atEnd _ := false

/-- Looks at the next two tokens. The state is what the first one has answered, once it has been
seen. The second is looked at in any case: a source in which it is missing has no answer earlier.
-/
def pairScan (p q : Token → Bool) : Scan where
  State := Option Bool
  start := none
  step
    | none, t => .ok (undecided (some (p t)))
    | some first, t => .ok (decided (first && q t))
  atEnd _ := false

/-- What a look for a call with a blank has to see next. -/
inductive SpacedCallState where
  | name | blank | argument

/-- Looks at a name, a blank and the beginning of an argument. Trivia of any sort may follow the
blank. -/
def spacedCallScan : Scan where
  State := SpacedCallState
  start := .name
  step
    | .name, t => .ok (if t.isName then undecided .blank else decided false)
    | .blank, t => .ok (if t.kind == .blank then undecided .argument else decided false)
    | .argument, t => .ok (if t.isTrivia then undecided .argument else decided (beginsArgument t))
  atEnd _ := false

theorem nextScan_decides (p : Token → Bool) : (nextScan p).Decides (next p) := by
  intro ts _
  cases ts with
  | nil => rfl
  | cons t ts => rfl

/-- A scan that passes trivia and then asks one question. Two of the scans do, each in a state of
its own. -/
theorem eval_significant (s : Scan) (x : s.State) (p : Token → Bool)
    (hs : ∀ t, s.step x t = .ok (if t.isTrivia then undecided x else decided (p t)))
    (he : s.atEnd x = false) (ts : List Token) : s.eval x ts = .ok (significant p ts) := by
  induction ts with
  | nil => exact congrArg _ he
  | cons t ts ih =>
    rw [significant, List.find?_cons]
    cases ht : t.isTrivia with
    | true => exact (s.eval_undecided (by rw [hs, ht]; rfl) ts).trans ih
    | false => exact s.eval_decided (by rw [hs, ht]; rfl) ts

theorem significantScan_decides (p : Token → Bool) :
    (significantScan p).Decides (significant p) :=
  fun ts _ => eval_significant (significantScan p) () p (fun _ => rfl) rfl ts

theorem pairScan_decides (p q : Token → Bool) : (pairScan p q).Decides (pair p q) := by
  intro ts _
  cases ts with
  | nil => rfl
  | cons t ts =>
    cases ts with
    | nil => rfl
    | cons u ts => rfl

theorem spacedCallScan_decides : spacedCallScan.Decides isSpacedCall := by
  intro ts _
  match ts with
  | [] => rfl
  | t :: [] =>
    rw [Scan.eval]
    cases ht : t.isName <;> simp [spacedCallScan, ht, isSpacedCall, Scan.eval]
  | t :: u :: ts =>
    rw [isSpacedCall]
    cases ht : t.isName with
    | false => exact spacedCallScan.eval_decided (by simp [spacedCallScan, ht]) _
    | true =>
      refine (spacedCallScan.eval_undecided (y := .blank) (by simp [spacedCallScan, ht]) _).trans ?_
      cases hu : u.kind == .blank with
      | false => exact spacedCallScan.eval_decided (by simp [spacedCallScan, hu]) _
      | true =>
        refine (spacedCallScan.eval_undecided (y := .argument)
          (by simp [spacedCallScan, hu]) _).trans ?_
        exact eval_significant spacedCallScan .argument beginsArgument (fun _ => rfl) rfl ts

instance (p : Token → Bool) : Scanned (next p) := .ofScan (nextScan p) (nextScan_decides p)

instance (p : Token → Bool) : Scanned (significant p) :=
  .ofScan (significantScan p) (significantScan_decides p)

instance (p q : Token → Bool) : Scanned (pair p q) := .ofScan (pairScan p q) (pairScan_decides p q)

instance : Scanned isObject := inferInstanceAs (Scanned (pair _ _))

instance : Scanned isCall := inferInstanceAs (Scanned (pair _ _))

instance : Scanned isSpacedCall := .ofScan spacedCallScan spacedCallScan_decides

instance : Scanned isDescendant :=
  inferInstanceAs (Scanned fun ts => next isTrivia ts && significant (!·.refusesBlank) ts)

instance : Scanned Phrase.isSelectorPart :=
  inferInstanceAs (Scanned fun ts =>
    pair (isMark .dot) isName ts || pair (isMark .hash) isName ts ||
      pair (isMark .colon) isName ts || next (isMark .leftBracket) ts)

/-! ## What a statement reaches first -/

/-- One token in front of the first landmark, `depth` parentheses and brackets being open. A
closing mark without an opening one leaves the depth at zero, where the difference saturates and
so cannot be refused. -/
def landmarkStep (wanted : Landmark → Bool) (depth : Nat) (t : Token) : Checked (Verdict Nat) :=
  if t.isMark .leftParen || t.isMark .leftBracket then do return undecided (← add depth 1)
  else if t.isMark .rightParen || t.isMark .rightBracket then .ok (undecided (depth - 1))
  else if depth != 0 then .ok (undecided depth)
  else if t.isMark .arrow then .ok (decided (wanted .arrow))
  else if t.isMark .leftBrace then .ok (decided (wanted .block))
  else if t.isMark .semicolon || t.isMark .rightBrace then .ok (decided (wanted .terminator))
  else .ok (undecided depth)

/-- Looks for the first landmark and asks whether it is a wanted one. The end of the tokens counts
as a terminator. -/
def landmarkScan (wanted : Landmark → Bool) : Scan where
  State := Nat
  start := 0
  step := landmarkStep wanted
  atEnd _ := wanted .terminator

/-- The scan and `reachesFirst` go through the tokens with the same depth. The hypothesis is the
room that the depth needs: it can grow with every token. -/
theorem eval_landmarkScan (wanted : Landmark → Bool) (depth : Nat) (ts : List Token)
    (h : depth + ts.length < wordBound) :
    (landmarkScan wanted).eval depth ts = .ok (wanted (reachesFirst depth ts)) := by
  have go {x y : Nat} {t : Token} {ts : List Token}
      (hs : landmarkStep wanted x t = .ok (undecided y)) :
      (landmarkScan wanted).eval x (t :: ts) = (landmarkScan wanted).eval y ts :=
    (landmarkScan wanted).eval_undecided hs ts
  have stop {x : Nat} {t : Token} {ts : List Token} {answer : Bool}
      (hs : landmarkStep wanted x t = .ok (decided answer)) :
      (landmarkScan wanted).eval x (t :: ts) = .ok answer :=
    (landmarkScan wanted).eval_decided hs ts
  -- The cases are those of `reachesFirst`: its branches are in the order of the steps of the
  -- scan.
  fun_induction reachesFirst depth ts with
  | case1 => rfl
  | case2 depth t ts ho ih =>
    rw [List.length_cons] at h
    refine (go ?_).trans (ih (by omega))
    rw [landmarkStep, if_pos ho, add_eq (by omega)]
    rfl
  | case3 depth t ts ho hc ih =>
    rw [List.length_cons] at h
    refine (go ?_).trans (ih (by omega))
    rw [landmarkStep, if_neg ho, if_pos hc]
  | case4 depth t ts ho hc hd ih =>
    rw [List.length_cons] at h
    refine (go ?_).trans (ih (by omega))
    rw [landmarkStep, if_neg ho, if_neg hc, if_pos hd]
  | case5 depth t ts ho hc hd ha =>
    exact stop (by rw [landmarkStep, if_neg ho, if_neg hc, if_neg hd, if_pos ha])
  | case6 depth t ts ho hc hd ha hb =>
    exact stop (by rw [landmarkStep, if_neg ho, if_neg hc, if_neg hd, if_neg ha, if_pos hb])
  | case7 depth t ts ho hc hd ha hb he =>
    exact stop
      (by rw [landmarkStep, if_neg ho, if_neg hc, if_neg hd, if_neg ha, if_neg hb, if_pos he])
  | case8 depth t ts ho hc hd ha hb he ih =>
    rw [List.length_cons] at h
    refine (go ?_).trans (ih (by omega))
    rw [landmarkStep, if_neg ho, if_neg hc, if_neg hd, if_neg ha, if_neg hb, if_neg he]

instance : Scanned isRule :=
  .ofScan (landmarkScan (· == .block)) fun ts h =>
    eval_landmarkScan _ 0 ts (by rwa [Nat.zero_add])

instance : Scanned isSelectorCall :=
  .ofScan (landmarkScan (· == .arrow)) fun ts h =>
    eval_landmarkScan _ 0 ts (by rwa [Nat.zero_add])

/-! ## Types -/

/-- One token of a type that may be one of several, `depth` groups being open. A closing mark
takes one off the count only if there is one, so that the checked difference is not refused;
outside of all groups it ends the type, and so the scan. -/
def barStep (depth : Nat) (t : Token) : Checked (Verdict Nat) :=
  if t.isMark .leftParen || t.isMark .leftBracket then do return undecided (← add depth 1)
  else if t.isMark .rightParen || t.isMark .rightBracket then
    if depth = 0 then .ok (decided false) else do return undecided (← sub depth 1)
  else if t.isMark .pipe && depth == 0 then .ok (decided true)
  else if t.isName || t.isMark .atSign || t.isMark .ampersand || t.isMark .fatArrow ||
    t.isTrivia then .ok (undecided depth)
  else if (t.isMark .comma || t.isMark .colon) && depth != 0 then .ok (undecided depth)
  else .ok (decided false)

/-- Looks for a `|` on the level of the type. -/
def barScan : Scan where
  State := Nat
  start := 0
  step := barStep
  atEnd _ := false

/-- One token of a type in brackets, `depth` groups further in. Only a closing bracket can end the
group; a closing parenthesis that nothing has opened is passed with the depth left at zero. -/
def colonStep (depth : Nat) (t : Token) : Checked (Verdict (Option Nat)) :=
  if t.isMark .leftParen || t.isMark .leftBracket then do return undecided (some (← add depth 1))
  else if t.isMark .rightParen then .ok (undecided (some (depth - 1)))
  else if t.isMark .rightBracket then
    if depth = 0 then .ok (decided false) else do return undecided (some (← sub depth 1))
  else if t.isMark .colon && depth == 0 then .ok (decided true)
  else .ok (undecided (some depth))

/-- Looks for a colon in front of the bracket that closes a group, from the bracket on that opens
it. In the first state the opening bracket is still to come. -/
def colonScan : Scan where
  State := Option Nat
  start := none
  step
    | none, t => .ok (if t.isMark .leftBracket then undecided (some 0) else decided false)
    | some depth, t => colonStep depth t
  atEnd _ := false

/-- The scan for a `|` against `hasBar`, which recurses on the tokens with the depth as its
counter. -/
theorem eval_barScan (depth : Nat) (ts : List Token) (h : depth + ts.length < wordBound) :
    barScan.eval depth ts = .ok (hasBar depth ts) := by
  have go {x y : Nat} {t : Token} {ts : List Token} (hs : barStep x t = .ok (undecided y)) :
      barScan.eval x (t :: ts) = barScan.eval y ts := barScan.eval_undecided hs ts
  have stop {x : Nat} {t : Token} {ts : List Token} {answer : Bool}
      (hs : barStep x t = .ok (decided answer)) : barScan.eval x (t :: ts) = .ok answer :=
    barScan.eval_decided hs ts
  -- Only the second and the fourth case count. The others go on or give an answer.
  fun_induction hasBar depth ts with
  | case1 => rfl
  | case2 depth t ts ho ih =>
    rw [List.length_cons] at h
    refine (go ?_).trans (ih (by omega))
    rw [barStep, if_pos ho, add_eq (by omega)]
    rfl
  | case3 t ts ho hc => exact stop (by rw [barStep, if_neg ho, if_pos hc, if_pos rfl])
  | case4 t ts ho hc depth ih =>
    rw [List.length_cons] at h
    refine (go ?_).trans (ih (by omega))
    rw [barStep, if_neg ho, if_pos hc, if_neg (Nat.succ_ne_zero depth),
      sub_eq (Nat.le_add_left 1 depth)]
    rfl
  | case5 depth t ts ho hc hp => exact stop (by rw [barStep, if_neg ho, if_neg hc, if_pos hp])
  | case6 depth t ts ho hc hp ht ih =>
    rw [List.length_cons] at h
    refine (go ?_).trans (ih (by omega))
    rw [barStep, if_neg ho, if_neg hc, if_neg hp, if_pos ht]
  | case7 depth t ts ho hc hp ht hs ih =>
    rw [List.length_cons] at h
    refine (go ?_).trans (ih (by omega))
    rw [barStep, if_neg ho, if_neg hc, if_neg hp, if_neg ht, if_pos hs]
  | case8 depth t ts ho hc hp ht hs =>
    exact stop (by rw [barStep, if_neg ho, if_neg hc, if_neg hp, if_neg ht, if_neg hs])

/-- The scan for a colon against `hasColon`, behind the opening bracket. -/
theorem eval_colonScan (depth : Nat) (ts : List Token) (h : depth + ts.length < wordBound) :
    colonScan.eval (some depth) ts = .ok (hasColon depth ts) := by
  have go {x : Nat} {y : Option Nat} {t : Token} {ts : List Token}
      (hs : colonStep x t = .ok (undecided y)) :
      colonScan.eval (some x) (t :: ts) = colonScan.eval y ts :=
    @Scan.eval_undecided colonScan (some x) y t hs ts
  have stop {x : Nat} {t : Token} {ts : List Token} {answer : Bool}
      (hs : colonStep x t = .ok (decided answer)) :
      colonScan.eval (some x) (t :: ts) = .ok answer :=
    @Scan.eval_decided colonScan (some x) t answer hs ts
  fun_induction hasColon depth ts with
  | case1 => rfl
  | case2 depth t ts ho ih =>
    rw [List.length_cons] at h
    refine (go ?_).trans (ih (by omega))
    rw [colonStep, if_pos ho, add_eq (by omega)]
    rfl
  | case3 depth t ts ho hp ih =>
    rw [List.length_cons] at h
    refine (go ?_).trans (ih (by omega))
    rw [colonStep, if_neg ho, if_pos hp]
  -- The closing bracket of the type ends the scan; an inner one makes the depth smaller, which is
  -- a subtraction that could fail.
  | case4 t ts ho hp hc =>
    exact stop (by rw [colonStep, if_neg ho, if_neg hp, if_pos hc, if_pos rfl])
  | case5 t ts ho hp hc depth ih =>
    rw [List.length_cons] at h
    refine (go ?_).trans (ih (by omega))
    rw [colonStep, if_neg ho, if_neg hp, if_pos hc, if_neg (Nat.succ_ne_zero depth),
      sub_eq (Nat.le_add_left 1 depth)]
    rfl
  | case6 depth t ts ho hp hc hm =>
    exact stop (by rw [colonStep, if_neg ho, if_neg hp, if_neg hc, if_pos hm])
  | case7 depth t ts ho hp hc hm ih =>
    rw [List.length_cons] at h
    refine (go ?_).trans (ih (by omega))
    rw [colonStep, if_neg ho, if_neg hp, if_neg hc, if_neg hm]

theorem colonScan_decides : colonScan.Decides isMapType := by
  intro ts h
  cases ts with
  | nil => rfl
  | cons t ts =>
    rw [isMapType]
    cases ht : t.isMark .leftBracket with
    | false => exact @Scan.eval_decided colonScan none t false (by simp [colonScan, ht]) ts
    | true =>
      refine (@Scan.eval_undecided colonScan none (some 0) t (by simp [colonScan, ht]) ts).trans ?_
      exact eval_colonScan 0 ts (by rw [Nat.zero_add]; exact Nat.lt_of_succ_lt h)

instance : Scanned isMultipleType :=
  .ofScan barScan fun ts h => eval_barScan 0 ts (by rwa [Nat.zero_add])

instance : Scanned isMapType := .ofScan colonScan colonScan_decides

/-! ## Assignments -/

/-- What a look for an assignment is in the middle of. The plain look ahead is written as
functions that call each other, first for the head, then for the target, then for the value; here
each of them is a state, and the calls are transitions. -/
inductive AssignmentState where
  | head
  /-- Behind an `@` at the head, where the word of an object has to follow. -/
  | object
  /-- In the target; a group counts itself among those that are open. -/
  | target (s : TargetState)
  | value (depth : Nat)
  /-- Behind an `@` in the value. -/
  | valueObject

/-- One token of the target of a possible assignment. A group counts itself, so the count reaches
zero with the mark that closes it, and the difference in front of that is never refused. -/
def targetStep : TargetState → Token → Checked (Verdict AssignmentState)
  | .between, t =>
    if t.isMark .dot then .ok (undecided (.target .name))
    else if t.isMark .leftBracket then
      .ok (undecided (.target (.group .leftBracket .rightBracket 1)))
    else if t.isMark .leftParen then .ok (undecided (.target (.group .leftParen .rightParen 1)))
    else if t.isTrivia then .ok (undecided (.target .between))
    else if t.isMark .colon || t.isMark .equals then .ok (undecided (.value 0))
    else .ok (decided false)
  | .name, t => if t.isName then .ok (undecided (.target .between)) else .ok (decided false)
  | .group opening closing depth, t =>
    if t.isMark opening then do
      return undecided (.target (.group opening closing (← add depth 1)))
    else if t.isMark closing then do
      let depth ← sub depth 1
      return undecided (.target (if depth = 0 then .between else .group opening closing depth))
    else .ok (undecided (.target (.group opening closing depth)))

/-- One token of the value, `depth` groups being open. A brace that opens a block means that there
is no assignment; only behind an `@` it does not count, since there the word of an object is asked
for first. -/
def valueStep (depth : Nat) (t : Token) : Checked (Verdict AssignmentState) :=
  if t.isMark .leftParen || t.isMark .leftBracket then do return undecided (.value (← add depth 1))
  else if t.isMark .rightParen || t.isMark .rightBracket then .ok (undecided (.value (depth - 1)))
  else if depth != 0 then .ok (undecided (.value depth))
  else if t.isMark .semicolon || t.isMark .rightBrace then .ok (decided true)
  else if t.isMark .leftBrace then .ok (decided false)
  else if t.isMark .atSign then .ok (undecided .valueObject)
  else .ok (undecided (.value depth))

/-- Looks for a target, the sign of an assignment and a value that reaches its end. An unfinished
value counts as one, an unfinished target does not: the answer at the end says which. -/
def assignmentScan : Scan where
  State := AssignmentState
  start := .head
  step
    | .head, t => .ok <|
      if t.isTrivia then undecided .head
      else if t.isName then undecided (.target .between)
      else if t.isMark .atSign then undecided .object
      else decided false
    | .object, t => .ok (if isObjectWord t then undecided (.target .between) else decided false)
    | .target s, t => targetStep s t
    | .value depth, t => valueStep depth t
    | .valueObject, t => .ok (if isObjectWord t then undecided (.value 0) else decided true)
  atEnd
    | .value _ | .valueObject => true
    | _ => false

namespace AssignmentScan

variable {x y : AssignmentState} {t : Token} {ts : List Token} {answer : Bool}

theorem go (h : assignmentScan.step x t = .ok (undecided y)) :
    assignmentScan.eval x (t :: ts) = assignmentScan.eval y ts :=
  assignmentScan.eval_undecided h ts

theorem stop (h : assignmentScan.step x t = .ok (decided answer)) :
    assignmentScan.eval x (t :: ts) = .ok answer :=
  assignmentScan.eval_decided h ts

/-- The word of an object in a value is like any other word. The scan has a state for it only
because the plain look ahead asks for it right behind the `@`. -/
theorem valueStep_word (h : isObjectWord t = true) :
    valueStep 0 t = .ok (undecided (.value 0)) := by
  have hk : t.kind = .word := beq_iff_eq.1 (Bool.and_eq_true_iff.1 h).1
  have hm (m : Mark) : t.isMark m = false := by rw [isMark, hk]; rfl
  simp [valueStep, hm]

/-- **The scan of a value answers as `isValue` does.** The induction is on the recursion of
`isValue`, which goes by the order in which the marks are asked for; each step of the scan asks in
that order too, so a case needs the tests that have failed before it and one that holds. -/
theorem eval_value (depth : Nat) (ts : List Token) (h : depth + ts.length < wordBound) :
    assignmentScan.eval (.value depth) ts = .ok (isValue depth ts) := by
  have next {depth : Nat} {y : AssignmentState} {t : Token} {ts : List Token}
      (h : valueStep depth t = .ok (undecided y)) :
      assignmentScan.eval (.value depth) (t :: ts) = assignmentScan.eval y ts :=
    go h
  have last {depth : Nat} {t : Token} {ts : List Token} {answer : Bool}
      (h : valueStep depth t = .ok (decided answer)) :
      assignmentScan.eval (.value depth) (t :: ts) = .ok answer :=
    stop h
  fun_induction isValue depth ts with
  | case1 => rfl
  | case2 depth t ts ho ih =>
    rw [List.length_cons] at h
    refine (next ?_).trans (ih (by omega))
    rw [valueStep, if_pos ho, add_eq (by omega)]
    rfl
  | case3 depth t ts ho hc ih =>
    rw [List.length_cons] at h
    refine (next ?_).trans (ih (by omega))
    rw [valueStep, if_neg ho, if_pos hc]
  | case4 depth t ts ho hc hd ih =>
    rw [List.length_cons] at h
    refine (next ?_).trans (ih (by omega))
    rw [valueStep, if_neg ho, if_neg hc, if_pos hd]
  | case5 depth t ts ho hc hd he =>
    exact last (by rw [valueStep, if_neg ho, if_neg hc, if_neg hd, if_pos he])
  | case6 depth t ts ho hc hd he hb =>
    exact last (by rw [valueStep, if_neg ho, if_neg hc, if_neg hd, if_neg he, if_pos hb])
  -- Behind an `@` the scan is a state ahead: it has to see the word before it is in step again.
  | case7 depth t ts ho hc hd he hb ha hw ih =>
    rw [List.length_cons] at h
    obtain rfl : depth = 0 := by simpa using hd
    refine (next (y := .valueObject) ?_).trans (Eq.trans ?_ (ih (by omega)))
    · rw [valueStep, if_neg ho, if_neg hc, if_neg hd, if_neg he, if_neg hb, if_pos ha]
    · cases ts with
      | nil => cases hw
      | cons u us =>
        have hu : isObjectWord u = true := hw
        rw [next (valueStep_word hu)]
        exact go (congrArg _ (if_pos hu))
  | case8 depth t ts ho hc hd he hb ha hw =>
    refine (next (y := .valueObject) ?_).trans ?_
    · rw [valueStep, if_neg ho, if_neg hc, if_neg hd, if_neg he, if_neg hb, if_pos ha]
    · cases ts with
      | nil => rfl
      | cons u us => exact stop (congrArg _ (if_neg hw))
  | case9 depth t ts ho hc hd he hb ha ih =>
    rw [List.length_cons] at h
    refine (next ?_).trans (ih (by omega))
    rw [valueStep, if_neg ho, if_neg hc, if_neg hd, if_neg he, if_neg hb, if_neg ha]

/-- How many groups are open in a target, the innermost one with them. It is what the count of the
scan may grow to, less the tokens to come. -/
def opened : TargetState → Nat
  | .between | .name => 0
  | .group _ _ inner => inner + 1

/-- The state in which a group counts itself. The plain reader has the groups inside of the
innermost one, which is one less. -/
def counted : TargetState → TargetState
  | .between => .between
  | .name => .name
  | .group opening closing inner => .group opening closing (inner + 1)

/-- **The scan of a target answers as the plain search behind the sign does.** The recursion of
`behindSign?` is on the state and the tokens, and `counted` takes each of its states to that of
the scan, so the two stay in step. When the sign is found, what follows is the value. -/
theorem eval_target (s : TargetState) (ts : List Token) (h : opened s + ts.length < wordBound) :
    assignmentScan.eval (.target (counted s)) ts =
      .ok (((behindSign? s ts).map (isValue 0)).getD false) := by
  have next {s s' : TargetState} {t : Token} {ts : List Token}
      (h : targetStep (counted s) t = .ok (undecided (.target (counted s')))) :
      assignmentScan.eval (.target (counted s)) (t :: ts) =
        assignmentScan.eval (.target (counted s')) ts :=
    go h
  fun_induction behindSign? s ts with
  | case1 => rfl
  | case2 t ts hd ih =>
    simp only [opened, List.length_cons] at h ih
    refine (next ?_).trans (ih (by omega))
    rw [counted, targetStep, if_pos hd, counted]
  | case3 t ts hd hb ih =>
    simp only [opened, List.length_cons] at h ih
    refine (next ?_).trans (ih (by omega))
    rw [counted, targetStep, if_neg hd, if_pos hb, counted]
  | case4 t ts hd hb hp ih =>
    simp only [opened, List.length_cons] at h ih
    refine (next ?_).trans (ih (by omega))
    rw [counted, targetStep, if_neg hd, if_neg hb, if_pos hp, counted]
  | case5 t ts hd hb hp ht ih =>
    simp only [opened, List.length_cons] at h ih
    refine (next ?_).trans (ih (by omega))
    rw [counted, targetStep, if_neg hd, if_neg hb, if_neg hp, if_pos ht]
  -- The sign: from here on the scan is that of the value.
  | case6 t ts hd hb hp ht hs =>
    simp only [opened, List.length_cons] at h
    refine (go (y := .value 0) ?_).trans (eval_value 0 ts (by omega))
    show targetStep .between t = _
    rw [targetStep, if_neg hd, if_neg hb, if_neg hp, if_neg ht, if_pos hs]
    rfl
  | case7 t ts hd hb hp ht hs =>
    refine stop ?_
    show targetStep .between t = _
    rw [targetStep, if_neg hd, if_neg hb, if_neg hp, if_neg ht, if_neg hs]
    rfl
  | case8 t ts hn ih =>
    simp only [opened, List.length_cons] at h ih
    refine (next ?_).trans (ih (by omega))
    show targetStep .name t = _
    rw [targetStep, if_pos hn, counted]
  | case9 t ts hn =>
    refine stop ?_
    show targetStep .name t = _
    rw [targetStep, if_neg hn]
    rfl
  -- Inside a group only its own two marks count, and the others are passed.
  | case10 opening closing inner t ts ho ih =>
    simp only [opened, List.length_cons] at h ih
    refine (next ?_).trans (ih (by omega))
    rw [counted, targetStep, if_pos ho, add_eq (by omega), counted]
    rfl
  | case11 opening closing t ts ho hc ih =>
    simp only [opened, List.length_cons] at h ih
    refine (next ?_).trans (ih (by omega))
    show targetStep (.group opening closing 1) t = _
    rw [targetStep, if_neg ho, if_pos hc, sub_eq (Nat.le_refl 1)]
    rfl
  | case12 opening closing t ts ho hc inner ih =>
    simp only [opened, List.length_cons] at h ih
    refine (next ?_).trans (ih (by omega))
    rw [counted, targetStep, if_neg ho, if_pos hc, sub_eq (by omega), counted]
    rfl
  | case13 opening closing inner t ts ho hc ih =>
    simp only [opened, List.length_cons] at h ih
    refine (next ?_).trans (ih (by omega))
    rw [counted, targetStep, if_neg ho, if_neg hc]

/-- **The look for an assignment is answered**: trivia and the head first, then the target and the
value. -/
theorem decides : assignmentScan.Decides isAssignment := by
  intro ts h
  show assignmentScan.eval .head ts = _
  -- Behind the head the scan is that of the target, which has been answered.
  have target (ts : List Token) (h : ts.length < wordBound) :
      assignmentScan.eval (.target .between) ts =
        .ok (((behindSign? .between ts).map (isValue 0)).getD false) :=
    eval_target .between ts (by simpa [opened] using h)
  induction ts with
  | nil => rfl
  | cons t ts ih =>
    rw [List.length_cons] at h
    rw [isAssignment, behindHead?, List.dropWhile_cons]
    cases ht : t.isTrivia with
    | true =>
      rw [go (y := .head) (by simp [assignmentScan, ht]), ih (by omega)]
      rfl
    | false =>
      rw [if_neg (by simp)]
      dsimp only
      cases hn : t.isName with
      | true =>
        rw [go (y := .target .between) (by simp [assignmentScan, ht, hn]), target ts (by omega)]
        rfl
      | false =>
        rw [if_neg (by simp)]
        -- No name, so the head is an object with its keyword, or there is no target at all.
        cases hat : t.isMark .atSign with
        | false =>
          exact stop (by simp [assignmentScan, ht, hn, hat])
        | true =>
          rw [go (y := .object) (by simp [assignmentScan, ht, hn, hat])]
          cases ts with
          | nil => rfl
          | cons u us =>
            rw [List.length_cons] at h
            cases hu : isObjectWord u with
            | true =>
              rw [go (y := .target .between) (by simp [assignmentScan, hu]), target us (by omega)]
              simp [next, hu]
            | false =>
              rw [@stop .object u us false (by simp [assignmentScan, hu])]
              simp [next, hu]

end AssignmentScan

instance : Scanned isAssignment := .ofScan assignmentScan AssignmentScan.decides

end Checked

end Heddle
