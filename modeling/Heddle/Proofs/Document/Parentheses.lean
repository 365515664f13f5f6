import Heddle.Proofs.Document.Isolation
import Heddle.Proofs.Document.Values
import Heddle.Proofs.Reading.Exhausted
import Heddle.Proofs.Reading.Leaves
import Heddle.Proofs.Reading.Levels

/-!
# One value in many parentheses

Of the 256 levels of nodes an assignment takes one and its value another. Each pair of parentheses
takes two of those that are left, one for itself and one for what is inside, and a number takes one.
So a number in `n` pairs of parentheses can be assigned if `n` is at most 126, and if it is more the
levels run out behind the 127th parenthesis, whatever `n` is. Then all the other parentheses, those
that open and those that close, are skipped up to the semicolon. There are more of the latter, but
only braces are counted there. **Either way the text behind the semicolon is read as a source of its
own** (`readStatements_inParentheses`).

That the statement is an assignment is found out without a limit: the look for the end of the value
counts parentheses and opens no node. So the value is read back with as many levels as it needs
(`Printed.Expression.on_isValue_grouped`), although the statement will not have them.
-/

set_option autoImplicit false

namespace Heddle

open Text Token Lookahead

variable {o : Options}

/-! ## The first statement of a source -/

/-- The first statement of a source, or what is skipped in its place. -/
def readFirst (o : Options) (source : String) : Attempt :=
  .recovered o.file false (readStatement o (.ofText .origin source.toList 0))

theorem grounds_readFirst (o : Options) (source : String) :
    Attempt.Grounds (.ofText .origin source.toList 0) (readFirst o source) :=
  Attempt.grounds.recovered (Attempt.grounds.phrase
    (fun o p tape => Attempt.grounds.read maxNesting o p tape) .statement o _)
    (Tape.lexed_ofText _ _ _)

/-- **Behind the first statement of a source a text is read as a source of its own**, only at
other places. Where the first statement ends has to be known for this, in either way in which it
may end. -/
theorem readStatements_readFirst (o : Options) {a b : String} {reach : Nat}
    (ha : ∃ c ∈ a.toList.head?, beginsStatement c = true) (hb : b.toList.head? ≠ some '\uFEFF')
    (hl : (readFirst o (a ++ b)).tape = .ofText (Position.origin.past a.toList) b.toList reach) :
    (readStatements o (a ++ b)).trace =
      (readFirst o (a ++ b)).trace ++ (readStatements o b).trace.shift (.behind a) := by
  obtain ⟨c, hc, hbegins⟩ := ha
  obtain ⟨cs, hcs⟩ := List.head?_eq_some_iff.1 hc
  have hmark : a.toList.head? ≠ some '\uFEFF' := by
    intro h
    rw [Option.mem_def.1 hc] at h
    cases h
    exact absurd hbegins (by decide)
  have hboth : ∃ c ∈ (a ++ b).toList.head?, beginsStatement c = true :=
    ⟨c, by rw [String.toList_append, hcs]; rfl, hbegins⟩
  have hstop : Position.origin.past a.toList = Position.origin.shift (.behind a) := by
    rw [Position.shift_behind, openSource_of_ne hmark]
  have hgrounded : Tape.Grounded ⟨[], Position.origin.past a.toList, reach⟩ := by
    have hreach := (grounds_readFirst o (a ++ b)).grounded (Nat.zero_le _)
    rwa [hl, Tape.Grounded, Tape.place_ofText] at hreach
  have hfirst : readStatements o (a ++ b) =
      (readFurther o (readFirst o (a ++ b)).tape).behind (readFirst o (a ++ b)).trace := by
    rw [readStatements_of_begins o hboth]
    exact Attempt.andThen_of_none (Attempt.failure_recovered _ _ _) _
  rw [hfirst, hl, Attempt.trace_behind, ← readStatements_behind o rfl hstop hgrounded hb]
  rfl

/-! ## What is skipped -/

/-- Taking the tokens of a text. What is taken has the text, and the tape behind is that of what
follows. -/
theorem Tape.takeMany_text {ts : List Token} {p : Position} {cs more : List Char}
    (h : readAll p (cs ++ more) = ts ++ readAll (p.past cs) more) (tag : DataTag) (reach : Nat) :
    ((ofText p (cs ++ more) reach).takeMany tag ts.length).1.text = cs ∧
      ∃ reach', ((ofText p (cs ++ more) reach).takeMany tag ts.length).2 =
        ofText (p.past cs) more reach' := by
  let taken := (ofText p (cs ++ more) reach).takeMany tag ts.length
  have hc : Attempt.Conserves (ofText p (cs ++ more) reach) (.ofTaken taken) :=
    .takeMany tag ts.length (lexed_ofText _ _ _)
  have hrest : taken.2.text = more := by
    rw [text, ahead_takeMany, ahead_ofText, h, List.drop_left, spell_readAll]
  have htext : taken.1.text = cs := by
    have hall := hc.text
    rw [text_ofText, Attempt.tape_ofTaken, hrest] at hall
    exact (List.append_cancel_right hall).symm
  have hplace : taken.2.place = p.past cs := by
    have hplace := hc.place
    rwa [place_ofText, Attempt.trace_ofTaken, htext] at hplace
  refine ⟨htext, taken.2.reach, ?_⟩
  have hlexed : taken.2 = ofText taken.2.place taken.2.text taken.2.reach := hc.lexed
  rwa [hplace, hrest] at hlexed

/-- The tokens of a detached text without a semicolon, with one behind it. They are a statement in
the sense of the recovery, so they are skipped as a whole. -/
theorem Text.Detached.pending {u : List Char} (hu : Detached u) (hs : ';' ∉ u) (p q : Position) :
    Pending (Token.readAll p u ++ [⟨.mark .semicolon, ";", q⟩]) := by
  have hnone {m : Mark} {c : Char} (hc : m.spelling.toList = [c]) (hm : c ∉ u) {t : Token}
      (ht : t ∈ Token.readAll p u) : t.isMark m = false := by
    refine Bool.eq_false_iff.2 fun hk => hm (mem_of_mark ht (kind_of_isMark hk) ?_)
    rw [hc]
    exact List.mem_singleton_self c
  have hbrace {c : Char} (hc : isInner c = false) : c ∉ u := by
    intro hmem
    rw [hu.isInner_of_mem hmem] at hc
    cases hc
  exact ⟨_, _, rfl, rfl, fun t ht =>
    ⟨hnone rfl hs ht, hnone rfl (hbrace rfl) ht, hnone rfl (hbrace rfl) ht⟩⟩

/-- The attempt reports the failure, keeps one node of what was skipped at `p`, which has the text
`u`, and goes on with `more`. -/
structure Attempt.Discards (file : Option String) (f : Failure) (p : Position)
    (u more : List Char) (a : Attempt) : Prop where
  left : ∃ reach, a.tape = .ofText (p.past u) more reach
  errors : a.trace.diagnostics = [f.diagnostic file]
  forest : ∃ l skipped, a.trace.forest = .node .invalid l skipped .nil ∧ skipped.chars = u ∧
    ∀ kind, skipped.findAll kind = []

/-- Where a statement failed of which nothing is kept, everything is skipped up to the next
semicolon. The text in front of it must be detached, so that its tokens are the same with the
semicolon behind it. -/
theorem Attempt.discards_recovered {a : Attempt} {f : Failure} {p : Position}
    {u more : List Char} {reach : Nat} (hf : a.failure = some f)
    (hl : a.tape = .ofText p (u ++ ';' :: more) reach) (hd : a.trace.diagnostics = [])
    (hn : a.trace.forest = .nil) (hu : Detached u) (hs : ';' ∉ u) (file : Option String) :
    (recovered file false a).Discards file f p (u ++ [';']) more := by
  let ts := readAll p u ++ [⟨.mark .semicolon, ";", p.past u⟩]
  -- The tokens of the text and the semicolon, then those of what follows.
  have hall : readAll p (u ++ [';'] ++ more) = ts ++ readAll (p.past (u ++ [';'])) more := by
    have hsemicolon : Leads (.mark .semicolon) [';'] more := leads_mark .semicolon fun _ _ => rfl
    have hbehind := hu.readAll (delimits_semicolon more) p
    rw [← List.singleton_append, hsemicolon, ← List.append_assoc] at hbehind
    rw [hbehind, Position.past_append]
    simp [ts]
  rw [show u ++ ';' :: more = u ++ [';'] ++ more by simp] at hl
  let taken := a.tape.takeMany .invalid ts.length
  -- So many tokens are skipped, and they become one node behind the report of the failure.
  have hrecover : recovered file false a =
      (((ofTaken taken).framed file .invalid a.tape.place).behind
        (.ofNote (.error .statement (f.diagnostic file)))).behind a.trace := by
    have hskipped : Tape.skipped false 0 a.tape.ahead = ts.length := by
      rw [hl, Tape.ahead_ofText, hall]
      exact (hu.pending hs p _).skipped false _
    rw [recovered, hf]
    simp only [recover, hskipped]
    rfl
  obtain ⟨htext, hleft⟩ := Tape.takeMany_text hall .invalid reach
  rw [← hl] at htext hleft
  have hplain : taken.1.Plain := a.tape.plain_takeMany .invalid ts.length
  rw [hrecover]
  refine ⟨?_, ?_, some (taken.2.extent file a.tape.place), taken.1.forest, ?_, ?_, hplain.findAll⟩
  · rw [tape_behind, tape_behind, tape_framed]
    exact hleft
  · rw [trace_behind, trace_behind, Trace.diagnostics_append, Trace.diagnostics_append, hd,
      diagnostics_framed, trace_ofTaken, Tape.diagnostics_takeMany]
    rfl
  · rw [trace_behind, trace_behind, Trace.forest_append, Trace.forest_append, hn,
      forest_framed rfl]
    rfl
  · rw [hplain.chars_forest]
    exact htext

/-! ## Parentheses around a value -/

/-- The number `1` in so many pairs of parentheses. -/
def inParentheses (n : Nat) : String :=
  String.ofList (List.replicate n '(') ++ "1" ++ String.ofList (List.replicate n ')')

/-- The same as a tree. -/
def Printed.Expression.grouped : Nat → Expression
  | 0 => .ofOperand (.literal (.digit '1' (by decide) false))
  | n + 1 => .ofOperand (.group (grouped n))

namespace Printed.Expression

theorem chars_grouped (n : Nat) : (grouped n).forest.chars = (inParentheses n).toList := by
  rw [inParentheses]
  induction n with
  | zero => rfl
  | succ n ih =>
    have hgroup : (grouped (n + 1)).forest.chars = '(' :: ((grouped n).forest.chars ++ [')']) := by
      simp [grouped, ofOperand, Expression.forest, Operand.forest, Step.forest]
    rw [hgroup, ih, List.replicate_succ' (n := n) (a := ')')]
    simp [List.replicate_succ]

/-- A pair of parentheses is two levels of nodes, and so is a number. -/
theorem height_grouped (n : Nat) : (grouped n).forest.height = 2 * n + 2 := by
  induction n with
  | zero => rfl
  | succ n ih =>
    have hgroup : (grouped (n + 1)).forest.height = (grouped n).forest.height + 2 := by
      simp [grouped, ofOperand, Expression.forest, Operand.forest, Step.forest, Forest.height,
        Forest.ofData]
    rw [hgroup, ih]
    omega

/-- The look ahead takes it for a value, however deep it is. -/
theorem on_isValue_grouped (n : Nat) (rest : List Char) :
    On (isValue 0) (' ' :: ((inParentheses n).toList ++ ';' :: rest)) true := by
  have hsemicolon : On (isValue 0) (Mark.semicolon.spelling.toList ++ rest) true :=
    .ofMark .semicolon (fun _ _ => rfl) fun _ _ => rfl
  have hreads : Phrase.ReadsBack {} (.node .expression) (grouped n).forest (';' :: rest) :=
    (grouped n).reads ⟨.semicolon, by decide, rest, rfl⟩
  have hvalue := isValue_blank (grouped n).opens (isValue_of_reads hreads hsemicolon)
  rwa [chars_grouped] at hvalue

end Printed.Expression

open Printed

/-- The statement that assigns it, with a text behind it. -/
theorem toList_assigns_inParentheses (n : Nat) (b : String) :
    (assigns (inParentheses n) ++ b).toList = 'x' :: (gap true ++
      (Mark.equals.spelling.toList ++ ' ' :: ((inParentheses n).toList ++ ';' :: b.toList))) := by
  simp [assigns, gap, Mark.spelling]

/-- With few parentheses the assignment is read as it is written. -/
theorem yields_inParentheses (o : Options) {n : Nat} (hn : n ≤ 126) (b : String) :
    (readFirst o (assigns (inParentheses n) ++ b)).Yields
      (.ofNode (Expression.grouped n).assignment)
      (Position.origin.past (assigns (inParentheses n)).toList) b.toList := by
  have hchars : (Forest.ofNode (Expression.grouped n).assignment).chars =
      (assigns (inParentheses n)).toList := by
    simp [Forest.ofNode, Expression.assignment, Expression.assigned, Expression.chars_grouped,
      assigns]
  have hheight : (Forest.ofNode (Expression.grouped n).assignment).height ≤ maxNesting := by
    have hmax : max 1 (2 * n + 2) + 1 ≤ 256 := by omega
    simpa [Forest.ofNode, Expression.assignment, Expression.assigned, Forest.height,
      Forest.ofData, Expression.height_grouped, maxNesting] using hmax
  have hreads : Phrase.ReadsBack o .statement (.ofNode (Expression.grouped n).assignment)
      b.toList :=
    (Expression.grouped n).reads_assignment o
  have hyields := hreads maxNesting .origin 0 hheight
  rw [hchars, ← String.toList_append] at hyields
  have hfirst : readFirst o (assigns (inParentheses n) ++ b) =
      readStatement o (.ofText .origin (assigns (inParentheses n) ++ b).toList 0) := by
    rw [readFirst, Attempt.recovered]
    simp only [readStatement, hyields.clean.succeeds]
  rw [hfirst]
  exact hyields

/-! ## Too many parentheses -/

/-- What stands behind the first 127 of the parentheses, if `k` more are opened. -/
def excess (k : Nat) : List Char := List.replicate k '(' ++ '1' :: List.replicate (127 + k) ')'

theorem toList_inParentheses (k : Nat) :
    (inParentheses (127 + k)).toList = List.replicate 127 '(' ++ excess k := by
  simp [inParentheses, excess, List.replicate_add]

theorem solid_excess (k : Nat) (rest : List Char) : Solid (excess k ++ rest) := by
  cases k <;> exact solid_cons (by decide) (by decide) _

theorem detached_excess (k : Nat) : Detached (excess k) := by
  have hone (n : Nat) : Detached ('1' :: List.replicate n ')') := by
    have hclose : Detached (List.replicate n ')' ++ []) :=
      .replicate (m := .rightParen) rfl (fun _ => rfl) rfl .nil n
    rw [List.append_nil] at hclose
    refine .cons (fun more hm => (Literal.digit '1' (by decide) false).leads ?_) rfl hclose
    cases n with
    | zero => exact hm.apart (by decide)
    | succ n => exact apart_cons (by decide) _
  exact .replicate (m := .leftParen) rfl (fun _ => rfl) rfl (hone _) k

/-- Without a level nothing of it is read, neither a parenthesis nor the number. -/
theorem exhausts_excess (k : Nat) (rest : List Char) :
    Phrase.Exhausts o 0 Production.expression.body [] (excess k ++ ';' :: rest) := by
  have hoperand : Phrase.Exhausts o 0 .operand [] (excess k ++ ';' :: rest) := by
    cases k with
    | zero =>
      have hloose : Apart isLoose (List.replicate 127 ')' ++ ';' :: rest) :=
        apart_cons (by decide) _
      exact .operand (q := .node .number) rfl ((Literal.digit '1' (by decide) false).leads hloose)
        rfl ⟨nofun, nofun⟩ rfl (fun _ _ => rfl) (.zero .number (solid_excess 0 _))
    | succ k =>
      have hl : Leads (.mark .leftParen) ['('] ((List.replicate k '(' ++
          '1' :: List.replicate (127 + (k + 1)) ')') ++ ';' :: rest) :=
        leads_mark .leftParen fun _ _ => rfl
      exact .operand (q := .node .parenthesized) rfl hl rfl ⟨nofun, nofun⟩ rfl (fun _ _ => rfl)
        (.zero .parenthesized (solid_excess (k + 1) _))
  exact hoperand.andThen _

/-- The value takes 255 levels, one is that of the assignment. -/
theorem exhausts_assignedValue (k : Nat) (rest : List Char) :
    Phrase.Exhausts o 255 .assignedValue (' ' :: List.replicate 127 '(')
      (excess k ++ ';' :: rest) := by
  have hsolid : Solid (List.replicate 127 '(' ++ (excess k ++ ';' :: rest)) :=
    solid_cons (by decide) (by decide) _
  have hinside : Phrase.Exhausts o 254 Production.expression.body (List.replicate 127 '(')
      (excess k ++ ';' :: rest) :=
    .replicate_leftParen (solid_excess k _) (exhausts_excess k rest) 127
  exact .andThen (.blank rfl hsolid (.node hsolid hinside)) _

theorem Position.past_replicate_leftParen (p : Position) (n : Nat) :
    p.past (List.replicate n '(') = ⟨p.line, p.column + n, p.byte + n⟩ := by
  induction n generalizing p with
  | zero => rfl
  | succ n ih =>
    have hone : p.after '(' = ⟨p.line, p.column + 1, p.byte + 1⟩ := rfl
    rw [List.replicate_succ, past_cons, ih, hone, Nat.add_assoc, Nat.add_comm 1, Nat.add_assoc,
      Nat.add_comm 1]

/-- Inside the assignment the levels run out behind the first 127 parentheses. The first level is
that of the value; each parenthesis takes two. -/
theorem exhausts_body (o : Options) (k : Nat) (b : String) :
    (Production.assignment.body.read (Production.read 255) o (.ofText .origin
      (assigns (inParentheses (127 + k)) ++ b).toList 0)).Exhausts ⟨1, 132, 131⟩
        (excess k ++ ';' :: b.toList) := by
  obtain ⟨f, -, lead, hd, -, hcomes⟩ := comes_assigned (n := 255) (by decide) o (.inr rfl) true
    (isLonger_blank .equals ((inParentheses (127 + k)).toList ++ ';' :: b.toList))
  rw [← toList_assigns_inParentheses, toList_inParentheses, List.append_assoc,
    ← List.cons_append] at hcomes
  -- The place and the reach of the tape behind the sign are those that `comes_assigned` gives.
  have hvalue := exhausts_assignedValue (o := o) k b.toList
    (((Position.origin.after 'x').past (gap true)).past Mark.equals.spelling.toList)
    (((Position.origin.after 'x').past (gap true)).byte + Mark.equals.spelling.utf8ByteSize)
  have hplace : (((Position.origin.after 'x').past (gap true)).past
      Mark.equals.spelling.toList).past (' ' :: List.replicate 127 '(') = ⟨1, 132, 131⟩ := by
    rw [Position.past_cons, Position.past_replicate_leftParen]
    rfl
  rw [hplace] at hvalue
  rw [hcomes]
  exact hvalue.behind hd

/-- With more than 126 parentheses the statement fails behind the first 127 of them, and nothing
of it is kept. -/
theorem exhausts_inParentheses (o : Options) (k : Nat) (b : String) :
    let a := readStatement o (.ofText .origin (assigns (inParentheses (127 + k)) ++ b).toList 0)
    a.Exhausts ⟨1, 132, 131⟩ (excess k ++ ';' :: b.toList) ∧ a.trace.forest = .nil := by
  intro a
  let tape := Tape.ofText .origin (assigns (inParentheses (127 + k)) ++ b).toList 0
  have hsource := toList_assigns_inParentheses (127 + k) b
  have hsolid : Solid (assigns (inParentheses (127 + k)) ++ b).toList := by
    rw [hsource]
    exact solid_cons (by decide) (by decide) _
  have hassignment := readStatement_assigned o (.inr rfl) true (isLonger_blank .equals _) hsource
    (Expression.on_isValue_grouped _ _ _)
  have hframed : a = (Production.assignment.body.read (Production.read 255) o tape).framed o.file
      .assignment tape.place :=
    hassignment.trans (Phrase.read_node (.inr hsolid) 255 o .origin 0)
  have hbody := exhausts_body o k b
  rw [hframed]
  exact ⟨hbody.framed _ _ _, Attempt.forest_framed_of_failure hbody.failure _ _ _⟩

theorem past_assigns (k : Nat) : Position.origin.past (assigns (inParentheses (127 + k))).toList =
    (Position.mk 1 132 131).past (excess k ++ [';']) := by
  have htext : (assigns (inParentheses (127 + k))).toList =
      'x' :: ' ' :: '=' :: ' ' :: (List.replicate 127 '(' ++ (excess k ++ [';'])) := by
    simp [assigns, toList_inParentheses]
  simp only [htext, Position.past_cons, Position.past_append, Position.past_replicate_leftParen]
  rfl

/-- Then the first statement is skipped, from behind the 127th parenthesis to the semicolon. -/
theorem discards_inParentheses (o : Options) (k : Nat) (b : String) :
    (readFirst o (assigns (inParentheses (127 + k)) ++ b)).Discards o.file
      ⟨.tooDeep, ⟨1, 132, 131⟩⟩ ⟨1, 132, 131⟩ (excess k ++ [';']) b.toList := by
  obtain ⟨hexhausts, hnil⟩ := exhausts_inParentheses o k b
  obtain ⟨reach, hl⟩ := hexhausts.left
  exact Attempt.discards_recovered hexhausts.failure hl hexhausts.silent hnil (detached_excess k)
    (by simp [excess]) o.file

/-- **A value in parentheses is assigned or skipped**, and what is behind it is read as a source
of its own. In the first case the assignment is read back as it is printed, in the second its
levels run out. -/
theorem readStatements_inParentheses (o : Options) (n : Nat) {b : String}
    (hb : b.toList.head? ≠ some '\uFEFF') :
    ∃ lead : Trace, (readStatements o (assigns (inParentheses n) ++ b)).trace =
        lead ++ (readStatements o b).trace.shift (.behind (assigns (inParentheses n))) ∧
      if n ≤ 126 then
        lead.diagnostics = [] ∧ lead.forest.unplaced = .ofNode (Expression.grouped n).assignment
      else
        lead.diagnostics = [⟨"nesting too deep", o.file, 1, 132⟩] ∧
          ∃ l f, lead.forest = .node .invalid l f .nil ∧ f.chars = excess (n - 127) ++ [';'] ∧
            ∀ kind, f.findAll kind = [] := by
  have hbegins : ∃ c ∈ (assigns (inParentheses n)).toList.head?, beginsStatement c = true :=
    ⟨'x', by rw [Assigns.toList_assigns]; rfl, by decide⟩
  split <;> rename_i hn
  · have hyields := yields_inParentheses o hn b
    obtain ⟨reach, hl⟩ := hyields.left
    exact ⟨_, readStatements_readFirst o hbegins hb hl, hyields.clean.silent, hyields.forest⟩
  · obtain ⟨k, rfl⟩ := Nat.exists_eq_add_of_le (Nat.lt_of_not_le hn)
    have hdiscards := discards_inParentheses o k b
    obtain ⟨reach, hl⟩ := hdiscards.left
    rw [← past_assigns] at hl
    rw [Nat.add_sub_cancel_left]
    exact ⟨_, readStatements_readFirst o hbegins hb hl, hdiscards.errors, hdiscards.forest⟩

/-- The tree of a source whose report is that of a moved source behind a lead. -/
theorem Parsed.ofSource_lead {o : Options} {source b : String} {lead : Trace} {d : Shift}
    (h : (readStatements o source).trace = lead ++ (readStatements o b).trace.shift d) :
    ∃ root, (Parsed.ofSource o source).root = some root ∧
      (Parsed.ofSource o source).errors =
        lead.diagnostics ++ (readStatements o b).trace.diagnostics.map (·.shift d) ∧
      root.nodes = lead.forest.nodes ++ (readStatements o b).trace.forest.nodes.map (·.shift d) ∧
      ∀ kind, root.findAll kind =
        lead.forest.findAll kind ++
          ((readStatements o b).trace.forest.findAll kind).map (·.shift d) := by
  rw [Parsed.ofSource_eq, h, Trace.forest_append, Trace.forest_shift, Trace.diagnostics_append,
    Trace.diagnostics_shift]
  refine ⟨_, rfl, rfl, ?_, fun kind => ?_⟩
  · have hshift := Node.nodes_shift d ⟨.document, none, (readStatements o b).trace.forest⟩
    exact (Forest.nodes_append _ _).trans (congrArg _ hshift)
  · rw [Node.findAll, Forest.findAll_append, Forest.findAll_shift]

/-- **The limit on nesting is exact, and what is too deep costs no other statement.** With up to
126 pairs of parentheses the number is assigned. With more there is one error, in the same place
for all of them, and one node of what was skipped. The statement on the next line is read either
way. -/
theorem Parsed.ofSource_inParentheses (o : Options) (n : Nat) :
    let p := Parsed.ofSource o ("x = " ++ inParentheses n ++ ";" ++ "\ny = 2;")
    ∃ root first second : Node, p.root = some root ∧ root.nodes = [first, second] ∧
      second.kind = .assignment ∧ second.text = "y = 2;" ∧
      if n ≤ 126 then
        p.errors = [] ∧ first.unplaced = (Expression.grouped n).assignment
      else
        p.errors = [⟨"nesting too deep", o.file, 1, 132⟩] ∧ first.kind = .invalid ∧
          root.findAll .invalid = [first] ∧
          first.text = String.ofList (excess (n - 127)) ++ ";" := by
  have hsilent : (readStatements o "\ny = 2;").trace.diagnostics = [] := by cbv
  have hwhole : (readStatements o "\ny = 2;").trace.forest.findAll .invalid = [] := by cbv
  have hnext : (readStatements o "\ny = 2;").trace.forest.nodes.map (fun m => (m.kind, m.text)) =
      [(.assignment, "y = 2;")] := by cbv
  obtain ⟨next, hnext, hkind⟩ := List.map_eq_singleton_iff.1 hnext
  obtain ⟨hkind, htext⟩ := Prod.mk.inj hkind
  obtain ⟨lead, htrace, hlead⟩ :=
    readStatements_inParentheses o n (b := "\ny = 2;") (by decide)
  obtain ⟨root, hroot, herrors, hnodes, hall⟩ := Parsed.ofSource_lead htrace
  rw [hsilent, List.map_nil, List.append_nil] at herrors
  rw [hnext] at hnodes
  refine ⟨root, ?_⟩
  have htext : (next.shift (.behind (assigns (inParentheses n)))).text = "y = 2;" :=
    (Forest.text_shift _ _).trans htext
  -- The two cases are those of the number of parentheses; the second statement has been dealt
  -- with.
  split at hlead <;> rename_i hn
  · obtain ⟨hd, hf⟩ := hlead
    have hfirst : lead.forest.nodes.map (·.unplaced) = [(Expression.grouped n).assignment] := by
      have hunplaced := Node.nodes_unplaced ⟨.document, none, lead.forest⟩
      rw [Node.unplaced, hf] at hunplaced
      exact hunplaced.symm
    obtain ⟨first, hfirst, hu⟩ := List.map_eq_singleton_iff.1 hfirst
    rw [hfirst] at hnodes
    exact ⟨first, _, hroot, hnodes, hkind, htext, (if_pos hn).mpr ⟨herrors.trans hd, hu⟩⟩
  · obtain ⟨hd, l, f, hf, hchars, hnone⟩ := hlead
    have hskipped : f.text = String.ofList (excess (n - 127)) ++ ";" := by
      have hofList := congrArg String.ofList hchars
      rw [Forest.chars, String.ofList_toList, String.ofList_append] at hofList
      exact hofList
    have hinvalid := hall .invalid
    rw [hf, hwhole, Forest.findAll, hnone] at hinvalid
    rw [hf] at hnodes
    exact ⟨⟨.invalid, l, f⟩, _, hroot, hnodes, hkind, htext,
      (if_neg hn).mpr ⟨herrors.trans hd, rfl, hinvalid, hskipped⟩⟩

end Heddle
