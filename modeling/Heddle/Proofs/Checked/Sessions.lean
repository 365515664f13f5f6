import Mathlib
import Heddle.Proofs.Checked.Document
import Heddle.Proofs.Checked.Frames

/-!
# Sessions

A plan hands down with the options whether a call may be written with a blank, so nobody has to put
that mode back. A machine keeps it in its state: a placeholder clears it and has to restore it, and
whoever forgets to changes how the rest of the source is read. A `Session` is a reader with the mode
as a part of the state, and this module reads the language with it.

**A session reads what the plan reads and has its mode back behind every construct** (`read_eq`):
both are one equation, proved along the plan. With what is known of the reader it follows that all
modes are restored on every path (`modes_restored`).
-/

set_option autoImplicit false

namespace Heddle

open Text

namespace Checked

/-- A reader, and whether calls may be written with a blank where it stands. It is what a parser
has as its state where the reading of the grammar has an option. -/
structure Session where
  reader : Reader
  spacedCalls : Bool

/-- Where a construct left a session. The mode in it is read off the state by whoever goes on, so
that a construct which forgets to put it back changes what follows. -/
structure Turn where
  outcome : Outcome
  spacedCalls : Bool

namespace Turn

def session (t : Turn) : Session := ⟨t.outcome.reader, t.spacedCalls⟩

/-- Goes on where the turn ended, unless it failed. What goes on is in the mode that was left. -/
def andThen (t : Turn) (next : Session → Checked Turn) : Checked Turn :=
  match t.outcome.failure with
  | some _ => .ok t
  | none => do
    let t' ← next t.session
    return { t' with outcome := t'.outcome.behind t.outcome.trace }

/-- The turn as a node that began at `start`. -/
def framed (file : Option String) (kind : NodeKind) (start : Position) (t : Turn) : Turn :=
  { t with outcome := t.outcome.framed file kind start }

/-- A statement, or what is skipped if it fails. -/
def recovered (file : Option String) (inBlock : Bool) (t : Turn) : Checked Turn := do
  return { t with outcome := ← Reader.recovered file inBlock t.outcome }

end Turn

/-- An outcome that was reached in the mode. -/
def inMode (spacedCalls : Bool) (x : Checked Outcome) : Checked Turn := x.map (⟨·, spacedCalls⟩)

namespace Session

/-- What the mode does not matter to. The steps on single tokens do not ask for it and leave it.
-/
def plainly (run : Reader → Checked Outcome) (s : Session) : Checked Turn :=
  inMode s.spacedCalls (run s.reader)

/-- One reading after the other while the look ahead says yes. -/
def repeating (test : Cursor → Checked (Bool × Cursor)) (body : Session → Checked Turn) :
    Nat → Nat → Session → Checked Turn
  | 0, _, _ => .error .endless
  | rounds + 1, parts, s => do
    let (again, cursor) ← test s.reader.cursor
    let s := { s with reader := { s.reader with cursor } }
    if again then
      (← body s).andThen fun s => do
        let parts ← add parts 1
        repeating test body rounds parts s
    else return ⟨⟨.nil, s.reader, none⟩, s.spacedCalls⟩

/-- Statements one after the other, with the trivia around them. The mode goes from one statement
to the next through the state. -/
def statements (file : Option String) (inBlock : Bool) (statement : Session → Checked Turn) :
    Nat → Session → Checked Turn
  | 0, _ => .error .endless
  | rounds + 1, s => do
    (← s.plainly fun r => r.takeTrivia r.rounds).andThen fun s => do
      let (t, reader) ← s.reader.peek
      let s := { s with reader }
      match t with
      | none => return ⟨⟨.nil, s.reader, none⟩, s.spacedCalls⟩
      | some t =>
        if t.kind = .mark .rightBrace then
          if inBlock then return ⟨⟨.nil, s.reader, none⟩, s.spacedCalls⟩
          else
            (← (← s.plainly (Reader.fail fun _ => .strayBrace)).recovered file false).andThen
              (statements file inBlock statement rounds)
        else
          (← (← statement s).recovered file inBlock).andThen
            (statements file inBlock statement rounds)

/-- The inside of a node, one level deeper. The mode may be changed inside, and is not touched
here. -/
def nested (inside : Session → Checked Turn) (s : Session) : Checked Turn :=
  if maxNesting ≤ s.reader.depth then s.plainly (Reader.fail fun _ => .tooDeep)
  else do
    let depth ← add s.reader.depth 1
    let t ← inside { s with reader := { s.reader with depth } }
    let depth ← sub t.outcome.reader.depth 1
    return { t with outcome := { t.outcome with reader := { t.outcome.reader with depth } } }

/-- A construct as a node. -/
def enter (p : Production) (file : Option String) (inside : Session → Checked Turn)
    (s : Session) : Checked Turn := do
  let node (s : Session) : Checked Turn :=
    return (← nested inside s).framed file p.kind s.reader.cursor.place
  if p.keepsTrivia then node s else (← s.plainly fun r => r.takeTrivia r.rounds).andThen node

/-- Reads a placeholder in its place, up to the byte `bodyEnd` and without calls that are written
with a blank. Both modes are put back before the placeholder is given up, if it failed; what is
put back is the mode in front, which need not be the one that the session began with. -/
def placeholder (file : Option String) (run : Session → Checked Turn) (bodyEnd : Nat)
    (p : Placeholder) (s : Session) : Checked (Reader.Resumed × Bool) := do
  let cursor ← seek s.reader.cursor p.position
  let t ← run ⟨{ s.reader with cursor := { cursor with limit := some bodyEnd } }, false⟩
  let out := t.outcome
  let after := { out.reader with cursor := { out.reader.cursor with limit := cursor.limit } }
  match out.failure with
  | none => return (⟨out.trace, after.cursor.place.byte, after⟩, s.spacedCalls)
  | some f => return (← Reader.abandon file p f out.trace after, s.spacedCalls)

/-- The inside of a quoted text that ends at the byte `textEnd`, from the byte `start` on. -/
def interpolated (file : Option String) (run : Bool → Session → Checked Turn)
    (bodyEnd textEnd : Nat) : List Placeholder → Nat → Session → Checked (Trace × Session)
  | [], start, s => do
    let tail ← piece start textEnd s.reader.cursor.source
    return (Attempt.piece .stringChunk tail, s)
  | p :: ps, start, s =>
    if p.position.byte < start then interpolated file run bodyEnd textEnd ps start s
    else do
      let chunk ← piece start p.position.byte s.reader.cursor.source
      let (resumed, spacedCalls) ← placeholder file (run p.braced) bodyEnd p s
      let (rest, s) ←
        interpolated file run bodyEnd textEnd ps resumed.byte ⟨resumed.reader, spacedCalls⟩
      return (Attempt.pieceIfAny .stringChunk chunk ++ resumed.trace ++ rest, s)

/-- A quoted text; behind its placeholders the session jumps to where the text ends. The mode
behind it is that behind the last placeholder. -/
def quoted (file : Option String) (run : Bool → Session → Checked Turn) (s : Session) :
    Checked Turn := do
  match ← Checked.take s.reader.cursor with
  | (none, cursor) => plainly (Reader.missing .string) { s with reader := { s.reader with cursor } }
  | (some t, cursor) =>
    let reach ← stop t
    match t.kind.placeholders?.getD [] with
    | [] =>
      return ⟨⟨.ofData .stringChunk t.text, { s.reader with cursor, reach }, none⟩, s.spacedCalls⟩
    | ps =>
      let bodyEnd ← sub reach 1
      let (trace, after) ← interpolated file run bodyEnd reach ps t.position.byte
        { s with reader := { s.reader with cursor, reach } }
      let behind ← seek after.reader.cursor cursor.place
      return ⟨⟨trace, { after.reader with cursor := behind, reach }, none⟩, after.spacedCalls⟩

end Session

/-- Reads by a plan in a session; `descend` reads the constructs inside it. It is `Plan.run` with
the mode in the state: the options are gone, and of them only the name of the file is left. -/
def Plan.serve (descend : Option String → Production → Session → Checked Turn) {q : Phrase} :
    Plan q → Option String → Session → Checked Turn
  | empty, _, s => .ok ⟨⟨.nil, s.reader, none⟩, s.spacedCalls⟩
  | @take tag, _, s => s.plainly (Reader.take tag)
  | trivia, _, s => s.plainly fun r => r.takeTrivia r.rounds
  | @node p, file, s => descend file p s
  | andThen first second, file, s => do
    (← first.serve descend file s).andThen (second.serve descend file)
  | @choose test _ _ _ yes no, file, s => do
    let (answer, cursor) ← Scanned.run test s.reader.cursor
    let s := { s with reader := { s.reader with cursor } }
    if answer then yes.serve descend file s else no.serve descend file s
  | @repeating test _ _ body _ _, file, s =>
    s.repeating (Scanned.run test) (body.serve descend file) s.reader.rounds 1
  | spacedCalls yes no, file, s =>
    if s.spacedCalls then yes.serve descend file s else no.serve descend file s
  | @expected wanted, _, s => s.plainly (Reader.missing wanted)
  | orphan, _, s => s.plainly (Reader.fail fun t => .orphan ((t.map (·.text)).getD ""))
  | @statements inBlock _ statement _, file, s =>
    s.statements file inBlock (statement.serve descend file) s.reader.rounds
  | quoted named braced, file, s =>
    s.quoted file fun isBraced =>
      if isBraced then braced.serve descend file else named.serve descend file
  | hexDigits, _, s => s.plainly Reader.hexDigits
  | foreign, _, s => s.plainly Reader.foreign

/-- Reads a construct in a session, on one of so many levels of nodes. -/
def Session.read : Nat → Option String → Production → Session → Checked Turn
  | 0, _, _, _ => .error .endless
  | levels + 1, file, p, s => s.enter p file ((plan p).serve (Session.read levels) file)

/-! ## The mode is back -/

/-- Two computations that begin alike. Both sides of `Serves` begin with the same steps on the
reader, and this drops them. -/
theorem bind_map_congr {α β γ : Type} {m : β → γ} (x : Checked α) {f : α → Checked γ}
    {g : α → Checked β} (h : ∀ a, f a = (g a).map m) : x >>= f = (x >>= g).map m := by
  cases x with
  | error e => rfl
  | ok a => exact h a

theorem bind_pure_map {α β : Type} (m : α → β) (x : Checked α) :
    (x >>= fun a => pure (m a)) = x.map m := by
  cases x with
  | error e => rfl
  | ok a => rfl

theorem map_bind_map {α β γ δ : Type} {m : α → β} {m' : γ → δ} (x : Checked α) {f : β → Checked δ}
    {g : α → Checked γ} (h : ∀ a, f (m a) = (g a).map m') : x.map m >>= f = (x >>= g).map m' := by
  cases x with
  | error e => rfl
  | ok a => exact h a

theorem inMode_bind (b : Bool) (x : Checked Outcome) {α : Type} (f : Turn → Checked α) :
    inMode b x >>= f = x >>= fun out => f ⟨out, b⟩ := by
  cases x with
  | error e => rfl
  | ok out => rfl

/-- In the mode, the session reads what the reader does, and the mode is back behind it. Being an
equation, it says both at once, and it says it of failing readings and of those that are refused
too. -/
def Serves (b : Bool) (serve : Session → Checked Turn) (run : Reader → Checked Outcome) : Prop :=
  ∀ r, serve ⟨r, b⟩ = inMode b (run r)

namespace Serves

variable {b : Bool} {serve next : Session → Checked Turn} {run more : Reader → Checked Outcome}

/-- Behind an outcome in the mode, what follows is read in the mode. Here the equation for the
second reading is used at the mode that the first has left, which is the same. -/
theorem andThen (h : Serves b next more) (x : Checked Outcome) :
    (inMode b x >>= fun t => t.andThen next) =
      inMode b (x >>= fun out => out.andThen more) := by
  rw [inMode_bind]
  refine bind_map_congr x fun out => ?_
  unfold Turn.andThen Outcome.andThen
  dsimp only
  cases out.failure with
  | some f => rfl
  | none =>
    show next ⟨out.reader, b⟩ >>= _ = _
    rw [h, inMode_bind]
    exact bind_map_congr _ fun _ => rfl

theorem recovered (file : Option String) (inBlock : Bool) (b : Bool) (x : Checked Outcome) :
    (inMode b x >>= fun t => t.recovered file inBlock) =
      inMode b (x >>= fun out => Reader.recovered file inBlock out) := by
  rw [inMode_bind]
  exact bind_map_congr x fun out => bind_pure_map _ _

theorem repeating {test : Cursor → Checked (Bool × Cursor)} (h : Serves b serve run)
    (rounds : Nat) : ∀ parts, Serves b (Session.repeating test serve rounds parts)
      (Reader.repeating test run rounds parts) := by
  induction rounds with
  | zero => exact fun _ _ => rfl
  | succ n ih =>
    intro parts r
    rw [Session.repeating, Reader.repeating]
    refine bind_map_congr _ ?_
    rintro ⟨again, cursor⟩
    cases again with
    | false => rfl
    | true =>
      show serve ⟨{ r with cursor }, b⟩ >>= _ = _
      rw [h]
      exact andThen (fun r => bind_map_congr _ fun parts => ih parts r) _

theorem statements (h : Serves b serve run) (file : Option String) (inBlock : Bool)
    (rounds : Nat) : Serves b (Session.statements file inBlock serve rounds)
      (Reader.statements file inBlock run rounds) := by
  induction rounds with
  | zero => exact fun _ => rfl
  | succ n ih =>
    intro r
    rw [Session.statements, Reader.statements]
    refine andThen (fun r => bind_map_congr _ ?_) _
    rintro ⟨t, r⟩
    cases t with
    | none => rfl
    | some t =>
      dsimp only
      split
      · split
        · rfl
        · rw [← bind_assoc, ← bind_assoc, Session.plainly, recovered]
          exact andThen ih _
      · rw [← bind_assoc, ← bind_assoc, h, recovered]
        exact andThen ih _

/-- The level is left again, in the mode. -/
theorem nested (h : Serves b serve run) : Serves b (Session.nested serve) (Reader.nested run) := by
  intro r
  unfold Session.nested Reader.nested
  dsimp only
  split
  · rfl
  · refine bind_map_congr _ fun depth => ?_
    rw [h, inMode_bind]
    exact bind_map_congr _ fun out => bind_map_congr _ fun _ => rfl

theorem enter (h : Serves b serve run) (p : Production) (o : Options) :
    Serves b (Session.enter p o.file serve) (Reader.enter p o run) := by
  have hnode : Serves b
      (fun s => do return (← Session.nested serve s).framed o.file p.kind s.reader.cursor.place)
      (fun r => do return (← Reader.nested run r).framed o.file p.kind r.cursor.place) := by
    intro r
    dsimp only
    rw [h.nested, inMode_bind]
    exact bind_map_congr _ fun _ => rfl
  intro r
  unfold Session.enter Reader.enter
  dsimp only
  split
  · exact hnode r
  · exact andThen hnode _

/-! ### Placeholders -/

theorem placeholder (h : Serves false serve run) (b : Bool) (file : Option String) (bodyEnd : Nat)
    (p : Placeholder) (r : Reader) :
    Session.placeholder file serve bodyEnd p ⟨r, b⟩ =
      (Reader.placeholder file run bodyEnd p r).map (·, b) := by
  refine bind_map_congr _ fun cursor => ?_
  rw [h, inMode_bind]
  refine bind_map_congr _ fun out => ?_
  dsimp only
  cases out.failure with
  | none => rfl
  | some f => exact bind_pure_map _ _

theorem interpolated {serve : Bool → Session → Checked Turn}
    {run : Bool → Reader → Checked Outcome}
    (h : ∀ isBraced, Serves false (serve isBraced) (run isBraced)) (b : Bool)
    (file : Option String) (bodyEnd textEnd : Nat) (ps : List Placeholder) (start : Nat)
    (r : Reader) :
    Session.interpolated file serve bodyEnd textEnd ps start ⟨r, b⟩ =
      (Reader.interpolated file run bodyEnd textEnd ps start r).map fun (t, r) => (t, ⟨r, b⟩) := by
  induction ps generalizing start r with
  | nil => exact bind_map_congr _ fun _ => rfl
  | cons p ps ih =>
    rw [Session.interpolated, Reader.interpolated]
    split
    · exact ih start r
    · refine bind_map_congr _ fun chunk => ?_
      rw [(h p.braced).placeholder]
      refine map_bind_map _ fun resumed => ?_
      dsimp only
      rw [ih]
      exact map_bind_map _ fun _ => rfl

theorem quoted {serve : Bool → Session → Checked Turn} {run : Bool → Reader → Checked Outcome}
    (h : ∀ isBraced, Serves false (serve isBraced) (run isBraced)) (b : Bool)
    (file : Option String) : Serves b (Session.quoted file serve) (Reader.quoted file run) := by
  refine fun r => bind_map_congr _ ?_
  rintro ⟨t, cursor⟩
  cases t with
  | none => rfl
  | some t =>
    refine bind_map_congr _ fun reach => ?_
    dsimp only
    cases t.kind.placeholders?.getD [] with
    | nil => rfl
    | cons p ps =>
      refine bind_map_congr _ fun bodyEnd => ?_
      rw [interpolated h]
      exact map_bind_map _ fun _ => bind_map_congr _ fun _ => rfl

end Serves

/-- A plan is served as it is run, with the mode of the session as an option. The induction is on
the plan. Only in two cases does the mode play a part: a choice by the mode, and a quoted text,
whose placeholders are served in the other one. -/
theorem Plan.serves {descend' : Option String → Production → Session → Checked Turn}
    {descend : Options → Production → Reader → Checked Outcome}
    (hd : ∀ o p, Serves o.spacedCalls (descend' o.file p) (descend o p)) {q : Phrase}
    (plan : Plan q) (o : Options) :
    Serves o.spacedCalls (plan.serve descend' o.file) (plan.run descend o) := by
  induction plan generalizing o with
  | empty | take | trivia | expected | orphan | hexDigits | foreign => exact fun _ => rfl
  | node => exact hd o _
  | andThen first second ih₁ ih₂ =>
    intro r
    rw [Plan.serve, Plan.run, ih₁]
    exact (ih₂ o).andThen _
  -- The look gives the cursor back with its answer, and both go on with it.
  | choose yes no ihy ihn =>
    refine fun r => bind_map_congr _ ?_
    rintro ⟨answer, cursor⟩
    cases answer with
    | true => exact ihy o _
    | false => exact ihn o _
  | repeating body ends takes ih => exact fun r => (ih o).repeating _ 1 r
  | spacedCalls yes no ihy ihn =>
    intro r
    rw [Plan.serve, Plan.run]
    dsimp only
    split
    · exact ihy o r
    · exact ihn o r
  | statements statement takes ih => exact fun r => (ih o).statements _ _ _ r
  | quoted named braced ihn ihb =>
    refine Serves.quoted (fun isBraced => ?_) _ _
    cases isBraced with
    | true => exact ihb { o with spacedCalls := false }
    | false => exact ihn { o with spacedCalls := false }

/-- **A session reads what a reader does in its mode, and has the mode back.** The induction is on
the levels; a placeholder changes the mode for what is read in it, and whether that fails or not
the mode in front is put back. -/
theorem serves_read (levels : Nat) (o : Options) (p : Production) :
    Serves o.spacedCalls (Session.read levels o.file p) (read levels o p) := by
  induction levels generalizing o p with
  | zero => exact fun _ => rfl
  | succ n ih => exact ((plan p).serves ih o).enter p o

/-! ## All modes are back -/

/-- The session `s'` is in the modes of `s`, no look is pending in it, and it is not further back.
-/
structure Session.Restored (s s' : Session) : Prop where
  reader : s.reader.Onward s'.reader
  spacedCalls : s'.spacedCalls = s.spacedCalls

/-- What is served as an onward reading restores the session. The mode comes from the equation,
everything else from the reader. -/
theorem Serves.restored {b : Bool} {serve : Session → Checked Turn}
    {run : Reader → Checked Outcome} (h : Serves b serve run) (ho : ReadsOnward run) {r : Reader}
    (hi : r.cursor.origin = none) {t : Turn} (ht : serve ⟨r, b⟩ = .ok t) :
    Session.Restored ⟨r, b⟩ t.session := by
  rw [h] at ht
  cases hr : run r with
  | error e => rw [hr] at ht; cases ht
  | ok out =>
    rw [hr] at ht
    cases ht
    exact ⟨ho hi hr, rfl⟩

/-- There are levels enough for a construct wherever it stands. A reader that is too deep has none
left, and a construct fails there at once, as the rule says. -/
theorem simulates_read_of_depth (depth : Nat) (o : Options) (p : Production) :
    Simulates depth (read (maxNesting - depth + 1) o p)
      (Production.read (maxNesting - depth) o p) := by
  by_cases h : depth ≤ maxNesting
  · exact simulates_read (Nat.add_sub_cancel' h) o p
  · have hd : maxNesting ≤ depth := Nat.le_of_not_le h
    rw [Nat.sub_eq_zero_of_le hd]
    exact fun tape => .enter p o fun tape => .nested_deepest hd

/-- The errors of a construct are not more than the bytes in front of which it stands. So a room
in bytes is enough for the last part of `modes_restored`, which does not know the errors. -/
theorem length_diagnostics_read_le (n : Nat) (o : Options) (p : Production) {tape : Tape}
    (h : tape.Lexed) :
    (Production.read n o p tape).trace.diagnostics.length ≤ byteSize tape.text := by
  refine Nat.le_trans (Attempt.pays_read n o p h).le ?_
  rw [(Attempt.conserves.read n o p tape h).text, byteSize_append]
  exact Nat.le_add_right _ _

open Lookahead Token in
/-- The looks ahead that decide between rules with a common beginning; `sign` is what may stand in
front of a name. They are listed as computations, since the list is about what they do to the
cursor. -/
def ruleLooks (sign : Mark) : List (Cursor → Checked (Bool × Cursor)) :=
  [Scanned.run isAssignment, Scanned.run isRule, Scanned.run isSelectorCall,
    Scanned.run (significant (!·.refusesBlank)), Scanned.run isCall, Scanned.run isSpacedCall,
    Scanned.run isObject, Scanned.run (pair (isMark sign) isName), Scanned.run isMultipleType,
    Scanned.run isMapType]

theorem eq_of_ruleLook {sign : Mark} {look : Cursor → Checked (Bool × Cursor)}
    (hl : look ∈ ruleLooks sign) {c c' : Cursor} {answer : Bool} (hi : c.origin = none)
    (h : look c = .ok (answer, c')) : c' = c := by
  simp only [ruleLooks, List.mem_cons, List.not_mem_nil, or_false] at hl
  rcases hl with rfl | rfl | rfl | rfl | rfl | rfl | rfl | rfl | rfl | rfl <;>
    exact eq_of_look hi h

namespace Session

/-- **The modes are restored on every path.** In whatever modes a session is, if no look is pending,

- a construct leaves it in these modes, without a pending look and not further back, whether it
  fails or not;
- so does everything that a rule is made of, lists of statements with it;
- a look ahead leaves it as it is;
- a string leaves it at the end of the token, unless its node is refused;
- and constructs do end, where there is room to count. -/
theorem modes_restored (file : Option String) {s : Session} (hi : s.reader.cursor.origin = none) :
    (∀ levels p t, read levels file p s = .ok t → s.Restored t.session) ∧
    (∀ levels {q : Phrase} (plan : Plan q) t, plan.OfScans →
      plan.serve (read levels) file s = .ok t → s.Restored t.session) ∧
    ((∀ p, (plan p).OfScans) ∧ statementPlan.OfScans) ∧
    (∀ sign, ∀ look ∈ ruleLooks sign, ∀ answer cursor,
      look s.reader.cursor = .ok (answer, cursor) →
        { s with reader := { s.reader with cursor } } = s) ∧
    (∀ levels u after t, Checked.take s.reader.cursor = .ok (some u, after) → u.isQuoted = true →
      read levels file .string s = .ok t →
        (s.reader.depth < maxNesting → t.outcome.failure = none ∧
          t.session.reader.cursor.place = after.place ∧ after.place.byte = u.stop) ∧
        (maxNesting ≤ s.reader.depth → t.outcome.failure.isSome = true ∧ t.session = s)) ∧
    (∀ passed ahead p, s.reader.cursor.Faces passed ahead → s.reader.cursor.place.Counts ahead →
      0 < s.reader.cursor.place.line → s.reader.cursor.preferHex = false →
      s.reader.errors + byteSize ahead < wordBound →
        ∃ t, read (maxNesting - s.reader.depth + 1) file p s = .ok t ∧
          t.outcome.Agrees s.reader (Production.read (maxNesting - s.reader.depth)
            ⟨file, s.spacedCalls⟩ p (.ofText s.reader.cursor.place ahead s.reader.reach))) := by
  obtain ⟨r, b⟩ := s
  have hserves (levels : Nat) (p : Production) :
      Serves b (read levels file p) (Checked.read levels ⟨file, b⟩ p) :=
    serves_read levels ⟨file, b⟩ p
  refine ⟨fun levels p t h => ?_, fun levels q plan t hp h => ?_,
    ⟨ofScans_plan, ofScans_statementPlan⟩, fun sign look hl answer cursor h => ?_,
    fun levels u after t ht hq h => ?_, fun passed ahead p hf hr hn hh he => ?_⟩
  · exact (hserves levels p).restored (onward_read levels _ p) hi h
  · exact (plan.serves (serves_read levels) ⟨file, b⟩).restored
      (hp.onward (onward_read levels) _) hi h
  · rw [eq_of_ruleLook hl hi h]
  -- A string: the reader has ended, and is taken apart down to the jump behind its token.
  · rw [hserves] at h
    cases hr : Checked.read levels ⟨file, b⟩ .string r with
    | error e => rw [hr] at h; cases h
    | ok out =>
      rw [hr] at h
      cases h
      obtain ⟨hread, hrefused⟩ := of_read_string hi ht hq hr
      refine ⟨fun hd => ?_, fun hd => ?_⟩
      · obtain ⟨hf, hp⟩ := hread hd
        refine ⟨hf, hp, ?_⟩
        rcases of_take ht with ⟨hn, -⟩ | ⟨v, behind, hv, hs, rfl⟩
        · cases hn
        · exact ((of_step hs).2.2.1 u (hv ▸ rfl)).2
      · obtain ⟨hf, hsame⟩ := hrefused hd
        refine ⟨hf, ?_⟩
        rw [Turn.session, hsame]
  -- That a construct ends needs the tape: the simulation gives the outcome, on as many levels as
  -- are left.
  · have hfollows := Reader.Follows.ofText hf hr hn hi hh
    obtain ⟨out, hout, ha⟩ := simulates_read_of_depth r.depth ⟨file, b⟩ p _ r hfollows rfl (by
      refine Nat.lt_of_le_of_lt (Nat.add_le_add_left ?_ _) he
      have hle := length_diagnostics_read_le (maxNesting - r.depth) ⟨file, b⟩ p hfollows.lexed
      rwa [Tape.text_ofText] at hle)
    exact ⟨⟨out, b⟩, by rw [hserves, hout]; rfl, ha⟩

/-- A color that is none, in a placeholder that the closing quote cuts off. -/
theorem modes_restored_color :
    let s : Session := ⟨{ cursor := .ofSource "\x22%\x7b#zz\x22 b" }, true⟩
    ∃ t, read 257 none .string s = .ok t ∧ s.Restored t.session ∧ t.outcome.failure = none ∧
      t.session.reader.cursor.place.byte = 7 := by
  intro s
  have hsize : "\x22%\x7b#zz\x22 b".utf8ByteSize + 1 < wordBound := by decide
  have hfollows := follows_ofSource hsize
  have hahead : (Tape.ofText (openSource "\x22%\x7b#zz\x22 b").1
      (openSource "\x22%\x7b#zz\x22 b").2 0).ahead =
      [⟨.quoted .double [⟨⟨1, 2, 1⟩, 6, true⟩], "\x22%\x7b#zz\x22", .origin⟩,
        ⟨.blank, " ", ⟨1, 8, 7⟩⟩, ⟨.word, "b", ⟨1, 9, 8⟩⟩] := by cbv
  have htake := (hahead ▸ hfollows.shows).take_cons hfollows.idle
  obtain ⟨hread, -, -, -, hstring, hends⟩ := modes_restored none (s := s) hfollows.idle
  obtain ⟨t, ht, -⟩ := hends _ _ .string (Cursor.faces_ofSource _) (counts_openSource hsize)
    (line_openSource _) rfl (by decide)
  obtain ⟨hfailure, hplace, hbyte⟩ := (hstring 257 _ _ t htake rfl ht).1 (by decide)
  exact ⟨t, ht, hread 257 .string t ht, hfailure, by rw [hplace, hbyte]; decide⟩

end Session

end Checked

end Heddle
