import Heddle.Proofs.Token.Shift
import Heddle.Proofs.Tree.Pruned

/-!
# Reports and trees of a moved text

What is reported of a text behind another one is the same report at other places: extents and
errors are shifted, data is what it is. The tree and the errors of the report are shifted with it,
since neither depends on a place.
-/

set_option autoImplicit false

namespace Heddle

/-- The file and the length of an extent are what they were. -/
def Location.shift (d : Shift) (l : Location) : Location :=
  ⟨l.file, l.line + d.lines, d.column l.line l.column, l.offset + d.bytes, l.length⟩

/-- An error knows its line and column, and not its byte. -/
def Diagnostic.shift (d : Shift) (e : Diagnostic) : Diagnostic :=
  ⟨e.message, e.file, e.line + d.lines, d.column e.line e.column⟩

def Failure.shift (d : Shift) (f : Failure) : Failure := ⟨f.cause, f.position.shift d⟩

/-- Faults are bytes. Data knows no place. -/
def Note.shift (d : Shift) : Note → Note
  | data tag text => data tag text
  | location l => location (l.shift d)
  | error scope e => error scope (e.shift d)
  | fault start stop => fault (start + d.bytes) (stop + d.bytes)

/-- A trace is moved note by note. -/
def Trace.shift (d : Shift) : Trace → Trace
  | nil => nil
  | note n next => note (n.shift d) (next.shift d)
  | node kind inside committed next => node kind (inside.shift d) committed (next.shift d)

def Forest.shift (d : Shift) : Forest → Forest
  | nil => nil
  | data tag text next => data tag text (next.shift d)
  | node kind location children next =>
    node kind (location.map (·.shift d)) (children.shift d) (next.shift d)

/-- The node in the moved text. -/
def Node.shift (d : Shift) (n : Node) : Node :=
  ⟨n.kind, n.location.map (·.shift d), n.children.shift d⟩

namespace Trace

variable (d : Shift)

@[simp] theorem shift_append (t u : Trace) : (t ++ u).shift d = t.shift d ++ u.shift d := by
  induction t with
  | nil => rfl
  | note n next ih => simp [shift, ih]
  | node kind inside committed next _ ih => simp [shift, ih]

@[simp] theorem shift_ofData (tag : DataTag) (text : String) :
    (ofData tag text).shift d = ofData tag text := rfl

theorem location?_shift (t : Trace) : (t.shift d).location? = t.location?.map (·.shift d) := by
  induction t with
  | nil => rfl
  | note n next ih =>
    cases n with
    | location l =>
      show (next.shift d).location?.or (some (l.shift d)) = (next.location?.or (some l)).map _
      rw [ih]
      cases next.location? <;> rfl
    | _ => exact ih
  | node kind inside committed next _ ih => exact ih

/-- What belongs to the tree does not depend on places. -/
theorem forest_shift (t : Trace) : (t.shift d).forest = t.forest.shift d := by
  induction t with
  | nil => rfl
  | note n next ih =>
    cases n with
    | data tag text => exact congrArg (Forest.data tag text) ih
    | _ => exact ih
  | node kind inside committed next ihi ihn =>
    cases committed with
    | true =>
      show Forest.node kind _ _ _ = Forest.node kind _ _ _
      rw [location?_shift, ihi, ihn]
    | false => exact ihn

/-- The errors of a moved trace. -/
theorem diagnostics_shift (t : Trace) :
    (t.shift d).diagnostics = t.diagnostics.map (·.shift d) := by
  have hnotes : ∀ t : Trace, (t.shift d).notes = t.notes.map (·.shift d) := by
    intro t
    induction t with
    | nil => rfl
    | note n next ih => simp [shift, notes, ih]
    | node kind inside committed next ihi ihn => simp [shift, notes, ihi, ihn]
  unfold diagnostics errors
  rw [hnotes]
  induction t.notes with
  | nil => rfl
  | cons n ns ih =>
    cases n with
    | error scope e => exact congrArg (e.shift d :: ·) ih
    | _ => exact ih

end Trace

/-- The nodes among children are moved one by one. -/
theorem Node.nodes_shift (d : Shift) (n : Node) : (n.shift d).nodes = n.nodes.map (·.shift d) := by
  obtain ⟨kind, location, children⟩ := n
  unfold nodes Node.shift
  simp only
  induction children with
  | nil => rfl
  | data tag text next ih => exact ih
  | node kind location children next _ ih => exact congrArg (_ :: ·) ih

/-- So are those at any depth. -/
theorem Forest.findAll_shift (d : Shift) (wanted : NodeKind) (f : Forest) :
    (f.shift d).findAll wanted = (f.findAll wanted).map (·.shift d) := by
  induction f with
  | nil => rfl
  | data tag text next ih => exact ih
  | node kind location children next ihc ihn =>
    rw [shift, findAll, findAll, ihc, ihn, List.map_append, List.map_append]
    split <;> rfl

/-- A moved tree spells the same text. -/
theorem Forest.text_shift (d : Shift) (f : Forest) : (f.shift d).text = f.text := by
  induction f with
  | nil => rfl
  | data tag s next ih => exact congrArg (s ++ ·) ih
  | node kind location children next ihc ihn => rw [shift, text, text, ihc, ihn]

end Heddle
