import Mathlib
import Heddle.Proofs.Reading.Extension
import Heddle.Proofs.Reading.Moved
import Heddle.Proofs.Reading.Reach

/-!
# One text behind another

A text without errors that ends with a semicolon is finished: whatever follows it, its statements
are what they are by themselves, and what follows is read as it would be at the beginning of a
source, only at other places. So **the tree of two texts is the tree of the first with the moved
nodes of the second**, and the errors are the moved errors of the second.

The second text is arbitrary but for two things. A byte order mark is one only at the very
beginning of a source, and a closing tag could end a block of another language that the first text
seems to open, where without it there is only a sign of comparison.
-/

set_option autoImplicit false

namespace Heddle

open Text

/-! ## Places behind a text -/

/-- How far a text is moved that stands behind `a`: by the bytes of `a`, by its line feeds, and on
the first line by the characters of its last line. A byte order mark of `a` counts in bytes and
not in columns. -/
def Shift.behind (a : String) : Shift where
  lines := a.toList.count '\n'
  columns := ((openSource a).2.reverse.takeWhile (· != '\n')).length
  bytes := a.utf8ByteSize

namespace Position

theorem line_past (p : Position) (cs : List Char) :
    (p.past cs).line = p.line + cs.count '\n' := by
  induction cs generalizing p with
  | nil => rfl
  | cons c cs ih =>
    rw [past_cons, ih, after]
    split <;> rename_i hc
    · subst hc
      rw [List.count_cons_self]
      show p.line + 1 + _ = _
      omega
    · rw [List.count_cons_of_ne (Ne.symm (Ne.symm hc))]

/-- Columns count the characters of the last line. -/
theorem column_past {p : Position} (h : p.column = 1) (cs : List Char) :
    (p.past cs).column = 1 + (cs.reverse.takeWhile (· != '\n')).length := by
  -- The last character decides, so the induction goes through the text from its end.
  have hall : ∀ rs : List Char,
      (p.past rs.reverse).column = 1 + (rs.takeWhile (· != '\n')).length := by
    intro rs
    induction rs with
    | nil => exact h
    | cons c rs ih =>
      rw [List.reverse_cons, past_append, past_cons, past_nil, after]
      split <;> rename_i hc
      · subst hc
        rfl
      · rw [List.takeWhile_cons_of_pos (by simpa using hc), List.length_cons]
        show (p.past rs.reverse).column + 1 = _
        omega
  rw [← hall cs.reverse, List.reverse_reverse]

/-- A text behind `a` begins where `a` ends. One place is counted from the beginning of `a`, the
other is moved from the beginning of a source. -/
theorem shift_behind (a : String) :
    origin.shift (.behind a) = (openSource a).1.past (openSource a).2 := by
  -- A mark at the beginning of `a` is no part of the text that is read, but it has bytes.
  have hopen : (openSource a).1.line = 1 ∧ (openSource a).1.column = 1 ∧
      (openSource a).2.count '\n' = a.toList.count '\n' ∧
      (openSource a).1.byte + byteSize (openSource a).2 = a.utf8ByteSize := by
    have hsize : byteSize a.toList = a.utf8ByteSize := by
      rw [← utf8ByteSize_ofList, String.ofList_toList]
    unfold openSource
    split <;> rename_i hc
    · refine ⟨rfl, rfl, ?_, ?_⟩
      · rw [hc]
        rfl
      · rw [← hsize, hc, byteSize_cons]
        rfl
    · refine ⟨rfl, rfl, rfl, ?_⟩
      rw [← hsize]
      exact Nat.zero_add _
  obtain ⟨hline, hcolumn, hcount, hbyte⟩ := hopen
  have hl := line_past (openSource a).1 (openSource a).2
  have hc := column_past hcolumn (openSource a).2
  have hb := byte_past (openSource a).1 (openSource a).2
  rw [hline, hcount] at hl
  rw [hbyte] at hb
  generalize (openSource a).1.past (openSource a).2 = p at hl hc hb ⊢
  obtain ⟨line, column, byte⟩ := p
  simp only at hl hc hb
  subst hl hc hb
  show Position.mk _ _ _ = _
  rw [show origin.byte + (Shift.behind a).bytes = a.utf8ByteSize from Nat.zero_add _]
  rfl

end Position

/-- Nothing but the place in front of it tells a source from a text behind another one. -/
theorem openSource_append {a b : String} (h : a.toList ≠ []) :
    openSource (a ++ b) = ((openSource a).1, (openSource a).2 ++ b.toList) := by
  obtain ⟨c, cs, hc⟩ := List.exists_cons_of_ne_nil h
  unfold openSource
  rw [String.toList_append, hc, List.cons_append]
  by_cases hm : c = '\uFEFF'
  · subst hm
    rfl
  · simp [hm]

theorem openSource_of_ne {b : String} (h : b.toList.head? ≠ some '\uFEFF') :
    openSource b = (.origin, b.toList) := by
  unfold openSource
  split <;> rename_i hc
  · rw [hc] at h
    exact absurd rfl h
  · rfl

/-- The tape of a finished source with more text behind it. The tokens of the source are still
there, as they are cut alike in front of the other text (`Tape.extend`). -/
theorem ofText_append {a b : String} (hne : tokenize a ≠ []) (hm : ¬ ['<', '/'] <:+: b.toList)
    (hf : Finished (tokenize a)) :
    Tape.ofText (openSource (a ++ b)).1 (openSource (a ++ b)).2 0 =
      (Tape.ofText (openSource a).1 (openSource a).2 0).extend b.toList := by
  have hstart : a.toList ≠ [] := by
    intro he
    apply hne
    rw [tokenize, openSource, he]
    exact Token.readAll_nil _
  have hfinished : Finished (Tape.ofText (openSource a).1 (openSource a).2 0).ahead := hf
  rw [Tape.extend_eq _ (Tape.lexed_ofText _ _ _) (.of_finished hfinished _) hm,
    openSource_append hstart, Tape.place_ofText, Tape.text_ofText]
  rfl

/-! ## Statements behind statements -/

/-- The tape of a source ends where a text behind the source begins. -/
theorem stop_openSource (a : String) (reach : Nat) :
    (Tape.ofText (openSource a).1 (openSource a).2 reach).stop =
      Position.origin.shift (.behind a) := (Position.shift_behind a).symm

/-- **Behind a source that was read to its end another text is read as at the beginning of a
source**, only at other places. What was reached before does not matter, since no node goes back
behind the first token (`Grounded`). -/
theorem readStatements_behind (o : Options) {a b : String} {tape : Tape} (he : tape.ahead = [])
    (hs : tape.stop = Position.origin.shift (.behind a)) (hg : tape.Grounded)
    (hb : b.toList.head? ≠ some '\uFEFF') :
    ((Phrase.statements false .statement).read (Production.read maxNesting) o
        (tape.extend b.toList)).trace = (readStatements o b).trace.shift (.behind a) := by
  have hrest : tape.extend b.toList =
      .ofText (Position.origin.shift (.behind a)) b.toList tape.reach := by
    rw [Tape.extend, he, hs]
    rfl
  -- What the first text reached is inside it, so the second one can not see it.
  have hreach : (Shift.behind a).Reaches 0 tape.reach := by
    refine .inr ⟨rfl, ?_⟩
    rw [Tape.Grounded, Tape.place, he, hs] at hg
    exact Nat.le_trans hg (Nat.le_of_eq (Nat.zero_add _))
  have hmoved := Attempt.Moved.phrase
    (fun o p tape tape' hm => Attempt.Moved.read maxNesting o p hm)
    (.statements false .statement) Phrase.local_statement o
    (Tape.Moved.ofText (p := .origin) (Nat.le_refl 1) b.toList hreach)
  rw [hrest, hmoved.trace, readStatements, openSource_of_ne hb]

/-- **The report of two texts is that of the first with the moved report of the second behind
it.** The two parts are proved in two modules: that more text changes nothing in the reading of
the first (`Reading.Extension`), and that a reading at other places reports what is moved
(`Reading.Moved`). Here they are put together at the end of the first text. -/
theorem readStatements_append (o : Options) {a b : String}
    (ha : (readStatements o a).trace.diagnostics = [])
    (ht : (tokenize a).getLast?.map (·.kind) = some (.mark .semicolon))
    (hb : b.toList.head? ≠ some '\uFEFF') (hm : ¬ ['<', '/'] <:+: b.toList) :
    (readStatements o (a ++ b)).trace =
      (readStatements o a).trace ++ (readStatements o b).trace.shift (.behind a) := by
  have hne : tokenize a ≠ [] := by
    intro he
    rw [he] at ht
    cases ht
  have hfinished : Finished (tokenize a) := by
    intro t hl
    rw [Option.mem_def.1 hl] at ht
    exact Option.some.inj ht
  let T := Tape.ofText (openSource a).1 (openSource a).2 0
  let read := (Phrase.statements false .statement).read (Production.read maxNesting) o
  have hl : T.Lexed := Tape.lexed_ofText _ _ _
  have hx : Attempt.Continues read false T (read T) :=
    Attempt.continues_document maxNesting o hl ha
  -- The first text ends where nothing is open.
  have hend : (read T).tape.ahead = [] := by
    rcases hx.ends with he | ⟨hf, -⟩
    · exact he
    · cases hf
  have hnested : nest [] T.ahead = some [] := by
    rw [hx.nested, hend]
    rfl
  have hc : Attempt.Conserves T (read T) :=
    Attempt.conserves.phrase (fun o p tape => Attempt.conserves.read maxNesting o p tape) _ o T hl
  -- What was reached in the first text does not go beyond its end.
  have hg : (read T).tape.Grounded :=
    (Attempt.grounds.phrase (fun o p tape => Attempt.grounds.read maxNesting o p tape) _ o T
      hl).grounded (Nat.zero_le _)
  have hboth : readStatements o (a ++ b) =
      (read ((read T).tape.extend b.toList)).behind (read T).trace := by
    rw [readStatements, ofText_append hne hm hfinished]
    exact hx.agrees [] hnested hfinished _ hm
  rw [hboth, Attempt.trace_behind,
    readStatements_behind o hend ((hc.stop hl).trans (stop_openSource a 0)) hg hb]
  rfl

/-- The nodes of a tree are those of its children, so they are put together as the children are.
-/
theorem Node.nodes_append (kind : NodeKind) (location location' location'' : Option Location)
    (f g : Forest) :
    (Node.mk kind location (f ++ g)).nodes =
      (Node.mk kind location' f).nodes ++ (Node.mk kind location'' g).nodes := by
  induction f with
  | nil => rfl
  | data tag text next ih => exact ih
  | node kind location children next _ ih => exact congrArg (_ :: ·) ih

/-- **Nothing behind a finished text changes its tree, and nothing in it changes how the text
behind it is read.** The errors are those of the second text, for the first has none. -/
theorem ofSource_append (o : Options) {a b : String}
    (ha : (Parsed.ofSource o a).errors = [])
    (ht : (tokenize a).getLast?.map (·.kind) = some (.mark .semicolon))
    (hb : b.toList.head? ≠ some '\uFEFF') (hm : ¬ ['<', '/'] <:+: b.toList) :
    ∃ first second both : Node,
      (Parsed.ofSource o a).root = some first ∧ (Parsed.ofSource o b).root = some second ∧
      (Parsed.ofSource o (a ++ b)).root = some both ∧
      both.nodes = first.nodes ++ second.nodes.map (·.shift (.behind a)) ∧
      (Parsed.ofSource o (a ++ b)).errors =
        (Parsed.ofSource o b).errors.map (·.shift (.behind a)) := by
  replace ha : (readStatements o a).trace.diagnostics = [] := by
    rw [Parsed.ofSource_eq] at ha
    exact ha
  have hall := readStatements_append o ha ht hb hm
  simp only [Parsed.ofSource_eq]
  refine ⟨_, _, _, rfl, rfl, rfl, ?_, ?_⟩
  · rw [hall, Trace.forest_append, Trace.forest_shift, Node.nodes_append, ← Node.nodes_shift]
    rfl
  · rw [hall, Trace.diagnostics_append, Trace.diagnostics_shift, ha, List.nil_append]

/-- A statement is what it is in front of a text that can not be read. -/
theorem ofSource_statement_garbage :
    (Parsed.ofSource {} "a = 1;").errors = [] ∧
    ∃ first second both : Node,
      (Parsed.ofSource {} "a = 1;").root = some first ∧
      (Parsed.ofSource {} ")\n\x7b x").root = some second ∧
      (Parsed.ofSource {} ("a = 1;" ++ ")\n\x7b x")).root = some both ∧
      both.nodes = first.nodes ++ second.nodes.map (·.shift ⟨0, 6, 6⟩) ∧
      (Parsed.ofSource {} ("a = 1;" ++ ")\n\x7b x")).errors =
        (Parsed.ofSource {} ")\n\x7b x").errors.map (·.shift ⟨0, 6, 6⟩) := by
  have ha : (Parsed.ofSource {} "a = 1;").errors = [] := by cbv
  have ht : (tokenize "a = 1;").getLast?.map (·.kind) = some (.mark .semicolon) := by cbv
  have hm : ¬ ['<', '/'] <:+: (")\n\x7b x" : String).toList := by decide
  exact ⟨ha, ofSource_append {} ha ht (by decide) hm⟩

end Heddle
