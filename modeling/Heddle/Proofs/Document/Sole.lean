import Heddle.Proofs.Document.Composition
import Heddle.Proofs.Reading.Printed

/-!
# Sources with one statement

Much of what can be said about a construct is said of a source that holds nothing else. Such a
source is read as its statement is, wherever the statement begins: `sole?_of_readsBack` takes what
a phrase reads back to **the tree of a whole source that was printed**.
-/

set_option autoImplicit false

namespace Heddle

open Text

/-- The only statement of a source without errors. -/
def Parsed.sole? (p : Parsed) : Option Node :=
  match p.errors, p.root.map (·.nodes) with
  | [], some [n] => some n
  | _, _ => none

namespace Parsed

theorem sole?_eq_some {p : Parsed} {n : Node} :
    p.sole? = some n ↔ p.errors = [] ∧ p.root.map (·.nodes) = some [n] := by
  unfold sole?
  split <;> rename_i he hr
  · rw [he, hr]
    simp
  · refine ⟨nofun, fun ⟨he', hr'⟩ => ?_⟩
    exact absurd hr' (hr n he')

/-- The statement is the only node that a trace without errors reports. -/
theorem sole?_ofSource {o : Options} {source : String} {n : Node} :
    (Parsed.ofSource o source).sole? = some n ↔
      (readStatements o source).trace.diagnostics = [] ∧
        (Node.mk .document none (readStatements o source).trace.forest).nodes = [n] := by
  rw [sole?_eq_some, Parsed.ofSource_eq, Option.map_some, Option.some_inj]
  rfl

end Parsed

/-- The phrase of a statement, read as the statements of a source are. -/
def readStatement (o : Options) (tape : Tape) : Attempt :=
  Phrase.statement.read (Production.read maxNesting) o tape

/-- The rest of the statements of a source. -/
def readFurther (o : Options) (tape : Tape) : Attempt :=
  .statements o.file false (readStatement o) tape.size tape

theorem conserves_readStatement (o : Options) (tape : Tape) (h : tape.Lexed) :
    Attempt.Conserves tape (readStatement o tape) :=
  Attempt.conserves.phrase (fun o p tape => Attempt.conserves.read maxNesting o p tape) _ o tape h

/-- A source that begins with a statement is read as this statement and then as the rest. The
conditions say that there is no trivia in front of it and no brace in its place. -/
theorem readStatements_eq (o : Options) {source : String}
    (hm : source.toList.head? ≠ some '\uFEFF') (hs : Solid source.toList)
    (hne : source.toList ≠ [])
    (hb : Lookahead.On (Lookahead.next (Token.isMark .rightBrace)) source.toList false) :
    readStatements o source =
      (Attempt.recovered o.file false (readStatement o (.ofText .origin source.toList 0))).andThen
        (readFurther o) := by
  have htrivia := Tape.takeTrivia_solid hs .origin 0
  have hahead :
      ¬ Attempt.EndsList false (Tape.ofText .origin source.toList 0).takeTrivia.2.ahead := by
    rw [htrivia]
    exact Attempt.not_endsList_of_ne_nil fun he => hne (Token.readAll_eq_nil he)
  have hbrace : (Tape.ofText .origin source.toList 0).takeTrivia.2.ahead.head?.any
      (·.isMark .rightBrace) = false := by
    rw [htrivia]
    exact hb .origin
  have heq := @Attempt.statements_eq o.file false (readStatement o) (conserves_readStatement o)
    (fun tape ht => progress_statement maxNesting o ht) _
    (Tape.lexed_ofText .origin source.toList 0) hahead hbrace
  rw [htrivia] at heq
  rw [readStatements, openSource_of_ne hm]
  exact heq

/-- Nothing is left to read at the end of a source. -/
theorem readFurther_nil (o : Options) (p : Position) (reach : Nat) :
    readFurther o (.ofText p [] reach) = .ofTaken (.nil, .ofText p [] reach) := by
  have htrivia : (Tape.ofText p [] reach).takeTrivia = (.nil, .ofText p [] reach) := by
    apply Attempt.takeTrivia_of_nil
    rw [Tape.ahead_ofText, Token.readAll_nil]
    rfl
  rw [readFurther, Attempt.statements_of_ends (.inl ?_), htrivia]
  rw [htrivia, Tape.ahead_ofText, Token.readAll_nil]

/-- Whether a statement may begin with the character: it begins no trivia, closes no block, and is
no byte order mark. -/
def beginsStatement (c : Char) : Bool := !isBlank c && !(['/', '\x7d', '\uFEFF'].contains c)

theorem solid_of_begins {cs : List Char} (h : ∃ c ∈ cs.head?, beginsStatement c = true) :
    Solid cs := by
  obtain ⟨c, hc, hbegins⟩ := h
  obtain ⟨cs, rfl⟩ := List.head?_eq_some_iff.1 hc
  simp only [beginsStatement, List.contains_cons, Bool.and_eq_true, Bool.not_eq_true',
    Bool.or_eq_false_iff, beq_eq_false_iff_ne] at hbegins
  exact solid_cons hbegins.1 hbegins.2.1 cs

theorem readStatements_of_begins (o : Options) {source : String}
    (h : ∃ c ∈ source.toList.head?, beginsStatement c = true) :
    readStatements o source =
      (Attempt.recovered o.file false (readStatement o (.ofText .origin source.toList 0))).andThen
        (readFurther o) := by
  have hsolid := solid_of_begins h
  obtain ⟨c, hc, hbegins⟩ := h
  obtain ⟨cs, hc⟩ := List.head?_eq_some_iff.1 hc
  simp only [beginsStatement, List.contains_cons, List.contains_nil, Bool.or_false,
    Bool.and_eq_true, Bool.not_eq_true', Bool.or_eq_false_iff, beq_eq_false_iff_ne] at hbegins
  obtain ⟨-, -, hbrace, hmark⟩ := hbegins
  refine readStatements_eq o ?_ hsolid ?_ ?_
  all_goals rw [hc]
  · simpa using hmark
  · exact List.cons_ne_nil c cs
  · exact .otherMark (by simpa [Mark.spelling, eq_comm] using hbrace) cs

/-- Nothing but trivia is left of a source. -/
def Finishes (o : Options) (tape : Tape) : Prop :=
  (readFurther o tape).trace.diagnostics = [] ∧
    (Node.mk .document none (readFurther o tape).trace.forest).nodes = []

/-- **When a source holds only its first statement**, and what node this is. The statement is
given as the inside of its node, which begins with a `lead` that is known; so what is left to be
found out is what the attempt `a` does behind it. -/
theorem sole?_iff {o : Options} {source : String} {kind : NodeKind} {lead : Trace} {a : Attempt}
    {start : Position} {node : Node} (hb : ∃ c ∈ source.toList.head?, beginsStatement c = true)
    (hl : lead.diagnostics = [])
    (hs : readStatement o (.ofText .origin source.toList 0) =
      (a.behind lead).framed o.file kind start) :
    (Parsed.ofSource o source).sole? = some node ↔
      a.Clean ∧ Finishes o a.tape ∧
        node = ⟨kind, some (a.tape.extent o.file start), lead.forest ++ a.trace.forest⟩ := by
  let l := a.tape.extent o.file start
  let inside : Trace := .ofNode kind (lead ++ a.trace ++ .ofNote (.location l)) true
  have hall (hf : a.failure = none) :
      (readStatements o source).trace = inside ++ (readFurther o a.tape).trace := by
    have hclean : (a.behind lead).framed o.file kind start = ⟨inside, a.tape, none⟩ := by
      obtain ⟨trace, tape, failure⟩ := a
      obtain rfl : failure = none := hf
      rfl
    rw [readStatements_of_begins o hb, hs, hclean]
    rfl
  have hnodes : (Node.mk .document none inside.forest).nodes =
      [⟨kind, some l, lead.forest ++ a.trace.forest⟩] := by
    simp only [inside, Trace.ofNode, Trace.forest, Trace.location?_append, Trace.forest_append,
      Trace.forest_location, Forest.append_nil, if_pos]
    rfl
  rw [Parsed.sole?_ofSource]
  constructor
  · rintro ⟨hd, hn⟩
    -- A statement that was skipped would have reported an error.
    have hrecovered : (Attempt.recovered o.file false
        ((a.behind lead).framed o.file kind start)).Clean := by
      refine ⟨Attempt.failure_recovered _ _ _, ?_⟩
      rw [readStatements_of_begins o hb, hs,
        Attempt.andThen_of_none (Attempt.failure_recovered _ _ _), Attempt.trace_behind,
        Trace.diagnostics_append, List.append_eq_nil_iff] at hd
      exact hd.1
    have ha := hrecovered.of_recovered.1.of_framed.of_behind
    rw [hall ha.succeeds, Trace.diagnostics_append, List.append_eq_nil_iff] at hd
    rw [hall ha.succeeds, Trace.forest_append, Node.nodes_append _ _ none none, hnodes,
      List.singleton_append, List.cons_eq_cons] at hn
    exact ⟨ha, ⟨hd.2, hn.2⟩, hn.1.symm⟩
  · rintro ⟨ha, ⟨hd, hn⟩, rfl⟩
    rw [hall ha.succeeds, Trace.diagnostics_append, Trace.forest_append,
      Node.nodes_append _ _ none none, hnodes, hn, hd]
    exact ⟨by simp [inside, hl, ha.silent], rfl⟩

/-- **A source that holds one printed statement has the tree of this statement.** It takes a lemma
about phrases, in front of any rest, to one about a source. -/
theorem sole?_of_readsBack (o : Options) {source : String} {kind : NodeKind} {f : Forest}
    (hs : source = f.text) (hf : ∃ c ∈ f.chars.head?, beginsStatement c = true)
    (hn : f.height < maxNesting) (h : Phrase.ReadsBack o .statement (.node kind none f .nil) []) :
    (Parsed.ofSource o source).sole?.map (·.unplaced) = some ⟨kind, none, f⟩ := by
  replace hs : source.toList = f.chars := congrArg String.toList hs
  have hread : (readStatement o (.ofText .origin source.toList 0)).Yields
      (.node kind none f .nil) (Position.origin.past f.chars) [] := by
    have hsource : (Forest.node kind none f .nil).chars ++ [] = source.toList := by simp [hs]
    have hnode := h maxNesting .origin 0 (by simp [Forest.height]; omega)
    rw [hsource, Forest.chars_node, Forest.chars_nil, List.append_nil] at hnode
    exact hnode
  have hall := readStatements_of_begins o (hs.symm ▸ hf)
  generalize readStatement o (.ofText .origin source.toList 0) = a at hread hall
  obtain ⟨⟨hf, hd⟩, ⟨reach, hl⟩, ht⟩ := hread
  have htrace : (readStatements o source).trace = a.trace := by
    have hrecovered : Attempt.recovered o.file false a = a := by
      rw [Attempt.recovered, hf]
    rw [hall, hrecovered, Attempt.andThen_of_none hf, hl, readFurther_nil]
    exact Trace.append_nil _
  have hnodes : (Node.mk .document none a.trace.forest).nodes.map (·.unplaced) =
      [⟨kind, none, f⟩] := by
    rw [← Node.nodes_unplaced, Node.unplaced, ht]
    rfl
  obtain ⟨n, hn, hu⟩ := List.map_eq_singleton_iff.1 hnodes
  have hsole := Parsed.sole?_ofSource.2
    ⟨(congrArg Trace.diagnostics htrace).trans hd, by rw [htrace]; exact hn⟩
  rw [hsole, Option.map_some, hu]

end Heddle
