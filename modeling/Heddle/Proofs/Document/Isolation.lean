import Heddle.Proofs.Document.Composition
import Heddle.Proofs.Reading.Isolated

/-!
# One broken statement

However broken a statement is, the damage ends with its semicolon: **the statements behind it are
read as they would be without it**, and of the broken one the same is reported and the same kept as
if nothing followed. That is what skipping to the next semicolon is for.

A statement in this sense is any text without braces whose last token is its only semicolon. Its
parentheses and brackets need not match, so the looks ahead of its reader may well go through all
that follows. What comes of it is the wording of an error at most (`Attempt.Isolated`).
-/

set_option autoImplicit false

namespace Heddle

open Lookahead

/-- Where the error is shown. -/
def Diagnostic.place (d : Diagnostic) : Nat × Nat := (d.line, d.column)

/-- The two traces have the same in the tree and errors at the same places, all of them in front
of the end of the statement. The words of an error may differ: at the end of the source there is
no token to be named, and in front of more text there is. -/
structure Trace.Alike (stop : Position) (t u : Trace) : Prop where
  forest : u.forest = t.forest
  places : u.diagnostics.map (·.place) = t.diagnostics.map (·.place)
  before : ∀ d ∈ u.diagnostics, d.Before stop

namespace Trace.Alike

variable {stop : Position} {t t' u u' : Trace}

theorem refl (h : t.diagnostics = []) : t.Alike stop t := ⟨rfl, rfl, by rw [h]; exact nofun⟩

theorem append (h : t.Alike stop t') (h' : u.Alike stop u') : (t ++ u).Alike stop (t' ++ u') := by
  refine ⟨?_, ?_, fun d hd => ?_⟩
  · rw [forest_append, forest_append, h.forest, h'.forest]
  · rw [diagnostics_append, diagnostics_append, List.map_append, List.map_append, h.places,
      h'.places]
  · rw [diagnostics_append] at hd
    exact (List.mem_append.1 hd).elim (h.before d) (h'.before d)

theorem error {d d' : Diagnostic} (scope : ErrorScope) (hp : d'.place = d.place)
    (hb : d'.Before stop) :
    (ofNote (.error scope d)).Alike stop (ofNote (.error scope d')) := by
  refine ⟨rfl, congrArg (· :: []) hp, fun e he => ?_⟩
  rw [diagnostics_error] at he
  exact List.mem_singleton.1 he ▸ hb

end Trace.Alike

/-! ## Skipping -/

/-- Behind a failure all of the statement is skipped, and nothing of what follows. The statement
has no braces and one semicolon, its last token, so skipping stops there and nowhere before. -/
theorem Pending.skipped {ts : List Token} (h : Pending ts) (inBlock : Bool) (more : List Token) :
    Tape.skipped inBlock 0 (ts ++ more) = ts.length := by
  induction ts with
  | nil => exact absurd rfl h.ne_nil
  | cons t ts ih =>
    rcases h.cases_head with ⟨hk, rfl⟩ | ⟨⟨hs, hl, hr⟩, hts⟩
    · have hk := Token.kind_of_isMark hk
      simp [Tape.skipped, hk]
    · have hs := beq_eq_false_iff_ne.1 hs
      have hl := beq_eq_false_iff_ne.1 hl
      have hr := beq_eq_false_iff_ne.1 hr
      simp [Tape.skipped, hs, hl, hr, ih hts]

namespace Attempt

variable {stop : Position} {more : List Char} {tape : Tape} {a b : Attempt}

theorem Isolated.alike {e : Ending} (h : Isolated stop more e a b) :
    a.trace.Alike stop b.trace :=
  ⟨h.forest, congrArg _ h.diagnostics, h.diagnostics ▸ h.before⟩

/-- What is skipped is a node of the same text at the same place. -/
theorem isolated_skipped (file : Option String) (h : tape.Pends stop) :
    Isolated stop more .semicolon
      ((ofTaken (tape.takeMany .invalid (Tape.skipped false 0 tape.ahead))).framed file .invalid
        tape.place)
      ((ofTaken ((tape.extend more).takeMany .invalid
        (Tape.skipped false 0 (tape.extend more).ahead))).framed file .invalid
          (tape.extend more).place) := by
  have hstops : Tape.skipped false 0 tape.ahead = tape.ahead.length := by
    have hs := h.pending.skipped false []
    rwa [List.append_nil] at hs
  have hlong : Tape.skipped false 0 (tape.extend more).ahead = tape.ahead.length :=
    h.pending.skipped false _
  rw [hstops, hlong, tape.takeMany_extend more .invalid (Nat.le_refl _),
    tape.place_extend more]
  refine (Isolated.of_taken (tape.diagnostics_takeMany _ _) (.inr ⟨rfl, ?_⟩)).framed file
    (fun _ => rfl) _
  rw [Tape.ahead_takeMany]
  exact List.drop_length

/-- **A statement that is skipped is skipped up to its semicolon**, whatever follows. A statement
that was read need not have come to its semicolon, and then what is left is read as a statement
again. -/
theorem isolated_recovered (file : Option String) (h : Isolated stop more .semicolon a b)
    (ha : a.Stops) (hb : b.Stops) :
    (recovered file false b).tape = (recovered file false a).tape.extend more ∧
      (recovered file false a).trace.Alike stop (recovered file false b).trace ∧
      ((recovered file false a).tape.Pends stop ∨ (recovered file false a).tape.ahead = []) := by
  cases hf : a.failure with
  | none =>
    have hf' : b.failure = none := Option.not_isSome_iff_eq_none.1 (by simp [h.failure, hf])
    simp only [recovered, hf, hf']
    exact ⟨h.tape, h.alike, h.rest.imp_right (·.2.2)⟩
  | some f =>
    obtain ⟨f', hf'⟩ := Option.isSome_iff_exists.1 (h.failure.trans (by rw [hf]; rfl))
    have hpends : a.tape.Pends stop := h.pends (.inr (by rw [hf]; exact Option.some_ne_none _))
    have hplace : f'.position = f.position := by
      rw [ha f hf, hb f' hf', h.tape, a.tape.place_extend more]
    have hs := @isolated_skipped stop more _ file hpends
    have hbefore : (f'.diagnostic file).Before stop :=
      hpends.before (Failure.upTo_diagnostic file (hplace.trans (ha f hf)))
    simp only [recovered, hf, hf', recover, h.tape]
    refine ⟨hs.tape, h.alike.append (.append (.error .statement ?_ hbefore) hs.alike),
      hs.rest.imp_right (·.2.2)⟩
    exact congrArg (fun p : Position => (p.line, p.column)) hplace

/-! ## Lists of statements -/

/-- **The statements of a broken text are read alike in front of more text, and then this text is
read.** The induction is that of the rounds of a list (`statements_rule`). Its motive has two
cases for what is ahead, a part of the statement with its semicolon or nothing; a broken text may
be read as several statements, of which all but the last leave some of it. -/
theorem isolated_statements {file : Option String} {statement : Tape → Attempt}
    (hm : Follows stop more)
    (hc : ∀ tape, tape.Lexed → Conserves tape (statement tape))
    (hp : ∀ tape, tape.Lexed → Progress tape (statement tape))
    (hstops : ∀ tape, (statement tape).Stops)
    (hs : ∀ tape : Tape, tape.Pends stop →
      Isolated stop more .semicolon (statement tape) (statement (tape.extend more)))
    (h : tape.Pends stop) :
    (statements file false statement tape.size tape).tape.ahead = [] ∧
      ∃ lead, (statements file false statement tape.size tape).trace.Alike stop lead ∧
        statements file false statement (tape.extend more).size (tape.extend more) =
          (let rest := (statements file false statement tape.size tape).tape.extend more
           (statements file false statement rest.size rest).behind lead) := by
  refine statements_rule (P := fun tape a => (tape.Pends stop ∨ tape.ahead = []) →
    a.tape.ahead = [] ∧ ∃ lead, a.trace.Alike stop lead ∧
      statements file false statement (tape.extend more).size (tape.extend more) =
        (let rest := a.tape.extend more
         (statements file false statement rest.size rest).behind lead))
    hc hp ?_ ?_ ?_ h.lexed (Nat.le_refl _) (.inl h)
  · -- The list ends only where nothing is left.
    intro tape _ he h
    have hnil : tape.ahead = [] := by
      refine h.resolve_left fun h => ?_
      rcases he with he | ⟨hf, -⟩
      · rw [Tape.ahead_takeTrivia] at he
        exact h.pending.dropWhile.ne_nil he
      · cases hf
    have ht : tape.takeTrivia = (.nil, tape) := takeTrivia_of_nil (by rw [hnil]; rfl)
    rw [ht]
    exact ⟨hnil, .nil, .refl rfl, rfl⟩
  · -- There is no brace in the statement.
    intro tape b _ _ hb _ _ h
    rw [Tape.ahead_takeTrivia] at hb
    rcases h with h | h
    · obtain ⟨t, ts, ha, ht⟩ := exists_of_next hb
      have hno := (h.pending.dropWhile.not_isBrace (ha ▸ List.mem_cons_self)).2
      rw [ht] at hno
      cases hno
    · rw [h] at hb
      cases hb
  · intro tape b hl hn hb r ih h
    have hne : tape.ahead ≠ [] := fun he => hn (.inl (by rw [Tape.ahead_takeTrivia, he]; rfl))
    replace h := h.resolve_right hne
    -- One round: the trivia, then a statement that is read or skipped, in both readings alike.
    have htrivia : Isolated stop more .plain _ _ := .takeTrivia h
    have hstart : tape.takeTrivia.2.Pends stop := htrivia.pends (.inl nofun)
    obtain ⟨htape, halike, hrest⟩ := isolated_recovered file (hs _ hstart) (hstops _) (hstops _)
    obtain ⟨hend, lead, hlead, hread⟩ := ih hrest
    have hfirst := tape.takeTrivia_extend more h.pending.finished hne
    have hhead : (tape.extend more).takeTrivia.2.ahead.head? = tape.takeTrivia.2.ahead.head? := by
      obtain ⟨t, ts, ha⟩ := List.exists_cons_of_ne_nil hstart.pending.ne_nil
      rw [hfirst, Tape.ahead_extend_of_cons more ha, ha]
      rfl
    refine ⟨hend, tape.takeTrivia.1 ++ ((recovered file false
      (statement (tape.takeTrivia.2.extend more))).trace ++ lead), ?_, ?_⟩
    · exact .append (.refl (tape.diagnostics_takeMany _ _)) (halike.append hlead)
    · rw [statements_eq hc hp (h.extended hm) ?_ (hhead ▸ hb), hfirst,
        andThen_of_none (failure_recovered _ _ _), htape, hread]
      · simp only [behind, Trace.append_assoc]
      · rw [hfirst]
        exact fun he => hn ((endsList_append hstart.pending.ne_nil _).1 he)

end Attempt

/-! ## Sources -/

/-- A source without errors closes all it opens, wherever it stands. The looks ahead of the broken
statement may go through it, so this is asked for. -/
theorem closed_of_silent (o : Options) (m : String) {g : String}
    (hg : (readStatements o g).trace.diagnostics = []) (hb : g.toList.head? ≠ some '\uFEFF') :
    nest [] (Token.readAll (Position.origin.shift (.behind m)) g.toList) = some [] := by
  let tape : Tape := ⟨[], Position.origin.shift (.behind m), 0⟩
  have hread := @readStatements_behind o m g tape rfl rfl (Nat.zero_le _) hb
  have hl : (tape.extend g.toList).Lexed := Tape.lexed_ofText _ g.toList 0
  have hx := Attempt.continues_document maxNesting o hl
    (by rw [hread, Trace.diagnostics_shift, hg]; rfl)
  have hend := hx.ends.resolve_right fun h => nomatch h.1
  show nest [] (tape.extend g.toList).ahead = some []
  rw [hx.nested, hend]
  rfl

/-- **The report of a broken statement with a source behind it** is alike to its own report, and
behind it the moved report of the source. -/
theorem readStatements_isolated (o : Options) {m g : String} (hm : Pending (tokenize m))
    (hg : (readStatements o g).trace.diagnostics = []) (hb : g.toList.head? ≠ some '\uFEFF')
    (ht : ¬ ['<', '/'] <:+: g.toList) :
    ∃ lead, (readStatements o m).trace.Alike (Position.origin.shift (.behind m)) lead ∧
      (readStatements o (m ++ g)).trace =
        lead ++ (readStatements o g).trace.shift (.behind m) := by
  let T := Tape.ofText (openSource m).1 (openSource m).2 0
  have hT : T.Pends (Position.origin.shift (.behind m)) :=
    ⟨Tape.lexed_ofText _ _ _, stop_openSource m 0, hm⟩
  have hfollows : Follows (Position.origin.shift (.behind m)) g.toList :=
    ⟨ht, closed_of_silent o m hg hb⟩
  have hread := Attempt.isolates_read hfollows maxNesting
  have hstops := @Attempt.GrammarInvariant.phrase o.file _ Attempt.reports _
    (fun o' ho p => Attempt.reports.read maxNesting o' ho p) .statement rfl o rfl
  obtain ⟨hend, lead, hlead, hboth⟩ := @Attempt.isolated_statements _ _ _ o.file _ hfollows
    (fun tape h => Attempt.conserves.phrase hread.conserves .statement o tape h)
    (fun tape h => progress_statement maxNesting o h)
    (fun tape => (hstops tape).1)
    (fun tape h => hread.phrase hfollows (@Phrase.spells_statement Phrase.unseen) o h rfl) hT
  refine ⟨lead, hlead, ?_⟩
  have hc := Attempt.conserves.phrase hread.conserves (.statements false .statement) o T hT.lexed
  have hground := (Attempt.grounds.phrase
    (fun o p tape => Attempt.grounds.read maxNesting o p tape) (.statements false .statement) o T
    hT.lexed).grounded (Nat.zero_le _)
  have hlong : readStatements o (m ++ g) = (Phrase.statements false .statement).read
      (Production.read maxNesting) o (T.extend g.toList) := by
    rw [readStatements, ofText_append hm.ne_nil ht hm.finished]
  rw [hlong, ← readStatements_behind o hend ((hc.stop hT.lexed).trans hT.stop) hground hb]
  exact congrArg Attempt.trace hboth

/-- **An error stays in its statement.** The nodes are those of the two texts, the second moved
behind the first, and there are as many errors as in the broken text alone, all of them in front
of its end. -/
theorem ofSource_isolated (o : Options) {m g : String} (hm : Pending (tokenize m))
    (hg : (Parsed.ofSource o g).errors = []) (hb : g.toList.head? ≠ some '\uFEFF')
    (ht : ¬ ['<', '/'] <:+: g.toList) :
    ∃ first second both : Node,
      (Parsed.ofSource o m).root = some first ∧ (Parsed.ofSource o g).root = some second ∧
      (Parsed.ofSource o (m ++ g)).root = some both ∧
      both.nodes = first.nodes ++ second.nodes.map (·.shift (.behind m)) ∧
      (Parsed.ofSource o (m ++ g)).errors.length = (Parsed.ofSource o m).errors.length ∧
      ∀ d ∈ (Parsed.ofSource o (m ++ g)).errors, d.Before (Position.origin.shift (.behind m)) := by
  replace hg : (readStatements o g).trace.diagnostics = [] := by
    rw [Parsed.ofSource_eq] at hg
    exact hg
  obtain ⟨lead, hlead, hboth⟩ := readStatements_isolated o hm hg hb ht
  have herrors : (readStatements o (m ++ g)).trace.diagnostics = lead.diagnostics := by
    rw [hboth, Trace.diagnostics_append, Trace.diagnostics_shift, hg]
    exact List.append_nil _
  simp only [Parsed.ofSource_eq, herrors]
  refine ⟨_, _, _, rfl, rfl, rfl, ?_, ?_, hlead.before⟩
  · rw [hboth, Trace.forest_append, hlead.forest, Trace.forest_shift, Node.nodes_append,
      ← Node.nodes_shift]
    rfl
  · have hlength := congrArg List.length hlead.places
    rwa [List.length_map, List.length_map] at hlength

/-- A parenthesis that is never closed costs the next statement nothing. -/
theorem ofSource_isolated_paren :
    Pending (tokenize "a = (;") ∧ (Parsed.ofSource {} "b = 1;").errors = [] ∧
    ∃ first second both : Node,
      (Parsed.ofSource {} "a = (;").root = some first ∧
      (Parsed.ofSource {} "b = 1;").root = some second ∧
      (Parsed.ofSource {} ("a = (;" ++ "b = 1;")).root = some both ∧
      both.nodes = first.nodes ++ second.nodes.map (·.shift ⟨0, 6, 6⟩) ∧
      (Parsed.ofSource {} ("a = (;" ++ "b = 1;")).errors.length =
        (Parsed.ofSource {} "a = (;").errors.length ∧
      ∀ d ∈ (Parsed.ofSource {} ("a = (;" ++ "b = 1;")).errors, d.Before ⟨1, 7, 6⟩ := by
  have hm : Pending (tokenize "a = (;") :=
    ⟨(tokenize "a = (;").dropLast, ⟨.mark .semicolon, ";", ⟨1, 6, 5⟩⟩, by cbv, by cbv,
      by decide +kernel⟩
  have hg : (Parsed.ofSource {} "b = 1;").errors = [] := by cbv
  exact ⟨hm, hg, ofSource_isolated {} hm hg (by decide) (by decide)⟩

end Heddle
