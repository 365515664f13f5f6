import Heddle.Proofs.Reading.Plain
import Heddle.Proofs.Tree.Opened
import Heddle.Proofs.Document.Protocol

/-!
# Errors account for what is lost

Two things put an end to a failure. The list of statements reports it and skips what is left of the
statement, and a quoted text reports it and goes on with plain text. So an error is followed by a
node for what is skipped, or it stands in a quoted text; and such a node has its error in front of
it. **Which of the two it is can be seen in the events** (`Event.Accounted`), and not only in the
scope that the trace keeps of an error.

That only a quoted text goes on in this way is not said by the way it is read: a rule that took a
token apart outside of a node for quoted texts would report its errors there. No rule does
(`Production.quotes_body`).
-/

set_option autoImplicit false

namespace Heddle

/-- Whether something is an error. -/
def Event.isError : Event → Bool
  | .error _ => true
  | _ => false

/-- While the given nodes are open, errors and skipped nodes account for each other: an error is
reported directly in front of what is skipped, or in a quoted text. Both directions are needed:
without the second a skipped node could do without an error. -/
structure Event.Accounted (kinds : List NodeKind) (es : List Event) : Prop where
  answered : ∀ before d after, es = before ++ .error d :: after →
    after.head? = some (.start .invalid) ∨ (opened kinds before).head? = some .string
  announced : ∀ before after, es = before ++ .start .invalid :: after →
    ∃ front d, before = front ++ [.error d]

namespace Event.Accounted

variable {kinds : List NodeKind} {xs ys : List Event}

/-- Where nothing is wrong there is nothing to account for. -/
theorem quiet (he : ∀ d, .error d ∉ xs) (hi : .start .invalid ∉ xs) : Accounted kinds xs where
  answered := by
    rintro before d after rfl
    exact absurd (List.mem_append_right _ List.mem_cons_self) (he d)
  announced := by
    rintro before after rfl
    exact absurd (List.mem_append_right _ List.mem_cons_self) hi

theorem append (hx : Accounted kinds xs) (hy : Accounted (opened kinds xs) ys) :
    Accounted kinds (xs ++ ys) where
  answered := by
    intro before d after h
    rcases eq_append_cons_cases h with ⟨mid, hmid, rfl⟩ | ⟨mid, rfl, hmid⟩
    · refine (hx.answered before d mid hmid).imp_left fun hstart => ?_
      rw [List.head?_append, hstart, Option.some_or]
    · rw [opened_append]
      exact hy.answered mid d after hmid
  announced := by
    intro before after h
    rcases eq_append_cons_cases h with ⟨mid, hmid, rfl⟩ | ⟨mid, rfl, hmid⟩
    · exact hx.announced before mid hmid
    · obtain ⟨front, d, rfl⟩ := hy.announced mid after hmid
      exact ⟨xs ++ front, d, by rw [List.append_assoc]⟩

/-- An error in a quoted text. -/
theorem inQuotes (h : kinds.head? = some .string) (d : Diagnostic) :
    Accounted kinds [.error d] where
  answered := by
    intro before d' after h'
    cases before with
    | nil => exact .inr h
    | cons e before => simp at h'
  announced := by
    intro before after h'
    cases before <;> simp at h'

/-- An error in front of what is skipped. The three ways in which a list of events can have an
error or a skipped node are gone through from its front. -/
theorem skipped (d : Diagnostic) (he : ∀ d, .error d ∉ xs) (hi : .start .invalid ∉ xs) :
    Accounted kinds (.error d :: .start .invalid :: xs) where
  answered := by
    intro before d' after h
    cases before with
    | nil =>
      obtain ⟨-, rfl⟩ := List.cons.inj h
      exact .inl rfl
    | cons e before =>
      obtain ⟨-, h⟩ := List.cons.inj h
      have hmem : .error d' ∈ .start .invalid :: xs :=
        h ▸ List.mem_append_right _ List.mem_cons_self
      rcases List.mem_cons.1 hmem with hs | hxs
      · cases hs
      · exact absurd hxs (he d')
  announced := by
    intro before after h
    cases before with
    | nil => cases h
    | cons e before =>
      obtain ⟨rfl, hrest⟩ := List.cons.inj h
      cases before with
      | nil => exact ⟨[], d, rfl⟩
      | cons e before =>
        obtain ⟨-, rfl⟩ := List.cons.inj hrest
        exact absurd (List.mem_append_right _ List.mem_cons_self) hi

end Event.Accounted

/-! ## Traces -/

namespace Trace

@[simp] theorem errors_append (t u : Trace) : (t ++ u).errors = t.errors ++ u.errors := by
  simp [errors]

@[simp] theorem errors_ofNode (kind : NodeKind) (inside : Trace) (committed : Bool) :
    (ofNode kind inside committed).errors = inside.errors := by
  simp [errors, ofNode, notes]

/-- The errors of a trace are the error events of its report. -/
theorem countP_isError (t : Trace) : t.events.countP (·.isError) = t.errors.length := by
  induction t with
  | nil => rfl
  | note n next ih =>
    rw [show note n next = ofNote n ++ next from rfl, events_append, errors_append,
      List.countP_append, List.length_append, ih]
    cases n <;> rfl
  | node kind inside committed next ihi ihn =>
    rw [show node kind inside committed next = ofNode kind inside committed ++ next from rfl,
      events_append, errors_append, errors_ofNode, List.countP_append, List.length_append, ← ihi,
      ihn, events_ofNode]
    cases committed <;> simp [Event.isError]

/-- What is reported inside a node of one kind: errors and skipped nodes account for each other,
as many statements failed as nodes were skipped, and every error has the message of a cause. It is
asked for every list of nodes further out, since only the innermost one matters. -/
structure Accounted (kind : NodeKind) (t : Trace) : Prop where
  events : ∀ outer, Event.Accounted (kind :: outer) t.events
  tally : t.errors.countP (·.1 == .statement) = t.events.count (.start .invalid)
  causes : ∀ d, .error d ∈ t.events → ∃ cause : Cause, d.message = cause.message

namespace Accounted

variable {kind : NodeKind} {t : Trace}

theorem append {u : Trace} (ht : t.Accounted kind) (hu : u.Accounted kind) :
    (t ++ u).Accounted kind where
  events outer := by
    rw [events_append]
    refine (ht.events outer).append ?_
    rw [opened_events]
    exact hu.events outer
  tally := by
    rw [errors_append, events_append, List.countP_append, List.count_append, ht.tally, hu.tally]
  causes d hd := by
    rw [events_append, List.mem_append] at hd
    exact hd.elim (ht.causes d) (hu.causes d)

theorem additive (kind : NodeKind) : Additive (Accounted kind) where
  plain h := {
    events := fun _ => .quiet h.silent (h.start_not_mem _)
    tally := by rw [h.errors_eq_nil, List.count_eq_zero_of_not_mem (h.start_not_mem _)]; rfl
    causes := fun d hd => absurd hd (h.silent d) }
  append := append

/-- A node that is not skipped itself is accounted for by what is inside, whatever it stands in. -/
theorem events_node (h : t.Accounted kind) (hk : kind ≠ .invalid) (committed : Bool)
    (kinds : List NodeKind) : Event.Accounted kinds (ofNode kind t committed).events := by
  rw [events_ofNode]
  have hstart : Event.Accounted kinds [.start kind] := .quiet (by simp) (by simpa using Ne.symm hk)
  refine hstart.append ((h.events kinds).append (.quiet (fun d => ?_) ?_))
  · cases committed <;> simp
  · cases committed <;> simp

theorem node (h : t.Accounted kind) (hk : kind ≠ .invalid) (outer : NodeKind) (committed : Bool) :
    (ofNode kind t committed).Accounted outer where
  events kinds := h.events_node hk committed (outer :: kinds)
  tally := by
    rw [errors_ofNode, h.tally, events_ofNode]
    cases committed <;> simp [hk]
  causes d hd := by
    apply h.causes d
    rw [events_ofNode] at hd
    cases committed <;> simpa using hd

/-- A failure and what is skipped behind it. This is where an error with the scope of a statement
comes from, and the only place. -/
theorem recovered {file : Option String} (f : Failure) {skipped : Trace} (hs : skipped.Plain) :
    (ofNote (.error .statement (f.diagnostic file)) ++
      ofNode .invalid skipped true).Accounted kind := by
  have hevents : (ofNote (.error .statement (f.diagnostic file)) ++
      ofNode .invalid skipped true).events = .error (f.diagnostic file) ::
        .start .invalid :: (skipped.events ++ [.stop .invalid, .commit]) := by
    rw [events_append, events_ofNode]
    rfl
  have hsilent (d : Diagnostic) : .error d ∉ skipped.events ++ [.stop .invalid, .commit] := by
    simp [hs.silent]
  have hquiet : .start .invalid ∉ skipped.events ++ [.stop .invalid, .commit] := by
    simp [hs.start_not_mem]
  constructor
  · intro outer
    rw [hevents]
    exact .skipped _ hsilent hquiet
  · rw [hevents, errors_append, errors_ofNode, hs.errors_eq_nil, List.count_cons, List.count_cons,
      List.count_eq_zero_of_not_mem hquiet]
    rfl
  · intro d hd
    rw [hevents, List.mem_cons, List.mem_cons] at hd
    rcases hd with hd | hd | hd
    · obtain rfl := Event.error.inj hd
      exact ⟨f.cause, rfl⟩
    · cases hd
    · exact absurd hd (hsilent d)

/-- A failure in a quoted text. -/
theorem inQuotes {file : Option String} (f : Failure) :
    (ofNote (.error .placeholder (f.diagnostic file))).Accounted .string where
  events _ := .inQuotes rfl _
  tally := rfl
  causes d hd := by
    obtain rfl := Event.error.inj (List.mem_singleton.1 hd)
    exact ⟨f.cause, rfl⟩

end Accounted

end Trace

/-! ## Attempts -/

namespace Attempt

open Trace

variable {file : Option String} {kind : NodeKind}

/-- The steps of a phrase inside a node of one kind. -/
theorem accounted_phrases (file : Option String) (kind : NodeKind) :
    PhraseInvariant file fun _ a => a.trace.Accounted kind where
  nothing _ := (Accounted.additive kind).plain .nil
  take tag tape := (Accounted.additive kind).plain (tape.plain_take tag)
  fail _ _ := (Accounted.additive kind).plain .nil
  behind ha hb := ha.append hb
  recovered {inBlock tape a} ha := by
    unfold Attempt.recovered
    split
    · rename_i f _
      obtain ⟨skipped, hs, he⟩ := exists_recover file inBlock f a.tape
      rw [trace_behind, he]
      exact ha.append (.recovered _ hs)
    · exact ha
  hexDigits tape := (Accounted.additive kind).plain (plain_hexDigits tape)
  foreign tape := (Accounted.additive kind).plain (plain_foreign tape)

/-- Only inside a quoted text the failure of a placeholder may be reported at once. -/
theorem accounted_quoted (file : Option String) :
    KeepsQuoted file fun _ a => a.trace.Accounted .string := by
  intro read tape hr
  apply (Accounted.additive .string).quoted
  intro isBraced window
  unfold Reported
  split
  · exact hr isBraced window
  · exact (hr isBraced window).append (.inQuotes _)

/-- What stands in a node of its kind. -/
theorem accounted_body {descend : Options → Production → Tape → Attempt}
    (hd : ∀ o p kind tape, (descend o p tape).trace.Accounted kind) (p : Production) (o : Options)
    (tape : Tape) : (p.body.read descend o tape).trace.Accounted p.kind := by
  have hphrases := accounted_phrases o.file p.kind
  refine hphrases.phrase (fun o _ p' => hd o p' p.kind) p.body ?_ o rfl tape
  intro hq
  obtain rfl := Production.quotes_body hq
  exact accounted_quoted o.file

theorem accounted_framed {a : Attempt} (ha : a.trace.Accounted kind) (hk : kind ≠ .invalid)
    (outer : NodeKind) (start : Position) :
    (a.framed file kind start).trace.Accounted outer := by
  unfold Attempt.framed
  split
  · exact ha.node hk outer false
  · exact (ha.append ((Accounted.additive kind).plain (.location _))).node hk outer true

theorem accounted_enter {inside : Tape → Attempt} (p : Production) (o : Options)
    (hi : ∀ tape, (inside tape).trace.Accounted p.kind) (outer : NodeKind) (tape : Tape) :
    (p.enter o inside tape).trace.Accounted outer := by
  rw [Production.enter_eq]
  split
  · exact accounted_framed (hi tape) p.kind_ne_invalid outer _
  · rw [andThen_of_none rfl]
    exact ((Accounted.additive outer).plain tape.plain_takeTrivia).append
      (accounted_framed (hi _) p.kind_ne_invalid outer _)

/-- **Inside a construct, errors and what is skipped account for each other**, in whichever node
it stands. `Document.Failures` draws the conclusions for whole sources. -/
theorem accounted_read (n : Nat) (o : Options) (p : Production) (outer : NodeKind) (tape : Tape) :
    (Production.read n o p tape).trace.Accounted outer := by
  induction n generalizing o p outer tape with
  | zero => exact accounted_enter p o (fun _ => (Accounted.additive p.kind).plain .nil) outer tape
  | succ n ih => exact accounted_enter p o (accounted_body ih p o) outer tape

end Attempt

end Heddle
