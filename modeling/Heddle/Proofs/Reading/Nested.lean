import Heddle.Proofs.Reading.Plain
import Heddle.Proofs.Tree.Opened
import Heddle.Proofs.Document.Text

/-!
# How deep a reading nests

A construct is read with an allowance, the levels of nodes that may still be opened inside it, and
the allowance is what the reading recurs on. So **the trace of a construct is at most one node
higher than its allowance**: that one is the node of a construct which is begun without an
allowance, and which is given up at once.

Giving it up is the only way to fail for the depth of nodes. Such a failure can be told by the
events alone, since all that is reported between it and its error are the stops of the nodes that
it ends: `Event.BreaksOff` says how many nodes are open around the last one that is started. **At
each level there is one more**, so at the document it is all that the reader has allowed.
-/

set_option autoImplicit false

namespace Heddle

/-- Only nesting is reported with the message of nesting. -/
theorem Cause.message_eq_tooDeep {cause : Cause} (h : cause.message = Cause.tooDeep.message) :
    cause = .tooDeep := by
  have hfirst := congrArg (·.toList.head?) h
  cases cause with
  | expected wanted found => cases found <;> simp [message] at hfirst
  | orphan word => simp [message] at hfirst
  | strayBrace => simp [message] at hfirst
  | tooDeep => rfl

namespace Event

/-- The last node that is started is stopped with nothing in it, and nothing but stops follows.
Around it `n` nodes are open that were started here. The nodes are counted from the nodes around,
so the statement can be put into any of them. -/
def BreaksOff (n : Nat) (es : List Event) : Prop :=
  ∃ front kind stops, es = front ++ .start kind :: stops ∧ (∀ e ∈ stops, ∃ kind, e = .stop kind) ∧
    ∀ kinds, ∃ around, opened kinds front = around ++ kinds ∧ around.length = n

/-- Events break off in front of every error about nesting. The message decides which errors these
are, since an event carries no cause. -/
def Justified (n : Nat) (es : List Event) : Prop :=
  ∀ before d after, es = before ++ .error d :: after → d.message = Cause.tooDeep.message →
    BreaksOff n before

variable {n : Nat} {es : List Event}

/-- What stands in front and opens nothing makes no difference. -/
theorem BreaksOff.behind (h : BreaksOff n es) (t : Trace) : BreaksOff n (t.events ++ es) := by
  obtain ⟨front, kind, stops, rfl, hstops, hn⟩ := h
  refine ⟨t.events ++ front, kind, stops, by rw [List.append_assoc], hstops, fun kinds => ?_⟩
  rw [opened_append, Trace.opened_events]
  exact hn kinds

/-- Inside a node there is one node more. -/
theorem BreaksOff.inside (h : BreaksOff n es) (kind : NodeKind) :
    BreaksOff (n + 1) (.start kind :: es) := by
  obtain ⟨front, last, stops, rfl, hstops, hn⟩ := h
  refine ⟨.start kind :: front, last, stops, rfl, hstops, fun kinds => ?_⟩
  obtain ⟨around, ho, hl⟩ := hn (kind :: kinds)
  exact ⟨around ++ [kind], by simpa [onto] using ho, by simp [hl]⟩

theorem BreaksOff.stop (h : BreaksOff n es) (kind : NodeKind) :
    BreaksOff n (es ++ [.stop kind]) := by
  obtain ⟨front, last, stops, rfl, hstops, hn⟩ := h
  refine ⟨front, last, stops ++ [.stop kind], by simp, fun e he => ?_, hn⟩
  rcases List.mem_append.1 he with he | he
  · exact hstops e he
  · exact ⟨kind, List.mem_singleton.1 he⟩

theorem Justified.of_silent (h : ∀ d, .error d ∉ es) : Justified n es := by
  rintro before d after rfl -
  exact absurd (List.mem_append_right _ List.mem_cons_self) (h d)

theorem Justified.append {t : Trace} (ht : Justified n t.events) (hes : Justified n es) :
    Justified n (t.events ++ es) := by
  intro before d after he hd
  rcases eq_append_cons_cases he with ⟨mid, hx, -⟩ | ⟨mid, rfl, hy⟩
  · exact ht before d mid hx hd
  · exact (hes mid d after hy hd).behind t

/-- In a node, behind whose contents nothing is reported, events break off inside. -/
theorem Justified.inside {inside : List Event} (h : Justified n inside) {kind : NodeKind}
    {rest before after : List Event} {d : Diagnostic} (hrest : ∀ d, .error d ∉ rest)
    (he : .start kind :: (inside ++ rest) = before ++ .error d :: after)
    (hd : d.message = Cause.tooDeep.message) :
    ∃ mid, before = .start kind :: mid ∧ BreaksOff n mid := by
  rw [← List.cons_append] at he
  rcases eq_append_cons_cases he with ⟨mid, hx, -⟩ | ⟨mid, -, hy⟩
  · cases before with
    | nil => cases hx
    | cons e before =>
      obtain ⟨rfl, hin⟩ := List.cons.inj hx
      exact ⟨before, rfl, h before d mid hin hd⟩
  · exact absurd (hy ▸ List.mem_append_right _ List.mem_cons_self) (hrest d)

theorem Justified.node {inside : List Event} (h : Justified n inside) (kind : NodeKind)
    {rest : List Event} (hrest : ∀ d, .error d ∉ rest) :
    Justified (n + 1) (.start kind :: (inside ++ rest)) := by
  intro before d after he hd
  obtain ⟨mid, rfl, hmid⟩ := h.inside hrest he hd
  exact hmid.inside kind

end Event

/-! ## Traces -/

/-- Nodes nest at most one deeper than `n`, and an error about nesting is reported only behind `n`
nodes and the one that was too many. -/
structure Trace.Nested (n : Nat) (t : Trace) : Prop where
  height_le : t.height ≤ n + 1
  justified : Event.Justified n t.events

namespace Trace

theorem Plain.height_eq_zero {t : Trace} (h : t.Plain) : t.height = 0 := by
  induction h with
  | nil => rfl
  | note _ _ ih => exact ih

namespace Nested

variable {n : Nat} {t : Trace}

theorem append {u : Trace} (ht : t.Nested n) (hu : u.Nested n) : (t ++ u).Nested n where
  height_le := by
    rw [height_append]
    exact Nat.max_le.2 ⟨ht.height_le, hu.height_le⟩
  justified := by
    rw [events_append]
    exact ht.justified.append hu.justified

theorem additive (n : Nat) : Additive (Nested n) where
  plain h := ⟨h.height_eq_zero ▸ Nat.zero_le _, .of_silent h.silent⟩
  append := append

/-- A node around it takes one level. -/
theorem node (h : t.Nested n) (kind : NodeKind) (committed : Bool) :
    (ofNode kind t committed).Nested (n + 1) where
  height_le := by
    rw [height_ofNode]
    exact Nat.add_le_add_right h.height_le 1
  justified := by
    rw [events_ofNode]
    refine h.justified.node kind fun d => ?_
    cases committed <;> simp

/-- A node with no node in it fits everywhere. -/
theorem flat (h : t.Plain) (kind : NodeKind) (committed : Bool) :
    (ofNode kind t committed).Nested n where
  height_le := by
    rw [height_ofNode, h.height_eq_zero]
    omega
  justified := by
    refine .of_silent fun d => ?_
    rw [events_ofNode]
    cases committed <;> simp [h.silent]

end Nested

end Trace

/-! ## Attempts -/

/-- The trace is nested, and it breaks off if it failed for the depth of nodes. The second part is
what justifies the error once it is reported, several nodes further out. -/
structure Attempt.Nested (n : Nat) (a : Attempt) : Prop where
  trace : a.trace.Nested n
  breaksOff : ∀ f, a.failure = some f → f.cause = .tooDeep → Event.BreaksOff n a.trace.events

namespace Attempt

variable {n : Nat} {file : Option String} {a : Attempt}

/-- What is plain and fails, if at all, for another reason. -/
theorem Nested.plain (h : a.trace.Plain) (hf : ∀ f, a.failure = some f → f.cause ≠ .tooDeep) :
    a.Nested n :=
  ⟨(Trace.Nested.additive n).plain h, fun f hs hc => absurd hc (hf f hs)⟩

/-- The error behind a failure is justified by it. -/
theorem Nested.reported (h : a.Nested n) (scope : ErrorScope) :
    a.Reported file scope (Trace.Nested n) := by
  unfold Reported
  split
  · exact h.trace
  · rename_i f hf
    constructor
    · rw [Trace.height_append]
      exact Nat.max_le.2 ⟨h.trace.height_le, Nat.zero_le _⟩
    · rw [Trace.events_append]
      intro before d after he hd
      rcases Event.eq_append_cons_cases he with ⟨mid, hx, -⟩ | ⟨mid, rfl, hy⟩
      · exact h.trace.justified before d mid hx hd
      · cases mid with
        | cons e mid => simp [Trace.ofNote, Trace.events, Note.event?] at hy
        | nil =>
          obtain ⟨hfd, -⟩ := List.cons.inj hy
          obtain rfl := Event.error.inj hfd
          rw [List.append_nil]
          exact h.breaksOff f hf (Cause.message_eq_tooDeep hd)

theorem Nested.recovered (h : a.Nested n) (inBlock : Bool) :
    (recovered file inBlock a).Nested n := by
  have hr : a.Reported file .statement (Trace.Nested n) := h.reported .statement
  unfold Reported at hr
  unfold Attempt.recovered
  split
  · rename_i f hf
    simp only [hf] at hr
    obtain ⟨skipped, hs, he⟩ := exists_recover file inBlock f a.tape
    constructor
    · rw [trace_behind, he, ← Trace.append_assoc]
      exact hr.append (.flat hs .invalid true)
    · intro f hfail
      cases hfail
  · exact h

/-- What comes behind something that was read. -/
theorem Nested.behind {b : Attempt} (ha : a.trace.Nested n) (hb : b.Nested n) :
    (b.behind a.trace).Nested n where
  trace := ha.append hb.trace
  breaksOff f hf hc := by
    rw [trace_behind, Trace.events_append]
    exact (hb.breaksOff f hf hc).behind a.trace

theorem Nested.framed (h : a.Nested n) (kind : NodeKind) (start : Position) :
    (a.framed file kind start).Nested (n + 1) := by
  unfold Attempt.framed
  split <;> rename_i hf
  · refine ⟨h.trace.node kind false, fun f hs hc => ?_⟩
    rw [Trace.events_ofNode]
    exact ((h.breaksOff f hs hc).stop kind).inside kind
  · have hl := (Trace.Nested.additive n).plain (.location (a.tape.extent file start))
    refine ⟨(h.trace.append hl).node kind true, fun f hs => ?_⟩
    rw [hf] at hs
    cases hs

/-- A construct that is begun without an allowance. -/
theorem Nested.refused (tape : Tape) (kind : NodeKind) (start : Position) :
    ((fail (tape.failure .tooDeep) tape).framed file kind start).Nested 0 where
  trace := .flat .nil kind false
  breaksOff _ _ _ :=
    ⟨[], kind, [.stop kind], rfl, fun _ he => ⟨kind, List.mem_singleton.1 he⟩,
      fun _ => ⟨[], rfl, rfl⟩⟩

theorem nested_hexDigits (tape : Tape) : (hexDigits tape).Nested n := by
  refine .plain (plain_hexDigits tape) fun f hf => ?_
  rw [failure_hexDigits hf]
  exact Cause.noConfusion

theorem nested_foreign (tape : Tape) : (foreign tape).Nested n := by
  refine .plain (plain_foreign tape) fun f hf => ?_
  rw [failure_foreign hf]
  exact Cause.noConfusion

/-- A quoted text itself never fails for the depth of nodes. -/
theorem nested_quoted {read : Bool → Tape → Attempt}
    (hr : ∀ isBraced window, (read isBraced window).Nested n) (tape : Tape) :
    (quoted file read tape).Nested n where
  trace := by
    apply (Trace.Nested.additive n).quoted
    exact fun isBraced window => (hr isBraced window).reported .placeholder
  breaksOff f hf hc := by
    rw [failure_quoted hf] at hc
    cases hc

/-- The steps of a phrase stay on their level. -/
theorem nested_phrases (n : Nat) (file : Option String) :
    PhraseInvariant file fun _ a => a.Nested n where
  nothing _ := .plain .nil nofun
  take tag tape := .plain (tape.plain_take tag) nofun
  fail _ hc := .plain .nil fun _ hf => Option.some.inj hf ▸ hc
  behind ha hb := .behind ha.trace hb
  recovered ha := ha.recovered _
  hexDigits := nested_hexDigits
  foreign := nested_foreign

theorem nested_phrase {descend : Options → Production → Tape → Attempt}
    (hd : ∀ o p tape, (descend o p tape).Nested n) (q : Phrase) (o : Options) (tape : Tape) :
    (q.read descend o tape).Nested n :=
  (nested_phrases n o.file).phrase (fun o _ => hd o) q (fun _ _ _ hr => nested_quoted hr _) o rfl
    tape

theorem Nested.enter {inside : Tape → Attempt} {m : Nat} (p : Production) (o : Options)
    (hi : ∀ tape, ((inside tape).framed o.file p.kind tape.place).Nested m) (tape : Tape) :
    (p.enter o inside tape).Nested m := by
  rw [Production.enter_eq]
  split
  · exact hi tape
  · rw [andThen_of_none rfl]
    exact .behind ((Trace.Nested.additive m).plain tape.plain_takeTrivia) (hi _)

/-- **A construct that may open `n` more levels nests at most one deeper.** For a document
`Document.Depth` puts in the number of levels. -/
theorem nested_read (n : Nat) (o : Options) (p : Production) (tape : Tape) :
    (Production.read n o p tape).Nested n := by
  induction n generalizing o p tape with
  | zero => exact .enter p o (fun tape => .refused tape p.kind tape.place) tape
  | succ n ih =>
    exact .enter p o (fun tape => (nested_phrase ih p.body o tape).framed p.kind tape.place) tape

end Attempt

end Heddle
