import Mathlib.Data.List.DropRight
import Heddle.Proofs.Document.Composition
import Heddle.Proofs.Reading.Sited
import Heddle.Proofs.Tree.Opened

/-!
# The extents of a report

Where a node is reported to be is where its text is. Both the beginning and the end of an extent
are told by the data events alone: a node begins behind all data that was reported before it was
started, and it ends behind the last data in it that is neither a blank nor a comment. **The data
of inner nodes counts, those that were dropped included**, since a reader never goes back behind
what it took; a node with no such data is empty.

`Location.IsExtent` says this of one extent and `readDocument_locations` of every extent that is
reported.
-/

set_option autoImplicit false

namespace Heddle

open Text

namespace Event

/-- The text of events, that is of the data among them. -/
def chars (es : List Event) : List Char := es.flatMap (·.text.toList)

/-- Data that is neither a blank nor a comment. -/
def isSignificant : Event → Bool
  | data tag _ => !tag.isTrivia
  | _ => false

/-- Events up to the last one that is significant. What comes behind it does not count for the end
of a node. -/
def upToSignificant (es : List Event) : List Event := es.rdropWhile (!·.isSignificant)

@[simp] theorem chars_nil : chars [] = [] := rfl

@[simp] theorem chars_cons (e : Event) (es : List Event) :
    chars (e :: es) = e.text.toList ++ chars es := rfl

@[simp] theorem chars_append (xs ys : List Event) : chars (xs ++ ys) = chars xs ++ chars ys := by
  simp [chars]

theorem upToSignificant_append (xs ys : List Event) :
    upToSignificant (xs ++ ys) =
      if upToSignificant ys = [] then upToSignificant xs else xs ++ upToSignificant ys := by
  simp only [upToSignificant, List.rdropWhile, List.reverse_append, List.dropWhile_append,
    List.reverse_eq_nil_iff, List.isEmpty_iff]
  split
  · rfl
  · rw [List.reverse_append, List.reverse_reverse]

/-- The byte behind the last significant data of events that begin at the byte `start`, and
`reach` if there is none. It is what a reader keeps while it reads, told by the events alone. -/
def reached (start reach : Nat) (es : List Event) : Nat :=
  if upToSignificant es = [] then reach
  else start + byteSize (chars (upToSignificant es))

/-- Of two lists of events the second one decides, if anything in it is significant. -/
theorem reached_append (xs ys : List Event) (start reach : Nat) :
    reached start reach (xs ++ ys) =
      reached (start + byteSize (chars xs)) (reached start reach xs) ys := by
  simp only [reached, upToSignificant_append]
  split
  · rfl
  · rename_i hy
    rw [if_neg (by simp [hy]), chars_append, byteSize_append, Nat.add_assoc]

end Event

/-- The extent of a node in `source`: `before` was reported before the node was started, `inside`
is all that was reported in it. Every field is computed from these two lists and the source, and
from nothing that a reader keeps. -/
structure Location.IsExtent (file : Option String) (source : String) (before inside : List Event)
    (l : Location) : Prop where
  file : l.file = file
  /-- The text in front of the node is the beginning of the source behind its byte order mark. -/
  front : Event.chars before ++ Event.chars inside <+: (openSource source).2
  offset : l.offset =
    (if source.toList.head? = some '\uFEFF' then 3 else 0) + byteSize (Event.chars before)
  line : l.line = 1 + (Event.chars before).count '\n'
  column : l.column = 1 + ((Event.chars before).reverse.takeWhile (· != '\n')).length
  length : l.length = byteSize (Event.chars (Event.upToSignificant inside))

namespace Trace

theorem chars_events (t : Trace) : Event.chars t.events = t.text := by
  have h := congrArg String.toList t.join_events
  rw [String.toList_ofList] at h
  rw [← h, Event.chars]
  generalize t.events = es
  induction es with
  | nil => rfl
  | cons e es ih => simp [ih]

/-- What a trace reaches is told by its events. The trace has nodes that were dropped, and their
data counts as any other. -/
theorem reached_events (t : Trace) (start reach : Nat) :
    t.reached start reach = Event.reached start reach t.events := by
  induction t generalizing start reach with
  | nil => rfl
  | note n next ih =>
    rw [reached, ih, events, Event.reached_append]
    cases n with
    | data tag text =>
      cases ht : tag.isTrivia <;>
        simp [Note.isSignificant, Note.event?, Event.reached, Event.upToSignificant,
          List.rdropWhile_singleton, Event.isSignificant, Event.text, Note.chars, ht]
    | _ => rfl
  | node kind inside committed next ihi ihn =>
    have hstop : Event.chars (.stop kind :: if committed then [.commit] else []) = [] ∧
        ∀ start reach, Event.reached start reach
          (.stop kind :: if committed then [.commit] else []) = reach := by
      cases committed <;> exact ⟨rfl, fun _ _ => rfl⟩
    have hevents : (node kind inside committed next).events = [.start kind] ++ (inside.events ++
        ((.stop kind :: if committed then [.commit] else []) ++ next.events)) := by
      simp [events]
    rw [reached, ihn, ihi, hevents, Event.reached_append, Event.reached_append,
      Event.reached_append, hstop.2, hstop.1, chars_events]
    rfl

/-- A trace with the right extents has its nodes in order: an extent is in front of the stop of a
node that is committed, and nowhere else. -/
theorem Located.contents {file : Option String} {p : Position} {t : Trace}
    (h : t.Located file p) : Event.Contents t.events := by
  induction h with
  | nil => exact .nil
  | @note p n next hn _ ih =>
    cases n with
    | data tag text => exact .data tag text ih
    | location l => exact absurd rfl (hn l)
    | error scope d => exact .error d ih
    | fault => exact ih
  | dropped hk _ _ ihi ihn =>
    have h := Event.Contents.dropped hk ihi ihn
    simpa [events] using h
  | @committed p kind inside next _ _ ihi ihn =>
    have h := Event.Contents.committed kind (inside.extent file p) ihi ihn
    simpa [events, ofNote, Note.event?] using h

end Trace

/-! ## Which node an extent is of -/

namespace Event

/-- Where `reported` ends, the extent `l` is reported of a node that was started in it and is
stopped right behind it. -/
def Placed (file : Option String) (p : Position) (reported after : List Event) (l : Location) :
    Prop :=
  ∃ before kind rest, ∃ inside : Trace, reported = before ++ .start kind :: inside.events ∧
    Contents inside.events ∧ after = .stop kind :: rest ∧
    l = inside.extent file (p.past (chars before))

/-- Every extent in the events is that of its node. Being about lists of events, it can be put
together from lists, without knowing of which trace they are. -/
def Places (file : Option String) (p : Position) (es : List Event) : Prop :=
  ∀ (reported after : List Event) (l : Location), es = reported ++ .location l :: after →
    Placed file p reported after l

variable {file : Option String} {p : Position} {xs ys : List Event}

/-- What follows does not change to which node an extent belongs. -/
theorem Placed.before {reported after : List Event} {l : Location}
    (h : Placed file p reported after l) (more : List Event) :
    Placed file p reported (after ++ more) l := by
  obtain ⟨before, kind, rest, inside, hr, hi, rfl, hl⟩ := h
  exact ⟨before, kind, rest ++ more, inside, hr, hi, rfl, hl⟩

/-- Nor does what comes first, apart from the place. Here the place of the node is moved to that
behind the events in front. -/
theorem Placed.behind {reported after : List Event} {l : Location}
    (h : Placed file (p.past (chars xs)) reported after l) :
    Placed file p (xs ++ reported) after l := by
  obtain ⟨before, kind, rest, inside, rfl, hi, ha, hl⟩ := h
  refine ⟨xs ++ before, kind, rest, inside, (List.append_assoc _ _ _).symm, hi, ha, ?_⟩
  rw [hl, chars_append, Position.past_append]

namespace Places

theorem append (hx : Places file p xs) (hy : Places file (p.past (chars xs)) ys) :
    Places file p (xs ++ ys) := by
  intro reported after l he
  rcases eq_append_cons_cases he with ⟨mid, hx', rfl⟩ | ⟨mid, rfl, hy'⟩
  · exact (hx _ _ _ hx').before ys
  · exact (hy _ _ _ hy').behind

/-- Events among which there is no extent. -/
theorem of_forall (h : ∀ l, .location l ∉ xs) : Places file p xs := by
  intro reported after l he
  exact absurd (he ▸ List.mem_append_right _ List.mem_cons_self) (h l)

/-- A node with its extent behind its contents. An extent that is reported up to there is inside
of the node, or it is that of the node. -/
theorem node {kind : NodeKind} {inside : Trace} (hi : Places file p inside.events)
    (hc : Contents inside.events) (rest : List Event) (hr : ∀ l, .location l ∉ rest) :
    Places file p (.start kind :: (inside.events ++
      .location (inside.extent file p) :: .stop kind :: rest)) := by
  intro reported after l he
  rw [← List.cons_append] at he
  rcases eq_append_cons_cases he with ⟨mid, hx, rfl⟩ | ⟨mid, rfl, hy⟩
  · -- The extent is inside.
    have hstart : Places file p (.start kind :: inside.events) :=
      (of_forall (by simp) : Places file p [.start kind]).append hi
    exact (hstart _ _ _ hx).before _
  · cases mid with
    | nil =>
      obtain ⟨hl, rfl⟩ := List.cons.inj hy
      obtain rfl := location.inj hl
      exact ⟨[], kind, rest, inside, List.append_nil _, hc, rfl, rfl⟩
    | cons e mid =>
      obtain ⟨-, hy⟩ := List.cons.inj hy
      exact absurd (show .location l ∈ .stop kind :: rest from
        hy ▸ List.mem_append_right _ List.mem_cons_self) (by simp [hr l])

end Places

end Event

/-- **In a trace with the right extents every extent is that of its node.** The induction is on
the trace: a node gives the one extent of its own, and the events in front of it only move the
place. -/
theorem Trace.Located.places {file : Option String} {p : Position} {t : Trace}
    (h : t.Located file p) : Event.Places file p t.events := by
  induction h with
  | nil => exact .of_forall (by simp [events])
  | @note p n next hn _ ih =>
    have hc : Event.chars n.event?.toList = n.chars := by
      cases n <;> simp [Note.event?, Event.text, Note.chars]
    refine .append (.of_forall fun l => ?_) (hc.symm ▸ ih)
    cases n with
    | location l' => exact absurd rfl (hn l')
    | _ => simp [Note.event?]
  | @dropped p kind _ inside next _ _ ihi ihn =>
    have hevents : (node kind inside false next).events =
        [.start kind] ++ (inside.events ++ ([.stop kind] ++ next.events)) := by
      simp [events]
    rw [hevents]
    refine .append (.of_forall (by simp)) (ihi.append (.append (.of_forall (by simp)) ?_))
    rw [chars_events]
    exact ihn
  | @committed p kind inside next hi _ ihi ihn =>
    have hevents : (node kind (inside ++ .ofNote (.location (inside.extent file p))) true
        next).events = (.start kind :: (inside.events ++ .location (inside.extent file p) ::
          .stop kind :: [.commit])) ++ next.events := by
      simp [events, ofNote, Note.event?]
    rw [hevents]
    refine (Event.Places.node ihi hi.contents [.commit] (by simp)).append ?_
    simpa [chars_events, Event.text, Event.chars_cons] using ihn

/-! ## Whole sources -/

/-- The place in front of a source: a byte order mark only counts in bytes. -/
theorem openSource_place (source : String) :
    (openSource source).1 =
      ⟨1, 1, if source.toList.head? = some '\uFEFF' then 3 else 0⟩ := by
  unfold openSource
  split <;> rename_i hc
  · rw [hc]
    rfl
  · rw [if_neg]
    · rfl
    · intro hh
      obtain ⟨cs, hcs⟩ := List.head?_eq_some_iff.1 hh
      exact hc cs hcs

/-- What is read of a source has the right extents. -/
theorem sited_readStatements (o : Options) (source : String) :
    Attempt.Sited o.file (.ofText (openSource source).1 (openSource source).2 0)
      (readStatements o source) := by
  have hread := Attempt.sited.phrase (fun o' ho p => Attempt.sited.read maxNesting o' ho p)
    (.statements false .statement) rfl o rfl
  exact (hread _).2 (Tape.lexed_ofText _ _ _)

/-- The report of a source begins where the source begins, and has the right extents. Its text is
a beginning of the source, so what is in front of a node is one too. -/
theorem readDocument_located (o : Options) (source : String) :
    (readDocument o source).Located o.file (openSource source).1 ∧
      (readDocument o source).text <+: (openSource source).2 := by
  have hs := sited_readStatements o source
  have hf : (readStatements o source).failure = none := Attempt.failure_statements _ _ _ _ _
  have hd : Attempt.Locates o.file _ (Attempt.framed o.file .document _ _) :=
    (hs.framed (.inl hf)).locates (Nat.zero_le _)
  have htext := hs.conserves.text
  rw [Tape.place_ofText] at hd
  rw [Tape.text_ofText] at htext
  rw [readDocument_eq, Attempt.text_framed, htext]
  have hl := hd.located
  rw [Tape.place_ofText] at hl
  exact ⟨hl, List.prefix_append _ _⟩

/-- **Every extent that is reported is exact.** It is reported right in front of the stop of a
node, and with what was reported before the node was started and what was reported inside of it,
it is the extent that the text of the two says. -/
theorem readDocument_locations (o : Options) (source : String) {reported after : List Event}
    {l : Location} (he : (readDocument o source).events = reported ++ .location l :: after) :
    ∃ before kind inside rest, reported = before ++ .start kind :: inside ∧
      Event.Contents inside ∧ after = .stop kind :: rest ∧
      l.IsExtent o.file source before inside := by
  obtain ⟨hl, hp⟩ := readDocument_located o source
  obtain ⟨before, kind, rest, inside, rfl, hi, rfl, rfl⟩ := hl.places _ _ _ he
  refine ⟨before, kind, inside.events, rest, rfl, hi, rfl, ⟨rfl, ?_, ?_, ?_, ?_, ?_⟩⟩
  · rw [← Trace.chars_events, he] at hp
    refine List.IsPrefix.trans ?_ hp
    simp only [Event.chars_append, Event.chars_cons, Event.text, List.append_assoc]
    exact ⟨Event.chars rest, by simp⟩
  -- From here on the fields are those of the place behind the text in front, and that place is
  -- counted.
  · show (Position.past _ _).byte = _
    rw [Position.byte_past, openSource_place]
  · show (Position.past _ _).line = _
    rw [Position.line_past, openSource_place]
  · show (Position.past _ _).column = _
    rw [Position.column_past (by rw [openSource_place])]
  · show Trace.reached _ _ _ - _ = _
    rw [Trace.reached_events, Event.reached]
    split <;> rename_i hn
    · rw [hn, Nat.sub_self]
      rfl
    · rw [Nat.add_sub_cancel_left]

/-- A rule behind a byte order mark and a line feed, with a blank behind it. -/
theorem readDocument_locations_rule :
    ∃ reported after, (readDocument {} "\uFEFF\na \x7b\x7d ").events =
        reported ++ .location ⟨none, 2, 1, 4, 4⟩ :: after ∧
      ∃ before kind inside rest, reported = before ++ .start kind :: inside ∧
        Event.Contents inside ∧ after = .stop kind :: rest ∧
        Location.IsExtent none "\uFEFF\na \x7b\x7d " before inside ⟨none, 2, 1, 4, 4⟩ := by
  have he : (readDocument {} "\uFEFF\na \x7b\x7d ").events =
      (readDocument {} "\uFEFF\na \x7b\x7d ").events.take 19 ++ .location ⟨none, 2, 1, 4, 4⟩ ::
        (readDocument {} "\uFEFF\na \x7b\x7d ").events.drop 20 := by cbv
  exact ⟨_, _, he, readDocument_locations {} _ he⟩

end Heddle
