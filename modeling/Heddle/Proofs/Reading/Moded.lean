import Heddle.Proofs.Reading.Plain
import Heddle.Proofs.Tree.Opened
import Heddle.Proofs.Document.Text

/-!
# The mode of calls as a state

Whether a call may go without parentheses is an option that a phrase hands down. A reader that keeps
it in its state has to clear it in front of every placeholder and to put it back behind it, whatever
became of the placeholder: a whole block can stand in one, with errors and further texts of its own.
`Moded` is such a reading. It reports the same events, and beside each event it writes down the mode
in which the event was reported.

**The mode is the option wherever no string is open** (`Event.InMode`). In a string it is the option
or cleared, and it is cleared where a node is started; a call without parentheses is started only
where the mode is set.
-/

set_option autoImplicit false

namespace Heddle

/-- The outcome of reading something while the mode of calls is a state. It carries its events and
not a trace, because beside each of them the mode is written down. The definitions below are those
of `Attempt`, step for step. -/
structure Moded where
  /-- The events, each with the mode in which it was reported. -/
  told : List (Event × Bool)
  tape : Tape
  failure : Option Failure := none
  /-- The mode that is left behind. -/
  mode : Bool

namespace Moded

/-- What is reported without a change of mode. -/
def tell (mode : Bool) (t : Trace) : List (Event × Bool) := t.events.map (·, mode)

/-- A step that the mode does not matter to. -/
def ofAttempt (a : Attempt) (mode : Bool) : Moded := ⟨tell mode a.trace, a.tape, a.failure, mode⟩

/-- The reading with something reported in front. -/
def behind (lead : List (Event × Bool)) (a : Moded) : Moded := { a with told := lead ++ a.told }

/-- Goes on in the mode that was left behind, unless the first part failed. -/
def andThen (a : Moded) (next : Tape → Bool → Moded) : Moded :=
  match a.failure with
  | some _ => a
  | none => (next a.tape a.mode).behind a.told

/-- The reading as the inside of a node that was started in the mode `before`. Its end is reported
in the mode that the inside has left behind, which has to be the same. -/
def framed (file : Option String) (kind : NodeKind) (start : Position) (before : Bool)
    (a : Moded) : Moded :=
  let closing : List Event := match a.failure with
    | some _ => [.stop kind]
    | none => [.location (a.tape.extent file start), .stop kind, .commit]
  { a with told := (.start kind, before) :: (a.told ++ closing.map (·, a.mode)) }

/-- One reading after the other while the look ahead says yes. -/
def repeating (test : List Token → Bool) (body : Tape → Bool → Moded) :
    Nat → Tape → Bool → Moded
  | 0, tape, mode => ofAttempt (.ofTaken (.nil, tape)) mode
  | rounds + 1, tape, mode =>
    if test tape.ahead then (body tape mode).andThen (repeating test body rounds)
    else ofAttempt (.ofTaken (.nil, tape)) mode

/-- A statement, or what is skipped if it fails, in the mode that the statement left behind. -/
def recovered (file : Option String) (inBlock : Bool) (a : Moded) : Moded :=
  match a.failure with
  | some f => (ofAttempt (.recover file inBlock f a.tape) a.mode).behind a.told
  | none => a

/-- Statements one after the other, with the trivia around them. -/
def statements (file : Option String) (inBlock : Bool) (statement : Tape → Bool → Moded) :
    Nat → Tape → Bool → Moded
  | 0, tape, mode => ofAttempt (.ofTaken tape.takeTrivia) mode
  | rounds + 1, tape, mode =>
    (ofAttempt (.ofTaken tape.takeTrivia) mode).andThen fun tape mode =>
      match tape.ahead with
      | [] => ofAttempt (.ofTaken (.nil, tape)) mode
      | t :: _ =>
        if t.kind = .mark .rightBrace then
          if inBlock then ofAttempt (.ofTaken (.nil, tape)) mode
          else (ofAttempt (.recover file false (tape.failure .strayBrace) tape) mode).andThen
            (statements file inBlock statement rounds)
        else (recovered file inBlock (statement tape mode)).andThen
          (statements file inBlock statement rounds)

/-- Where a placeholder left the text it stands in, and in which mode. -/
structure Resumption where
  told : List (Event × Bool)
  byte : Nat
  reach : Nat
  mode : Bool

/-- Reads one placeholder in the cleared mode. The mode is put back before a failure is reported,
and it is the mode in front that is put back and not the option. -/
def placeholder (file : Option String) (read : Tape → Bool → Moded) (t : Token) (reach : Nat)
    (p : Placeholder) (mode : Bool) : Resumption :=
  match t.slice? p.position.byte (t.stop - 1) with
  | none => ⟨tell mode (.ofNote (.fault p.position.byte (t.stop - 1))), p.stop, reach, mode⟩
  | some cs =>
    let a := read (.ofText p.position cs reach) false
    let byte := a.tape.place.byte
    match a.failure with
    | none => ⟨a.told, byte, a.tape.reach, mode⟩
    | some f =>
      let report := a.told ++ tell mode (.ofNote (.error .placeholder (f.diagnostic file)))
      if byte < p.stop then
        ⟨report ++ tell mode (Attempt.cut t byte p.stop (Attempt.piece .invalid)), p.stop,
          a.tape.reach, mode⟩
      else ⟨report, byte, a.tape.reach, mode⟩

/-- The inside of a quoted text, and the mode behind it. -/
def interpolated (file : Option String) (read : Bool → Tape → Bool → Moded) (t : Token)
    (start reach : Nat) : List Placeholder → Bool → List (Event × Bool) × Bool
  | [], mode => (tell mode (Attempt.cut t start t.stop (Attempt.piece .stringChunk)), mode)
  | p :: ps, mode =>
    if p.position.byte < start then interpolated file read t start reach ps mode
    else
      let r := placeholder file (read p.braced) t reach p mode
      let (told, after) := interpolated file read t r.byte r.reach ps r.mode
      (tell mode (Attempt.cut t start p.position.byte (Attempt.pieceIfAny .stringChunk)) ++
        r.told ++
        told, after)

/-- A quoted text, each placeholder read in its own way. -/
def quoted (file : Option String) (read : Bool → Tape → Bool → Moded) (tape : Tape) (mode : Bool) :
    Moded :=
  match tape.ahead with
  | [] => ofAttempt (.fail (tape.missing .string) tape) mode
  | t :: ahead =>
    let after := { tape with ahead, reach := t.stop }
    match t.kind.placeholders?.getD [] with
    | [] => ofAttempt (.ofTaken (.ofData .stringChunk t.text, after)) mode
    | ps =>
      let (told, behind) := interpolated file read t t.position.byte t.stop ps mode
      { told, tape := after, mode := behind }

end Moded

/-- Reads a phrase in a mode, and leaves a mode behind. -/
def Phrase.readModed (descend : Option String → Production → Tape → Bool → Moded) :
    Phrase → Option String → Tape → Bool → Moded
  | empty, _, tape, mode => .ofAttempt (.ofTaken (.nil, tape)) mode
  | take tag, _, tape, mode => .ofAttempt (.ofTaken (tape.take tag)) mode
  | trivia, _, tape, mode => .ofAttempt (.ofTaken tape.takeTrivia) mode
  | node p, file, tape, mode => descend file p tape mode
  | andThen first second, file, tape, mode =>
    (first.readModed descend file tape mode).andThen (second.readModed descend file)
  | choose test yes no, file, tape, mode =>
    if test tape.ahead then yes.readModed descend file tape mode
    else no.readModed descend file tape mode
  | repeating test body, file, tape, mode =>
    .repeating test (body.readModed descend file) tape.size tape mode
  | spacedCalls yes no, file, tape, mode =>
    if mode then yes.readModed descend file tape mode else no.readModed descend file tape mode
  | expected wanted, _, tape, mode => .ofAttempt (.fail (tape.missing wanted) tape) mode
  | orphan, _, tape, mode =>
    .ofAttempt (.fail (tape.failure (.orphan ((tape.ahead.head?.map (·.text)).getD ""))) tape) mode
  | statements inBlock statement, file, tape, mode =>
    .statements file inBlock (statement.readModed descend file) tape.size tape mode
  | quoted named braced, file, tape, mode =>
    .quoted file (fun isBraced =>
      if isBraced then braced.readModed descend file else named.readModed descend file) tape mode
  | hexDigits, _, tape, mode => .ofAttempt (.hexDigits tape) mode
  | foreign, _, tape, mode => .ofAttempt (.foreign tape) mode

/-- A construct as a node, started in the mode that it is read in. -/
def Production.enterModed (p : Production) (file : Option String) (inside : Tape → Bool → Moded)
    (tape : Tape) (mode : Bool) : Moded :=
  let (lead, tape) := if p.keepsTrivia then (.nil, tape) else tape.takeTrivia
  ((inside tape mode).framed file p.kind tape.place mode).behind (Moded.tell mode lead)

/-- Reads a construct with so many levels of nodes allowed. -/
def Production.readModed : Nat → Option String → Production → Tape → Bool → Moded
  | 0, file, p, tape, mode =>
    p.enterModed file (fun tape => .ofAttempt (.fail (tape.failure .tooDeep) tape)) tape mode
  | allowance + 1, file, p, tape, mode =>
    p.enterModed file (p.body.readModed (Production.readModed allowance) file) tape mode

/-- Reads a whole source; the mode begins as the option says. -/
def readDocumentModed (o : Options) (source : String) : Moded :=
  ((Phrase.statements false .statement).readModed (Production.readModed maxNesting) o.file
    (.ofText (openSource source).1 (openSource source).2 0) o.spacedCalls).framed o.file .document
      (openSource source).1 o.spacedCalls

/-! ## Modes and open strings -/

namespace Event

/-- The mode is right while nodes of these kinds are open, if `option` is the mode that the
reading began in. Outside of strings it is the option itself. In a string it may be cleared as
well, but never set if the option is not. -/
structure RightMode (option : Bool) (kinds : List NodeKind) (mode : Bool) : Prop where
  outside : .string ∉ kinds → mode = option
  cleared : option = false → mode = false

theorem RightMode.inside {option mode : Bool} {kinds : List NodeKind}
    (h : RightMode option kinds mode) (kind : NodeKind) : RightMode option (kind :: kinds) mode :=
  ⟨fun hs => h.outside fun hk => hs (List.mem_cons_of_mem _ hk), h.cleared⟩

/-- The event is reported in the right mode, and in a string nothing is started unless the mode is
cleared. -/
structure InMode (option : Bool) (kinds : List NodeKind) (e : Event) (mode : Bool) : Prop
    extends RightMode option kinds mode where
  inString : .string ∈ kinds → ∀ kind, e = .start kind → mode = false
  call : e = .start .singleArgumentCall → mode = true

/-- Every event is reported in its mode. -/
def InModes (option : Bool) : List NodeKind → List (Event × Bool) → Prop
  | _, [] => True
  | kinds, (e, mode) :: told => e.InMode option kinds mode ∧ InModes option (e.onto kinds) told

namespace InModes

variable {option mode : Bool} {kinds : List NodeKind} {told told' : List (Event × Bool)}

theorem append (h : InModes option kinds told)
    (h' : InModes option (opened kinds (told.map (·.1))) told') :
    InModes option kinds (told ++ told') := by
  induction told generalizing kinds with
  | nil => exact h'
  | cons head told ih =>
    obtain ⟨e, mode⟩ := head
    exact ⟨h.1, ih h.2 h'⟩

theorem inMode {before after : List (Event × Bool)} {e : Event}
    (h : InModes option kinds (before ++ (e, mode) :: after)) :
    e.InMode option (opened kinds (before.map (·.1))) mode := by
  induction before generalizing kinds with
  | nil => exact h.1
  | cons head before ih => exact ih h.2

/-- An event that starts nothing. -/
theorem cons {e : Event} (he : ∀ kind, e ≠ .start kind) (hr : RightMode option kinds mode)
    (h : InModes option (e.onto kinds) told) : InModes option kinds ((e, mode) :: told) :=
  ⟨⟨hr, fun _ kind hk => absurd hk (he kind), fun hk => absurd hk (he _)⟩, h⟩

end InModes

end Event

/-! ## The reading in modes is the reading -/

namespace Moded

open Event

/-- What was told are the events of the trace, in the right modes. -/
structure Tells (option : Bool) (kinds : List NodeKind) (told : List (Event × Bool))
    (t : Trace) : Prop where
  events : told.map (·.1) = t.events
  modes : InModes option kinds told

namespace Tells

variable {option mode : Bool} {kinds : List NodeKind} {told told' : List (Event × Bool)}
  {t u : Trace}

theorem append (h : Tells option kinds told t) (h' : Tells option kinds told' u) :
    Tells option kinds (told ++ told') (t ++ u) where
  events := by rw [List.map_append, h.events, h'.events, Trace.events_append]
  modes := by
    apply h.modes.append
    rw [h.events, Trace.opened_events]
    exact h'.modes

theorem map_tell (mode : Bool) (t : Trace) : (tell mode t).map (·.1) = t.events := by
  rw [tell, List.map_map]
  exact List.map_id _

/-- Notes are reported in any mode that is right. -/
theorem plain (ht : t.Plain) (hr : RightMode option kinds mode) :
    Tells option kinds (tell mode t) t := by
  refine ⟨map_tell mode t, ?_⟩
  induction ht with
  | nil => trivial
  | @note n _ next _ ih =>
    cases n with
    | fault => exact ih
    | _ => exact .cons (fun _ => Event.noConfusion) hr ih

theorem error (hr : RightMode option kinds mode) (scope : ErrorScope) (d : Diagnostic) :
    Tells option kinds (tell mode (.ofNote (.error scope d))) (.ofNote (.error scope d)) :=
  ⟨rfl, .cons (fun _ => Event.noConfusion) hr trivial⟩

/-- A node is stopped, and committed, in the mode that it was started in. -/
theorem node {kind : NodeKind} (h : Tells option (kind :: kinds) told t)
    (hr : RightMode option kinds mode) (hs : .string ∈ kinds → mode = false)
    (hc : kind = .singleArgumentCall → mode = true) (committed : Bool) :
    Tells option kinds ((.start kind, mode) ::
      (told ++ (.stop kind :: if committed then [.commit] else []).map (·, mode)))
      (.ofNode kind t committed) := by
  have hstart : (Event.start kind).InMode option kinds mode :=
    ⟨hr, fun hm _ _ => hs hm, fun hk => hc (Event.start.inj hk)⟩
  refine ⟨?_, hstart, h.modes.append ?_⟩
  · cases committed <;> simp [h.events]
  · rw [h.events, Trace.opened_events]
    apply InModes.cons (fun _ => Event.noConfusion) (hr.inside kind)
    cases committed with
    | false => trivial
    | true => exact .cons (fun _ => Event.noConfusion) hr trivial

end Tells

/-- The reading in the mode reports what the attempt does, in the right modes, and the mode is
back behind it. This is the relation that the induction over the grammar keeps. -/
structure Follows (option : Bool) (kinds : List NodeKind) (mode : Bool) (s : Moded)
    (a : Attempt) : Prop extends Tells option kinds s.told a.trace where
  tape : s.tape = a.tape
  failure : s.failure = a.failure
  mode : s.mode = mode

/-- Where a placeholder leaves its text, likewise. -/
structure Resumption.Follows (option : Bool) (kinds : List NodeKind) (mode : Bool) (r : Resumption)
    (r' : Attempt.Resumption) : Prop extends Tells option kinds r.told r'.trace where
  byte : r.byte = r'.byte
  reach : r.reach = r'.reach
  mode : r.mode = mode

namespace Follows

variable {option mode : Bool} {kinds : List NodeKind} {s : Moded} {a : Attempt}
  {file : Option String}

theorem plain (ht : a.trace.Plain) (hr : RightMode option kinds mode) :
    (ofAttempt a mode).Follows option kinds mode a := ⟨.plain ht hr, rfl, rfl, rfl⟩

theorem behind {lead : List (Event × Bool)} {t : Trace} (hl : Tells option kinds lead t)
    (h : s.Follows option kinds mode a) :
    (s.behind lead).Follows option kinds mode (a.behind t) :=
  ⟨hl.append h.toTells, h.tape, h.failure, h.mode⟩

theorem andThen {next : Tape → Bool → Moded} {next' : Tape → Attempt}
    (h : s.Follows option kinds mode a)
    (hn : ∀ tape, (next tape mode).Follows option kinds mode (next' tape)) :
    (s.andThen next).Follows option kinds mode (a.andThen next') := by
  unfold Moded.andThen
  rw [h.failure]
  cases hf : a.failure with
  | some f =>
    rw [Attempt.andThen_of_some hf]
    exact h
  | none =>
    rw [Attempt.andThen_of_none hf, h.tape, h.mode]
    exact (hn a.tape).behind h.toTells

theorem framed (file : Option String) {kind : NodeKind}
    (h : s.Follows option (kind :: kinds) mode a) (hr : RightMode option kinds mode)
    (hs : .string ∈ kinds → mode = false) (hc : kind = .singleArgumentCall → mode = true)
    (start : Position) :
    (s.framed file kind start mode).Follows option kinds mode (a.framed file kind start) := by
  obtain ⟨ht, htape, hfailure, hmode⟩ := h
  unfold Moded.framed Attempt.framed
  cases hf : a.failure with
  | some f =>
    simp only [hfailure, hf, hmode]
    exact ⟨ht.node hr hs hc false, htape, rfl, rfl⟩
  | none =>
    simp only [hfailure, hf, hmode, htape]
    have hlocation := ht.append (.plain (.location (a.tape.extent file start)) (hr.inside kind))
    have hnode := hlocation.node hr hs hc true
    rw [List.append_assoc] at hnode
    exact ⟨hnode, rfl, rfl, rfl⟩

theorem repeating {test : List Token → Bool} {body : Tape → Bool → Moded} {body' : Tape → Attempt}
    (hr : RightMode option kinds mode)
    (hb : ∀ tape, (body tape mode).Follows option kinds mode (body' tape)) (rounds : Nat)
    (tape : Tape) :
    (repeating test body rounds tape mode).Follows option kinds mode
      (.repeating test body' rounds tape) := by
  induction rounds generalizing tape with
  | zero => exact .plain .nil hr
  | succ n ih =>
    rw [Moded.repeating, Attempt.repeating]
    split
    · exact (hb tape).andThen ih
    · exact .plain .nil hr

/-- What is skipped makes a node that is started in the mode. -/
theorem recover (hr : RightMode option kinds mode) (hs : .string ∈ kinds → mode = false)
    (inBlock : Bool) (f : Failure) (tape : Tape) :
    (ofAttempt (.recover file inBlock f tape) mode).Follows option kinds mode
      (.recover file inBlock f tape) := by
  obtain ⟨skipped, hskipped, heq⟩ := Attempt.exists_recover file inBlock f tape
  refine ⟨?_, rfl, rfl, rfl⟩
  have hnode := (Tells.plain hskipped (hr.inside .invalid)).node hr hs nofun true
  have hreport := (Tells.error hr .statement (f.diagnostic file)).append hnode
  rw [ofAttempt, heq]
  simpa [tell] using hreport

theorem recovered (h : s.Follows option kinds mode a) (hr : RightMode option kinds mode)
    (hs : .string ∈ kinds → mode = false) (inBlock : Bool) :
    (recovered file inBlock s).Follows option kinds mode (.recovered file inBlock a) := by
  unfold Moded.recovered Attempt.recovered
  rw [h.failure]
  cases a.failure with
  | none => exact h
  | some f =>
    simp only [h.tape, h.mode]
    exact (recover hr hs inBlock f a.tape).behind h.toTells

theorem statements {inBlock : Bool} {statement : Tape → Bool → Moded}
    {statement' : Tape → Attempt} (hr : RightMode option kinds mode)
    (hs : .string ∈ kinds → mode = false)
    (hst : ∀ tape, (statement tape mode).Follows option kinds mode (statement' tape))
    (rounds : Nat) (tape : Tape) :
    (statements file inBlock statement rounds tape mode).Follows option kinds mode
      (.statements file inBlock statement' rounds tape) := by
  induction rounds generalizing tape with
  | zero => exact .plain tape.plain_takeTrivia hr
  | succ n ih =>
    rw [Moded.statements, Attempt.statements]
    refine (Follows.plain tape.plain_takeTrivia hr).andThen fun tape => ?_
    cases tape.ahead with
    | nil => exact .plain .nil hr
    | cons t _ =>
      simp only
      split
      · split
        · exact .plain .nil hr
        · exact (recover hr hs false _ tape).andThen ih
      · exact ((hst tape).recovered hr hs inBlock).andThen ih

/-! ### Quoted texts -/

/-- The mode is cleared inside a placeholder and back behind it, whether or not it failed. -/
theorem placeholder (file : Option String) {read : Tape → Bool → Moded} {read' : Tape → Attempt}
    (hread : ∀ window, (read window false).Follows option kinds false (read' window))
    (hr : RightMode option kinds mode) (t : Token) (reach : Nat) (p : Placeholder) :
    (placeholder file read t reach p mode).Follows option kinds mode
      (Attempt.placeholder file read' t reach p) := by
  unfold Moded.placeholder Attempt.placeholder
  cases t.slice? p.position.byte (t.stop - 1) with
  | none => exact ⟨.plain (.fault _ _) hr, rfl, rfl, rfl⟩
  | some cs =>
    obtain ⟨ht, htape, hfailure, -⟩ := hread (.ofText p.position cs reach)
    simp only [hfailure, htape]
    cases (read' (.ofText p.position cs reach)).failure with
    | none => exact ⟨ht, rfl, rfl, rfl⟩
    | some f =>
      have hreport := ht.append (.error hr .placeholder (f.diagnostic file))
      simp only
      split
      · refine ⟨hreport.append (.plain ?_ hr), rfl, rfl, rfl⟩
        exact Attempt.plain_cut fun _ => .ofData _ _
      · exact ⟨hreport, rfl, rfl, rfl⟩

theorem interpolated (file : Option String) {read : Bool → Tape → Bool → Moded}
    {read' : Bool → Tape → Attempt}
    (hread : ∀ isBraced window,
      (read isBraced window false).Follows option kinds false (read' isBraced window))
    (hr : RightMode option kinds mode) (t : Token) (ps : List Placeholder) (start reach : Nat) :
    Tells option kinds (interpolated file read t start reach ps mode).1
        (Attempt.interpolated file read' t start reach ps) ∧
      (interpolated file read t start reach ps mode).2 = mode := by
  induction ps generalizing start reach with
  | nil => exact ⟨.plain (Attempt.plain_cut fun _ => .ofData _ _) hr, rfl⟩
  | cons p ps ih =>
    rw [Moded.interpolated, Attempt.interpolated]
    split
    · exact ih start reach
    · obtain ⟨hp, hbyte, hreach, hmode⟩ := placeholder file (hread p.braced) hr t reach p
      have hchunk : Tells option kinds
          (tell mode (Attempt.cut t start p.position.byte (Attempt.pieceIfAny .stringChunk))) _ :=
        .plain (Attempt.plain_cut (Attempt.plain_pieceIfAny .stringChunk)) hr
      obtain ⟨hrest, hafter⟩ := ih (Attempt.placeholder file (read' p.braced) t reach p).byte
        (Attempt.placeholder file (read' p.braced) t reach p).reach
      simp only [hbyte, hreach, hmode]
      exact ⟨(hchunk.append hp).append hrest, hafter⟩

/-- A string is read in any mode that is right where it stands. -/
theorem quoted {read : Bool → Tape → Bool → Moded} {read' : Bool → Tape → Attempt}
    (hread : ∀ isBraced window,
      (read isBraced window false).Follows option kinds false (read' isBraced window))
    (hr : RightMode option kinds mode) (tape : Tape) :
    (quoted file read tape mode).Follows option kinds mode (.quoted file read' tape) := by
  unfold Moded.quoted Attempt.quoted
  cases tape.ahead with
  | nil => exact .plain .nil hr
  | cons t ahead =>
    simp only
    cases t.kind.placeholders?.getD [] with
    | nil => exact .plain (.ofData _ _) hr
    | cons p ps =>
      obtain ⟨ht, hmode⟩ := interpolated file hread hr t (p :: ps) t.position.byte t.stop
      exact ⟨ht, rfl, rfl, hmode⟩

end Follows

end Moded

/-! ## Phrases and constructs -/

/-- Whether no call without parentheses is begun in the phrase unless the mode is set. -/
def Phrase.guardsCalls : Phrase → Bool
  | node p => p != .singleArgumentCall
  | andThen first second => first.guardsCalls && second.guardsCalls
  | choose _ yes no => yes.guardsCalls && no.guardsCalls
  | repeating _ body => body.guardsCalls
  | spacedCalls _ no => no.guardsCalls
  | statements _ statement => statement.guardsCalls
  | quoted named braced => named.guardsCalls && braced.guardsCalls
  | empty | take _ | trivia | expected _ | orphan | hexDigits | foreign => true

theorem Production.guardsCalls_body (p : Production) : p.body.guardsCalls = true := by
  cases p <;> rfl

theorem Production.kind_eq_singleArgumentCall {p : Production}
    (h : p.kind = .singleArgumentCall) : p = .singleArgumentCall := by
  cases p <;> first | rfl | cases h

namespace Moded

open Event

variable {option mode : Bool} {kinds : List NodeKind} {file : Option String}

/-- A phrase outside of quoted texts, in the mode that is right for it. -/
theorem follows_phrase {descend : Option String → Production → Tape → Bool → Moded}
    {descend' : Options → Production → Tape → Attempt} (hr : RightMode option kinds mode)
    (hs : .string ∈ kinds → mode = false)
    (hd : ∀ p, (p = .singleArgumentCall → mode = true) → ∀ tape,
      (descend file p tape mode).Follows option kinds mode (descend' ⟨file, mode⟩ p tape))
    (q : Phrase) (hq : q.quotes = false) (hg : mode = true ∨ q.guardsCalls = true) (tape : Tape) :
    (q.readModed descend file tape mode).Follows option kinds mode
      (q.read descend' ⟨file, mode⟩ tape) := by
  induction q generalizing tape with
  | empty => exact .plain .nil hr
  | take tag => exact .plain (tape.plain_take tag) hr
  | trivia => exact .plain tape.plain_takeTrivia hr
  | node p => exact hd p (fun hp => hg.resolve_right (by simp [Phrase.guardsCalls, hp])) tape
  | andThen first second ih₁ ih₂ =>
    simp only [Phrase.quotes, Bool.or_eq_false_iff] at hq
    simp only [Phrase.guardsCalls, Bool.and_eq_true] at hg
    exact (ih₁ hq.1 (hg.imp_right And.left) tape).andThen (ih₂ hq.2 (hg.imp_right And.right))
  | choose test yes no ihy ihn =>
    simp only [Phrase.quotes, Bool.or_eq_false_iff] at hq
    simp only [Phrase.guardsCalls, Bool.and_eq_true] at hg
    rw [Phrase.readModed, Phrase.read]
    split
    · exact ihy hq.1 (hg.imp_right And.left) tape
    · exact ihn hq.2 (hg.imp_right And.right) tape
  | repeating test body ih => exact .repeating hr (ih hq hg) _ tape
  | spacedCalls yes no ihy ihn =>
    simp only [Phrase.quotes, Bool.or_eq_false_iff] at hq
    rw [Phrase.readModed, Phrase.read]
    dsimp only
    split <;> rename_i hm
    · exact ihy hq.1 (.inl hm) tape
    · exact ihn hq.2 (.inr (hg.resolve_left hm)) tape
  | expected wanted => exact .plain .nil hr
  | orphan => exact .plain .nil hr
  | statements inBlock statement ih => exact .statements hr hs (ih hq hg) _ tape
  -- Here the mode is changed, so quoted texts are left to the rule of strings.
  | quoted named braced => cases hq
  | hexDigits => exact .plain (Attempt.plain_hexDigits tape) hr
  | foreign => exact .plain (Attempt.plain_foreign tape) hr

/-- A construct as a node, if its inside is read in the mode that is right there. -/
theorem follows_enter {p : Production} {inside : Tape → Bool → Moded} {inside' : Tape → Attempt}
    (hr : RightMode option kinds mode) (hs : .string ∈ kinds → mode = false)
    (hc : p = .singleArgumentCall → mode = true)
    (hi : ∀ tape, (inside tape mode).Follows option (p.kind :: kinds) mode (inside' tape))
    (tape : Tape) :
    (p.enterModed file inside tape mode).Follows option kinds mode
      (p.enter ⟨file, mode⟩ inside' tape) := by
  have hnode (tape : Tape) := (hi tape).framed file hr hs
    (fun hk => hc (Production.kind_eq_singleArgumentCall hk)) tape.place
  unfold Production.enterModed Production.enter
  cases p.keepsTrivia with
  | true => exact (hnode tape).behind (.plain .nil hr)
  | false => exact (hnode _).behind (.plain tape.plain_takeTrivia hr)

/-- **Every construct reports its events in the right modes and leaves the mode as it was.** The
two kinds are taken apart: a string clears the mode for its placeholders, and in all others the
mode is handed on unchanged. -/
theorem follows_read (n : Nat) (hr : RightMode option kinds mode)
    (hs : .string ∈ kinds → mode = false) (p : Production)
    (hc : p = .singleArgumentCall → mode = true) (tape : Tape) :
    (p.readModed n file tape mode).Follows option kinds mode (p.read n ⟨file, mode⟩ tape) := by
  induction n generalizing kinds mode p tape with
  | zero => exact follows_enter hr hs hc (fun _ => .plain .nil (hr.inside p.kind)) tape
  | succ n ih =>
    refine follows_enter hr hs hc (fun tape => ?_) tape
    by_cases hp : p = .string
    · subst hp
      -- The string itself is in the mode around it, its placeholders are in the cleared one.
      have hcleared : RightMode option (.string :: kinds) false :=
        ⟨fun hm => absurd List.mem_cons_self hm, fun _ => rfl⟩
      have hd (p : Production) (hc : p = .singleArgumentCall → false = true) (tape : Tape) :=
        ih hcleared (fun _ => rfl) p hc tape
      refine .quoted (fun isBraced window => ?_) (hr.inside .string) tape
      cases isBraced with
      | true => exact follows_phrase hcleared (fun _ => rfl) hd _ rfl (.inr rfl) window
      | false => exact follows_phrase hcleared (fun _ => rfl) hd _ rfl (.inr rfl) window
    · have hstring : .string ∈ p.kind :: kinds → mode = false := fun hm =>
        hs ((List.mem_cons.1 hm).resolve_left fun hk => hp (Production.kind_eq_string hk.symm))
      have hquotes : p.body.quotes = false :=
        Bool.eq_false_iff.2 fun hq => hp (Production.quotes_body hq)
      exact follows_phrase (hr.inside p.kind) hstring (ih (hr.inside p.kind) hstring) p.body hquotes
        (.inr p.guardsCalls_body) tape

/-- **A source is read alike with the mode as a state**, and every event is in its mode. So an
option that is handed down and a flag that is set and put back are the same (`Document.Modes`). -/
theorem follows_readDocumentModed (o : Options) (source : String) :
    (readDocumentModed o source).Follows o.spacedCalls [] o.spacedCalls
      ((readStatements o source).framed o.file .document (openSource source).1) := by
  have hr (kinds : List NodeKind) : RightMode o.spacedCalls kinds o.spacedCalls :=
    ⟨fun _ => rfl, id⟩
  have hs : NodeKind.string ∈ [NodeKind.document] → o.spacedCalls = false := by simp
  refine Follows.framed o.file ?_ (hr []) (by simp) (by simp) _
  exact follows_phrase (hr _) hs (follows_read maxNesting (hr _) hs) (.statements false .statement)
    rfl (.inr rfl) _

end Moded

end Heddle
