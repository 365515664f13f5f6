import Heddle.Proofs.Reading.Interpolated
import Heddle.Proofs.Reading.Plain
import Heddle.Proofs.Tape.Standing
import Heddle.Proofs.Tree.Opened

/-!
# What a diagnostic points at

A failure has a message and a place, and the two are made from separate looks at what is ahead. Both
looks see the same token: the text that a message says was found **stands in the source at the place
of the failure**, and where the message says that the text ended, the place is the end of the
source, or the quote that closes a string (`Failure.Points`). The failure is carried from where it
arose to where it is reported, past other constructs and out of the texts of placeholders, and is
reported as it was.

Which string it is whose end was found is seen in the report: it is the innermost one that is open
when the error is reported (`Event.Pointed`). Two strings have to be told apart for this. **The body
of a string is read while its node is open already**, but from the text around it, so what fails
there would be at the end of the text around; a placeholder is read from the text of the string.
`Phrase.StandsAt` keeps the two in step: outside of bodies of strings the text that is read and the
innermost open string are one and the same.
-/

set_option autoImplicit false

namespace Heddle

/-! ## What is asked for -/

/-- What the grammar asks for: of keywords only two. A message is taken apart by what it says was
wanted (`Wanted.text_plain`), which a keyword of any spelling would not allow. -/
def Wanted.isPlain : Wanted → Bool
  | .keyword word => word == "function" || word == "in"
  | _ => true

/-- Whether nothing else is asked for in the phrase. -/
def Phrase.asksPlainly : Phrase → Bool
  | expected wanted => wanted.isPlain
  | andThen first second => first.asksPlainly && second.asksPlainly
  | choose _ yes no | spacedCalls yes no => yes.asksPlainly && no.asksPlainly
  | repeating _ body => body.asksPlainly
  | statements _ statement => statement.asksPlainly
  | quoted named braced => named.asksPlainly && braced.asksPlainly
  | empty | take _ | trivia | node _ | orphan | hexDigits | foreign => true

theorem Production.asksPlainly_body (p : Production) : p.body.asksPlainly = true := by
  cases p <;> rfl

/-! ## Failures and errors that point -/

variable {source : String} {string? : Option (List Char)}

/-- What the cause of the failure names is at its place, if the text that is read is the source or
the string `string?` of it. Only a failure at the end of the text depends on which of the two it
is. -/
def Failure.Points (source : String) (string? : Option (List Char)) (f : Failure) : Prop :=
  match f.cause with
  | .expected wanted (some found) =>
    wanted.isPlain = true ∧ found ≠ "" ∧ Occurs source f.position found.toList
  | .expected wanted none => wanted.isPlain = true ∧ EndsText source f.position string?
  | .orphan word => Occurs source f.position word.toList
  | .strayBrace => Occurs source f.position ['\x7d']
  | .tooDeep => Occurs source f.position []

/-- The error is that of a failure which points at what it names. -/
def Diagnostic.Points (source : String) (string? : Option (List Char)) (d : Diagnostic) : Prop :=
  ∃ f : Failure, f.Points source string? ∧ d = f.diagnostic d.file

/-- Every error that is reported behind `front` points at what it names, in the source or in the
innermost string that is open where the error is reported. What is in front has to be known for
that, since a string may have been opened long before. -/
def Event.Pointed (source : String) (front : Event.Front) (es : List Event) : Prop :=
  ∀ before d after, es = before ++ .error d :: after →
    d.Points source (front.after before).string?

namespace Tape.LiesIn

variable {front : List Char} {tape : Tape} (h : tape.LiesIn source string? front)
include h

/-- What is missing at a place is told with what is there. -/
theorem points_missing {wanted : Wanted} (hw : wanted.isPlain = true) :
    (tape.missing wanted).Points source string? := by
  rw [missing, failure]
  cases ha : tape.ahead with
  | nil => exact ⟨hw, h.at_end ha⟩
  | cons t ts =>
    obtain ⟨hne, hoccurs⟩ := h.occurs_head ha
    refine ⟨hw, fun he => hne ?_, hoccurs⟩
    replace he : t.text = "" := he
    rw [Token.chars, he]
    rfl

theorem points_orphan :
    (tape.failure (.orphan ((tape.ahead.head?.map (·.text)).getD ""))).Points source string? := by
  cases ha : tape.ahead with
  | nil => exact h.occurs_nil
  | cons t ts => exact (h.occurs_head ha).2

theorem points_tooDeep : (tape.failure .tooDeep).Points source string? := h.occurs_nil

theorem points_stray (hb : tape.ahead.head?.any (·.isMark .rightBrace) = true) :
    (tape.failure .strayBrace).Points source string? := by
  cases ha : tape.ahead with
  | nil =>
    rw [ha] at hb
    cases hb
  | cons t ts =>
    rw [ha] at hb
    have hmem : t ∈ Token.readAll tape.place tape.text := by
      rw [← h.lexed.ahead, ha]
      exact List.mem_cons_self
    have hoccurs := (h.occurs_head ha).2
    rwa [Token.text_of_mark hmem (beq_iff_eq.1 hb)] at hoccurs

end Tape.LiesIn

namespace Event.Pointed

variable {front : Event.Front} {xs ys : List Event} {t u : Trace}

theorem quiet (he : ∀ d, .error d ∉ xs) : Pointed source front xs := by
  rintro before d after rfl
  exact absurd (List.mem_append_right _ List.mem_cons_self) (he d)

theorem append (hx : Pointed source front xs) (hy : Pointed source (front.after xs) ys) :
    Pointed source front (xs ++ ys) := by
  intro before d after h
  rcases eq_append_cons_cases h with ⟨mid, hmid, -⟩ | ⟨mid, rfl, hmid⟩
  · exact hx before d mid hmid
  · rw [Front.after_append]
    exact hy mid d after hmid

/-- One trace behind the other: the text of the first one is in front of the second. -/
theorem behind (ht : Pointed source front t.events)
    (hu : Pointed source (front.past t.text) u.events) : Pointed source front (t ++ u).events := by
  rw [Trace.events_append]
  apply ht.append
  rwa [Trace.after_events]

theorem error {f : Failure} (h : f.Points source front.string?) (file : Option String)
    (scope : ErrorScope) :
    Pointed source front (Trace.ofNote (.error scope (f.diagnostic file))).events := by
  intro before d after heq
  cases before with
  | nil =>
    obtain ⟨hd, -⟩ := List.cons.inj heq
    obtain rfl := Event.error.inj hd
    exact ⟨f, h, rfl⟩
  | cons e before => simp [Trace.events, Trace.ofNote, Note.event?] at heq

/-- What is reported in a node is reported behind its start. -/
theorem node {kind : NodeKind} (h : Pointed source (front.step (.start kind)) t.events)
    (committed : Bool) : Pointed source front (Trace.ofNode kind t committed).events := by
  have hstart : Pointed source front [.start kind] := .quiet (by simp)
  rw [Trace.events_ofNode]
  refine hstart.append (h.append (.quiet fun d => ?_))
  cases committed <;> simp

end Event.Pointed

/-! ## Attempts -/

namespace Attempt

open Event (Front Pointed)

/-- The attempt reports all it takes, the failure that it ends with points at what it names, and so
do the errors that it reports behind `front`. The two may speak of different strings: the failure of
the text that is read, an error of the innermost string that is open. -/
structure Points (source : String) (string? : Option (List Char)) (front : Front) (tape : Tape)
    (a : Attempt) : Prop where
  conserves : Conserves tape a
  failure : ∀ f, a.failure = some f → f.Points source string?
  events : Pointed source front a.trace.events

namespace Points

variable {front : Front} {tape : Tape} {a b : Attempt} {file : Option String}

theorem plain (hc : Conserves tape a) (hf : a.failure = none) (ht : a.trace.Plain) :
    Points source string? front tape a where
  conserves := hc
  failure _ h := by
    rw [hf] at h
    cases h
  events := .quiet ht.silent

theorem fail (h : tape.Lexed) {f : Failure} (hf : f.Points source string?) :
    Points source string? front tape (fail f tape) where
  conserves := .fail h f
  failure _ h' := Option.some.inj h' ▸ hf
  events := .quiet Trace.Plain.nil.silent

theorem behind (ha : Points source string? front tape a)
    (hb : Points source string? (front.past a.trace.text) a.tape b) :
    Points source string? front tape (b.behind a.trace) where
  conserves := ha.conserves.behind hb.conserves
  failure := hb.failure
  events := ha.events.behind hb.events

theorem framed {kind : NodeKind} (h : Points source string? (front.step (.start kind)) tape a)
    (start : Position) : Points source string? front tape (a.framed file kind start) where
  conserves := h.conserves.framed file kind start
  failure := by
    rw [failure_framed]
    exact h.failure
  events := by
    unfold Attempt.framed
    split
    · exact h.events.node false
    · exact (h.events.behind (.quiet (Trace.Plain.location _).silent)).node true

/-- A failure is reported as it was. -/
theorem recover (h : tape.Lexed) (file : Option String) (inBlock : Bool) {f : Failure}
    (hf : f.Points source front.string?) :
    Points source string? front tape (recover file inBlock f tape) where
  conserves := .recover h file inBlock f
  failure _ h' := by cases h'
  events := by
    obtain ⟨skipped, hskipped, heq⟩ := exists_recover file inBlock f tape
    rw [heq]
    exact (Pointed.error hf file _).behind (.node (.quiet hskipped.silent) true)

theorem recovered (h : Points source string? front tape a) (file : Option String)
    (hs : front.string? = string?) (inBlock : Bool) :
    Points source string? front tape (recovered file inBlock a) := by
  unfold Attempt.recovered
  split <;> rename_i f hf
  · have hpoints : f.Points source (front.past a.trace.text).string? := by
      rw [Front.string?_past, hs]
      exact h.failure f hf
    exact h.behind (.recover h.conserves.lexed file inBlock hpoints)
  · exact h

theorem takeTrivia (h : tape.Lexed) :
    Points source string? front tape (ofTaken tape.takeTrivia) :=
  .plain (Attempt.conserves.takeTrivia tape h) rfl tape.plain_takeTrivia

/-- The failure of a reading that only ever misses one thing. -/
theorem missing {text : List Char} (h : tape.LiesIn source string? text) (hc : Conserves tape a)
    {wanted : Wanted} (hw : wanted.isPlain = true)
    (hf : ∀ f, a.failure = some f → f = tape.missing wanted) (ht : a.trace.Plain) :
    Points source string? front tape a where
  conserves := hc
  failure f h' := hf f h' ▸ h.points_missing hw
  events := .quiet ht.silent

/-! ### Quoted texts -/

/-- A placeholder that fails is reported where it stopped, while its string is still open. -/
theorem placeholder {read : Tape → Attempt} {t : Token} {p : Placeholder} {cs : List Char}
    {reach : Nat} (hslice : t.slice? p.position.byte (t.stop - 1) = some cs)
    (hs : front.string? = string?)
    (h : Points source string? front (.ofText p.position cs reach)
      (read (.ofText p.position cs reach))) (file : Option String) :
    Pointed source front (placeholder file read t reach p).trace.events := by
  unfold Attempt.placeholder
  rw [hslice]
  simp only
  split <;> rename_i hf
  · exact h.events
  · rename_i f
    have hfailure : f.Points source
        (front.past (read (.ofText p.position cs reach)).trace.text).string? := by
      rw [Front.string?_past, hs]
      exact h.failure f hf
    have hreport := h.events.behind (.error hfailure file .placeholder)
    split
    · exact hreport.behind (.quiet (plain_cut fun _ => .ofData _ _).silent)
    · exact hreport

/-- The pieces of a quoted text, behind the characters of the text that are in front of them. The
induction is on the pieces; each placeholder has its place from the pieces in front of it. -/
theorem interpolated {read : Bool → Tape → Attempt} {t : Token} {quote : Char} {xs : List Char}
    {trace : Trace} (h : Interpolates file read t quote xs trace) (hs : front.string? = string?)
    (hr : ∀ p ∈ t.kind.placeholders?.getD [], ∀ xs cs reach,
      t.chars = xs ++ ('%' :: cs) ++ [quote] → p.position = t.position.past xs →
      t.slice? p.position.byte (t.stop - 1) = some ('%' :: cs) →
      Points source string? (front.past xs) (.ofText p.position ('%' :: cs) reach)
        (read p.braced (.ofText p.position ('%' :: cs) reach))) :
    Pointed source (front.past xs) trace.events := by
  induction h with
  | last => exact .quiet (Trace.Plain.ofData _ _).silent
  | @next xs lead cs p reach rest hp ht hplace _ hslice _ ih =>
    have hstring : (front.past (xs ++ lead)).string? = string? := hs
    have hhere := placeholder hslice hstring (hr p hp _ _ reach ht hplace hslice) file
    refine .behind (.quiet (plain_pieceIfAny _ _).silent) (.behind ?_ ?_)
    · rwa [text_pieceIfAny, ← Front.past_append]
    · rwa [text_pieceIfAny, ← Front.past_append, ← Front.past_append, ← List.append_assoc]

/-- A placeholder is read from a text that the quote of its string ends, so what it misses there is
told with that quote. The string itself fails only where there is none, and outside of itself. -/
theorem quoted {read : Bool → Tape → Attempt} (h : tape.LiesIn source string? front.text)
    (hs : front.string? = some front.text)
    (hr : ∀ isBraced window xs, tape.Window isBraced window →
      window.LiesIn source (some front.text) (front.text ++ xs) →
        Points source (some front.text) (front.past xs) window (read isBraced window)) :
    Points source string? front tape (quoted file read tape) := by
  -- The reader of placeholders is changed to one that does nothing outside of windows. A quoted
  -- text is read alike with it, and what is known of windows is then known of everything.
  obtain ⟨read', hcongr, hwindowed⟩ := exists_windowed file read tape
  have hread (isBraced : Bool) (window : Tape) (hw : window.Lexed) :
      Conserves window (read' isBraced window) := by
    rcases hwindowed isBraced window with ⟨hwindow, heq⟩ | heq
    · obtain ⟨xs, hlies⟩ := h.window hwindow
      rw [heq]
      exact (hr isBraced window xs hwindow hlies).conserves
    · rw [heq]
      exact .nothing hw
  have hconserves : Conserves tape (Attempt.quoted file read' tape) := .quoted hread h.lexed
  rw [hcongr]
  rcases quoted_cases file hread h.lexed with
    he | ⟨t, ts, trace, ha, he, rfl | ⟨style, ps, hk, hpieces⟩⟩
  · rw [he]
    exact .fail h.lexed (h.points_missing rfl)
  · rw [he] at hconserves ⊢
    exact .plain hconserves rfl (.ofData _ _)
  · rw [he] at hconserves ⊢
    have hevents : Pointed source (front.past []) trace.events := by
      refine interpolated hpieces hs fun p hp xs cs reach ht hplace hslice => ?_
      have hwindow : tape.Window p.braced (.ofText p.position ('%' :: cs) reach) :=
        .mk ha hp hslice reach
      have hlies := h.placeholder ha hk ht hplace reach
      rcases hwindowed p.braced (.ofText p.position ('%' :: cs) reach) with ⟨-, heq⟩ | heq
      · rw [heq]
        exact hr _ _ xs hwindow hlies
      · rw [heq]
        exact .plain (.nothing hlies.lexed) rfl .nil
    rw [Front.past_nil] at hevents
    exact ⟨hconserves, nofun, hevents⟩

end Points

end Attempt

/-! ## Readings -/

open Event (Front)

/-- The text that is read is the innermost string that is open, or the source if none is. Only the
body of a string is read while its string is open but not begun. -/
def Phrase.StandsAt (string? : Option (List Char)) (front : Front) : Phrase → Prop
  | quoted named braced =>
    front.string? = some front.text ∧ named.quotes = false ∧ braced.quotes = false
  | q => q.quotes = false ∧ front.string? = string?

theorem Phrase.StandsAt.ofPlain {q : Phrase} {front : Front} (hq : q.quotes = false)
    (h : front.string? = string?) : q.StandsAt string? front := by
  cases q with
  | quoted named braced => cases hq
  | _ => exact ⟨hq, h⟩

/-- Inside a node the text that is read is still the same. If the node is a string, it is the
innermost one from now on, and its body is all that is read in it. -/
theorem Production.standsAt_body (p : Production) {front : Front} (h : front.string? = string?) :
    p.body.StandsAt string? (front.step (.start p.kind)) := by
  by_cases hp : p = .string
  · subst hp
    exact ⟨rfl, rfl, rfl⟩
  · have hk : p.kind ≠ .string := fun hk => hp (by cases p <;> first | rfl | cases hk)
    have hq : p.body.quotes = false := Bool.eq_false_iff.2 fun hq => hp (Production.quotes_body hq)
    exact .ofPlain hq ((Front.string?_open hk).trans h)

/-- The trivia in front of a construct. -/
theorem Attempt.Points.lead {front : Front} {tape : Tape} (h : tape.Lexed)
    (p : Production) : Points source string? front tape (ofTaken (p.lead tape)) := by
  unfold Production.lead
  split
  · exact .plain (.nothing h) rfl .nil
  · exact .takeTrivia h

open Attempt in
/-- **Whatever is read points at what it names**, in the source or in the string that it is read
from. The induction is on the run, so that a string which is read inside a placeholder of another
one is just one more node. -/
theorem Phrase.Runs.points {depth : Nat} {o : Options} {q : Phrase} {tape : Tape} {a : Attempt}
    (h : q.Runs depth o tape a) (hq : q.asksPlainly = true) {front : Front}
    (hs : q.StandsAt string? front) (ht : tape.LiesIn source string? front.text) :
    Points source string? front tape a := by
  -- Every case hands on where the text of the next part lies: behind what was read of the part in
  -- front (`LiesIn.conserves`).
  induction h generalizing string? front with
  | empty => exact .plain (.nothing ht.lexed) rfl .nil
  | take => exact .plain (.take _ ht.lexed) rfl (Tape.plain_take _ _)
  | trivia => exact .takeTrivia ht.lexed
  | @node depth o p tape a hd ha ih =>
    have hlead : Points source string? front tape (ofTaken (p.lead tape)) := .lead ht.lexed p
    have hstring : (front.past (p.lead tape).1.text).string? = string? := hs.2
    have hin := ih p.asksPlainly_body (p.standsAt_body hstring) (ht.conserves hlead.conserves)
    exact hlead.behind (hin.framed _)
  | @tooDeep depth o p tape hd =>
    have hlead : Points source string? front tape (ofTaken (p.lead tape)) := .lead ht.lexed p
    have hat := ht.conserves hlead.conserves
    exact hlead.behind (.framed (.fail hat.lexed hat.points_tooDeep) _)
  -- No part of these phrases is a quoted text, so the text that is read stays the innermost open
  -- string.
  | andThen ha hf hb iha ihb =>
    simp only [asksPlainly, Bool.and_eq_true] at hq
    obtain ⟨hquotes, hstring⟩ := hs
    obtain ⟨hfirst, hsecond⟩ := Bool.or_eq_false_iff.1 hquotes
    have hpoints := iha hq.1 (.ofPlain hfirst hstring) ht
    exact hpoints.behind
      (ihb hq.2 (.ofPlain hsecond hstring) (ht.conserves hpoints.conserves))
  | broken ha hf iha =>
    simp only [asksPlainly, Bool.and_eq_true] at hq
    exact iha hq.1 (.ofPlain (Bool.or_eq_false_iff.1 hs.1).1 hs.2) ht
  | yes hg ha ih =>
    simp only [asksPlainly, Bool.and_eq_true] at hq
    exact ih hq.1 (.ofPlain (Bool.or_eq_false_iff.1 hs.1).1 hs.2) ht
  | no hg ha ih =>
    simp only [asksPlainly, Bool.and_eq_true] at hq
    exact ih hq.2 (.ofPlain (Bool.or_eq_false_iff.1 hs.1).2 hs.2) ht
  | stop hg => exact .plain (.nothing ht.lexed) rfl .nil
  | brokenRound hg ha hf iha => exact iha hq (.ofPlain hs.1 hs.2) ht
  | round hg ha hf hm hb iha ihb =>
    have hround := iha hq (.ofPlain hs.1 hs.2) ht
    exact hround.behind (ihb hq hs (ht.conserves hround.conserves))
  | @spacedCalls depth o yes no tape a ha ih =>
    simp only [asksPlainly, Bool.and_eq_true] at hq
    obtain ⟨hquotes, hstring⟩ := hs
    obtain ⟨hyes, hno⟩ := Bool.or_eq_false_iff.1 hquotes
    split at ih
    · exact ih hq.1 (.ofPlain hyes hstring) ht
    · exact ih hq.2 (.ofPlain hno hstring) ht
  | expected => exact .fail ht.lexed (ht.points_missing hq)
  | orphan => exact .fail ht.lexed ht.points_orphan
  | ends he => exact .takeTrivia ht.lexed
  | @stray depth o statement tape b hb hm hrest ih =>
    have htrivia : Points source string? front tape (ofTaken tape.takeTrivia) :=
      .takeTrivia ht.lexed
    have hat := ht.conserves htrivia.conserves
    have hfailure : (tape.takeTrivia.2.failure .strayBrace).Points source
        (front.past tape.takeTrivia.1.text).string? := by
      rw [Front.string?_past, hs.2]
      exact hat.points_stray hb
    have hstray : Points source string? (front.past tape.takeTrivia.1.text) tape.takeTrivia.2
        (Attempt.stray o.file tape.takeTrivia.2) := .recover hat.lexed o.file false hfailure
    exact htrivia.behind (hstray.behind (ih hq hs (hat.conserves hstray.conserves)))
  | @next depth o inBlock statement tape a b he hb ha hm hrest iha ih =>
    have htrivia : Points source string? front tape (ofTaken tape.takeTrivia) :=
      .takeTrivia ht.lexed
    have hat := ht.conserves htrivia.conserves
    have hstring : (front.past tape.takeTrivia.1.text).string? = string? := hs.2
    have hstatement := (iha hq (.ofPlain hs.1 hstring) hat).recovered o.file hstring inBlock
    exact htrivia.behind (hstatement.behind (ih hq hs (hat.conserves hstatement.conserves)))
  -- Only here the text changes, to that of the string whose node is open.
  | @quoted depth o named braced tape read hr ih =>
    simp only [asksPlainly, Bool.and_eq_true] at hq
    obtain ⟨hstring, hnamed, hbraced⟩ := hs
    refine .quoted ht hstring fun isBraced window xs hw hlies => ih isBraced window hw ?_ ?_ hlies
    · cases isBraced with
      | true => exact hq.2
      | false => exact hq.1
    · cases isBraced with
      | true => exact .ofPlain hbraced hstring
      | false => exact .ofPlain hnamed hstring
  | @hexDigits depth o tape =>
    have hplain : Wanted.hexColor.isPlain = true := rfl
    exact .missing ht (.hexDigits ht.lexed) hplain (fun f hf => failure_hexDigits hf)
      (plain_hexDigits tape)
  | @foreign depth o tape =>
    have hplain : Wanted.foreignBlock.isPlain = true := rfl
    exact .missing ht (.foreign ht.lexed) hplain (fun f hf => failure_foreign hf)
      (plain_foreign tape)

end Heddle
