import Heddle.Proofs.Cursor.Facing
import Heddle.Proofs.Document.Text
import Heddle.Proofs.Reading.Reported

/-!
# Every error is paid for

There are never more errors than bytes. An error behind which nothing is skipped, as at the end of
a block, seems to come for free, and blocks nest; so the errors of a trace are charged to the bytes
of its text, and it matters which traces have a byte to spare.

A list of statements may use up its bytes: each of its statements pays with what it took or with
what is skipped behind it. **A construct has a byte to spare**, since a block pays its statements
with what stands between its braces and keeps the opening brace. A placeholder that fails pays with
its percent sign, and the closing quote of the text around it is the byte to spare.
-/

set_option autoImplicit false

namespace Heddle

open Text

namespace Trace

/-- There are not more errors than bytes of text; if a byte is to `spare`, there are fewer, unless
there is nothing at all. -/
structure Pays (spare : Bool) (t : Trace) : Prop where
  le : t.diagnostics.length ≤ byteSize t.text
  lt : spare = true → t.text ≠ [] → t.diagnostics.length < byteSize t.text

namespace Pays

variable {spare : Bool} {t u : Trace}

theorem of_silent (h : t.diagnostics = []) : t.Pays spare := by
  refine ⟨by rw [h]; exact Nat.zero_le _, fun _ hn => ?_⟩
  rw [h]
  obtain ⟨c, cs, hc⟩ := List.exists_cons_of_ne_nil hn
  have := c.utf8Size_pos
  rw [hc, byteSize_cons, List.length_nil]
  omega

theorem weaken (h : t.Pays true) : t.Pays spare := ⟨h.le, fun _ => h.lt rfl⟩

/-- Nothing costs nothing. -/
theorem diagnostics_eq_nil (h : t.Pays spare) (hn : t.text = []) : t.diagnostics = [] := by
  have hle := h.le
  rw [hn] at hle
  exact List.eq_nil_of_length_eq_zero (Nat.le_zero.1 hle)

theorem append (ht : t.Pays spare) (hu : u.Pays spare) : (t ++ u).Pays spare := by
  have hle := ht.le
  have hle' := hu.le
  refine ⟨?_, fun hs hn => ?_⟩
  · rw [diagnostics_append, text_append, byteSize_append, List.length_append]
    omega
  · rw [diagnostics_append, text_append, byteSize_append, List.length_append]
    by_cases he : t.text = []
    · have hlt := hu.lt hs (by rwa [text_append, he] at hn)
      omega
    · have hlt := ht.lt hs he
      omega

/-- The byte to spare of the first trace is still there if the second one spares none. A block is
of this form: the brace has the byte, the statements use up theirs. -/
theorem append_of_ne_nil (ht : t.Pays true) (hn : t.text ≠ []) (hu : u.Pays false) :
    (t ++ u).Pays spare := by
  have hlt := ht.lt rfl hn
  have hle := hu.le
  have hboth : (t ++ u).diagnostics.length < byteSize (t ++ u).text := by
    rw [diagnostics_append, text_append, byteSize_append, List.length_append]
    omega
  exact ⟨Nat.le_of_lt hboth, fun _ _ => hboth⟩

end Pays

end Trace

namespace Phrase

/-- Whether the errors inside a phrase are paid for by what it takes, with a byte to spare or
without, as far as the form of the phrase shows it. In a sequence either both parts spare a byte
or the first one takes something. -/
def pays : Phrase → Bool → Bool
  | statements _ statement, spare => !spare && (statement.pays true && statement.takes)
  | andThen first second, spare =>
    (first.pays spare && second.pays spare) ||
      (first.pays true && first.takes && second.pays false)
  | choose _ yes no, spare => yes.pays spare && no.pays spare
  | spacedCalls yes no, spare => yes.pays spare && no.pays spare
  | repeating _ body, spare => body.pays spare
  | quoted named braced, _ =>
    (named.isSigned && named.pays true) && (braced.isSigned && braced.pays true)
  | _, _ => true

end Phrase

/-- Every construct has a byte to spare. -/
theorem Production.pays_body (p : Production) : p.body.pays true = true := by
  cases p <;> rfl

namespace Attempt

open Trace

variable {spare : Bool} {file : Option String} {tape : Tape} {a : Attempt}

/-! ## Statements -/

theorem pays_framed (h : a.trace.Pays spare) (file : Option String) (kind : NodeKind)
    (start : Position) : (a.framed file kind start).trace.Pays spare := by
  constructor
  · rw [diagnostics_framed, text_framed]
    exact h.le
  · rw [diagnostics_framed, text_framed]
    exact h.lt

/-- What is skipped behind an error pays for it. -/
theorem pays_recover {inBlock : Bool} {f : Failure}
    (hn : (recover file inBlock f tape).trace.text ≠ []) :
    (recover file inBlock f tape).trace.Pays false := by
  refine ⟨?_, nofun⟩
  rw [diagnostics_recover]
  obtain ⟨c, cs, hc⟩ := List.exists_cons_of_ne_nil hn
  have := c.utf8Size_pos
  rw [hc, byteSize_cons, List.length_singleton]
  omega

/-- A statement that fails pays with what it took, or with what is skipped if it took nothing. At
the end of a list nothing is skipped, but no statement is begun there either. -/
theorem pays_recovered {inBlock : Bool} (h : tape.Lexed) (ha : Conserves tape a)
    (hp : a.trace.Pays true) (hn : ¬ EndsList inBlock tape.ahead) :
    (recovered file inBlock a).trace.Pays false := by
  unfold recovered
  split <;> rename_i hf
  · rename_i f
    rw [trace_behind]
    by_cases he : a.trace.text = []
    · rw [← ha.ahead_eq h he] at hn
      exact hp.weaken.append (pays_recover (text_recover_ne_nil ha.lexed hn))
    · refine ⟨?_, nofun⟩
      have hlt := hp.lt rfl he
      rw [Trace.diagnostics_append, diagnostics_recover, text_append, byteSize_append,
        List.length_append, List.length_singleton]
      omega
  · exact hp.weaken

theorem pays_statements {inBlock : Bool} {statement : Tape → Attempt}
    (hc : ∀ tape, tape.Lexed → Conserves tape (statement tape))
    (hp : ∀ tape, tape.Lexed → Progress tape (statement tape))
    (hs : ∀ tape, tape.Lexed → (statement tape).trace.Pays true) (h : tape.Lexed) :
    (statements file inBlock statement tape.size tape).trace.Pays false := by
  have htrivia (tape : Tape) : tape.takeTrivia.1.Pays false :=
    .of_silent (Tape.diagnostics_takeMany _ _ _)
  refine statements_rule (P := fun _ a => a.trace.Pays false) hc hp ?_ ?_ ?_ h (Nat.le_refl _)
  · exact fun tape _ _ => htrivia tape
  · -- A brace that closes nothing is skipped, and this pays for it.
    intro tape b h hin hb r ih
    obtain rfl := hin
    have hl : tape.takeTrivia.2.Lexed := (conserves.takeTrivia tape h).lexed
    have hn : ¬ EndsList false tape.takeTrivia.2.ahead := not_endsList_of_stray hb
    exact (htrivia tape).append ((pays_recover (text_recover_ne_nil hl hn)).append ih)
  · intro tape b h hn _ r ih
    have hl : tape.takeTrivia.2.Lexed := (conserves.takeTrivia tape h).lexed
    exact (htrivia tape).append ((pays_recovered hl (hc _ hl) (hs _ hl) hn).append ih)

theorem pays_repeating {test : Lookahead} {body : Tape → Attempt}
    (hc : ∀ tape, tape.Lexed → Conserves tape (body tape))
    (hb : ∀ tape, tape.Lexed → (body tape).trace.Pays spare) (rounds : Nat) (h : tape.Lexed) :
    (repeating test body rounds tape).trace.Pays spare := by
  induction rounds generalizing tape with
  | zero => exact .of_silent rfl
  | succ n ih =>
    rw [repeating]
    split
    · cases hf : (body tape).failure with
      | some f =>
        rw [andThen_of_some hf]
        exact hb tape h
      | none =>
        rw [andThen_of_none hf]
        exact (hb tape h).append (ih (hc tape h).lexed)
    · exact .of_silent rfl

/-! ## Quoted texts -/

/-- A placeholder that fails pays with its percent sign. -/
theorem pays_placeholder {read : Tape → Attempt}
    (hr : ∀ window, window.Lexed → window.ahead ≠ [] →
      (read window).trace.text ≠ [] ∧ (read window).trace.Pays true)
    {t : Token} {p : Placeholder} {c : Char} {cs : List Char}
    (hs : t.slice? p.position.byte (t.stop - 1) = some (c :: cs)) (reach : Nat) :
    (placeholder file read t reach p).trace.Pays false := by
  have hne : (Tape.ofText p.position (c :: cs) reach).ahead ≠ [] := by
    rw [Tape.ahead_ofText, Token.readAll_cons]
    exact nofun
  obtain ⟨hn, hp⟩ := hr _ (Tape.lexed_ofText _ _ _) hne
  unfold placeholder
  rw [hs]
  simp only
  generalize read (.ofText p.position (c :: cs) reach) = a at *
  split <;> rename_i hf
  · exact hp.weaken
  rename_i f
  have hreport : (a.trace ++ .ofNote (.error .placeholder (f.diagnostic file))).Pays false := by
    refine ⟨?_, nofun⟩
    have hlt := hp.lt rfl hn
    rw [Trace.diagnostics_append, Trace.diagnostics_error, text_append, text_error,
      List.append_nil, List.length_append, List.length_singleton]
    omega
  split
  · exact hreport.append (.of_silent (diagnostics_cut fun _ => rfl))
  · exact hreport

/-- The errors inside a quoted text are paid for in front of the closing quote, which is left
over. -/
theorem Interpolates.pays {read : Bool → Tape → Attempt}
    (hr : ∀ isBraced window, window.Lexed → window.ahead ≠ [] →
      (read isBraced window).trace.text ≠ [] ∧ (read isBraced window).trace.Pays true)
    {t : Token} {quote : Char} {xs : List Char} {trace : Trace}
    (h : Interpolates file read t quote xs trace) :
    trace.diagnostics.length < byteSize trace.text := by
  induction h with
  | @last xs ys =>
    have hquote := quote.utf8Size_pos
    rw [text_piece, byteSize_append, byteSize_cons]
    show 0 < _
    omega
  | @next xs lead cs p reach rest _ _ _ _ hslice _ ih =>
    -- The placeholder pays with what it takes, the pieces behind it with what is left.
    have hpaid := (@pays_placeholder file _ (hr p.braced) _ _ _ _ hslice reach).le
    rw [Trace.diagnostics_append, Trace.diagnostics_append, diagnostics_pieceIfAny,
      List.nil_append, List.length_append, text_append, text_append, byteSize_append,
      byteSize_append]
    omega

theorem pays_quoted {read : Bool → Tape → Attempt}
    (hc : ∀ isBraced window, window.Lexed → Conserves window (read isBraced window))
    (hr : ∀ isBraced window, window.Lexed → window.ahead ≠ [] →
      (read isBraced window).trace.text ≠ [] ∧ (read isBraced window).trace.Pays true)
    (h : tape.Lexed) : (quoted file read tape).trace.Pays spare := by
  rcases quoted_cases file hc h with
    he | ⟨t, ts, trace, -, he, rfl | ⟨style, ps, -, hpieces⟩⟩
  · rw [he]
    exact .of_silent rfl
  · rw [he]
    exact .of_silent rfl
  · have hlt := hpieces.pays hr
    rw [he]
    exact ⟨Nat.le_of_lt hlt, fun _ _ => hlt⟩

/-! ## Phrases -/

/-- A phrase that begins by taking a token takes it if it is there. -/
theorem text_signed_ne_nil {descend : Options → Production → Tape → Attempt} {q : Phrase}
    (hq : q.isSigned = true) (o : Options) (h : tape.Lexed) (hn : tape.ahead ≠ []) :
    (q.read descend o tape).trace.text ≠ [] := by
  cases q with
  | andThen first second =>
    cases first with
    | take tag =>
      rw [Phrase.read, andThen_of_none rfl, trace_behind, text_append]
      intro hx
      exact Progress.take tag h rfl hn (List.append_eq_nil_iff.1 hx).1
    | _ => cases hq
  | _ => cases hq

/-- What the first of two readings spares is spent on the second one. If the first one took nothing
there was nothing left, and then the second one costs nothing either. -/
theorem pays_spend {b : Attempt} (ha : Conserves tape a) (hb : Conserves a.tape b)
    (hp : Progress tape a) (hf : a.failure = none) (h₁ : a.trace.Pays true)
    (h₂ : b.trace.Pays false) : (a.trace ++ b.trace).Pays spare := by
  by_cases hn : tape.ahead = []
  · have htext := ha.text
    have htext' := hb.text
    rw [Tape.text_eq_nil hn] at htext
    rw [(List.append_eq_nil_iff.1 htext.symm).2] at htext'
    exact h₁.weaken.append
      (.of_silent (h₂.diagnostics_eq_nil (List.append_eq_nil_iff.1 htext'.symm).1))
  · exact h₁.append_of_ne_nil (hp hf hn) h₂

/-- **The errors inside a phrase are paid for by what it takes.** The induction is on the phrase,
and what has to be spared is left open: a statement has to spare a byte for the error that it may
fail with, the list of statements around it does not. -/
theorem pays_phrase {descend : Options → Production → Tape → Attempt}
    (hc : ∀ o p tape, tape.Lexed → Conserves tape (descend o p tape))
    (hp : ∀ o p tape, p.takes = true → tape.Lexed → Progress tape (descend o p tape))
    (hd : ∀ o p tape, tape.Lexed → (descend o p tape).trace.Pays true)
    (q : Phrase) (spare : Bool) (hq : q.pays spare = true) (o : Options) {tape : Tape}
    (h : tape.Lexed) : (q.read descend o tape).trace.Pays spare := by
  have hconserves (q : Phrase) (o : Options) (tape : Tape) (h : tape.Lexed) :
      Conserves tape (q.read descend o tape) :=
    conserves.phrase hc q o tape h
  induction q generalizing spare o tape with
  | empty | expected | orphan => exact .of_silent rfl
  | take tag => exact .of_silent (tape.diagnostics_take tag)
  | trivia => exact .of_silent (Tape.diagnostics_takeMany _ _ _)
  | node p => exact (hd o p tape h).weaken
  | andThen first second ih₁ ih₂ =>
    have ha := hconserves first o tape h
    rw [Phrase.read]
    -- Either both phrases spare a byte, or the first one takes a token, and what it spares is
    -- spent on the second.
    rcases Bool.or_eq_true _ _ ▸ hq with hboth | hfirst
    · obtain ⟨h₁, h₂⟩ := Bool.and_eq_true_iff.1 hboth
      cases hf : (first.read descend o tape).failure with
      | some f =>
        rw [andThen_of_some hf]
        exact ih₁ spare h₁ o h
      | none =>
        rw [andThen_of_none hf]
        exact (ih₁ spare h₁ o h).append (ih₂ spare h₂ o ha.lexed)
    · obtain ⟨hfirst, h₂⟩ := Bool.and_eq_true_iff.1 hfirst
      obtain ⟨h₁, htakes⟩ := Bool.and_eq_true_iff.1 hfirst
      have hpays := ih₁ true h₁ o h
      cases hf : (first.read descend o tape).failure with
      | some f =>
        rw [andThen_of_some hf]
        exact hpays.weaken
      | none =>
        rw [andThen_of_none hf]
        exact pays_spend ha (hconserves second o _ ha.lexed)
          (progress_phrase hc hp first htakes o h) hf hpays (ih₂ false h₂ o ha.lexed)
  | choose test yes no ihy ihn =>
    obtain ⟨hy, hn⟩ := Bool.and_eq_true_iff.1 hq
    rw [Phrase.read]
    split
    · exact ihy spare hy o h
    · exact ihn spare hn o h
  | spacedCalls yes no ihy ihn =>
    obtain ⟨hy, hn⟩ := Bool.and_eq_true_iff.1 hq
    rw [Phrase.read]
    split
    · exact ihy spare hy o h
    · exact ihn spare hn o h
  | repeating test body ih =>
    exact pays_repeating (hconserves body o) (fun tape => ih spare hq o) _ h
  | statements inBlock statement ih =>
    obtain ⟨hs, hst⟩ := Bool.and_eq_true_iff.1 hq
    obtain ⟨hpays, htakes⟩ := Bool.and_eq_true_iff.1 hst
    obtain rfl : spare = false := by simpa using hs
    exact pays_statements (hconserves statement o)
      (fun tape h => progress_phrase hc hp statement htakes o h)
      (fun tape h => ih true hpays o h) h
  -- A placeholder is read from a text of its own, which its sign makes long enough for one error.
  | quoted named braced ihn ihb =>
    obtain ⟨hn, hb⟩ := Bool.and_eq_true_iff.1 hq
    obtain ⟨hns, hnp⟩ := Bool.and_eq_true_iff.1 hn
    obtain ⟨hbs, hbp⟩ := Bool.and_eq_true_iff.1 hb
    refine pays_quoted (fun isBraced window hw => ?_) (fun isBraced window hw hwn => ?_) h
    · split
      · exact hconserves braced _ window hw
      · exact hconserves named _ window hw
    · split
      · exact ⟨text_signed_ne_nil hbs _ hw hwn, ihb true hbp _ hw⟩
      · exact ⟨text_signed_ne_nil hns _ hw hwn, ihn true hnp _ hw⟩
  | hexDigits =>
    refine .of_silent ?_
    rcases hexDigits_cases h with hx | ⟨t, rest, -, -, hx⟩
    · rw [Phrase.read, hx]
      rfl
    · rw [Phrase.read, hx]
      rfl
  | foreign => exact .of_silent (diagnostics_foreign tape)

theorem pays_enter (p : Production) (o : Options) {inside : Tape → Attempt}
    (hi : ∀ tape, tape.Lexed → (inside tape).trace.Pays spare) (h : tape.Lexed) :
    (p.enter o inside tape).trace.Pays spare := by
  rw [Production.enter_eq]
  split
  · exact pays_framed (hi tape h) _ _ _
  · rw [andThen_of_none rfl]
    exact (Trace.Pays.of_silent (Tape.diagnostics_takeMany _ _ _)).append
      (pays_framed (hi _ (conserves.takeTrivia tape h).lexed) _ _ _)

/-- **A construct has a byte to spare.** The error of a construct that fails is reported by
whoever began it, and it is the spare byte that pays for it. So the number of errors has the size
of the source as its bound. -/
theorem pays_read (n : Nat) (o : Options) (p : Production) (h : tape.Lexed) :
    (p.read n o tape).trace.Pays true := by
  induction n generalizing o p tape with
  | zero => exact pays_enter p o (fun _ _ => .of_silent rfl) h
  | succ n ih =>
    refine pays_enter p o (fun tape ht => ?_) h
    exact pays_phrase (fun o p tape => conserves.read n o p tape)
      (fun o _ _ hp => progress_read n o hp) (fun o p _ h => ih o p h) p.body true p.pays_body o ht

end Attempt

/-- **A source has not more errors than bytes.** The layer with bounded numbers counts errors, and
this keeps the count from overflowing (`Checked.Document`). -/
theorem length_diagnostics_le (o : Options) (source : String) :
    (readDocument o source).diagnostics.length ≤ source.utf8ByteSize := by
  have hl : (Tape.ofText (openSource source).1 (openSource source).2 0).Lexed :=
    Tape.lexed_ofText _ _ _
  have hc := Attempt.conserves.phrase (fun o p tape => Attempt.conserves.read maxNesting o p tape)
    (.statements false .statement) o _ hl
  have hp : (readStatements o source).trace.Pays false :=
    Attempt.pays_phrase (fun o p tape => Attempt.conserves.read maxNesting o p tape)
      (fun o _ _ hp => Attempt.progress_read maxNesting o hp)
      (fun o p _ h => Attempt.pays_read maxNesting o p h) (.statements false .statement) false rfl
      o hl
  have htext : (openSource source).2 =
      (readStatements o source).trace.text ++ (readStatements o source).tape.text :=
    (Tape.text_ofText _ _ _).symm.trans hc.text
  rw [readDocument_eq, Attempt.diagnostics_framed, utf8ByteSize_source, htext, byteSize_append]
  exact Nat.le_trans hp.le (by omega)

end Heddle
