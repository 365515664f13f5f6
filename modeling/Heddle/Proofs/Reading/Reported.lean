import Heddle.Proofs.Reading.GrammarInvariant
import Heddle.Proofs.Reading.Interpolated
import Heddle.Proofs.Tree.Pruned

/-!
# Where errors are reported

An error is reported at the token that could not be used, so it is never behind the place where the
reading goes on. That it can be *at* this place is seldom: a block whose last statement breaks off
at the closing brace goes on at the brace. An error inside a quoted text is in front of the closing
quote at the latest, so **it is always in front of the place behind the text**.
-/

set_option autoImplicit false

namespace Heddle

open Text

/-! ## The order of places -/

namespace Diagnostic

/-- The error is shown in front of a place. Errors carry lines and columns only, so places are
compared by these. -/
def Before (d : Diagnostic) (p : Position) : Prop :=
  d.line < p.line ∨ d.line = p.line ∧ d.column < p.column

/-- The error is shown in front of a place or at it. -/
def UpTo (d : Diagnostic) (p : Position) : Prop :=
  d.line < p.line ∨ d.line = p.line ∧ d.column ≤ p.column

variable {d : Diagnostic} {p : Position}

theorem Before.upTo (h : d.Before p) : d.UpTo p := h.imp_right (·.imp_right Nat.le_of_lt)

/-- One character further on a place is a new one. -/
theorem UpTo.after (h : d.UpTo p) (c : Char) : d.Before (p.after c) := by
  unfold Position.after Before
  split
  · exact .inl (Nat.lt_succ_of_le (h.elim Nat.le_of_lt fun h => Nat.le_of_eq h.1))
  · exact h.imp_right (·.imp_right Nat.lt_succ_of_le)

theorem UpTo.past (h : d.UpTo p) (cs : List Char) : d.UpTo (p.past cs) := by
  induction cs generalizing p with
  | nil => exact h
  | cons c cs ih => exact ih (h.after c).upTo

theorem Before.past (h : d.Before p) (cs : List Char) : d.Before (p.past cs) := by
  induction cs generalizing p with
  | nil => exact h
  | cons c cs ih => exact ih (h.upTo.after c)

theorem UpTo.before (h : d.UpTo p) {cs : List Char} (hn : cs ≠ []) : d.Before (p.past cs) := by
  obtain ⟨c, cs, rfl⟩ := List.exists_cons_of_ne_nil hn
  exact (h.after c).past cs

end Diagnostic

/-- The diagnostic of a failure is at the place of the failure. -/
theorem Failure.upTo_diagnostic (file : Option String) {f : Failure} {p : Position}
    (h : f.position = p) : (f.diagnostic file).UpTo p := by
  subst h
  exact .inr ⟨rfl, Nat.le_refl _⟩

/-! ## Traces without errors -/

@[simp] theorem Tape.diagnostics_take (tag : DataTag) (tape : Tape) :
    (tape.take tag).1.diagnostics = [] := by
  unfold take
  split <;> rfl

@[simp] theorem Tape.diagnostics_takeMany (tag : DataTag) (n : Nat) (tape : Tape) :
    (tape.takeMany tag n).1.diagnostics = [] := by
  induction n generalizing tape with
  | zero => rfl
  | succ n ih => rw [takeMany_succ, Trace.diagnostics_append, ih, diagnostics_take]; rfl

namespace Attempt

@[simp] theorem diagnostics_framed (file : Option String) (kind : NodeKind) (start : Position)
    (a : Attempt) : (a.framed file kind start).trace.diagnostics = a.trace.diagnostics := by
  unfold framed
  split <;> simp

/-- Skipping reports the failure and nothing else. -/
theorem diagnostics_recover (file : Option String) (inBlock : Bool) (f : Failure) (tape : Tape) :
    (recover file inBlock f tape).trace.diagnostics = [f.diagnostic file] := by
  simp [recover]

theorem diagnostics_cut {t : Token} {start stop : Nat} {use : List Char → Trace}
    (hu : ∀ cs, (use cs).diagnostics = []) : (cut t start stop use).diagnostics = [] := by
  unfold cut
  split
  · exact hu _
  · rfl

theorem diagnostics_pieceIfAny (tag : DataTag) (cs : List Char) :
    (pieceIfAny tag cs).diagnostics = [] := by
  unfold pieceIfAny
  split <;> rfl

theorem diagnostics_foreign (tape : Tape) : (foreign tape).trace.diagnostics = [] := by
  unfold foreign
  split
  · rfl
  · split
    · simp [diagnostics_cut fun _ => diagnostics_pieceIfAny _ _]
    · rfl

/-! ## Readings -/

/-- The errors of an attempt are in front of the place where it stopped, or at it. -/
structure Reports (tape : Tape) (a : Attempt) : Prop where
  conserves : Conserves tape a
  upTo : ∀ d ∈ a.trace.diagnostics, d.UpTo a.tape.place

variable {file : Option String} {tape : Tape} {a b : Attempt}

theorem Reports.of_silent (hc : Conserves tape a) (h : a.trace.diagnostics = []) :
    Reports tape a := ⟨hc, by rw [h]; exact nofun⟩

theorem Reports.behind (ha : Reports tape a) (hb : Reports a.tape b) :
    Reports tape (b.behind a.trace) := by
  refine ⟨ha.conserves.behind hb.conserves, fun d hd => ?_⟩
  rw [trace_behind, Trace.diagnostics_append] at hd
  rcases List.mem_append.1 hd with hd | hd
  · rw [tape_behind, hb.conserves.place]
    exact (ha.upTo d hd).past _
  · exact hb.upTo d hd

theorem Reports.recover (h : tape.Lexed) (inBlock : Bool) {f : Failure}
    (hf : f.position = tape.place) : Reports tape (recover file inBlock f tape) := by
  have hc := Conserves.recover h file inBlock f
  refine ⟨hc, fun d hd => ?_⟩
  rw [diagnostics_recover] at hd
  rw [hc.place]
  exact (List.mem_singleton.1 hd ▸ Failure.upTo_diagnostic file hf).past _

/-- A placeholder is read up to the end of the text it stands in at the most. -/
theorem upTo_placeholder {read : Tape → Attempt}
    (hr : ∀ window, (read window).Stops ∧ (window.Lexed → Reports window (read window)))
    {t : Token} {q : Placeholder} {cs : List Char}
    (hs : t.slice? q.position.byte (t.stop - 1) = some cs) (reach : Nat) :
    ∀ d ∈ (placeholder file read t reach q).trace.diagnostics, d.UpTo (q.position.past cs) := by
  obtain ⟨hstops, hreports⟩ := hr (.ofText q.position cs reach)
  obtain ⟨hc, hupTo⟩ := hreports (Tape.lexed_ofText _ _ _)
  unfold placeholder
  rw [hs]
  simp only
  generalize read (.ofText q.position cs reach) = a at *
  -- What is left of the text is behind the place where the placeholder stopped.
  have hend : a.tape.place.past a.tape.text = q.position.past cs := by
    have htext := hc.text
    rw [Tape.text_ofText] at htext
    rw [hc.place, Tape.place_ofText, ← Position.past_append, ← htext]
  have hread (d : Diagnostic) (hd : d ∈ a.trace.diagnostics) : d.UpTo (q.position.past cs) :=
    hend ▸ (hupTo d hd).past _
  split <;> rename_i hf
  · exact hread
  rename_i f
  have hfailure : (f.diagnostic file).UpTo (q.position.past cs) :=
    hend ▸ (Failure.upTo_diagnostic file (hstops f hf)).past _
  have hreport : ∀ d ∈ (a.trace ++
      .ofNote (.error .placeholder (f.diagnostic file))).diagnostics,
      d.UpTo (q.position.past cs) := by
    intro d hd
    rw [Trace.diagnostics_append, Trace.diagnostics_error] at hd
    rcases List.mem_append.1 hd with hd | hd
    · exact hread d hd
    · exact List.mem_singleton.1 hd ▸ hfailure
  split
  · intro d hd
    rw [Trace.diagnostics_append, diagnostics_cut fun _ => rfl, List.append_nil] at hd
    exact hreport d hd
  · exact hreport

/-- No error inside a quoted text is behind its closing quote. -/
theorem Interpolates.upTo {read : Bool → Tape → Attempt}
    (hr : ∀ isBraced window, (read isBraced window).Stops ∧
      (window.Lexed → Reports window (read isBraced window)))
    {t : Token} {body : List Char} {quote : Char} (hc : t.chars = body ++ [quote])
    {xs : List Char} {trace : Trace} (h : Interpolates file read t quote xs trace) :
    ∀ d ∈ trace.diagnostics, d.UpTo (t.position.past body) := by
  induction h with
  | last => exact List.forall_mem_nil _
  | @next xs lead cs p reach rest _ ht hplace _ hslice _ ih =>
    obtain rfl : body = xs ++ lead ++ '%' :: cs := List.append_cancel_right (hc.symm.trans ht)
    intro d hd
    rw [Trace.diagnostics_append, Trace.diagnostics_append, diagnostics_pieceIfAny,
      List.nil_append] at hd
    rcases List.mem_append.1 hd with hd | hd
    · have hup := upTo_placeholder (hr p.braced) hslice reach d hd
      rwa [hplace, ← Position.past_append] at hup
    · exact ih d hd

/-- **The errors inside a quoted text are in front of the place behind it.** The place of an error
in a placeholder is counted in the source, and the placeholder ends in front of the closing quote.
-/
theorem before_quoted {read : Bool → Tape → Attempt}
    (hr : ∀ isBraced window, (read isBraced window).Stops ∧
      (window.Lexed → Reports window (read isBraced window))) (h : tape.Lexed) :
    ∀ d ∈ (quoted file read tape).trace.diagnostics,
      d.Before (quoted file read tape).tape.place := by
  have hc (isBraced : Bool) (window : Tape) (hw : window.Lexed) :
      Conserves window (read isBraced window) := ((hr isBraced window).2 hw).conserves
  rcases quoted_cases file hc h with
    he | ⟨t, ts, trace, ha, he, rfl | ⟨style, ps, hk, hpieces⟩⟩
  · rw [he]
    exact List.forall_mem_nil _
  · rw [he]
    exact List.forall_mem_nil _
  · obtain ⟨body, hbody, -⟩ := Token.pieces_quoted (h.ahead ▸ ha) hk
    intro d hd
    rw [he] at hd ⊢
    have hup := hpieces.upTo hr hbody d hd
    rw [tape_ofTaken, h.place_tail ha, hbody, Position.past_append, ← (h.cons ha 0).2.1]
    exact hup.before (List.cons_ne_nil _ _)

/-- **No error is reported behind the place where the reading is.** An error is told of a token
ahead, so it may be at the place of the reading, and whatever is taken behind it puts it in front.
-/
theorem reports : GrammarInvariant file fun tape a => tape.Lexed → Reports tape a where
  nothing _ h := .of_silent (.nothing h) rfl
  take tag tape h := .of_silent (.take tag h) (tape.diagnostics_take tag)
  fail f _ _ h := .of_silent (.fail h f) rfl
  behind ha hb h := (ha h).behind (hb (ha h).conserves.lexed)
  framed {_ _ a} ha h := by
    refine ⟨(ha h).conserves.framed _ _ _, ?_⟩
    rw [diagnostics_framed, tape_framed]
    exact (ha h).upTo
  recover inBlock f _ hf h := .recover h inBlock hf
  quoted hr _ h := by
    refine ⟨conserves.quoted (fun isBraced window hw => ((hr isBraced window).2 hw).conserves) h,
      ?_⟩
    exact fun d hd => (before_quoted hr h d hd).upTo
  hexDigits tape h := by
    refine .of_silent (.hexDigits h) ?_
    rcases hexDigits_cases h with hd | ⟨t, rest, -, -, hd⟩ <;> (rw [hd]; rfl)
  foreign tape h := .of_silent (.foreign h) (diagnostics_foreign tape)

end Attempt

end Heddle
