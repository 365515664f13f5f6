import Heddle.Proofs.Document.Protocol
import Heddle.Proofs.Reading.GrammarInvariant
import Heddle.Proofs.Reading.Located

/-!
# Every reading has the right extents

The steps of `Attempt.Locates` are put together to readings. A step hands on to the next one that
its text was conserved, that its tape stays grounded, and that its extents are right if its tape
was (`Sited`). The file is part of the statement, since an extent names it: constructs are read
with the same file everywhere, inside placeholders too.
-/

set_option autoImplicit false

namespace Heddle

namespace Attempt

/-- What the steps of a reading hand on to each other. The extents are right only from a tape that
is grounded, and that a tape is grounded is handed on by the second field. -/
structure Sited (file : Option String) (tape : Tape) (a : Attempt) : Prop where
  conserves : Conserves tape a
  grounds : Grounds tape a
  locates : tape.Grounded → Locates file tape a

variable {file : Option String} {tape : Tape} {a b : Attempt}

theorem Sited.behind (ha : Sited file tape a) (hb : Sited file a.tape b) :
    Sited file tape (b.behind a.trace) where
  conserves := ha.conserves.behind hb.conserves
  grounds := ⟨hb.conserves.lexed, fun g => hb.grounds.grounded (ha.grounds.grounded g)⟩
  locates g := (ha.locates g).behind ha.conserves (hb.locates (ha.grounds.grounded g))

theorem Sited.framed (ha : Sited file tape a) {kind : NodeKind}
    (hk : a.failure = none ∨ kind ≠ .invalid) :
    Sited file tape (a.framed file kind tape.place) where
  conserves := ha.conserves.framed _ _ _
  grounds := ⟨by rw [tape_framed]; exact ha.grounds.lexed,
    fun g => by rw [tape_framed]; exact ha.grounds.grounded g⟩
  locates g := (ha.locates g).framed g hk

/-- Behind its sign a placeholder is read as if nothing in front of it had been reached. So the
extents in it may be computed from a tape that is grounded, which the one it is read from is not.
-/
theorem LocatesPlaceholders.of_signed {read : Tape → Attempt} (hs : Signed read)
    (hr : ∀ tape, tape.Lexed → Sited file tape (read tape)) :
    LocatesPlaceholders file read := by
  intro p cs reach
  have hw := Token.readAll_percent p cs
  have hat := (hr _ (Tape.lexed_ofText p ('%' :: cs) p.byte)).locates
    (Nat.le_of_eq (by rw [Tape.place_ofText]; rfl))
  have hl := hat.located
  rw [Tape.place_ofText] at hl
  exact (congrArg (fun a => Trace.Located file p a.trace) (hs _ _ _ hw rfl reach)).mpr hl

/-- **Every reading has the extents of its text.** What an extent has to be is computed from the
text in front of a node and the data inside it, so nothing is said of tokens. -/
theorem sited : GrammarInvariant file fun tape a => tape.Lexed → Sited file tape a where
  nothing tape h := ⟨.nothing h, .nothing h, fun _ => .nothing tape⟩
  take tag _ h := ⟨.take tag h, .take h tag, fun _ => .take h tag⟩
  fail f tape _ h := ⟨.fail h f, .fail h f, fun _ => .fail f tape⟩
  behind ha hb h := (ha h).behind (hb (ha h).conserves.lexed)
  framed {p _ _} ha h := (ha h).framed (.inr p.kind_ne_invalid)
  recover inBlock f tape _ h :=
    ⟨.recover h file inBlock f, grounds.recover file inBlock f tape h, fun g =>
      .recover h g inBlock f⟩
  quoted {read _} hr hs h := by
    have hc (isBraced : Bool) (window : Tape) (hw : window.Lexed) :
        Conserves window (read isBraced window) := ((hr isBraced window).2 hw).conserves
    refine ⟨conserves.quoted hc h, .quoted h _ _, fun _ => .quoted hc (fun isBraced => ?_) h⟩
    exact .of_signed (hs isBraced) fun window => (hr isBraced window).2
  hexDigits _ h := ⟨.hexDigits h, .hexDigits h, fun _ => .hexDigits h⟩
  foreign _ h := ⟨.foreign h, .foreign h, fun _ => .foreign h⟩

end Attempt

end Heddle
