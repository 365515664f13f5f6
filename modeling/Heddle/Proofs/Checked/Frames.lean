import Heddle.Proofs.Checked.Plan

/-!
# What a reading leaves as it was

While a construct is read, a reader changes its modes: the digits of a color are read with another
preference, a placeholder is read up to a limit of its own, a node is one level deeper, and a look
ahead moves the cursor. All of this has to be undone however the construct ends, since what comes
next is read in the same modes.

`Reader.Restores` says what has to be as before, and `Reader.Onward` adds that the reader is not
further back. **Whatever is read by scans is read onward** (`Plan.OfScans.onward`), from any state
in which no look is pending. Neither a tape nor room to count play a part in this: only readings
that end are spoken of, and their steps are taken apart one by one (`of_bind`). A look leaves the
cursor as it was (`eq_of_look`), and a quoted text is left exactly at its end (`of_read_string`).
-/

set_option autoImplicit false

namespace Heddle

open Text

namespace Checked

/-- What a computation has gone through to its result. A reading that has ended is taken apart
with this, step by step from its beginning, and nothing has to be known of why a step succeeds. -/
theorem of_bind {α β : Type} {x : Checked α} {f : α → Checked β} {b : β}
    (h : x >>= f = .ok b) : ∃ a, x = .ok a ∧ f a = .ok b := by
  cases x with
  | error e => cases h
  | ok a => exact ⟨a, rfl, h⟩

theorem of_add {a b c : Nat} (h : add a b = .ok c) : c = a + b := by
  unfold add at h
  split at h
  · cases h
    rfl
  · cases h

theorem of_sub {a b c : Nat} (h : sub a b = .ok c) : c = a - b := by
  unfold sub at h
  split at h
  · cases h
    rfl
  · cases h

/-- A piece has as many bytes as lie between its ends, which are in order. -/
theorem of_piece {start stop : Nat} {cs xs : List Char} (h : piece start stop cs = .ok xs) :
    start ≤ stop ∧ byteSize xs = stop - start := by
  have htake {n : Nat} {cs xs : List Char} (h : takeBytes? n cs = some xs) : byteSize xs = n := by
    fun_induction takeBytes? n cs generalizing xs with
    | case1 => cases h; rfl
    | case2 => cases h
    | case3 n c cs hle ih =>
      obtain ⟨ys, hys, rfl⟩ := Option.map_eq_some_iff.1 h
      rw [byteSize_cons, ih hys]
      omega
    | case4 => cases h
  unfold piece slice? at h
  split at h <;> rename_i hs
  · cases h
    split at hs <;> rename_i hle
    · obtain ⟨ys, -, hx⟩ := Option.bind_eq_some_iff.1 hs
      exact ⟨hle, htake hx⟩
    · cases hs
  · cases h

/-! ## The cursor -/

/-- A step goes on to another place, and nothing else changes. The place is that behind the token;
at the end of what can be read it is the same. -/
theorem of_step {c c' : Cursor} {t : Option Token} (h : step c = .ok (t, c')) :
    c' = { c with place := c'.place } ∧ c.place.byte ≤ c'.place.byte ∧
      (∀ u, t = some u → u.position = c.place ∧ c'.place.byte = u.stop) ∧
      (t = none → c' = c) := by
  unfold step at h
  split at h
  · cases h
    exact ⟨rfl, Nat.le_refl _, fun u hu => absurd hu.symm (Option.some_ne_none u), fun _ => rfl⟩
  · obtain ⟨⟨kind, s⟩, -, h⟩ := of_bind h
    obtain ⟨text, hp, h⟩ := of_bind h
    cases h
    obtain ⟨hle, hsize⟩ := of_piece hp
    refine ⟨rfl, hle, fun u hu => ?_, fun hn => absurd hn (Option.some_ne_none _)⟩
    cases hu
    refine ⟨rfl, ?_⟩
    show s.place.byte = c.place.byte + (String.ofList text).utf8ByteSize
    rw [utf8ByteSize_ofList, hsize]
    omega

/-- What the next token is does not depend on whether a look is pending. So a look sees what a
take would take. -/
theorem step_beginLook (c : Cursor) :
    step c.beginLook =
      (step c).map fun (t, c') => (t, { c.beginLook with place := c'.place }) := by
  have hr : c.beginLook.readable = c.readable := rfl
  cases hc : c.readable with
  | nil =>
    rw [step, step, hr, hc]
    rfl
  | cons x xs =>
    rw [step, step, hr, hc]
    dsimp only [Cursor.beginLook]
    cases scan c.preferHex x ⟨c.place, x :: xs⟩ with
    | error e => rfl
    | ok found =>
      rw [ok_bind, ok_bind]
      cases piece c.place.byte found.2.place.byte c.source with
      | error e => rfl
      | ok text => rfl

/-- Taking a token goes behind it and keeps in mind where it began. At the end nothing is taken,
and the cursor is as it was. -/
theorem of_take {c c' : Cursor} {t : Option Token} (h : take c = .ok (t, c')) :
    (t = none ∧ c' = c) ∨
      ∃ u behind, t = some u ∧ step c = .ok (some u, { c with place := behind }) ∧
        c' = { c with place := behind, previous := some c.place } := by
  unfold take at h
  split at h
  · cases h
  · obtain ⟨⟨found, after⟩, hs, h⟩ := of_bind h
    obtain ⟨hafter, -, -, hnone⟩ := of_step hs
    cases found with
    | none =>
      cases h
      exact .inl ⟨rfl, hnone rfl⟩
    | some u =>
      cases h
      exact .inr ⟨u, after.place, rfl, by rw [hs, ← hafter], by rw [hafter]⟩

/-- A look at one token is given back. Besides it is known that a step was possible here, which is
what the loops need when they take the token afterwards. -/
theorem of_peek {c c' : Cursor} {t : Option Token} (hi : c.origin = none)
    (h : peek c = .ok (t, c')) : c' = c ∧ ∃ after, step c = .ok (t, after) := by
  obtain ⟨⟨found, after⟩, hl, h⟩ := of_bind h
  cases h
  rw [look, step_beginLook] at hl
  cases hs : step c with
  | error e => rw [hs] at hl; cases hl
  | ok ans =>
    rw [hs] at hl
    cases hl
    obtain ⟨source, place, previous, origin, limit, preferHex⟩ := c
    obtain rfl : origin = none := hi
    exact ⟨rfl, _, rfl⟩

theorem of_seek {c c' : Cursor} {place : Position} (h : seek c place = .ok c') :
    c' = { c with place, previous := none } := by
  unfold seek Cursor.seek at h
  split at h <;> rename_i hs
  · split at hs
    · cases hs
    · split at hs
      · cases hs
      · cases hs
        cases h
        rfl
  · cases h

/-! ## Looks -/

/-- Looking at one token after the other changes nothing but the place. The rounds and the state
of the scan do not matter to this, and neither does the answer. -/
theorem Scan.of_look (s : Scan) {rounds : Nat} {x : s.State} {c c' : Cursor} {answer : Bool}
    (h : s.look rounds x c = .ok (answer, c')) : ∃ place, c' = { c.beginLook with place } := by
  induction rounds generalizing x c with
  | zero => cases h
  | succ n ih =>
    obtain ⟨⟨t, d⟩, hl, h⟩ := of_bind h
    obtain ⟨hd, -⟩ := of_step hl
    cases t with
    | none =>
      cases h
      exact ⟨_, hd⟩
    | some t =>
      obtain ⟨v, -, h⟩ := of_bind h
      cases v with
      | decided b =>
        cases h
        exact ⟨_, hd⟩
      | undecided x =>
        obtain ⟨place, hp⟩ := ih h
        -- The look that was begun first is the one that is pending.
        exact ⟨place, by rw [hp, hd]; rfl⟩

theorem Scan.eq_of_run (s : Scan) {c c' : Cursor} {answer : Bool} (hi : c.origin = none)
    (h : s.run c = .ok (answer, c')) : c' = c := by
  obtain ⟨⟨b, d⟩, hl, h⟩ := of_bind h
  cases h
  obtain ⟨place, rfl⟩ := s.of_look hl
  obtain ⟨source, place, previous, origin, limit, preferHex⟩ := c
  obtain rfl : origin = none := hi
  rfl

/-- Looks that are made of scans, one behind the other. `Scanned` has the look as a function and
only says what it does to cursors that show tokens; that it leaves other cursors alone as well has
to be known from how it was built. -/
inductive Scanned.OfScans : {test : Lookahead} → Scanned test → Prop where
  | scan {test : Lookahead} (s : Scan) (h : s.Decides test) : OfScans (.ofScan s h)
  | either {a b : Lookahead} [ha : Scanned a] [hb : Scanned b] (h₁ : OfScans ha) (h₂ : OfScans hb) :
    OfScans (@Scanned.either a b ha hb)
  | both {a b : Lookahead} [ha : Scanned a] [hb : Scanned b] (h₁ : OfScans ha) (h₂ : OfScans hb) :
    OfScans (@Scanned.both a b ha hb)

/-- The look ahead is made of scans. It is a class for the same reason as `Scanned`: the instances
are found along the form of the predicate. -/
class ByScans (test : Lookahead) [hs : Scanned test] : Prop where
  ofScans : Scanned.OfScans hs

/-- **A look leaves the cursor as it was**, whatever the cursor is in front of. No tokens have to
be shown, and no room is asked for: the look has ended, and that is enough. -/
theorem eq_of_look {test : Lookahead} [hs : Scanned test] [h : ByScans test] {c c' : Cursor}
    {answer : Bool} (hi : c.origin = none) (hr : Scanned.run test c = .ok (answer, c')) :
    c' = c := by
  replace h := h.ofScans
  induction h generalizing c c' answer with
  | scan s h => exact s.eq_of_run hi hr
  | either _ _ ih₁ ih₂ =>
    obtain ⟨⟨b, d⟩, h₁, hr⟩ := of_bind hr
    obtain rfl := ih₁ hi h₁
    cases b with
    | true => cases hr; rfl
    | false => exact ih₂ hi hr
  | both _ _ ih₁ ih₂ =>
    obtain ⟨⟨b, d⟩, h₁, hr⟩ := of_bind hr
    obtain rfl := ih₁ hi h₁
    cases b with
    | true => exact ih₂ hi hr
    | false => cases hr; rfl

section

open Lookahead Token

variable (p q : Token → Bool)

instance : ByScans (next p) := ⟨.scan _ (nextScan_decides p)⟩

instance : ByScans (significant p) := ⟨.scan _ (significantScan_decides p)⟩

instance : ByScans (pair p q) := ⟨.scan _ (pairScan_decides p q)⟩

instance {a b : Lookahead} [Scanned a] [Scanned b] [ha : ByScans a] [hb : ByScans b] :
    ByScans fun ts => a ts || b ts :=
  ⟨.either ha.ofScans hb.ofScans⟩

instance {a b : Lookahead} [Scanned a] [Scanned b] [ha : ByScans a] [hb : ByScans b] :
    ByScans fun ts => a ts && b ts :=
  ⟨.both ha.ofScans hb.ofScans⟩

instance : ByScans isObject := inferInstanceAs (ByScans (pair _ _))

instance : ByScans isCall := inferInstanceAs (ByScans (pair _ _))

instance : ByScans isSpacedCall := ⟨.scan _ spacedCallScan_decides⟩

instance : ByScans isDescendant :=
  inferInstanceAs (ByScans fun ts => next isTrivia ts && significant (!·.refusesBlank) ts)

instance : ByScans Phrase.isSelectorPart :=
  inferInstanceAs (ByScans fun ts =>
    pair (isMark .dot) isName ts || pair (isMark .hash) isName ts ||
      pair (isMark .colon) isName ts || next (isMark .leftBracket) ts)

instance : ByScans isRule :=
  ⟨.scan _ fun ts h => eval_landmarkScan (· == .block) 0 ts (by rwa [Nat.zero_add])⟩

instance : ByScans isSelectorCall :=
  ⟨.scan _ fun ts h => eval_landmarkScan (· == .arrow) 0 ts (by rwa [Nat.zero_add])⟩

instance : ByScans isMultipleType :=
  ⟨.scan barScan fun ts h => eval_barScan 0 ts (by rwa [Nat.zero_add])⟩

instance : ByScans isMapType := ⟨.scan colonScan colonScan_decides⟩

instance : ByScans isAssignment := ⟨.scan assignmentScan AssignmentScan.decides⟩

end

/-! ## Readers -/

/-- The reader `r'` reads the same source in the modes of `r`, and no look is pending. It is what
the construct behind the one that was read relies on. -/
structure Reader.Restores (r r' : Reader) : Prop where
  source : r'.cursor.source = r.cursor.source
  limit : r'.cursor.limit = r.cursor.limit
  preferHex : r'.cursor.preferHex = r.cursor.preferHex
  idle : r'.cursor.origin = none
  depth : r'.depth = r.depth

/-- Besides, `r'` is not further back. Inside a quoted text a reader does jump back, so this holds
of constructs and not of every step. -/
structure Reader.Onward (r r' : Reader) : Prop extends r.Restores r' where
  place : r.cursor.place.byte ≤ r'.cursor.place.byte

theorem Reader.Restores.trans {r₁ r₂ r₃ : Reader} (h : r₁.Restores r₂) (h' : r₂.Restores r₃) :
    r₁.Restores r₃ :=
  ⟨h'.source.trans h.source, h'.limit.trans h.limit, h'.preferHex.trans h.preferHex, h'.idle,
    h'.depth.trans h.depth⟩

namespace Reader.Onward

theorem refl {r : Reader} (h : r.cursor.origin = none) : r.Onward r :=
  ⟨⟨rfl, rfl, rfl, h, rfl⟩, Nat.le_refl _⟩

theorem trans {r₁ r₂ r₃ : Reader} (h : r₁.Onward r₂) (h' : r₂.Onward r₃) : r₁.Onward r₃ :=
  ⟨h.toRestores.trans h'.toRestores, Nat.le_trans h.place h'.place⟩

end Reader.Onward

/-- From a state without a pending look, what is read is read onward. Every reading of the grammar
is shown to be of this form, the failing ones with the others. -/
def ReadsOnward (run : Reader → Checked Outcome) : Prop :=
  ∀ {r : Reader} {out : Outcome}, r.cursor.origin = none → run r = .ok out → r.Onward out.reader

/-- One reading behind another. -/
theorem Outcome.onward_andThen {r : Reader} {out out' : Outcome} {next : Reader → Checked Outcome}
    (h : r.Onward out.reader) (hn : ReadsOnward next) (ho : out.andThen next = .ok out') :
    r.Onward out'.reader := by
  unfold andThen at ho
  split at ho
  · cases ho
    exact h
  · obtain ⟨last, hl, ho⟩ := of_bind ho
    have hlast := hn h.idle hl
    cases ho
    exact h.trans hlast

namespace Reader

theorem of_peek {r r' : Reader} {t : Option Token} (hi : r.cursor.origin = none)
    (h : r.peek = .ok (t, r')) : r' = r ∧ ∃ after, step r.cursor = .ok (t, after) := by
  obtain ⟨⟨found, cursor⟩, hp, h⟩ := of_bind h
  cases h
  obtain ⟨rfl, hs⟩ := Checked.of_peek hi hp
  exact ⟨rfl, hs⟩

/-- A failure is told where the reader stands, and moves it nowhere. -/
theorem of_fail {cause : Option Token → Cause} {r : Reader} {out : Outcome}
    (hi : r.cursor.origin = none) (h : r.fail cause = .ok out) :
    out.reader = r ∧ out.failure.isSome = true := by
  obtain ⟨⟨t, r'⟩, hp, h⟩ := of_bind h
  cases h
  exact ⟨(of_peek hi hp).1, rfl⟩

theorem onward_fail (cause : Option Token → Cause) : ReadsOnward (fail cause) := by
  intro r out hi h
  rw [(of_fail hi h).1]
  exact .refl hi

/-- A reader whose cursor has taken a token. The lemma asks for the parts of the new reader and
not for a form of it, since what was reached and the errors may be set at the same time. -/
theorem onward_of_step {r r' : Reader} {t : Option Token} {c : Cursor} (hi : r.cursor.origin = none)
    (h : step r.cursor = .ok (t, c)) (hs : r'.cursor.source = r.cursor.source)
    (hl : r'.cursor.limit = r.cursor.limit) (hh : r'.cursor.preferHex = r.cursor.preferHex)
    (ho : r'.cursor.origin = r.cursor.origin) (hd : r'.depth = r.depth)
    (hp : r'.cursor.place = c.place) : r.Onward r' :=
  ⟨⟨hs, hl, hh, ho.trans hi, hd⟩, by rw [hp]; exact (of_step h).2.1⟩

theorem onward_take (tag : DataTag) : ReadsOnward (take tag) := by
  intro r out hi h
  obtain ⟨⟨t, c⟩, ht, h⟩ := of_bind h
  rcases of_take ht with ⟨rfl, rfl⟩ | ⟨u, behind, rfl, hs, rfl⟩
  · cases h
    exact .refl hi
  · dsimp only at h
    split at h
    · cases h
      exact onward_of_step hi hs rfl rfl rfl rfl rfl rfl
    · obtain ⟨reach, -, h⟩ := of_bind h
      cases h
      exact onward_of_step hi hs rfl rfl rfl rfl rfl rfl

theorem onward_takeTrivia (rounds : Nat) : ReadsOnward (takeTrivia rounds) := by
  induction rounds with
  | zero => exact nofun
  | succ n ih =>
    intro r out hi h
    obtain ⟨⟨t, r'⟩, hp, h⟩ := of_bind h
    obtain ⟨hr, -⟩ := of_peek hi hp
    subst r'
    dsimp only at h
    split at h
    · obtain ⟨first, hf, h⟩ := of_bind h
      exact Outcome.onward_andThen (onward_take _ hi hf) ih h
    · cases h
      exact .refl hi

/-- Skipping goes on by one token in every round. The depth that it counts is a number of its own
and not that of the reader. -/
theorem onward_skip (inBlock : Bool) (rounds : Nat) :
    ∀ depth, ReadsOnward (skip inBlock rounds depth) := by
  -- The rounds decrease whichever way the loop goes on, and the depth may be any.
  induction rounds with
  | zero => exact fun _ => nofun
  | succ n ih =>
    intro depth r out hi h
    obtain ⟨⟨t, r'⟩, hp, h⟩ := of_bind h
    obtain ⟨hr, -⟩ := of_peek hi hp
    subst r'
    have more {depth : Nat} {out : Outcome}
        (h : (do (← r.take .invalid).andThen (skip inBlock n depth) : Checked Outcome) = .ok out) :
        r.Onward out.reader := by
      obtain ⟨first, hf, h⟩ := of_bind h
      exact Outcome.onward_andThen (onward_take _ hi hf) (ih _) h
    cases t with
    | none =>
      cases h
      exact .refl hi
    | some t =>
      dsimp only at h
      split at h
      · split at h
        · cases h
          exact .refl hi
        split at h
        · exact onward_take _ hi h
        · obtain ⟨depth, -, h⟩ := of_bind h
          exact more h
      split at h
      · obtain ⟨depth, -, h⟩ := of_bind h
        exact more h
      split at h
      · exact onward_take _ hi h
      · exact more h

/-- Counting an error changes no mode. -/
theorem onward_recover (file : Option String) (inBlock : Bool) (f : Failure) :
    ReadsOnward (recover file inBlock f) := by
  intro r out hi h
  obtain ⟨errors, -, h⟩ := of_bind h
  obtain ⟨skipped, hs, h⟩ := of_bind h
  cases h
  obtain ⟨⟨hsource, hlimit, hhex, hidle, hdepth⟩, hplace⟩ :=
    onward_skip inBlock _ _ (r := { r with errors }) hi hs
  refine ⟨⟨?_, ?_, ?_, ?_, ?_⟩, ?_⟩ <;> simpa only [Outcome.behind, Outcome.reader_framed]

theorem onward_recovered {r : Reader} {out out' : Outcome} {file : Option String} {inBlock : Bool}
    (h : r.Onward out.reader) (ho : recovered file inBlock out = .ok out') :
    r.Onward out'.reader := by
  unfold recovered at ho
  split at ho
  · obtain ⟨last, hl, ho⟩ := of_bind ho
    have hlast := onward_recover _ _ _ h.idle hl
    cases ho
    exact h.trans hlast
  · cases ho
    exact h

theorem onward_repeating {test : Cursor → Checked (Bool × Cursor)}
    {body : Reader → Checked Outcome}
    (ht : ∀ {c c' : Cursor} {answer : Bool}, c.origin = none → test c = .ok (answer, c') → c' = c)
    (hb : ReadsOnward body) (rounds : Nat) :
    ∀ parts, ReadsOnward (repeating test body rounds parts) := by
  induction rounds with
  | zero => exact fun _ => nofun
  | succ n ih =>
    intro parts r out hi h
    obtain ⟨⟨again, c⟩, hl, h⟩ := of_bind h
    obtain rfl := ht hi hl
    cases again with
    | false =>
      cases h
      exact .refl hi
    | true =>
      obtain ⟨first, hf, h⟩ := of_bind h
      refine Outcome.onward_andThen (hb hi hf) (fun {r out} hi h => ?_) h
      obtain ⟨parts, -, h⟩ := of_bind h
      exact ih _ hi h

/-- A list of statements, if each of them is read onward. Whether a statement failed does not
matter, as the skipping behind it is read onward too. -/
theorem onward_statements {file : Option String} {inBlock : Bool}
    {statement : Reader → Checked Outcome} (hs : ReadsOnward statement) (rounds : Nat) :
    ReadsOnward (statements file inBlock statement rounds) := by
  induction rounds with
  | zero => exact nofun
  | succ n ih =>
    intro r out hi h
    obtain ⟨lead, hl, h⟩ := of_bind h
    refine Outcome.onward_andThen (onward_takeTrivia _ hi hl) (fun {r out} hi h => ?_) h
    obtain ⟨⟨t, r'⟩, hp, h⟩ := of_bind h
    obtain ⟨hr, -⟩ := of_peek hi hp
    subst r'
    cases t with
    | none =>
      cases h
      exact .refl hi
    | some t =>
      dsimp only at h
      split at h
      · split at h
        · cases h
          exact .refl hi
        · obtain ⟨stray, hf, h⟩ := of_bind h
          obtain ⟨skipped, hr, h⟩ := of_bind h
          exact Outcome.onward_andThen (onward_recovered (onward_fail _ hi hf) hr) ih h
      · obtain ⟨first, hf, h⟩ := of_bind h
        obtain ⟨whole, hr, h⟩ := of_bind h
        exact Outcome.onward_andThen (onward_recovered (hs hi hf) hr) ih h

/-- The level of a node is left again. The inside gives back the depth that it was given, which is
one more, and the difference is the old one. -/
theorem onward_nested {inside : Reader → Checked Outcome} (h : ReadsOnward inside) :
    ReadsOnward (nested inside) := by
  intro r out hi ho
  unfold nested at ho
  split at ho
  · exact onward_fail _ hi ho
  · obtain ⟨deeper, hd, ho⟩ := of_bind ho
    obtain ⟨inner, hin, ho⟩ := of_bind ho
    obtain ⟨depth, hs, ho⟩ := of_bind ho
    cases ho
    obtain ⟨⟨hsource, hlimit, hhex, hidle, hdepth⟩, hplace⟩ :=
      h (r := { r with depth := deeper }) hi hin
    refine ⟨⟨hsource, hlimit, hhex, hidle, ?_⟩, hplace⟩
    have hdeeper := of_add hd
    have hback := of_sub hs
    dsimp only at hdepth ⊢
    omega

theorem onward_enter (p : Production) (o : Options) {inside : Reader → Checked Outcome}
    (h : ReadsOnward inside) : ReadsOnward (enter p o inside) := by
  have hnode : ReadsOnward fun r => do
      return (← nested inside r).framed o.file p.kind r.cursor.place := by
    intro r out hi ho
    obtain ⟨inner, hin, ho⟩ := of_bind ho
    cases ho
    rw [Outcome.reader_framed]
    exact onward_nested h hi hin
  intro r out hi ho
  unfold enter at ho
  dsimp only at ho
  split at ho
  · exact hnode hi ho
  · obtain ⟨lead, hl, ho⟩ := of_bind ho
    exact Outcome.onward_andThen (onward_takeTrivia _ hi hl) hnode ho

/-! ## Tokens that are taken apart -/

/-- A token that was taken is taken back. The cursor remembers one place, so this holds right
behind the taking and not later. -/
theorem undo_taken {c : Cursor} {place : Position} (hi : c.origin = none)
    (hp : c.previous = some place) : c.undo.2 = { c with place, previous := none } := by
  rw [Cursor.undo, hi, hp]

/-- A failure at the place where the reading began, which is reached by undoing what was taken. -/
theorem onward_fail_back {r r' : Reader} {cause : Option Token → Cause} {out : Outcome}
    (h : r.Restores r') (hp : r'.cursor.place = r.cursor.place) (ho : r'.fail cause = .ok out) :
    r.Onward out.reader := by
  rw [(of_fail h.idle ho).1]
  exact ⟨h, Nat.le_of_eq (by rw [hp])⟩

/-- The preference for hexadecimal digits is given up, whether or not there are any. -/
theorem onward_hexDigits : ReadsOnward hexDigits := by
  intro r out hi h
  obtain ⟨⟨t, c⟩, ht, h⟩ := of_bind h
  rcases of_take ht with ⟨rfl, rfl⟩ | ⟨u, behind, rfl, hs, rfl⟩
  · exact onward_fail_back ⟨rfl, rfl, rfl, hi, rfl⟩ rfl h
  · dsimp only at h
    split at h
    · obtain ⟨reach, -, h⟩ := of_bind h
      cases h
      exact ⟨⟨rfl, rfl, rfl, hi, rfl⟩, (of_step hs).2.1⟩
    · rw [undo_taken (by exact hi) rfl] at h
      refine onward_fail_back ?_ ?_ h
      · exact ⟨rfl, rfl, rfl, hi, rfl⟩
      · rfl

theorem onward_foreign : ReadsOnward foreign := by
  intro r out hi h
  obtain ⟨⟨t, c⟩, ht, h⟩ := of_bind h
  rcases of_take ht with ⟨rfl, rfl⟩ | ⟨u, behind, rfl, hs, rfl⟩
  · exact onward_fail _ hi h
  · dsimp only at h
    split at h
    · obtain ⟨opening, -, h⟩ := of_bind h
      obtain ⟨closing, -, h⟩ := of_bind h
      obtain ⟨stop, -, h⟩ := of_bind h
      obtain ⟨content, -, h⟩ := of_bind h
      obtain ⟨reach, -, h⟩ := of_bind h
      cases h
      exact onward_of_step hi hs rfl rfl rfl rfl rfl rfl
    · rw [undo_taken (by exact hi) rfl] at h
      refine onward_fail_back ?_ ?_ h
      · exact ⟨rfl, rfl, rfl, hi, rfl⟩
      · rfl

/-! ## Placeholders -/

theorem restores_abandon {file : Option String} {p : Placeholder} {f : Failure} {lead : Trace}
    {r : Reader} {resumed : Resumed} (hi : r.cursor.origin = none)
    (h : abandon file p f lead r = .ok resumed) : r.Restores resumed.reader := by
  obtain ⟨errors, -, h⟩ := of_bind h
  dsimp only at h
  split at h
  · obtain ⟨left, -, h⟩ := of_bind h
    cases h
    exact ⟨rfl, rfl, rfl, hi, rfl⟩
  · cases h
    exact ⟨rfl, rfl, rfl, hi, rfl⟩

/-- The limit of a placeholder is lifted behind it, whether it could be read or not. The place may
be anywhere in the text, so nothing is said of it. -/
theorem restores_placeholder {file : Option String} {run : Reader → Checked Outcome}
    (hrun : ReadsOnward run) {bodyEnd : Nat} {p : Placeholder} {r : Reader} {resumed : Resumed}
    (hi : r.cursor.origin = none) (h : placeholder file run bodyEnd p r = .ok resumed) :
    r.Restores resumed.reader := by
  obtain ⟨c, hc, h⟩ := of_bind h
  obtain rfl := of_seek hc
  obtain ⟨out, ho, h⟩ := of_bind h
  obtain ⟨hsource, -, hhex, hidle, hdepth⟩ := (hrun (by exact hi) ho).toRestores
  have hback : r.Restores
      { out.reader with cursor := { out.reader.cursor with limit := r.cursor.limit } } :=
    ⟨hsource, rfl, hhex, hidle, hdepth⟩
  dsimp only at h
  split at h
  · cases h
    exact hback
  · exact hback.trans (restores_abandon hidle h)

theorem restores_interpolated {file : Option String} {run : Bool → Reader → Checked Outcome}
    (hrun : ∀ isBraced, ReadsOnward (run isBraced)) {bodyEnd textEnd start : Nat}
    {ps : List Placeholder} {r r' : Reader} {trace : Trace} (hi : r.cursor.origin = none)
    (h : interpolated file run bodyEnd textEnd ps start r = .ok (trace, r')) : r.Restores r' := by
  induction ps generalizing start r trace with
  | nil =>
    obtain ⟨tail, -, h⟩ := of_bind h
    cases h
    exact ⟨rfl, rfl, rfl, hi, rfl⟩
  | cons p ps ih =>
    rw [interpolated] at h
    split at h
    · exact ih hi h
    · obtain ⟨chunk, -, h⟩ := of_bind h
      obtain ⟨resumed, hp, h⟩ := of_bind h
      obtain ⟨⟨rest, last⟩, hl, h⟩ := of_bind h
      cases h
      have hresumed := restores_placeholder (hrun _) hi hp
      exact hresumed.trans (ih hresumed.idle hl)

/-- **A quoted text is read without a failure and left behind its token**, whatever becomes of its
placeholders. The last step of the reading is a jump to the place behind the token, so what
happened in between does not matter to it. -/
theorem of_quoted {file : Option String} {run : Bool → Reader → Checked Outcome}
    (hrun : ∀ isBraced, ReadsOnward (run isBraced)) {r : Reader} {out : Outcome} {u : Token}
    {c : Cursor} (hi : r.cursor.origin = none) (ht : Checked.take r.cursor = .ok (some u, c))
    (h : r.quoted file run = .ok out) :
    out.failure = none ∧ out.reader.cursor.place = c.place ∧ r.Restores out.reader := by
  obtain ⟨⟨t, d⟩, ht', h⟩ := of_bind h
  obtain ⟨rfl, rfl⟩ := Prod.mk.inj (Except.ok.inj (ht.symm.trans ht'))
  rcases of_take ht with ⟨hn, -⟩ | ⟨u, behind, -, -, rfl⟩
  · cases hn
  · obtain ⟨reach, -, h⟩ := of_bind h
    dsimp only at h
    split at h
    · cases h
      exact ⟨rfl, rfl, rfl, rfl, rfl, hi, rfl⟩
    · obtain ⟨bodyEnd, -, h⟩ := of_bind h
      obtain ⟨⟨trace, after⟩, hin, h⟩ := of_bind h
      obtain ⟨back, hb, h⟩ := of_bind h
      cases h
      obtain rfl := of_seek hb
      obtain ⟨hsource, hlimit, hhex, hidle, hdepth⟩ := restores_interpolated hrun (by exact hi) hin
      exact ⟨rfl, rfl, hsource, hlimit, hhex, hidle, hdepth⟩

theorem onward_quoted (file : Option String) {run : Bool → Reader → Checked Outcome}
    (hrun : ∀ isBraced, ReadsOnward (run isBraced)) : ReadsOnward (quoted file run) := by
  intro r out hi h
  obtain ⟨⟨t, c⟩, ht, hrest⟩ := of_bind h
  rcases of_take ht with ⟨rfl, rfl⟩ | ⟨u, behind, rfl, hs, rfl⟩
  · exact onward_fail _ hi hrest
  · obtain ⟨-, hp, hr⟩ := of_quoted hrun hi ht h
    refine ⟨hr, ?_⟩
    rw [hp]
    exact (of_step hs).2.1

end Reader

/-- All looks of the plan are made of scans. It has the constructors of `Plan`, with the class
asked for where a plan asks for a scan. -/
inductive Plan.OfScans : {q : Phrase} → Plan q → Prop where
  | empty : OfScans .empty
  | take {tag : DataTag} : OfScans (@Plan.take tag)
  | trivia : OfScans .trivia
  | node {p : Production} : OfScans (@Plan.node p)
  | andThen {a b : Phrase} {first : Plan a} {second : Plan b} (h₁ : OfScans first)
      (h₂ : OfScans second) : OfScans (.andThen first second)
  | choose {test : Lookahead} [hs : Scanned test] [ByScans test] {a b : Phrase} {yes : Plan a}
      {no : Plan b} (h₁ : OfScans yes) (h₂ : OfScans no) : OfScans (@Plan.choose test hs a b yes no)
  | repeating {test : Lookahead} [hs : Scanned test] [ByScans test] {a : Phrase} {body : Plan a}
      {ends : test [] = false} {takes : a.takes = true} (h : OfScans body) :
      OfScans (@Plan.repeating test hs a body ends takes)
  | spacedCalls {a b : Phrase} {yes : Plan a} {no : Plan b} (h₁ : OfScans yes) (h₂ : OfScans no) :
      OfScans (.spacedCalls yes no)
  | expected {wanted : Wanted} : OfScans (@Plan.expected wanted)
  | orphan : OfScans .orphan
  | statements {inBlock : Bool} {a : Phrase} {statement : Plan a} {takes : a.takes = true}
      (h : OfScans statement) : OfScans (@Plan.statements inBlock a statement takes)
  | quoted {a b : Phrase} {named : Plan a} {braced : Plan b} (h₁ : OfScans named)
      (h₂ : OfScans braced) : OfScans (.quoted named braced)
  | hexDigits : OfScans .hexDigits
  | foreign : OfScans .foreign

/-- Every rule of the language is read with scans only. The instances are found one by one, as in
`plan`. -/
theorem ofScans_plan (p : Production) : (plan p).OfScans := by
  cases p <;> repeat' constructor

theorem ofScans_statementPlan : statementPlan.OfScans := by
  repeat' constructor

/-- **What is read by scans is read onward**, if the constructs inside it are. The induction goes
along the plan; each case is the lemma of the step above, and a look in front of it leaves the
cursor, so that the reader is still the one it was. -/
theorem Plan.OfScans.onward {descend : Options → Production → Reader → Checked Outcome}
    (hd : ∀ o p, ReadsOnward (descend o p)) {q : Phrase} {plan : Plan q} (h : plan.OfScans)
    (o : Options) : ReadsOnward (plan.run descend o) := by
  induction h generalizing o with
  | empty =>
    intro r out hi h
    cases h
    exact .refl hi
  | take => exact Reader.onward_take _
  | trivia => exact fun hi h => Reader.onward_takeTrivia _ hi h
  | node => exact hd o _
  | andThen _ _ ih₁ ih₂ =>
    intro r out hi h
    obtain ⟨first, hf, h⟩ := of_bind h
    exact Outcome.onward_andThen (ih₁ o hi hf) (ih₂ o) h
  -- The look has moved the cursor and put it back, so the reader behind it is the one in front.
  | choose _ _ ihy ihn =>
    intro r out hi h
    obtain ⟨⟨answer, c⟩, hl, h⟩ := of_bind h
    obtain rfl := eq_of_look hi hl
    cases answer with
    | true => exact ihy o hi h
    | false => exact ihn o hi h
  | repeating _ ih =>
    exact fun hi h => Reader.onward_repeating (fun hi h => eq_of_look hi h) (ih o) _ _ hi h
  | spacedCalls _ _ ihy ihn =>
    intro r out hi h
    rw [Plan.run] at h
    split at h
    · exact ihy o hi h
    · exact ihn o hi h
  | expected =>
    intro r out hi h
    rw [Plan.run, Reader.missing] at h
    exact Reader.onward_fail _ hi h
  | orphan =>
    intro r out hi h
    rw [Plan.run] at h
    exact Reader.onward_fail _ hi h
  | statements _ ih => exact fun hi h => Reader.onward_statements (ih o) _ hi h
  | quoted _ _ ihn ihb =>
    refine Reader.onward_quoted _ fun isBraced => ?_
    cases isBraced with
    | true => exact ihb _
    | false => exact ihn _
  | hexDigits => exact Reader.onward_hexDigits
  | foreign => exact Reader.onward_foreign

/-- Every construct is read onward, on however many levels. With too few levels the reading does
not end, and there is nothing to show. -/
theorem onward_read (levels : Nat) (o : Options) (p : Production) :
    ReadsOnward (read levels o p) := by
  induction levels generalizing o p with
  | zero => exact nofun
  | succ n ih => exact Reader.onward_enter p o ((ofScans_plan p).onward ih o)

/-- The plan of a quoted text has two parts. That it is of this form can not be seen from its type
by cases, since the index is a phrase with parameters, so it is read off `OfScans`. -/
theorem Plan.exists_quoted {a b : Phrase} (plan : Plan (.quoted a b)) (h : plan.OfScans) :
    ∃ (named : Plan a) (braced : Plan b), plan = .quoted named braced ∧ named.OfScans ∧
      braced.OfScans := by
  cases h with
  | quoted h₁ h₂ => exact ⟨_, _, rfl, h₁, h₂⟩

theorem isTrivia_of_isQuoted {u : Token} (h : u.isQuoted = true) : u.isTrivia = false := by
  unfold Token.isQuoted TokenKind.placeholders? at h
  unfold Token.isTrivia TokenKind.isTrivia
  split at h <;> simp_all

/-- In front of a token that is no trivia, none is taken. A string is a construct that leaves
trivia in front of it to its parent, and here there is none. -/
theorem eq_of_takeTrivia {rounds : Nat} {r : Reader} {out : Outcome} {u : Token} {c : Cursor}
    (hi : r.cursor.origin = none) (ht : Checked.take r.cursor = .ok (some u, c))
    (hu : u.isTrivia = false) (h : r.takeTrivia rounds = .ok out) : out = ⟨.nil, r, none⟩ := by
  cases rounds with
  | zero => cases h
  | succ n =>
    obtain ⟨⟨t, r'⟩, hp, h⟩ := of_bind h
    obtain ⟨hr, after, hs⟩ := Reader.of_peek hi hp
    subst r'
    rcases of_take ht with ⟨hn, -⟩ | ⟨_, _, hv, hs', -⟩
    · cases hn
    · cases hv
      obtain rfl := (Prod.mk.inj (Except.ok.inj (hs.symm.trans hs'))).1
      dsimp only at h
      rw [if_neg (by simp [hu])] at h
      cases h
      rfl

/-- **A string is left at the end of its token**, unless its node is refused. Refused it is on the
deepest level only, and then it is not begun: the reader has not moved. -/
theorem of_read_string {levels : Nat} {o : Options} {r : Reader} {out : Outcome} {u : Token}
    {c : Cursor} (hi : r.cursor.origin = none) (ht : Checked.take r.cursor = .ok (some u, c))
    (hq : u.isQuoted = true) (h : read levels o .string r = .ok out) :
    (r.depth < maxNesting → out.failure = none ∧ out.reader.cursor.place = c.place) ∧
      (maxNesting ≤ r.depth → out.failure.isSome = true ∧ out.reader = r) := by
  cases levels with
  | zero => cases h
  | succ n =>
    obtain ⟨lead, hl, h⟩ := of_bind h
    obtain rfl := eq_of_takeTrivia hi ht (isTrivia_of_isQuoted hq) hl
    obtain ⟨node, hn, h⟩ := of_bind h
    cases h
    obtain ⟨inner, hin, hn⟩ := of_bind hn
    cases hn
    dsimp only
    rw [Outcome.failure_framed, Outcome.reader_framed]
    unfold Reader.nested at hin
    split at hin <;> rename_i hd
    · obtain ⟨hr, hf⟩ := Reader.of_fail hi hin
      exact ⟨fun h => absurd hd (Nat.not_le.2 h), fun _ => ⟨hf, hr⟩⟩
    · refine ⟨fun _ => ?_, fun h => absurd h hd⟩
      obtain ⟨deeper, -, hin⟩ := of_bind hin
      obtain ⟨text, hq, hin⟩ := of_bind hin
      obtain ⟨depth, -, hin⟩ := of_bind hin
      cases hin
      obtain ⟨named, braced, hplan, hnamed, hbraced⟩ :=
        (plan .string).exists_quoted (ofScans_plan _)
      rw [hplan] at hq
      obtain ⟨hf, hp, -⟩ := Reader.of_quoted (r := { r with depth := deeper })
        (fun isBraced => by
          cases isBraced with
          | true => exact hbraced.onward (onward_read n) _
          | false => exact hnamed.onward (onward_read n) _) hi ht hq
      exact ⟨hf, hp⟩

end Checked

end Heddle
