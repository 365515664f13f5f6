import Heddle.Proofs.Checked.Document
import Heddle.Proofs.Cursor.Reads

/-!
# A cursor in any hands

Whoever has a cursor can use it in any order, and between two uses set the preference for digits,
set a limit anywhere, and jump anywhere. `Cursor.drive` does what is asked for and writes down each
`Deed`, with the cursor in front of it and behind it. **Nothing that can be asked for does harm**
(`Cursor.drive_safe`): every deed of every drive is `Safe`, whatever was done before.

The three places that a cursor keeps lie between two characters all the time, and what can be taken
back is what was taken last. This is the invariant, `Deed.Sound`; `Cursor.Outcome` says what an
action can do at all, and every outcome keeps it (`Sound.act`).

What is asked for is only bounded where a jump brings a line and a column along that no source
could have: they must leave room to count. Its byte can be any number.
-/

set_option autoImplicit false

namespace Heddle

open Text Checked

namespace Cursor

/-- What can be asked of a cursor. The first are the uses that a marker has as well, the others
change the modes or the place. -/
inductive Action where
  | use (u : Use)
  | prefer (hex : Bool)
  | limit (stop : Option Nat)
  | seek (place : Position)

/-- A jump is asked for only to a line and a column from which all of the source can be counted;
its byte can be any number. -/
def Action.Within (source : List Char) : Action → Prop
  | .seek p => p.line + byteSize source < wordBound ∧ p.column + byteSize source < wordBound
  | _ => True

/-- The reply to an action and the cursor behind it. What is refused changes nothing. So a caller
that was refused can go on. -/
def act (a : Action) (c : Cursor) : Reply × Cursor :=
  match a with
  | .use u => c.perform u
  | .prefer hex => (.nothing, { c with preferHex := hex })
  | .limit stop => (.nothing, { c with limit := stop })
  | .seek place =>
    match c.seek place with
    | .ok after => (.nothing, after)
    | .error m => (.refused m, c)

/-- An action that was done, with the cursor in front of it and behind it. The claims are about
deeds, so that they can speak of what has moved. -/
structure Deed where
  action : Action
  before : Cursor
  reply : Reply
  after : Cursor

/-- The action done with a cursor. -/
def deed (a : Action) (c : Cursor) : Deed := ⟨a, c, (c.act a).1, (c.act a).2⟩

/-- Actions done one behind the other, each with the cursor that the one before has left. -/
def drive : List Action → Cursor → List Deed
  | [], _ => []
  | a :: as, c => c.deed a :: drive as (c.act a).2

end Cursor

/-- An action in checked steps. A look past trivia gets more rounds than there are bytes. -/
def Checked.act (a : Cursor.Action) (c : Cursor) : Checked (Reply × Cursor) :=
  match a with
  | .use .take => do
    let (t, c) ← take c
    return (.token t, c)
  | .use .look => do
    let (t, c) ← look c
    return (.token t, c)
  | .use .lookSignificant => do
    let (t, c) ← lookSignificant (byteSize c.source + 1) c
    return (.token t, c)
  | .use .release => return (.nothing, c.release)
  | .use .undo => return (.undone c.undo.1, c.undo.2)
  | .prefer hex => return (.nothing, { c with preferHex := hex })
  | .limit stop => return (.nothing, { c with limit := stop })
  | .seek place => do return (.nothing, ← seek c place)

namespace Cursor

/-! ## What an action can do -/

/-- The outcomes of an action. Every outcome has its condition on the cursor and the form of the
reply and of the cursor behind it, and from these all lemmas below are derived, without a use
being opened again. -/
inductive Outcome (c : Cursor) : Action → Reply → Cursor → Prop where
  | taken {t : Token} (ho : c.origin = none) (ht : c.step.1 = some t) :
    Outcome c (.use .take) (.token (some t)) { c.step.2 with previous := some c.place }
  | nothingTaken (ho : c.origin = none) (ht : c.step.1 = none) :
    Outcome c (.use .take) (.token none) c.step.2
  | takeRefused (ho : c.isLooking = true) :
    Outcome c (.use .take) (.refused .takeWhileLooking) c
  | looked : Outcome c (.use .look) (.token c.look.1) c.look.2
  | lookedPast :
    Outcome c (.use .lookSignificant) (.token c.lookSignificant.1) c.lookSignificant.2
  | released : Outcome c (.use .release) .nothing c.release
  | undone {p : Position} (ho : c.origin = none) (hp : c.previous = some p) :
    Outcome c (.use .undo) (.undone true) { c with place := p, previous := none }
  | nothingUndone (h : c.isLooking = true ∨ c.previous = none) :
    Outcome c (.use .undo) (.undone false) c
  | preferred (hex : Bool) : Outcome c (.prefer hex) .nothing { c with preferHex := hex }
  | limited (stop : Option Nat) : Outcome c (.limit stop) .nothing { c with limit := stop }
  | sought {p : Position} (ho : c.origin = none) (hp : Boundary 0 c.source p.byte) :
    Outcome c (.seek p) .nothing { c with place := p, previous := none }
  | seekRefused {p : Position} (ho : c.isLooking = true) :
    Outcome c (.seek p) (.refused .seekWhileLooking) c
  | seekOff {p : Position} (ho : c.origin = none) (hp : ¬ Boundary 0 c.source p.byte) :
    Outcome c (.seek p) (.refused .seekOffBoundary) c

/-- **There are no other outcomes.** This is the inversion of `act`, and the only place where its
definition is unfolded. -/
theorem outcome (a : Action) (c : Cursor) : Outcome c a (c.act a).1 (c.act a).2 := by
  have hidle (ho : ¬ c.isLooking = true) : c.origin = none := by simpa [isLooking] using ho
  cases a with
  | use u =>
    cases u with
    | take =>
      rw [act, perform, Cursor.take]
      -- A cursor that looks ahead refuses to take, before it looks at the text.
      by_cases ho : c.isLooking = true
      · rw [if_pos ho]
        exact .takeRefused ho
      · rw [if_neg ho]
        rcases hstep : c.step with ⟨_ | t, after⟩
        · have hnone := Outcome.nothingTaken (c := c) (hidle ho) (by rw [hstep])
          rwa [hstep] at hnone
        · have htaken := Outcome.taken (c := c) (t := t) (hidle ho) (by rw [hstep])
          rwa [hstep] at htaken
    | look => exact .looked
    | lookSignificant => exact .lookedPast
    | release => exact .released
    | undo =>
      rw [act, perform, Cursor.undo]
      cases ho : c.origin with
      | some p => exact .nothingUndone (.inl (by rw [isLooking, ho]; rfl))
      | none =>
        cases hp : c.previous with
        | some p =>
          have hundone := Outcome.undone ho hp
          rwa [ho] at hundone
        | none => exact .nothingUndone (.inr hp)
  | prefer hex => exact .preferred hex
  | limit stop => exact .limited stop
  | seek p =>
    rw [act, Cursor.seek]
    by_cases ho : c.isLooking = true
    · rw [if_pos ho]
      exact .seekRefused ho
    · rw [if_neg ho]
      by_cases hp : (dropBytes? p.byte c.source).isNone = true
      · rw [if_pos hp]
        exact .seekOff (hidle ho) (isNone_dropBytes?.1 hp)
      · rw [if_neg hp]
        exact .sought (hidle ho) (by rwa [isNone_dropBytes?, not_not] at hp)

/-! ## What was done before -/

namespace Deed

/-- A token was taken. -/
def Takes (d : Deed) : Prop := d.action = .use .take ∧ ∃ t, d.reply = .token (some t)

/-- There was a jump, or a token was taken back. Behind either there is nothing that could be
taken back. -/
def Forgets (d : Deed) : Prop :=
  (∃ p, d.action = .seek p ∧ d.reply = .nothing) ∨ d.reply = .undone true

def Looks (d : Deed) : Prop := d.action = .use .look ∨ d.action = .use .lookSignificant

/-- There is `d`, of which `P` holds, and behind it nothing of which `Q` holds. It is how the
history says what was done last. -/
def Since (P Q : Deed → Prop) (history : List Deed) (d : Deed) : Prop :=
  ∃ xs ys, history = xs ++ d :: ys ∧ P d ∧ ∀ y ∈ ys, ¬ Q y

/-- The last token taken was taken by `d`, and since then there was no jump and nothing was taken
back. -/
def Latest : List Deed → Deed → Prop := Since Takes fun y => y.Takes ∨ y.Forgets

/-- There was a look, and no look was given back since. -/
def Looking (history : List Deed) : Prop := ∃ d, Since Looks (·.action = .use .release) history d

variable {P Q : Deed → Prop} {history : List Deed} {d e : Deed}

theorem not_since_nil : ¬ Since P Q [] d := by
  rintro ⟨xs, ys, h, -⟩
  exact absurd h.symm (by simp)

/-- One deed more. Either it is the one that is looked for, or it is not in the way of an earlier
one. -/
theorem since_concat :
    Since P Q (history ++ [d]) e ↔ P d ∧ e = d ∨ ¬ Q d ∧ Since P Q history e := by
  constructor
  · rintro ⟨xs, ys, h, hp, hq⟩
    rcases List.eq_nil_or_concat ys with rfl | ⟨ys, y, rfl⟩
    · obtain ⟨-, rfl⟩ := List.append_singleton_inj.1 h
      exact .inl ⟨hp, rfl⟩
    · rw [List.concat_eq_append, ← List.cons_append, ← List.append_assoc] at h
      obtain ⟨rfl, rfl⟩ := List.append_singleton_inj.1 h
      rw [List.concat_eq_append] at hq
      exact .inr ⟨hq d (by simp), xs, ys, rfl, hp, fun y hy => hq y (List.mem_append_left _ hy)⟩
  · rintro (⟨hp, rfl⟩ | ⟨hq, xs, ys, rfl, hp, hys⟩)
    · exact ⟨history, [], rfl, hp, List.forall_mem_nil _⟩
    · refine ⟨xs, ys ++ [d], by simp, hp, fun y hy => ?_⟩
      rcases List.mem_append.1 hy with hy | hy
      · exact hys y hy
      · rw [List.mem_singleton.1 hy]
        exact hq

/-! ## The invariant -/

/-- The places that a cursor keeps lie between two characters of the source, and it keeps what the
history says. The invariant speaks of three places, as the cursor may return to two of them; of
the modes nothing need be known. -/
structure Sound (source : List Char) (history : List Deed) (c : Cursor) : Prop where
  text : c.source = source
  place : c.place.StandsIn source
  origin : ∀ p, c.origin = some p → p.StandsIn source
  previous : ∀ p, c.previous = some p → p.StandsIn source
  looking : c.isLooking = true ↔ Looking history
  latest : ∀ p, c.previous = some p ↔ ∃ d, Latest history d ∧ d.before.place = p

variable {source : List Char} {c : Cursor}

theorem sound_ofSource {source : String} (h : source.utf8ByteSize + 1 < wordBound) :
    Sound source.toList [] (ofSource source) where
  text := rfl
  place := by
    obtain ⟨hsource, -⟩ := openSource_byteOrderMark source
    exact ⟨_, _, hsource, (faces_ofSource source).byte, counts_openSource h⟩
  origin := nofun
  previous := nofun
  looking := ⟨nofun, fun ⟨_, hd⟩ => absurd hd not_since_nil⟩
  latest p := ⟨nofun, fun ⟨_, hd, _⟩ => absurd hd not_since_nil⟩

/-! ## What an outcome keeps -/

end Deed

namespace Outcome

variable {c after : Cursor} {a : Action} {r : Reply}

theorem source (h : Outcome c a r after) : after.source = c.source := by
  cases h with
  | taken => rw [step_place]
  | nothingTaken => rw [step_place]
  | looked => exact source_look c
  | released =>
    rw [release]
    split
    · rfl
    · rfl
  | _ => rfl

/-- A pending look begins where one was pending, or where the cursor is. -/
theorem origin (h : Outcome c a r after) {p : Position} (hp : after.origin = some p) :
    c.origin = some p ∨ p = c.place := by
  have hbegin {p : Position} (hp : some (c.origin.getD c.place) = some p) :
      c.origin = some p ∨ p = c.place := by
    cases ho : c.origin with
    | none =>
      rw [ho] at hp
      exact .inr (Option.some.inj hp).symm
    | some q =>
      rw [ho] at hp
      exact .inl hp
  -- A look begins only where none is pending; all other actions keep what is pending or end it.
  cases h with
  | taken =>
    rw [step_place] at hp
    exact .inl hp
  | nothingTaken =>
    rw [step_place] at hp
    exact .inl hp
  | looked =>
    rw [look_place] at hp
    exact hbegin hp
  | lookedPast => exact hbegin hp
  | released =>
    rw [release] at hp
    split at hp
    · cases hp
    · exact .inl hp
  | _ => exact .inl hp

/-- What can be taken back begins where it did, or where the cursor is. The three cases are told
by the deed, since the history is made of deeds. -/
theorem previous (h : Outcome c a r after) :
    (Deed.Takes ⟨a, c, r, after⟩ ∧ after.previous = some c.place) ∨
    (¬ Deed.Takes ⟨a, c, r, after⟩ ∧ Deed.Forgets ⟨a, c, r, after⟩ ∧ after.previous = none) ∨
    (¬ Deed.Takes ⟨a, c, r, after⟩ ∧ ¬ Deed.Forgets ⟨a, c, r, after⟩ ∧
      after.previous = c.previous) := by
  cases h with
  | taken => exact .inl ⟨⟨rfl, _, rfl⟩, rfl⟩
  | undone => exact .inr (.inl ⟨by simp [Deed.Takes], .inr rfl, rfl⟩)
  | sought => exact .inr (.inl ⟨by simp [Deed.Takes], .inl ⟨_, rfl, rfl⟩, rfl⟩)
  | nothingTaken =>
    rw [step_place]
    exact .inr (.inr ⟨by simp [Deed.Takes], by simp [Deed.Forgets], rfl⟩)
  | looked =>
    rw [look_place]
    exact .inr (.inr ⟨by simp [Deed.Takes], by simp [Deed.Forgets], rfl⟩)
  | released =>
    refine .inr (.inr ⟨by simp [Deed.Takes], by simp [Deed.Forgets], ?_⟩)
    rw [release]
    split
    · rfl
    · rfl
  | _ => exact .inr (.inr ⟨by simp [Deed.Takes], by simp [Deed.Forgets], rfl⟩)

/-- Whether a look is pending follows from the deed, in the same three ways. -/
theorem isLooking (h : Outcome c a r after) :
    (Deed.Looks ⟨a, c, r, after⟩ ∧ after.isLooking = true) ∨
    (¬ Deed.Looks ⟨a, c, r, after⟩ ∧ a = .use .release ∧ after.isLooking = false) ∨
    (¬ Deed.Looks ⟨a, c, r, after⟩ ∧ a ≠ .use .release ∧ after.isLooking = c.isLooking) := by
  cases h with
  | looked =>
    rw [look_place]
    exact .inl ⟨.inl rfl, rfl⟩
  | lookedPast => exact .inl ⟨.inr rfl, rfl⟩
  | released =>
    refine .inr (.inl ⟨by simp [Deed.Looks], rfl, ?_⟩)
    rw [release]
    split
    · rfl
    · rename_i ho
      rw [Cursor.isLooking, ho]
      rfl
  | taken =>
    rw [step_place]
    exact .inr (.inr ⟨by simp [Deed.Looks], by simp, rfl⟩)
  | nothingTaken =>
    rw [step_place]
    exact .inr (.inr ⟨by simp [Deed.Looks], by simp, rfl⟩)
  | _ => exact .inr (.inr ⟨by simp [Deed.Looks], by simp, rfl⟩)

/-- A place stays between two characters: a read ends behind a token, a release and an undo go to
a place that the cursor has kept, and a jump is refused unless it goes to such a place. -/
theorem stands (h : Outcome c a r after) (hc : c.place.StandsIn c.source)
    (ho : ∀ p, c.origin = some p → p.StandsIn c.source)
    (hp : ∀ p, c.previous = some p → p.StandsIn c.source) (ha : a.Within c.source) :
    after.place.StandsIn c.source := by
  cases h with
  | taken => exact (reads hc).stands
  | nothingTaken => exact (reads hc).stands
  | looked => exact (reads_look hc).stands
  | lookedPast => exact lookSignificant_stands hc
  | released =>
    rw [release]
    split <;> rename_i hor
    · exact ho _ hor
    · exact hc
  | undone _ hpr => exact hp _ hpr
  | @sought p _ hb =>
    obtain ⟨passed, ahead, hs, hbyte⟩ := hb
    obtain ⟨hline, hcolumn⟩ := ha
    have hsize := congrArg byteSize hs
    rw [byteSize_append] at hsize
    refine ⟨passed, ahead, hs, by rw [hbyte, Nat.zero_add], ?_, ?_, ?_⟩
    · show p.byte + byteSize ahead < wordBound
      omega
    · show p.line + byteSize ahead < wordBound
      omega
    · show p.column + byteSize ahead < wordBound
      omega
  | _ => exact hc

end Outcome

namespace Deed

variable {history : List Deed} {source : List Char} {c after : Cursor} {a : Action} {r : Reply}

/-- With one deed more, a look is pending exactly if the history says so. A look begins one, a
release ends it, and nothing else matters. -/
theorem looking_concat (h : Outcome c a r after) (hl : c.isLooking = true ↔ Looking history) :
    after.isLooking = true ↔ Looking (history ++ [⟨a, c, r, after⟩]) := by
  rw [Looking]
  simp only [since_concat]
  rcases h.isLooking with ⟨hlooks, heq⟩ | ⟨hlooks, hr, heq⟩ | ⟨hlooks, hr, heq⟩
  · rw [heq]
    exact ⟨fun _ => ⟨_, .inl ⟨hlooks, rfl⟩⟩, fun _ => rfl⟩
  · rw [heq]
    refine ⟨nofun, ?_⟩
    rintro ⟨d, ⟨hd, -⟩ | ⟨hno, -⟩⟩
    · exact absurd hd hlooks
    · exact absurd hr hno
  · rw [heq, hl]
    refine ⟨fun ⟨d, hd⟩ => ⟨d, .inr ⟨hr, hd⟩⟩, ?_⟩
    rintro ⟨d, ⟨hd, -⟩ | ⟨-, hd⟩⟩
    · exact absurd hd hlooks
    · exact ⟨d, hd⟩

/-- With one deed more, what can be taken back is where the latest taking began. A taking is the
latest from now on, and a jump or a token taken back leaves none. -/
theorem latest_concat (h : Outcome c a r after)
    (hl : ∀ p, c.previous = some p ↔ ∃ d, Latest history d ∧ d.before.place = p) (p : Position) :
    after.previous = some p ↔
      ∃ d, Latest (history ++ [⟨a, c, r, after⟩]) d ∧ d.before.place = p := by
  simp only [Latest, since_concat]
  rcases h.previous with ⟨ht, heq⟩ | ⟨ht, hf, heq⟩ | ⟨ht, hf, heq⟩
  · rw [heq]
    refine ⟨fun hp => ⟨_, .inl ⟨ht, rfl⟩, Option.some.inj hp⟩, ?_⟩
    rintro ⟨d, ⟨-, rfl⟩ | ⟨hno, -⟩, rfl⟩
    · rfl
    · exact absurd (.inl ht) hno
  · rw [heq]
    refine ⟨nofun, ?_⟩
    rintro ⟨d, ⟨hd, -⟩ | ⟨hno, -⟩, -⟩
    · exact absurd hd ht
    · exact absurd (.inr hf) hno
  · rw [heq, hl]
    refine ⟨fun ⟨d, hd, hp⟩ => ⟨d, .inr ⟨fun hq => hq.elim ht hf, hd⟩, hp⟩, ?_⟩
    rintro ⟨d, ⟨hd, -⟩ | ⟨-, hd⟩, hp⟩
    · exact absurd hd ht
    · exact ⟨d, hd, hp⟩

/-- **Every outcome keeps the invariant.** This is the step, and `Sound.safe_drive` makes the run
of it. -/
theorem Sound.act (h : Sound source history c) (ha : a.Within source) :
    Sound source (history ++ [c.deed a]) (c.act a).2 := by
  obtain ⟨rfl, hplace, horigin, hprevious, hlooking, hlatest⟩ := h
  have ho := outcome a c
  refine ⟨ho.source, ho.stands hplace horigin hprevious ha, fun p hp => ?_, fun p hp => ?_,
    looking_concat ho hlooking, latest_concat ho hlatest⟩
  · rcases ho.origin hp with hp | rfl
    · exact horigin p hp
    · exact hplace
  · rcases ho.previous with ⟨-, heq⟩ | ⟨-, -, heq⟩ | ⟨-, -, heq⟩
    · rw [heq] at hp
      cases hp
      exact hplace
    · rw [heq] at hp
      cases hp
    · rw [heq] at hp
      exact hprevious p hp

/-! ## Safe deeds -/

/-- The action is one of the three that are refused. Nothing else of what can be asked for is. -/
def Misused (c : Cursor) : Action → Misuse → Prop
  | .use .take, .takeWhileLooking => c.isLooking = true
  | .seek _, .seekWhileLooking => c.isLooking = true
  | .seek p, .seekOffBoundary => c.isLooking = false ∧ ¬ Boundary 0 c.source p.byte
  | _, _ => False

/-- A reply in checked steps: a refusal is a fault. -/
def checkedReply (r : Reply) (after : Cursor) : Checked (Reply × Cursor) :=
  match r with
  | .refused m => .error (.misuse m)
  | reply => .ok (reply, after)

/-- The deed is a read of one token that is not refused. -/
def IsRead (d : Deed) : Prop :=
  d.action = .use .look ∨ d.action = .use .take ∧ d.before.isLooking = false

/-- What a deed does, whatever was done before it. The history is only needed for the last three
parts, which say when a look is pending and what is taken back. -/
structure Safe (source : List Char) (history : List Deed) (d : Deed) : Prop where
  /-- The cursor stands between two characters of the source. -/
  boundary : Boundary 0 source d.before.place.byte ∧ Boundary 0 source d.after.place.byte
  /-- No count is too large, no piece of the source is missing and no loop is endless: in checked
  steps the action does the same, or it is refused as misuse. -/
  checked : Checked.act d.action d.before = checkedReply d.reply d.after
  refused_iff : ∀ m, d.reply = .refused m ↔ Misused d.before d.action m
  /-- A refused action changes nothing. -/
  refused : ∀ m, d.reply = .refused m → d.after = d.before
  /-- A read that finds a token moves the cursor forward, and not past the limit. -/
  forward : ∀ t, d.reply = .token (some t) →
    d.before.place.byte < d.after.place.byte ∧ d.after.place.byte ≤ d.before.bound
  /-- A read finds none only where the limit is not ahead or splits a character. -/
  none_iff : d.IsRead → (d.reply = .token none ↔
    d.before.bound ≤ d.before.place.byte ∨ ¬ Boundary 0 source d.before.bound)
  /-- It leaves the cursor where it is then. -/
  still : d.IsRead → d.reply = .token none → d.after.place = d.before.place
  /-- A look past trivia is looks one behind the other, and the last one is the first that does not
  answer with trivia. -/
  past : d.action = .use .lookSignificant → ∃ looks last,
    d.before.drive (.replicate (looks.length + 1) (.use .look)) = looks ++ [last] ∧
      (∀ l ∈ looks, ∃ t, l.reply = .token (some t) ∧ t.kind.isTrivia = true) ∧
      (∀ t, last.reply = .token (some t) → t.kind.isTrivia = false) ∧
      d.reply = last.reply ∧ d.after = last.after
  looking : d.before.isLooking = true ↔ Looking history
  /-- A token is taken back if no look is pending and a token was taken since the last jump and
  since one was taken back. -/
  undone_iff : d.reply = .undone true ↔
    d.action = .use .undo ∧ ¬ Looking history ∧ ∃ e, Latest history e
  /-- It is the token that was taken last. -/
  undone : d.reply = .undone true → ∀ e, Latest history e → d.after.place = e.before.place

end Deed

namespace Outcome

variable {c after : Cursor} {a : Action} {r : Reply}

/-- In checked steps an action does the same. Where the cursor stands between two characters a
read is possible (`Cursor.reads`); the other outcomes take no checked step, or are refused for
misuse alone. -/
theorem checked (h : Outcome c a r after) (hc : c.place.StandsIn c.source) :
    Checked.act a c = Deed.checkedReply r after := by
  have hstep := (reads hc).checked
  cases h with
  | taken ho ht =>
    rw [Checked.act, Checked.take, Cursor.isLooking, ho, hstep]
    generalize c.step = found at ht
    obtain ⟨x, d⟩ := found
    obtain rfl : x = some _ := ht
    rfl
  | nothingTaken ho ht =>
    rw [Checked.act, Checked.take, Cursor.isLooking, ho, hstep]
    generalize c.step = found at ht
    obtain ⟨x, d⟩ := found
    obtain rfl : x = none := ht
    rfl
  | takeRefused ho =>
    rw [Checked.act, Checked.take, if_pos ho]
    rfl
  | looked =>
    have hlook : Checked.look c = .ok c.look := (reads_look hc).checked
    rw [Checked.act, hlook]
    rfl
  -- The look goes over tokens of what can be read, so the rounds that it has are enough.
  | lookedPast =>
    have hle : c.bound ≤ byteSize c.source := by
      unfold bound
      split
      · exact Nat.min_le_right _ _
      · exact Nat.le_refl _
    rw [Checked.act, checked_lookSignificant hc (by omega)]
    rfl
  | released => rfl
  | @undone p ho hp =>
    have hundo : c.undo = (true, { c with place := p, previous := none }) := by
      rw [Cursor.undo, ho, hp]
    rw [Checked.act, hundo]
    rfl
  | nothingUndone h =>
    have hundo : c.undo = (false, c) := by
      unfold Cursor.undo
      split <;> rename_i ho hp
      · rw [Cursor.isLooking, ho, hp] at h
        exact absurd h (by simp)
      · rfl
    rw [Checked.act, hundo]
    rfl
  | preferred => rfl
  | limited => rfl
  | @sought p ho hp =>
    have hseek : c.seek p = .ok { c with place := p, previous := none } := by
      rw [Cursor.seek, Cursor.isLooking, ho, if_neg (by simp),
        if_neg fun hn => isNone_dropBytes?.1 hn hp]
    rw [Checked.act, Checked.seek, hseek]
    rfl
  | @seekRefused p ho =>
    have hseek : c.seek p = .error .seekWhileLooking := if_pos ho
    rw [Checked.act, Checked.seek, hseek]
    rfl
  | @seekOff p ho hp =>
    have hseek : c.seek p = .error .seekOffBoundary := by
      rw [Cursor.seek, Cursor.isLooking, ho, if_neg (by simp), if_pos (isNone_dropBytes?.2 hp)]
    rw [Checked.act, Checked.seek, hseek]
    rfl

theorem refused_iff (h : Outcome c a r after) (m : Misuse) :
    r = .refused m ↔ Deed.Misused c a m := by
  have hidle (ho : c.origin = none) : c.isLooking = false := by rw [Cursor.isLooking, ho]; rfl
  cases h with
  | taken ho | nothingTaken ho | sought ho hp => cases m <;> simp_all [Deed.Misused]
  | takeRefused ho | seekRefused ho => cases m <;> simp_all [Deed.Misused]
  | seekOff ho hp => cases m <;> simp_all [Deed.Misused]
  | _ => cases m <;> simp [Deed.Misused]

theorem forward (h : Outcome c a r after) (hc : c.place.StandsIn c.source) {t : Token}
    (hr : r = .token (some t)) :
    c.place.byte < after.place.byte ∧ after.place.byte ≤ c.bound := by
  cases h with
  | taken ho ht => exact (reads hc).forward _ ht
  | nothingTaken => cases hr
  | looked => exact (reads_look hc).forward t (Reply.token.inj hr)
  | lookedPast => exact lookSignificant_forward hc t (Reply.token.inj hr)
  | _ => cases hr

theorem none_iff (h : Outcome c a r after) (hc : c.place.StandsIn c.source)
    (ha : a = .use .look ∨ a = .use .take ∧ c.isLooking = false) :
    r = .token none ↔ c.bound ≤ c.place.byte ∨ ¬ Boundary 0 c.source c.bound := by
  have hreads := (reads hc).none_iff
  cases h with
  | taken ho ht =>
    rw [ht] at hreads
    exact ⟨nofun, fun hno => absurd (hreads.2 hno) nofun⟩
  | nothingTaken ho ht => exact ⟨fun _ => hreads.1 ht, fun _ => rfl⟩
  | takeRefused ho =>
    rw [ho] at ha
    exact absurd ha (by simp)
  | looked =>
    have hlook := (reads_look hc).none_iff
    exact ⟨fun hr => hlook.1 (Reply.token.inj hr), fun hno => congrArg _ (hlook.2 hno)⟩
  | _ => exact absurd ha (by simp)

theorem still (h : Outcome c a r after) (hc : c.place.StandsIn c.source)
    (ha : a = .use .look ∨ a = .use .take ∧ c.isLooking = false) (hr : r = .token none) :
    after.place = c.place := by
  cases h with
  | nothingTaken ho ht => rw [(reads hc).still ht]
  | looked =>
    have hlook : c.look.2 = c.beginLook := (reads_look hc).still (Reply.token.inj hr)
    rw [hlook]
    rfl
  | lookedPast => exact absurd ha (by simp)
  | _ => cases hr

theorem refused (h : Outcome c a r after) {m : Misuse} (hr : r = .refused m) : after = c := by
  cases h with
  | takeRefused | seekRefused | seekOff => rfl
  | _ => cases hr

theorem undone_iff (h : Outcome c a r after) :
    r = .undone true ↔ a = .use .undo ∧ c.isLooking = false ∧ ∃ p, c.previous = some p := by
  cases h with
  | @undone p ho hp =>
    refine ⟨fun _ => ⟨rfl, ?_, p, hp⟩, fun _ => rfl⟩
    rw [Cursor.isLooking, ho]
    rfl
  | nothingUndone hno =>
    constructor
    · intro hr
      cases hr
    · rintro ⟨-, hl, p, hp⟩
      rw [hl, hp] at hno
      exact absurd hno (by simp)
  | _ =>
    constructor
    · intro hr
      cases hr
    · rintro ⟨ha, -⟩
      cases ha

theorem place_undone (h : Outcome c a r after) (hr : r = .undone true) :
    c.previous = some after.place := by
  cases h with
  | undone ho hp => exact hp
  | _ => cases hr

end Outcome

/-- A look past trivia is looks one behind the other. They are the same action done so many times,
of which all but the last answer with trivia. -/
theorem exists_looks {c : Cursor} (h : c.place.StandsIn c.source) : ∃ looks last,
    c.drive (.replicate (looks.length + 1) (.use .look)) = looks ++ [last] ∧
      (∀ l ∈ looks, ∃ t, l.reply = .token (some t) ∧ t.kind.isTrivia = true) ∧
      (∀ t, last.reply = .token (some t) → t.kind.isTrivia = false) ∧
      .token c.lookSignificant.1 = last.reply ∧ c.lookSignificant.2 = last.after := by
  refine lookSignificant_induction (P := fun c r => ∃ looks last,
    c.drive (.replicate (looks.length + 1) (.use .look)) = looks ++ [last] ∧
      (∀ l ∈ looks, ∃ t, l.reply = .token (some t) ∧ t.kind.isTrivia = true) ∧
      (∀ t, last.reply = .token (some t) → t.kind.isTrivia = false) ∧
      Reply.token r.1 = last.reply ∧ r.2 = last.after) (fun c _ hl => ?_)
      (fun c t _ ht hk ih => ?_) h
  · refine ⟨[], c.deed (.use .look), rfl, List.forall_mem_nil _, fun t ht => ?_, rfl, rfl⟩
    have hlook : c.look.1 = some t := Reply.token.inj ht
    rw [hlook] at hl
    exact hl
  · obtain ⟨looks, last, hdrive, hlooks, hlast, hr, ha⟩ := ih
    refine ⟨c.deed (.use .look) :: looks, last, ?_, ?_, hlast, hr, ha⟩
    · rw [List.length_cons, List.replicate_succ, drive, List.cons_append]
      exact congrArg _ hdrive
    · exact List.forall_mem_cons.2 ⟨⟨t, congrArg _ ht, hk⟩, hlooks⟩

namespace Deed

variable {history : List Deed} {source : List Char} {c : Cursor} {a : Action}

/-- **Where the invariant holds a deed is safe.** Each part is one of the lemmas on outcomes. The
invariant itself is kept by every deed (`Sound.act`), so all deeds of a drive are. -/
theorem Sound.safe (h : Sound source history c) (ha : a.Within source) :
    Safe source history (c.deed a) := by
  have hafter := h.act ha
  obtain ⟨rfl, hplace, horigin, hprevious, hlooking, hlatest⟩ := h
  have ho := outcome a c
  refine ⟨⟨hplace.boundary, hafter.place.boundary⟩, ho.checked hplace, ho.refused_iff,
    fun m => ho.refused, fun t => ho.forward hplace, ho.none_iff hplace, ho.still hplace, ?_,
    hlooking, ?_, fun hr e he => ?_⟩
  · rintro rfl
    exact exists_looks hplace
  · rw [show (c.deed a).reply = (c.act a).1 from rfl, ho.undone_iff, ← Bool.not_eq_true, hlooking]
    refine and_congr_right fun _ => and_congr_right fun _ => ?_
    exact ⟨fun ⟨p, hp⟩ => ((hlatest p).1 hp).imp fun _ hd => hd.1,
      fun ⟨e, he⟩ => ⟨_, (hlatest _).2 ⟨e, he, rfl⟩⟩⟩
  · have hp := (hlatest _).2 ⟨e, he, rfl⟩
    rw [ho.place_undone hr] at hp
    exact Option.some.inj hp

/-- Whatever is done from there, all deeds are safe. The induction is on what is asked for, with
the history growing by one deed in each step. -/
theorem Sound.safe_drive (h : Sound source history c) {as : List Action}
    (has : ∀ a ∈ as, a.Within source) {front behind : List Deed} {d : Deed}
    (hd : c.drive as = front ++ d :: behind) : Safe source (history ++ front) d := by
  induction as generalizing c history front with
  | nil => exact absurd hd.symm (by simp [drive])
  | cons a as ih =>
    obtain ⟨ha, has⟩ := List.forall_mem_cons.1 has
    rw [drive] at hd
    cases front with
    | nil =>
      obtain ⟨rfl, -⟩ := List.cons.inj hd
      rw [List.append_nil]
      exact h.safe ha
    | cons e front =>
      obtain ⟨rfl, htail⟩ := List.cons.inj hd
      have hsafe := ih (h.act ha) has htail
      rwa [List.append_assoc] at hsafe

end Deed

/-- **Nothing that can be asked for does harm.** Every deed of every drive of a fresh cursor is
safe, with what was done before it as its history. -/
theorem drive_safe {source : String} (hsize : source.utf8ByteSize + 1 < wordBound)
    {as : List Action} (has : ∀ a ∈ as, a.Within source.toList) {front behind : List Deed}
    {d : Deed} (h : (ofSource source).drive as = front ++ d :: behind) :
    d.Safe source.toList front :=
  (Deed.sound_ofSource hsize).safe_drive has h

/-- A jump to a line that is none, and a limit inside the character that stands there. -/
theorem drive_safe_hostile :
    let jump := Action.seek ⟨0, 9, 2⟩
    let c := (ofSource "a é").act jump |>.2
    let d := (c.act (.limit (some 3))).2.deed (.use .take)
    ("a é" : String).utf8ByteSize + 1 < wordBound ∧ jump.Within ("a é" : String).toList ∧
    (ofSource "a é").drive [jump, .limit (some 3), .use .take] =
      [(ofSource "a é").deed jump, c.deed (.limit (some 3)), d] ∧
    d.Safe ("a é" : String).toList [(ofSource "a é").deed jump, c.deed (.limit (some 3))] := by
  intro jump c d
  have hsize : ("a é" : String).utf8ByteSize + 1 < wordBound := by decide
  have hwithin : jump.Within ("a é" : String).toList := by
    constructor <;> decide
  have hall : ∀ a ∈ [jump, .limit (some 3), .use .take], a.Within ("a é" : String).toList := by
    simp only [List.forall_mem_cons, List.not_mem_nil, false_imp_iff, implies_true, and_true]
    exact ⟨hwithin, trivial, trivial⟩
  have hdrive : (ofSource "a é").drive [jump, .limit (some 3), .use .take] =
    [(ofSource "a é").deed jump, c.deed (.limit (some 3))] ++ d :: [] := rfl
  exact ⟨hsize, hwithin, hdrive, drive_safe hsize hall hdrive⟩

end Cursor

end Heddle
