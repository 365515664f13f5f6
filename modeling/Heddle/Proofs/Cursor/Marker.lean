import Heddle.Proofs.Cursor.Facing
import Heddle.Proofs.Token.Exchange

/-!
# A cursor marks a token

A cursor knows no tokens. It keeps places, and cuts the next token anew out of the source whenever
it is asked, also behind a look ahead that was given back and behind a token that was taken back.
All the same **it cannot be told from a number that counts through the tokens of the source**, a
`Marker`: whatever is done with a fresh cursor and however often, it answers as the marker does
and shows the same place, the same pending look ahead and the same end (`Cursor.observe_ofSource`).

The relation that carries the proof is `Marks`: each of the three places that a cursor keeps is the
place in front of some token. Every use of the two keeps it (`Marks.perform`).
-/

set_option autoImplicit false

namespace Heddle

open Text

/-- A cursor as a number into a list of tokens. It keeps three numbers where a cursor keeps three
places. -/
structure Marker where
  index : Nat := 0
  /-- The token last taken, while it can still be taken back. -/
  previous : Option Nat := none
  /-- Where the pending look ahead began. -/
  origin : Option Nat := none

namespace Marker

variable (ts : List Token)

/-- Yields the marked token and marks the next. -/
def step (m : Marker) : Option Token × Marker :=
  match ts[m.index]? with
  | some t => (some t, { m with index := m.index + 1 })
  | none => (none, m)

/-- Takes the marked token, which is refused while a look ahead is pending. -/
def take (m : Marker) : Except Misuse (Option Token × Marker) :=
  if m.origin.isSome then .error .takeWhileLooking
  else
    match m.step ts with
    | (some t, after) => .ok (some t, { after with previous := some m.index })
    | (none, after) => .ok (none, after)

/-- Looks at the marked token. The first look notes where it began, and those that follow do not.
-/
def look (m : Marker) : Option Token × Marker :=
  step ts { m with origin := some (m.origin.getD m.index) }

theorem look_lt {m m' : Marker} {t : Token} (h : m.look ts = (some t, m')) :
    ts.length - m'.index < ts.length - m.index := by
  rw [look, step] at h
  split at h
  · next hi =>
    obtain ⟨-, rfl⟩ := Prod.mk.inj h
    have := (List.getElem?_eq_some_iff.1 hi).1
    simp only at this ⊢
    omega
  · exact absurd (congrArg Prod.fst h) nofun

/-- Looks until a token is no trivia. All of the trivia that was passed is given back with the
look. -/
def lookSignificant (m : Marker) : Option Token × Marker :=
  match _h : m.look ts with
  | (some t, after) => if t.kind.isTrivia then after.lookSignificant else (some t, after)
  | (none, after) => (none, after)
termination_by ts.length - m.index
decreasing_by exact look_lt ts _h

theorem lookSignificant_eq (m : Marker) : m.lookSignificant ts = match m.look ts with
    | (some t, after) => if t.kind.isTrivia then after.lookSignificant ts else (some t, after)
    | (none, after) => (none, after) := by
  conv => lhs; unfold lookSignificant
  split <;> rename_i hl <;> rw [hl]

/-- Gives back every look, at once. -/
def release (m : Marker) : Marker :=
  match m.origin with
  | some index => { m with index, origin := none }
  | none => m

/-- Takes back the token last taken, which is refused while a look ahead is pending. Only one
token can be taken back, and only once. -/
def undo (m : Marker) : Bool × Marker :=
  match m.origin, m.previous with
  | none, some index => (true, { m with index, previous := none })
  | _, _ => (false, m)

end Marker

/-! ## Uses, and what is seen of them -/

/-- What can be done with a cursor, or with a marker. -/
inductive Use where
  | take | look | lookSignificant | release | undo

/-- What is answered to a use. -/
inductive Reply where
  | token (t : Option Token)
  | refused (m : Misuse)
  | undone (done : Bool)
  | nothing

/-- What can be seen without a use. -/
structure Status where
  place : Position
  isLooking : Bool
  isAtEnd : Bool

/-- The reply to each of several uses, and the status behind it. -/
def observe {State : Type} (perform : Use → State → Reply × State) (status : State → Status) :
    List Use → State → List (Reply × Status)
  | [], _ => []
  | u :: us, s =>
    ((perform u s).1, status (perform u s).2) :: observe perform status us (perform u s).2

/-- One use of a cursor. A refused use changes nothing. -/
def Cursor.perform (u : Use) (c : Cursor) : Reply × Cursor :=
  match u with
  | .take =>
    match c.take with
    | .ok (t, after) => (.token t, after)
    | .error m => (.refused m, c)
  | .look => (.token c.look.1, c.look.2)
  | .lookSignificant => (.token c.lookSignificant.1, c.lookSignificant.2)
  | .release => (.nothing, c.release)
  | .undo => (.undone c.undo.1, c.undo.2)

def Cursor.status (c : Cursor) : Status :=
  ⟨c.place, c.isLooking, c.isAtEnd⟩

@[inherit_doc Cursor.perform]
def Marker.perform (ts : List Token) (u : Use) (m : Marker) : Reply × Marker :=
  match u with
  | .take =>
    match m.take ts with
    | .ok (t, after) => (.token t, after)
    | .error e => (.refused e, m)
  | .look => (.token (m.look ts).1, (m.look ts).2)
  | .lookSignificant => (.token (m.lookSignificant ts).1, (m.lookSignificant ts).2)
  | .release => (.nothing, m.release)
  | .undo => (.undone m.undo.1, m.undo.2)

/-- Where the token of a number begins; behind the last token, where that one ends. A marker keeps
no place, so its place is read off the list. -/
def Marker.placeAt (start : Position) (ts : List Token) (i : Nat) : Position :=
  match ts[i]? with
  | some t => t.position
  | none => (ts.getLast?.map Token.behind).getD start

def Marker.status (start : Position) (ts : List Token) (m : Marker) : Status :=
  ⟨placeAt start ts m.index, m.origin.isSome, ts.length ≤ m.index⟩

/-! ## Tokens that are read anew -/

namespace Token

/-- From the place behind some of its tokens a text has the tokens that are left. A cursor reads
anew from there, and this is why it comes upon the same tokens. -/
theorem readAll_drop (p : Position) (cs : List Char) (i : Nat) :
    readAll (p.past (spell ((readAll p cs).take i))) (spell ((readAll p cs).drop i)) =
      (readAll p cs).drop i := by
  induction i generalizing p cs with
  | zero => rw [List.take_zero, List.drop_zero, spell_nil, Position.past_nil, spell_readAll]
  | succ i ih =>
    cases hr : readAll p cs with
    | nil => rw [List.take_nil, List.drop_nil, spell_nil, readAll_nil]
    | cons t ts =>
      obtain ⟨hp, -, rest, -, rfl⟩ := readAll_eq_cons hr
      rw [List.take_succ_cons, List.drop_succ_cons, spell_cons, Position.past_append, ← hp]
      exact ih t.behind rest

/-- Behind all tokens of a text is behind the last of them. -/
theorem past_spell_readAll (p : Position) (cs : List Char) :
    p.past (spell (readAll p cs)) = ((readAll p cs).getLast?.map behind).getD p := by
  induction hr : readAll p cs generalizing p cs with
  | nil => rfl
  | cons t ts ih =>
    obtain ⟨rfl, -, rest, -, rfl⟩ := readAll_eq_cons hr
    rw [spell_cons, Position.past_append]
    change t.behind.past _ = _
    rw [ih t.behind rest rfl]
    cases hl : (readAll t.behind rest).getLast? with
    | none => rw [List.getLast?_eq_none_iff.1 hl]; rfl
    | some u => rw [List.getLast?_cons, hl]; rfl

end Token

/-! ## The relation -/

namespace Marker

variable (source : String)

/-- The place behind the tokens in front of a number. It is the same as `placeAt`, said by what
has been passed and not by what comes next. -/
def reached (i : Nat) : Position :=
  (openSource source).1.past (Token.spell ((tokenize source).take i))

theorem reached_succ {i : Nat} {t : Token} (h : (tokenize source)[i]? = some t) :
    reached source (i + 1) = t.behind ∧ t.position = reached source i := by
  obtain ⟨hi, hget⟩ := List.getElem?_eq_some_iff.1 h
  have hdrop := Token.readAll_drop (openSource source).1 (openSource source).2 i
  change Token.readAll (reached source i) _ = (tokenize source).drop i at hdrop
  rw [List.drop_eq_getElem_cons hi, hget] at hdrop
  have hp := (Token.readAll_eq_cons hdrop).1
  refine ⟨?_, hp⟩
  rw [reached, List.take_add_one, h, Token.spell_append, Position.past_append, Token.behind, hp]
  simp [reached]

theorem placeAt_eq_reached (i : Nat) :
    placeAt (openSource source).1 (tokenize source) i = reached source i := by
  rw [placeAt]
  cases hi : (tokenize source)[i]? with
  | some t => exact (reached_succ source hi).2
  | none =>
    have hle := List.getElem?_eq_none_iff.1 hi
    rw [reached, List.take_of_length_le hle]
    exact (Token.past_spell_readAll _ _).symm

end Marker

/-- Each place that the cursor keeps is the place in front of a token, and the marker keeps the
number of the token. The last two are the places that the cursor may return to, so they have to be
known as well as the one where it is. -/
structure Marks (source : String) (m : Marker) (c : Cursor) : Prop where
  text : c.source = source.toList
  limit : c.limit = none
  preferHex : c.preferHex = false
  place : c.place = Marker.reached source m.index
  previous : c.previous = m.previous.map (Marker.reached source)
  origin : c.origin = m.origin.map (Marker.reached source)

namespace Marks

variable {source : String} {m : Marker} {c : Cursor}

/-- The cursor faces the tokens from the marked one on. Everything that a cursor does is known
from what it faces, and this is the only use that is made of the places. -/
theorem faces (h : Marks source m c) :
    c.Faces (byteOrderMark source ++ Token.spell ((tokenize source).take m.index))
      (Token.spell ((tokenize source).drop m.index)) := by
  obtain ⟨hsource, hstart⟩ := openSource_byteOrderMark source
  refine .of_place ?_ h.limit ?_
  · rw [h.text, hsource, List.append_assoc, ← Token.spell_append, List.take_append_drop]
    exact congrArg _ (Token.spell_readAll _ _).symm
  · rw [h.place, Marker.reached, Position.byte_past, hstart, byteSize_append]

theorem isLooking (h : Marks source m c) : c.isLooking = m.origin.isSome := by
  rw [Cursor.isLooking, h.origin, Option.isSome_map]

/-- What the cursor reads from here are the tokens from the marked one on. -/
theorem readAll_drop (h : Marks source m c) :
    Token.readAll c.place (Token.spell ((tokenize source).drop m.index)) =
      (tokenize source).drop m.index := by
  rw [h.place]
  exact Token.readAll_drop (openSource source).1 (openSource source).2 m.index

theorem status (h : Marks source m c) :
    c.status = m.status (openSource source).1 (tokenize source) := by
  rw [Cursor.status, Marker.status, Marker.placeAt_eq_reached, h.place, h.isLooking,
    h.faces.isAtEnd]
  congr 1
  have hr := h.readAll_drop
  cases hd : (tokenize source).drop m.index with
  | nil => simpa using hd
  | cons t ts =>
    have hlt : ¬ (tokenize source).length ≤ m.index := by
      intro hle
      rw [List.drop_of_length_le hle] at hd
      cases hd
    cases hs : Token.spell (t :: ts) with
    | nil => rw [hd, hs, Token.readAll_nil] at hr; cases hr
    | cons x xs => simpa using hlt

/-- A step yields the marked token, and the next is marked. Behind the last token nothing is
yielded and nothing moves. -/
theorem step (h : Marks source m c) : c.step.1 = (m.step (tokenize source)).1 ∧
    Marks source (m.step (tokenize source)).2 c.step.2 := by
  rw [Marker.step]
  cases hi : (tokenize source)[m.index]? with
  | none =>
    have hd := List.drop_of_length_le (List.getElem?_eq_none_iff.1 hi)
    have hf := h.faces
    rw [hd, Token.spell_nil] at hf
    rw [hf.step_nil]
    exact ⟨rfl, h⟩
  | some t =>
    obtain ⟨hlt, hget⟩ := List.getElem?_eq_some_iff.1 hi
    have hr := h.readAll_drop
    rw [List.drop_eq_getElem_cons hlt, hget] at hr
    obtain ⟨rest, hread, -⟩ := Token.exists_read? hr
    rw [← hget, ← List.drop_eq_getElem_cons hlt, hget, ← h.preferHex] at hread
    rw [h.faces.step_cons hread]
    exact ⟨rfl, { h with place := (Marker.reached_succ source hi).1.symm }⟩

theorem take (h : Marks source m c) (ho : m.origin = none) :
    ∃ after, c.take = .ok ((m.step (tokenize source)).1, after) ∧
      ∃ after', m.take (tokenize source) = .ok ((m.step (tokenize source)).1, after') ∧
        Marks source after' after := by
  obtain ⟨heq, hm⟩ := h.step
  have hl : ¬c.isLooking = true := by rw [h.isLooking, ho]; exact nofun
  have hl' : ¬m.origin.isSome = true := by rw [ho]; exact nofun
  rw [Cursor.take, if_neg hl, Marker.take, if_neg hl']
  rcases hc : c.step with ⟨x, d⟩
  rcases hn : m.step (tokenize source) with ⟨y, n⟩
  rw [hc, hn] at heq hm
  obtain rfl : x = y := heq
  cases x with
  | none => exact ⟨_, rfl, _, rfl, hm⟩
  | some t =>
    exact ⟨_, rfl, _, rfl, { hm with previous := congrArg some h.place }⟩

/-- A look ahead begins where it is not pending. -/
theorem beginLook (h : Marks source m c) :
    Marks source { m with origin := some (m.origin.getD m.index) } c.beginLook := by
  refine { h with origin := ?_ }
  rw [Cursor.beginLook, h.origin, h.place]
  cases m.origin <;> rfl

theorem look (h : Marks source m c) : c.look.1 = (m.look (tokenize source)).1 ∧
    Marks source (m.look (tokenize source)).2 c.look.2 :=
  h.beginLook.step

end Marks

theorem Cursor.significant_nil (hex : Bool) (p : Position) : significant hex p [] = (none, p) := by
  unfold significant
  rfl

/-- Trivia is passed, and any other token is found. It is the equation of `significant` in front
of a token, for either way of reading. -/
theorem Cursor.significant_of_read? {hex : Bool} {p : Position} {cs rest : List Char} {t : Token}
    (h : Token.read? hex p cs = some (t, rest)) :
    significant hex p cs =
      if t.kind.isTrivia then significant hex t.behind rest else (some t, t.behind) := by
  cases cs with
  | nil => cases h
  | cons c cs =>
    rw [Token.read?] at h
    obtain ⟨rfl, rfl⟩ := Prod.mk.inj (Option.some.inj h)
    rw [Token.behind, Lexeme.chars_token]
    conv => lhs; unfold significant
    rfl

/-- A cursor that looks past trivia looks at one token after the other. It does so in one scan
over the text, and the marker in a loop; with this equation the first is a loop too. -/
theorem Cursor.Faces.lookSignificant {c : Cursor} {passed ahead : List Char}
    (h : c.Faces passed ahead) : c.lookSignificant = match c.look with
      | (some t, after) => if t.kind.isTrivia then after.lookSignificant else (some t, after)
      | (none, after) => (none, after) := by
  have hb : c.beginLook.Faces passed ahead := h.keep rfl rfl rfl
  rw [Cursor.lookSignificant, h.readable, Cursor.look]
  by_cases hn : ahead = []
  · subst hn
    rw [hb.step_nil, significant_nil]
    rfl
  · obtain ⟨t, rest, hr⟩ := Token.exists_read?_of_ne_nil c.preferHex c.place hn
    rw [hb.step_cons hr, significant_of_read? hr]
    simp only []
    split
    · have ha := hb.behind hr (d := { c.beginLook with place := t.behind }) rfl rfl rfl
      rw [Cursor.lookSignificant, ha.readable]
      rfl
    · rfl

namespace Marks

variable {source : String} {m : Marker} {c : Cursor}

theorem lookSignificant (h : Marks source m c) :
    c.lookSignificant.1 = (m.lookSignificant (tokenize source)).1 ∧
      Marks source (m.lookSignificant (tokenize source)).2 c.lookSignificant.2 := by
  induction hn : (tokenize source).length - m.index using Nat.strongRecOn generalizing m c with
  | ind n ih =>
    obtain ⟨heq, hm⟩ := h.look
    rw [h.faces.lookSignificant, Marker.lookSignificant_eq]
    rcases hc : c.look with ⟨x, d⟩
    rcases hl : m.look (tokenize source) with ⟨y, m'⟩
    rw [hc, hl] at heq hm
    obtain rfl : x = y := heq
    cases x with
    | none => exact ⟨rfl, hm⟩
    | some t =>
      simp only []
      split
      · exact ih _ (hn ▸ Marker.look_lt _ hl) hm rfl
      · exact ⟨rfl, hm⟩

theorem release (h : Marks source m c) : Marks source m.release c.release := by
  obtain ⟨text, place, previous, origin, limit, hex⟩ := c
  obtain ⟨i, pi, oi⟩ := m
  obtain ⟨rfl, rfl, rfl, rfl, rfl, rfl⟩ := h
  cases oi with
  | none => exact ⟨rfl, rfl, rfl, rfl, rfl, rfl⟩
  | some j => exact ⟨rfl, rfl, rfl, rfl, rfl, rfl⟩

theorem undo (h : Marks source m c) : c.undo.1 = m.undo.1 ∧ Marks source m.undo.2 c.undo.2 := by
  obtain ⟨text, place, previous, origin, limit, hex⟩ := c
  obtain ⟨i, pi, oi⟩ := m
  obtain ⟨rfl, rfl, rfl, rfl, rfl, rfl⟩ := h
  cases oi with
  | some j => exact ⟨rfl, rfl, rfl, rfl, rfl, rfl, rfl⟩
  | none =>
    cases pi with
    | none => exact ⟨rfl, rfl, rfl, rfl, rfl, rfl, rfl⟩
    | some j => exact ⟨rfl, rfl, rfl, rfl, rfl, rfl, rfl⟩

/-- **One use**: the replies are the same, and the two go on side by side. Each use is one of the
lemmas above; a use that is refused is refused to both. -/
theorem perform (h : Marks source m c) (u : Use) :
    (c.perform u).1 = (m.perform (tokenize source) u).1 ∧
      Marks source (m.perform (tokenize source) u).2 (c.perform u).2 := by
  cases u with
  | take =>
    cases ho : m.origin with
    | none =>
      obtain ⟨after, hc, after', hm, hr⟩ := h.take ho
      rw [Cursor.perform, Marker.perform, hc, hm]
      exact ⟨rfl, hr⟩
    | some i =>
      have hl : c.isLooking = true := by rw [h.isLooking, ho]; rfl
      have hl' : m.origin.isSome = true := by rw [ho]; rfl
      rw [Cursor.perform, Marker.perform, Cursor.take, if_pos hl, Marker.take, if_pos hl']
      exact ⟨rfl, h⟩
  | look => exact ⟨congrArg _ h.look.1, h.look.2⟩
  | lookSignificant => exact ⟨congrArg _ h.lookSignificant.1, h.lookSignificant.2⟩
  | release => exact ⟨rfl, h.release⟩
  | undo => exact ⟨congrArg _ h.undo.1, h.undo.2⟩

/-- What is seen of the two is the same, use after use. -/
theorem observe (h : Marks source m c) (us : List Use) :
    observe Cursor.perform Cursor.status us c =
      observe (Marker.perform (tokenize source))
        (Marker.status (openSource source).1 (tokenize source)) us m := by
  induction us generalizing m c with
  | nil => rfl
  | cons u us ih =>
    obtain ⟨hreply, hm⟩ := h.perform u
    rw [Heddle.observe, Heddle.observe, hreply, hm.status, ih hm]

/-- A fresh cursor marks the first token. -/
theorem ofSource (source : String) : Marks source {} (.ofSource source) where
  text := rfl
  limit := rfl
  preferHex := rfl
  place := rfl
  previous := rfl
  origin := rfl

end Marks

/-- **A cursor refines a list of tokens.** A fresh cursor looks like a fresh marker, and after
every sequence of uses each reply and each status has been the same. -/
theorem Cursor.observe_ofSource (source : String) (us : List Use) :
    (ofSource source).status = ({} : Marker).status (openSource source).1 (tokenize source) ∧
      observe perform status us (ofSource source) =
        observe (Marker.perform (tokenize source))
          (Marker.status (openSource source).1 (tokenize source)) us {} :=
  ⟨(Marks.ofSource source).status, (Marks.ofSource source).observe us⟩

end Heddle
